import SpiceDeck.Options
import SpiceDeck.Param.Expression
import SpiceDeck.Param.Value

/-!
Reading assignment lists. Every value comes out as a number, in quotes or in
braces: a bare expression is collected over blanks and gets its braces when it is
written. What a line leaves open is handed to the next line as its carry.
-/

namespace SpiceDeck
namespace Param
open Text

inductive Placement where
  | topLevel
  /-- A `parameters` statement in a subcircuit, which declares header defaults. -/
  | subcircuitLocal
  | deviceCall
  | modelBody
  deriving DecidableEq, Repr

/-- A value, what it leaves open, and the text after it. -/
structure Reading where
  value : Value
  carry : Carry
  rest : Text

/-- A bare value. It goes on if it has no text yet, an open parenthesis, or an
operator at its end. -/
def bareValue (fromPrevious : Bool) (text : Text) (depth : Nat) : Value × Carry :=
  let continues := text.isEmpty || 0 < depth || endsInOperator text
  ({ text, form := .bare, fromPrevious, onNext := continues },
    if continues then .bare depth else .closed)

def switchNumber? (o : Options) (name text : Text) : Option Text :=
  if o.isYesNoSwitch name then
    if sameName text "yes".toList then some ['1']
    else if sameName text "no".toList then some ['0']
    else none
  else none

def freshValue (o : Options) (name text : Text) (depth : Nat) : Value × Carry :=
  let text := spellRound text
  match switchNumber? o name text with
  | some n => (.numeric n, .closed)
  | none =>
      if isNumeric text then (.numeric text, .closed)
      else match multiple? o.multiplicityVar text with
        | some n => (.numeric n, .closed)
        | none => bareValue false text depth

def readFresh (o : Options) (name text : Text) (depth : Nat) (t : Text) : Reading :=
  let read := readExpression text depth t
  let (value, carry) := freshValue o name read.text read.depth
  { value, carry, rest := read.rest }

/-- A value in braces, given with its braces. -/
def bracedValue (o : Options) (braced : Text) : Value :=
  match multiple? o.multiplicityVar (trim braced.tail.dropLast) with
  | some n => .numeric n
  | none => .delimited (spellRound braced) false false

def readQuoted (mark : Char) (t : Text) : Reading :=
  match splitAfter? mark t with
  | some (inside, rest) => ⟨.delimited (mark :: inside) false false, .closed, rest⟩
  | none => ⟨.delimited (mark :: t) false true, .quote mark, []⟩

def readValue (o : Options) (name t : Text) : Reading :=
  match t with
  | [] =>
      let (value, carry) := freshValue o name [] 0
      { value, carry, rest := [] }
  | c :: r =>
      if c = '{' then
        match splitBraced 0 t with
        | .ok (braced, after) =>
            if startsWithOperator after then
              -- the braces enclose an operand only, so the expression is bare
              let text := '(' :: braced.tail.dropLast ++ [')']
              readFresh o name text (parensOpen 0 text) after
            else ⟨bracedValue o braced, .closed, after⟩
        | .error depth => ⟨.delimited (spellRound t) false true, .brace depth, []⟩
      else if c = '"' || c = '\x27' then readQuoted c r
      else readFresh o name [] 0 t

/-- Read on in a value that an earlier line left open. -/
def resumeValue (carry : Carry) (t : Text) : Reading :=
  match carry with
  | .closed => ⟨.delimited [] false false, .closed, t⟩
  | .brace depth =>
      match splitBraced depth t with
      | .ok (inside, rest) => ⟨.delimited inside true false, .closed, rest⟩
      | .error depth => ⟨.delimited t true true, .brace depth, []⟩
  | .quote mark =>
      match splitAfter? mark t with
      | some (inside, rest) => ⟨.delimited inside true false, .closed, rest⟩
      | none => ⟨.delimited t true true, .quote mark, []⟩
  | .bare depth =>
      if t.isEmpty || startsWith t ['$'] || startsAssignment t then
        -- nothing here belongs to the expression
        ⟨{ text := [], form := .bare, fromPrevious := true }, .closed, t⟩
      else
        let read := readExpression [] depth t
        let (value, carry) := bareValue true (spellRound read.text) read.depth
        { value, carry, rest := read.rest }

/-- Text that is no assignment, as a comment. -/
def leftover (t : Text) : Text :=
  let t := trim t
  if startsWith t ['$'] then t else "$ ".toList ++ t

/-- The pieces of an assignment list, the names without a value, what is open. -/
structure Listing where
  pieces : List Piece := []
  empties : List Text := []
  carry : Carry := .closed

namespace Listing

def cons (p : Piece) (l : Listing) : Listing := { l with pieces := p :: l.pieces }

def withEmpty (name : Text) (l : Listing) : Listing := { l with empties := name :: l.empties }

/-- All pieces. Names without a value end up in a comment, unless a value is open
at the end of the line. -/
def allPieces (l : Listing) : List Piece :=
  if l.empties.isEmpty || l.carry.isOpen then l.pieces
  else l.pieces ++ [.comment ("$ ".toList ++ spaced (l.empties.map (· ++ ['='])))]

end Listing

theorem length_readFresh_le (o : Options) (name text : Text) (depth : Nat) (t : Text) :
    (readFresh o name text depth t).rest.length ≤ t.length :=
  length_readExpression_le text depth t

theorem length_readValue_le (o : Options) (name t : Text) :
    (readValue o name t).rest.length ≤ t.length := by
  cases t with
  | nil => exact Nat.le_refl _
  | cons c r =>
      simp only [readValue]
      split
      · split
        · rename_i braced after h
          have h1 := length_splitBraced_lt h
          split
          · have h2 := length_readFresh_le o name ('(' :: braced.tail.dropLast ++ [')'])
              (parensOpen 0 ('(' :: braced.tail.dropLast ++ [')'])) after
            omega
          · exact Nat.le_of_lt h1
        · exact Nat.zero_le _
      · split
        · simp only [readQuoted]
          split
          · rename_i h
            exact Nat.le_succ_of_le (Nat.le_of_lt (length_splitAfter?_lt h))
          · exact Nat.zero_le _
        · exact length_readFresh_le o name [] 0 (c :: r)

/-- Read assignments up to the end of the text or an open value. While `passing`,
a name without equals sign is declared with the value one; text of any other form
ends the list as a comment. -/
def readList (o : Options) (passing : Bool) (t : Text) : Listing :=
  match _h : trimStart t with
  | [] => {}
  | c :: r =>
      match _ha : assignment? (c :: r) with
      | some (name, after) =>
          if startsWith after ['$'] || startsAssignment after then
            (readList o false after).withEmpty name
          else
            let read := readValue o name after
            if read.carry.isOpen then
              { pieces := [.assign name read.value], carry := read.carry }
            else (readList o false read.rest).cons (.assign name read.value)
      | none =>
          let word := token (c :: r)
          if passing && isName word then
            (readList o passing (afterToken (c :: r))).cons (.assign word (.numeric ['1']))
          else { pieces := [.comment (leftover (c :: r))] }
termination_by t.length
decreasing_by
  all_goals
    have h1 := length_trimStart_le t
    rw [_h] at h1
  · have := length_assignment?_lt _ha
    omega
  · have h2 := length_assignment?_lt _ha
    have h3 := length_readValue_le o name after
    omega
  · have := length_afterToken_lt _h
    omega

def readAssignments (o : Options) (t : Text) (place : Placement) (carry : Carry) : ParamLine :=
  let t := trim t
  let passing : Bool := place = .subcircuitLocal
  if carry.isOpen then
    let read := resumeValue carry t
    if read.carry.isOpen then { pieces := [.fragment read.value], carry := read.carry }
    else
      let list := (readList o passing read.rest).cons (.fragment read.value)
      { pieces := list.allPieces, carry := list.carry }
  else
    let list := readList o passing t
    { pieces := list.allPieces, carry := list.carry }

/-- A continuation line, with or without its `+`. -/
def readContinuation (o : Options) (t : Text) (place : Placement) (carry : Carry) : ParamLine :=
  let t := trim t
  let t := match t with
    | '+' :: r => r
    | _ => t
  (readAssignments o t place carry).withMarker .plus

/-- What follows a `.param` marker. -/
def afterDotMarker? (t : Text) : Option Text :=
  match afterFolded? ".param".toList t with
  | none => none
  | some r => if r.isEmpty then some r else afterSpaces? r

/-- What follows `parameters`, `params:` or `param:`. -/
def afterWordMarker? (t : Text) : Option Text :=
  let word := match after? "parameters".toList t with
    | some r => if atWordEnd r then some r else none
    | none => (after? "params:".toList t).or (after? "param:".toList t)
  word.map trimStart

/-- A parameter statement, if the text has a marker in front. A dotted statement is
read at top level wherever it stands. -/
def readStatement? (o : Options) (t : Text) (place : Placement) (carry : Carry) :
    Option ParamLine :=
  let t := trim t
  match afterDotMarker? t with
  | some r => some ((readAssignments o r .topLevel carry).withMarker .param)
  | none =>
      match afterWordMarker? t with
      | some r =>
          let marker := if place = .subcircuitLocal then Marker.plus else .param
          some ((readAssignments o r place carry).withMarker marker)
      | none => none

end Param
end SpiceDeck
