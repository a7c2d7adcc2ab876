import SpiceDeck.Deck.Rename

/-!
The multiplicity under a root. Inside a subcircuit, `sqrt` of the informal
multiplicity variable becomes `sqrt(mult)`, and the header of the subcircuit then
declares `mult` unless it does so already.
-/

namespace SpiceDeck
namespace Deck
open Text

def rootOf (var : Text) : Pattern := fun t =>
  match after? "sqrt(".toList t with
  | none => none
  | some r =>
      let r := trimStart r
      let name := r.takeWhile isWord
      match trimStart (r.dropWhile isWord) with
      | ')' :: rest => if isName name && name = var then some ("sqrt(mult)".toList, rest) else none
      | _ => none

def declaresMult (line : Text) : Bool :=
  occurs (fun t => (afterSetting? "mult".toList t).map fun r => ([], r)) false line

def startsWithCommand (command line : Text) : Bool :=
  match afterFolded? command (trimStart line) with
  | some r => atWordEnd r
  | none => false

def opensSubcircuit (line : Text) : Bool := startsWithCommand ".subckt".toList line

def closesSubcircuit (line : Text) : Bool := startsWithCommand ".ends".toList line

/-- A subcircuit from its opening line on. -/
structure Block where
  /-- The opening line and the continuations that follow it directly. -/
  header : List Text
  rest : List Text := []
  inHeader : Bool := true
  found : Bool := false

namespace Block

def lines (b : Block) : List Text := b.header ++ b.rest

def declaration (b : Block) : List Text :=
  if b.found && !b.header.any declaresMult then ["+ mult=1".toList] else []

def closed (b : Block) : List Text := b.header ++ b.declaration ++ b.rest

/-- Add a line that neither opens nor closes a subcircuit. -/
def push (var : Text) (b : Block) (line : Text) : Block :=
  let inHeader := b.inHeader && (trimStart line).head? = some '+'
  let found := b.found || (!isPassive line && occurs (rootOf var) false line)
  let line := if isPassive line then line else replaceAll (rootOf var) line
  if inHeader then { b with header := b.header ++ [line], found }
  else { b with rest := b.rest ++ [line], inHeader := false, found }

end Block

/-- One pass over the lines with the open subcircuit, if there is one. One that is
never closed, or in which another one opens, gets no declaration. -/
def scaleFrom (var : Text) (block : Option Block) : List Text → List Text
  | [] => (block.map Block.lines).getD []
  | line :: r =>
      if opensSubcircuit line then
        (block.map Block.lines).getD [] ++ scaleFrom var (some { header := [line] }) r
      else match block with
        | none => line :: scaleFrom var none r
        | some b =>
            if closesSubcircuit line then b.closed ++ line :: scaleFrom var none r
            else scaleFrom var (some (b.push var line)) r

def scaleRoots (var : Text) (lines : List Text) : List Text := scaleFrom var none lines

/-- The final form of the lines of a deck. -/
def normalize (var : Text) (lines : List Text) : List Text :=
  rename 'r' coefficient (scaleRoots var (rename 'd' perimeter lines))

end Deck
end SpiceDeck
