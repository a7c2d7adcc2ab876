import SpiceDeck.Param.Assignment
import SpiceDeck.Text.Replace

/-!
The text of single values: numeric literals, products with the multiplicity
variable, calls of `round`, and how far a bare or braced expression reaches.
-/

namespace SpiceDeck
namespace Param
open Text

/-- What follows the digits of a number: `12`, `12.`, `12.5` or `.5`. -/
def afterMantissa? (t : Text) : Option Text :=
  if t.head?.any isDigit then
    match t.dropWhile isDigit with
    | '.' :: r => some (r.dropWhile isDigit)
    | r => some r
  else match t with
    | '.' :: r => if r.head?.any isDigit then some (r.dropWhile isDigit) else none
    | _ => none

/-- What follows an exponent such as `e-12`. -/
def afterExponent? : Text → Option Text
  | c :: r =>
      if c == 'e' || c == 'E' then
        let digits := match r with
          | '+' :: r | '-' :: r => r
          | _ => r
        if digits.head?.any isDigit then some (digits.dropWhile isDigit) else none
      else none
  | [] => none

/-- A sign, digits, an exponent and a unit of ASCII letters, of which only the
digits are required. -/
def isNumeric (t : Text) : Bool :=
  let unsigned := match t with
    | '+' :: r | '-' :: r => r
    | _ => t
  match afterMantissa? unsigned with
  | none => false
  | some r => r.all Char.isAlpha || (afterExponent? r).any (·.all Char.isAlpha)

def isFactor (t : Text) : Bool := (t.length = 1 || t.length = 2) && t.all isDigit

/-- The operands around the first asterisk, without the blanks between. -/
def factors? (t : Text) : Option (Text × Text) :=
  match t.dropWhile (· != '*') with
  | _ :: r => some (trimEnd (t.takeWhile (· != '*')), trimStart r)
  | [] => none

/-- In a product of an integer and the variable, either way round, the integer. -/
def multiple? (var t : Text) : Option Text :=
  match factors? t with
  | none => none
  | some (a, b) =>
      if isFactor a && isName b && b = var then some a
      else if isName a && isFactor b && a = var then some b
      else none

/-- A call of `round` at the front of the text, spelled as a call of `floor`. -/
def roundCall : Pattern := fun t =>
  match after? "round".toList t with
  | none => none
  | some r =>
      match trimStart r with
      | '(' :: r => some ("floor(0.5+".toList, r)
      | _ => none

def spellRound (t : Text) : Text := replaceAll roundCall t

/-- Operators after which an expression waits for an operand. -/
def isTrailingOperator (c : Char) : Bool := "+-*/^(,<>=!&|?:%~".toList.contains c

/-- Operators that take up an expression begun before them. -/
def isLeadingOperator (c : Char) : Bool := "+-*/^),<>=!&|?:%".toList.contains c

def endsInOperator (t : Text) : Bool := t.getLast?.any isTrailingOperator

def startsWithOperator (t : Text) : Bool := t.head?.any isLeadingOperator

/-- Open parentheses after the text, starting from `depth`; a closing one too many
is passed over. -/
def parensOpen (depth : Nat) : Text → Nat
  | [] => depth
  | c :: r =>
      parensOpen (if c = '(' then depth + 1 else if c = ')' then depth - 1 else depth) r

/-- Extend an expression over blanks, as long as it ends in an operator or the next
token starts with one. Assignments and `$` comments end it. -/
def extendExpression (text rest : Text) : Text × Text :=
  match _h : trimStart rest with
  | [] => (text, rest)
  | c :: r =>
      if c = '$' || startsAssignment (c :: r) then (text, rest)
      else if endsInOperator text || isLeadingOperator c then
        extendExpression (text ++ token (c :: r)) (afterToken (c :: r))
      else (text, rest)
termination_by rest.length
decreasing_by
  have h1 := length_afterToken_lt _h
  have h2 := length_trimStart_le rest
  rw [_h] at h2
  omega

structure ExpressionReading where
  text : Text
  depth : Nat
  rest : Text

/-- Read a bare expression that begins with the given text. Its first token is
always taken. -/
def readExpression (text : Text) (depth : Nat) (t : Text) : ExpressionReading :=
  let (text, rest) := extendExpression (text ++ token t) (afterToken t)
  { text, depth := parensOpen depth text, rest }

/-- The text up to the brace that closes the last open one and the text after it,
or else how many braces are open at the end. -/
def splitBraced (depth : Nat) : Text → Except Nat (Text × Text)
  | [] => .error depth
  | c :: r =>
      if c = '}' && depth ≤ 1 then .ok ([c], r)
      else
        let depth := if c = '{' then depth + 1 else if c = '}' then depth - 1 else depth
        (splitBraced depth r).map fun (inside, rest) => (c :: inside, rest)

def splitAfter? (mark : Char) : Text → Option (Text × Text)
  | [] => none
  | c :: r =>
      if c = mark then some ([c], r)
      else (splitAfter? mark r).map fun (inside, rest) => (c :: inside, rest)

theorem length_extendExpression_le (text rest : Text) :
    (extendExpression text rest).2.length ≤ rest.length := by
  fun_induction extendExpression text rest with
  | case1 | case2 | case4 => exact Nat.le_refl _
  | case3 text rest c r h _ _ ih =>
      have h1 := length_afterToken_lt h
      have h2 := length_trimStart_le rest
      rw [h] at h2
      omega

theorem length_readExpression_le (text : Text) (depth : Nat) (t : Text) :
    (readExpression text depth t).rest.length ≤ t.length :=
  Nat.le_trans (length_extendExpression_le _ _) (length_afterToken_le t)

theorem length_splitBraced_lt {depth : Nat} {t inside rest : Text}
    (h : splitBraced depth t = .ok (inside, rest)) : rest.length < t.length := by
  induction t generalizing depth inside with
  | nil => cases h
  | cons c r ih =>
      simp only [splitBraced] at h
      split at h
      · cases h
        exact Nat.lt_succ_self _
      · generalize (if c = '{' then depth + 1 else if c = '}' then depth - 1 else depth) = d at h
        cases hs : splitBraced d r with
        | error e => rw [hs] at h; cases h
        | ok p =>
            rw [hs] at h
            cases h
            exact Nat.lt_succ_of_lt (ih hs)

theorem length_splitAfter?_lt {mark : Char} {t inside rest : Text}
    (h : splitAfter? mark t = some (inside, rest)) : rest.length < t.length := by
  induction t generalizing inside with
  | nil => cases h
  | cons c r ih =>
      simp only [splitAfter?] at h
      split at h
      · cases h
        exact Nat.lt_succ_self _
      · obtain ⟨⟨a, b⟩, hab, heq⟩ := Option.map_eq_some_iff.mp h
        cases heq
        exact Nat.lt_succ_of_lt (ih hab)

end Param
end SpiceDeck
