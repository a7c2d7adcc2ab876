import SpiceDeck.Toml.Reader

/-!
Integers and floats. Both are read exactly and refused where they leave the range of
64 bits or of double precision.
-/

namespace SpiceDeck
namespace Toml
open Text

/-- Digits with single underscores between them. -/
def digitRun (isDigit : Char → Bool) : Text → Text × Text
  | [] => ([], [])
  | c :: r =>
      if isDigit c then
        let (digits, rest) := digitRun isDigit r
        (c :: digits, rest)
      else if c == '_' && r.head?.any isDigit then digitRun isDigit r
      else ([], c :: r)

def digits? (isDigit : Char → Bool) : Reader Text := fun t =>
  if t.head?.any isDigit then some (digitRun isDigit t) else none

/-- Decimal digits without a leading zero. -/
def decimal? : Reader Text
  | '0' :: r => some (['0'], r)
  | t => digits? Char.isDigit t

def afterSign : Text → Text
  | '+' :: r | '-' :: r => r
  | t => t

def exponent? : Reader Int
  | c :: r =>
      if c == 'e' || c == 'E' then
        (digits? Char.isDigit (afterSign r)).map fun (digits, rest) =>
          (if startsWith r ['-'] then -ofDigits 10 digits else ofDigits 10 digits, rest)
      else none
  | [] => none

/-- The digits of a fraction and an exponent, one of which makes a number a float. -/
def fraction? : Reader (Text × Int)
  | '.' :: r =>
      (digits? Char.isDigit r).map fun (digits, rest) =>
        match exponent? rest with
        | some (e, rest) => ((digits, e), rest)
        | none => ((digits, 0), rest)
  | t => (exponent? t).map fun (e, rest) => (([], e), rest)

/-- A float without its sign: its digits, and the power of ten that the last one
counts. -/
def scientific? : Reader (Text × Int) := fun t =>
  (decimal? t).bind fun (whole, r) =>
    (fraction? r).map fun ((digits, e), rest) => ((whole ++ digits, e - digits.length), rest)

/-- The least magnitude that has no finite neighbour in double precision: half a unit
above the largest of those numbers, `2^1024 - 2^970`. -/
def floatLimit : Nat := ((1 <<< 54) - 1) <<< 970

/-- How many digits the limit has before the point. -/
def floatLimitWidth : Int := 309

/-- Whether digits at a power of ten reach the limit. The number of their places
decides, unless it is that of the limit. -/
def overflows (digits : Text) (scale : Int) : Bool :=
  let digits := digits.dropWhile (· == '0')
  let width := digits.length + scale
  if digits.isEmpty || width < floatLimitWidth then false
  else if floatLimitWidth < width then true
  else floatLimit * Nat.pow 10 (-scale).toNat ≤ ofDigits 10 digits * Nat.pow 10 scale.toNat

/-- What follows a float. One that is too large is refused; a negative one has no such
bound. -/
def afterFloat? (t : Text) : Option Text :=
  match scientific? (afterSign t) with
  | some ((digits, scale), rest) =>
      if !startsWith t ['-'] && overflows digits scale then none else some rest
  | none => (after? "inf".toList (afterSign t)).or (after? "nan".toList (afterSign t))

/-- Integers reach from the negated bound up to, but not including, the bound:
they fit in 64 bits. -/
def integerLimit : Nat := 0x8000000000000000

def inRange? (negative : Bool) (n : Nat) : Option Value :=
  if negative then if n ≤ integerLimit then some (.integer (-n)) else none
  else if n < integerLimit then some (.integer n) else none

def basedInteger? (base : Nat) (isDigit : Char → Bool) : Reader Value := fun t =>
  (digits? isDigit t).bind fun (digits, rest) =>
    (inRange? false (ofDigits base digits)).map fun v => (v, rest)

def integer? : Reader Value
  | '0' :: 'x' :: r => basedInteger? 16 isHexDigit r
  | '0' :: 'o' :: r => basedInteger? 8 (fun c => '0' ≤ c && c ≤ '7') r
  | '0' :: 'b' :: r => basedInteger? 2 (fun c => c == '0' || c == '1') r
  | t =>
      (decimal? (afterSign t)).bind fun (digits, rest) =>
        (inRange? (startsWith t ['-']) (ofDigits 10 digits)).map fun v => (v, rest)

end Toml
end SpiceDeck
