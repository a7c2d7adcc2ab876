import SpiceDeck.Toml.Reader

/-!
The four kinds of strings: with and without escapes, on one line and on several.
-/

namespace SpiceDeck
namespace Toml
open Text

/-- The character of an escape by its code point, in `n` hexadecimal digits. -/
def codePoint? (n : Nat) (t : Text) : Option (Text × Text) :=
  let digits := t.take n
  let code := ofDigits 16 digits
  if digits.length = n && digits.all isHexDigit && code.isValidChar then
    some ([Char.ofNat code], t.drop n)
  else none

/-- What stands after the backslash of an escape. -/
def escape? : Reader Text
  | 'b' :: r => some (['\x08'], r)
  | 't' :: r => some (['\t'], r)
  | 'n' :: r => some (['\n'], r)
  | 'f' :: r => some (['\x0C'], r)
  | 'r' :: r => some (['\r'], r)
  | '"' :: r => some (['"'], r)
  | '\\' :: r => some (['\\'], r)
  | 'u' :: r => codePoint? 4 r
  | 'U' :: r => codePoint? 8 r
  | _ => none

def escapedPiece : Reader Text
  | [] => none
  | c :: r =>
      if c == '\\' then escape? r
      else if c != '"' && isPlain c then some ([c], r)
      else none

def literalPiece : Reader Text
  | [] => none
  | c :: r => if c != '\x27' && isPlain c then some ([c], r) else none

def skipBlankLines : Text → Text
  | ' ' :: r | '\t' :: r | '\n' :: r => skipBlankLines r
  | '\r' :: '\n' :: r => skipBlankLines r
  | t => t

/-- A quote inside a string of several lines. Three of them end the string, of four
or five the first ones still belong to it. -/
def innerQuote (mark : Char) : Reader Text := fun t =>
  let n := (t.takeWhile (· == mark)).length
  if n = 1 || n = 2 || n = 4 || n = 5 then some ([mark], t.drop 1) else none

/-- A piece of a string of several lines, made from those of a single line. A
backslash at the end of a line takes the blanks after it along. -/
def linesPiece (mark : Char) (piece : Reader Text) : Reader Text := fun t =>
  match afterNewline? t with
  | some r => some (['\n'], r)
  | none =>
      match innerQuote mark t with
      | some result => some result
      | none =>
          match t, afterNewline? (skipGaps (t.drop 1)) with
          | '\\' :: r, some rest =>
              if mark == '"' then some ([], skipBlankLines rest) else some (['\\'], r)
          | _, _ => piece t

/-- A string of one line, after its opening quote. -/
def lineString (mark : Char) (piece : Reader Text) : Reader Text := fun t =>
  match pieces piece t with
  | (s, c :: r) => if c == mark then some (s, r) else none
  | (_, []) => none

/-- A string of several lines, after its three opening quotes. A line end right there
does not count. -/
def linesString (mark : Char) (piece : Reader Text) : Reader Text := fun t =>
  let (s, r) := pieces (linesPiece mark piece) ((afterNewline? t).getD t)
  (after? [mark, mark, mark] r).map fun rest => (s, rest)

def basicString? : Reader Text
  | '"' :: r => lineString '"' escapedPiece r
  | _ => none

def literalString? : Reader Text
  | '\x27' :: r => lineString '\x27' literalPiece r
  | _ => none

def string? : Reader Text := fun t =>
  match after? ['"', '"', '"'] t, after? ['\x27', '\x27', '\x27'] t with
  | some r, _ => linesString '"' escapedPiece r
  | none, some r => linesString '\x27' literalPiece r
  | none, none => (basicString? t).or (literalString? t)

end Toml
end SpiceDeck
