import SpiceDeck.Toml.Value

/-!
Readers give what they have read and the rest of the text. Those here deal with what
stands between values: blanks, comments and line ends; the others build on them.
-/

namespace SpiceDeck
namespace Toml
open Text

abbrev Reader (α : Type) := Text → Option (α × Text)

def isGap (c : Char) : Bool := c == ' ' || c == '\t'

def skipGaps (t : Text) : Text := t.dropWhile isGap

/-- A character that may stand in a comment or a string: no control but the tab. -/
def isPlain (c : Char) : Bool := c == '\t' || (0x20 ≤ c.toNat && c.toNat != 0x7F)

def afterNewline? : Text → Option Text
  | '\n' :: r => some r
  | '\r' :: '\n' :: r => some r
  | _ => none

/-- What follows the end of a line, before which a comment may stand. -/
def afterLine? (t : Text) : Option Text :=
  let r := match skipGaps t with
    | '#' :: r => r.dropWhile isPlain
    | r => r
  if r.isEmpty then some [] else afterNewline? r

/-- Skip blanks, line ends and comments. A comment must end with its line. -/
def skipLines (inComment : Bool) : Text → Option Text
  | [] => if inComment then none else some []
  | c :: r =>
      if c == '\n' then skipLines false r
      else if c == '\r' && r.head? == some '\n' then skipLines inComment r
      else if inComment then if isPlain c then skipLines true r else none
      else if isGap c then skipLines false r
      else if c == '#' then skipLines true r
      else some (c :: r)

def pieces (piece : Reader Text) (t : Text) : Text × Text :=
  match piece t with
  | none => ([], t)
  | some (a, r) =>
      if r.length < t.length then
        let (b, rest) := pieces piece r
        (a ++ b, rest)
      else ([], t)
termination_by t.length

def hexValue (c : Char) : Option Nat :=
  if c.isDigit then some (c.toNat - '0'.toNat)
  else if 'a' ≤ c && c ≤ 'f' then some (c.toNat - 'a'.toNat + 10)
  else if 'A' ≤ c && c ≤ 'F' then some (c.toNat - 'A'.toNat + 10)
  else none

def isHexDigit (c : Char) : Bool := (hexValue c).isSome

def ofDigits (base : Nat) (t : Text) : Nat :=
  t.foldl (fun n c => base * n + (hexValue c).getD 0) 0

end Toml
end SpiceDeck
