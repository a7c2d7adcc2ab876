import SpiceDeck.Text.Replace

/-!
Renaming of parameters by the statement they belong to. A continuation line belongs
to the statement it continues; comments and blank lines belong to none.
-/

namespace SpiceDeck
namespace Deck
open Text

def isPassive (line : Text) : Bool :=
  match trimStart line with
  | [] => true
  | c :: _ => c == '*'

/-- The first letter, in lower case, of the statement that is current after a line. -/
def ownerAfter (owner : Option Char) (line : Text) : Option Char :=
  match trimStart line with
  | [] => owner
  | c :: _ => if c == '*' || c == '+' then owner else some c.toLower

def renameFrom (letter : Char) (site : Pattern) (owner : Option Char) : List Text → List Text
  | [] => []
  | line :: r =>
      let owner := ownerAfter owner line
      let line := if !isPassive line && owner = some letter then replaceAll site line else line
      line :: renameFrom letter site owner r

def rename (letter : Char) (site : Pattern) (lines : List Text) : List Text :=
  renameFrom letter site none lines

/-- What follows the name of a parameter, in any case, and its equals sign. -/
def afterSetting? (name t : Text) : Option Text :=
  match afterFolded? name t with
  | none => none
  | some r =>
      match trimStart r with
      | '=' :: r => some r
      | _ => none

/-- A diode's perimeter is `pj`. -/
def perimeter : Pattern := fun t =>
  (afterSetting? "perim".toList t).map fun r => ("pj=".toList, r)

/-- A resistor's temperature coefficients are `tc1` and `tc2`. -/
def coefficient : Pattern := fun t =>
  ((afterSetting? "tc1r".toList t).map fun r => ("tc1=".toList, r)).or
    ((afterSetting? "tc2r".toList t).map fun r => ("tc2=".toList, r))

end Deck
end SpiceDeck
