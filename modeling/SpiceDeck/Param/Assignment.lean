import SpiceDeck.Text.Basic

/-!
Where an assignment `name = value` starts. `assignment?` reads one off the
front of a text; `cutAtAssignment?` finds the first one that stands at the front or
after a blank. A double equals sign is a comparison and never an assignment.
-/

namespace SpiceDeck
namespace Param
open Text

/-- The characters after the first one of an assigned name. -/
def isTargetChar (c : Char) : Bool := isWord c || c == '.' || c == '[' || c == ']'

/-- The name and the text of the value with what follows it. -/
def assignment? : Text → Option (Text × Text)
  | [] => none
  | c :: r =>
      if isNameStart c then
        match trimStart (r.dropWhile isTargetChar) with
        | '=' :: after =>
            if after.head? = some '=' then none
            else some (c :: r.takeWhile isTargetChar, trimStart after)
        | _ => none
      else none

def startsAssignment (t : Text) : Bool := (assignment? t).isSome

/-- Having read the start of a name, a single equals sign comes next, with nothing
but more of the name and then blanks before it. -/
def equalsAhead (inName : Bool) : Text → Bool
  | [] => false
  | c :: r =>
      if inName && isTargetChar c then equalsAhead true r
      else if isSpace c then equalsAhead false r
      else c == '=' && r.head? != some '='

/-- The text before the first assignment and the text from there on. `fresh` tells
whether the text starts where an assignment may start. -/
def cutFrom? (fresh : Bool) : Text → Option (Text × Text)
  | [] => none
  | c :: r =>
      if fresh && isNameStart c && equalsAhead true r then some ([], c :: r)
      else (cutFrom? (isSpace c) r).map fun (before, rest) => (c :: before, rest)

def cutAtAssignment? (t : Text) : Option (Text × Text) := cutFrom? true t

/-- The place of the first assignment, counted in bytes. -/
def assignmentOffset? (t : Text) : Option Nat :=
  (cutAtAssignment? t).map fun (before, _) => byteLength before

theorem length_assignment?_lt {t name after : Text}
    (h : assignment? t = some (name, after)) : after.length < t.length := by
  cases t with
  | nil => cases h
  | cons c r =>
      simp only [assignment?] at h
      split at h
      · split at h
        · rename_i rest heq
          split at h
          · cases h
          · cases h
            have h1 := length_trimStart_le rest
            have h2 := length_trimStart_le (r.dropWhile isTargetChar)
            have h3 := length_dropWhile_le isTargetChar r
            rw [heq] at h2
            simp only [List.length_cons] at h2 ⊢
            omega
        · cases h
      · cases h

end Param
end SpiceDeck
