import SpiceDeck.Warning

/-!
What a conversion produces piece by piece: output lines and warnings, each in order.
-/

namespace SpiceDeck
open Text

structure Deck where
  lines : List Text := []
  warnings : List Warning := []
  deriving DecidableEq, Repr

namespace Deck

instance : Append Deck := ⟨fun a b => ⟨a.lines ++ b.lines, a.warnings ++ b.warnings⟩⟩

@[simp] theorem lines_append (a b : Deck) : (a ++ b).lines = a.lines ++ b.lines := rfl

@[simp] theorem warnings_append (a b : Deck) : (a ++ b).warnings = a.warnings ++ b.warnings := rfl

def ofLines (lines : List Text) : Deck := { lines }

def warn (cause : Cause) (line : Nat) : Deck := { warnings := [cause.at line] }

def warnIf (b : Bool) (cause : Cause) (line : Nat) : Deck := if b then warn cause line else {}

def concat : List Deck → Deck
  | [] => {}
  | d :: r => d ++ concat r

/-- The text of the lines, each ended by a line feed. No text at all has no end. -/
def content (lines : List Text) : Text :=
  let t := join ['\n'] lines
  if t.isEmpty then t else t ++ ['\n']

end Deck
end SpiceDeck
