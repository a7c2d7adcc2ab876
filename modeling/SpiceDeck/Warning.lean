import SpiceDeck.Text.Basic

/-!
Warnings about the content of a deck. A warning is its cause and the line it
points at; kind and wording follow from the cause.
-/

namespace SpiceDeck
open Text

inductive WarningKind where
  | mismatchedClose
  | unmatchedClose
  | unresolvedDevice
  | unresolvedPolarity
  | nestedSubcircuit
  | unterminatedBlock
  | malformed
  deriving DecidableEq, Repr

namespace WarningKind

def name : WarningKind → Text
  | .mismatchedClose => "mismatched-close".toList
  | .unmatchedClose => "unmatched-close".toList
  | .unresolvedDevice => "unresolved-device".toList
  | .unresolvedPolarity => "unresolved-polarity".toList
  | .nestedSubcircuit => "nested-subcircuit".toList
  | .unterminatedBlock => "unterminated-block".toList
  | .malformed => "malformed".toList

def tag : WarningKind → Text
  | .mismatchedClose => "mismatched close".toList
  | .unmatchedClose => "unmatched close".toList
  | .unresolvedDevice => "unresolved device".toList
  | .unresolvedPolarity => "unresolved polarity".toList
  | .nestedSubcircuit => "nested subcircuit".toList
  | .unterminatedBlock => "unterminated block".toList
  | .malformed => "malformed line".toList

end WarningKind

inductive Cause where
  /-- A close names another subcircuit than the open one. -/
  | mismatchedClose (opened closed : Text)
  /-- A close with no subcircuit open. -/
  | unmatchedClose (name : Option Text)
  /-- A call of something that neither the deck nor the options declare. -/
  | unresolvedDevice (name reference : Text)
  /-- A transistor model that never says whether it is of type n or p. -/
  | unresolvedPolarity (model placeholder : Text)
  | nestedSubcircuit (inner outer : Text)
  /-- A block that something else than its own end had to close. -/
  | unterminated (what name closedBy : Text)
  /-- A line that is passed through for the given reason. -/
  | malformed (text reason : Text)
  /-- A statement that ends inside an expression. -/
  | unclosedValue
  deriving DecidableEq, Repr

namespace Cause

def kind : Cause → WarningKind
  | .mismatchedClose _ _ => .mismatchedClose
  | .unmatchedClose _ => .unmatchedClose
  | .unresolvedDevice _ _ => .unresolvedDevice
  | .unresolvedPolarity _ _ => .unresolvedPolarity
  | .nestedSubcircuit _ _ => .nestedSubcircuit
  | .unterminated _ _ _ => .unterminatedBlock
  | .malformed _ _ | .unclosedValue => .malformed

def message : Cause → Text
  | .mismatchedClose opened closed =>
      "close names subcircuit ".toList ++ quoted closed ++ " but ".toList ++ quoted opened ++
        " is open; closing ".toList ++ quoted opened
  | .unmatchedClose (some name) =>
      "close of subcircuit ".toList ++ quoted name ++ " with no subcircuit open".toList
  | .unmatchedClose none => "subcircuit close with no subcircuit open".toList
  | .unresolvedDevice name reference =>
      "device ".toList ++ quoted name ++ " references unknown ".toList ++ quoted reference ++
        "; emitted as subcircuit call".toList
  | .unresolvedPolarity model placeholder =>
      "model ".toList ++ quoted model ++ " has no type= parameter; keeping type ".toList ++
        quoted placeholder
  | .nestedSubcircuit inner outer =>
      "subcircuit ".toList ++ quoted inner ++ " opened inside ".toList ++ quoted outer ++
        "; line passed through".toList
  | .unterminated what name closedBy =>
      what ++ ' ' :: quoted name ++ " not closed before ".toList ++ closedBy ++
        "; closed there".toList
  | .malformed text reason =>
      reason ++ ": ".toList ++ quoted (trim text) ++ " passed through".toList
  | .unclosedValue =>
      "expression still open at end of statement; delimiter closed there".toList

end Cause

structure Warning where
  cause : Cause
  line : Option Nat := none
  deriving DecidableEq, Repr

namespace Warning

def kind (w : Warning) : WarningKind := w.cause.kind

def message (w : Warning) : Text := w.cause.message

def render (w : Warning) : Text :=
  '[' :: w.kind.tag ++ "] ".toList ++
    (match w.line with
      | some n => "line ".toList ++ ofNat n ++ ": ".toList
      | none => []) ++ w.message

end Warning

def Cause.at (c : Cause) (line : Nat) : Warning := ⟨c, some line⟩

end SpiceDeck
