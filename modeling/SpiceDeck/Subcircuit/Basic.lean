import SpiceDeck.Deck.Basic
import SpiceDeck.Device.Call
import SpiceDeck.Model.Basic

/-!
A subcircuit while it is read. Calls and models are kept until it closes, because a
call may need a model that is declared after it; then the parts are written in a
fixed order: header, body, calls, models.
-/

namespace SpiceDeck
open Text

/-- A kept thing, or a line that is copied where it stands among them. -/
inductive Entry (α : Type) where
  | item (a : α)
  | verbatim (text : Text)
  deriving DecidableEq, Repr

def Entry.item? {α : Type} : Entry α → Option α
  | .item a => some a
  | .verbatim _ => none

structure Subcircuit where
  name : Text
  line : Nat
  /-- Pins, grouped by the lines they stand on. -/
  pins : List (List Text) := []
  /-- Header lines after the pins. -/
  header : List Text := []
  body : List Text := []
  calls : List (Entry Call) := []
  models : List (Entry Model) := []
  deriving DecidableEq, Repr

namespace Subcircuit

/-- Put a line next to what was read before it. -/
def copyLine (s : Subcircuit) (t : Text) : Subcircuit :=
  if !s.models.isEmpty then { s with models := s.models ++ [.verbatim t] }
  else if !s.calls.isEmpty then { s with calls := s.calls ++ [.verbatim t] }
  else { s with body := s.body ++ [t] }

/-- Enter a model in place of one of the same name, or else at the end. -/
def insertModel (m : Model) : List (Entry Model) → List (Entry Model)
  | [] => [.item m]
  | .verbatim t :: r => .verbatim t :: insertModel m r
  | .item old :: r =>
      if sameName old.name m.name then .item m :: r else .item old :: insertModel m r

def addModel (s : Subcircuit) (m : Model) : Subcircuit :=
  { s with models := insertModel m s.models }

def addCall (s : Subcircuit) (c : Call) : Subcircuit :=
  { s with calls := s.calls ++ [.item c] }

/-- The family of the first model with the given base name. -/
def modelFamily? (s : Subcircuit) (reference : Text) : Option Family :=
  ((s.models.filterMap Entry.item?).find? fun m => sameName m.base reference).map Model.family

/-- The pins of the first line follow the name; those of other lines continue it. -/
def openingLines (s : Subcircuit) : List Text :=
  spaced (".subckt".toList :: s.name :: s.pins.headD []) ::
    ((s.pins.drop 1).filter (!·.isEmpty)).map (fun pins => "+ ".toList ++ spaced pins) ++ s.header

def renderCall (symbols : Symbols) (o : Options) (s : Subcircuit) : Entry Call → Deck
  | .verbatim t => .ofLines [t]
  | .item c =>
      let r := Resolution.find symbols o c.name c.reference (s.modelFamily? c.reference)
      { lines := c.render r, warnings := (r.warning.map (·.at c.line)).toList }

def renderModel : Entry Model → Deck
  | .verbatim t => .ofLines [t]
  | .item m => { lines := m.render, warnings := m.warning?.toList }

/-- An empty line, unless the lines end in a blank one already. -/
def gap (lines : List Text) : List Text :=
  match lines.getLast? with
  | some l => if isBlank l then [] else [[]]
  | none => []

def render (symbols : Symbols) (o : Options) (s : Subcircuit) : Deck :=
  let upper := Deck.ofLines (s.openingLines ++ s.body) ++
    Deck.concat (s.calls.map (renderCall symbols o s))
  upper ++ .ofLines (gap upper.lines) ++ Deck.concat (s.models.map renderModel) ++
    .ofLines [".ends ".toList ++ s.name]

def close (symbols : Symbols) (o : Options) (s : Subcircuit) (name : Option Text) (line : Nat) :
    Deck :=
  (match name with
    | some n => .warnIf (!sameName n s.name) (.mismatchedClose s.name n) line
    | none => {}) ++ s.render symbols o

end Subcircuit
end SpiceDeck
