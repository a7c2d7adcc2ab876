import SpiceDeck.Proofs.Scope.Segments

/-!
What a subcircuit is given while it is open: calls, which it keeps in order, and
models, of which the last of each name stays. Segments are compared with the calls
and models that were read for them.
-/

namespace SpiceDeck
open Text

/-- A call, or a model in a subcircuit, as it is read. -/
inductive Given where
  | call (c : Call)
  | model (m : Model)
  deriving DecidableEq

namespace Given

def call? : Given → Option Call
  | .call c => some c
  | .model _ => none

def model? : Given → Option Model
  | .call _ => none
  | .model m => some m

def ofBlock (b : Model.Block) : List Given := b.closeValue.models.map .model

def ofLines : Model.Block × Option (List Line) → List Given
  | (b, some _) => ofBlock b
  | (_, none) => []

def ofModel (o : Options) (head : ModelOpening) (s : Statement) : List Given :=
  if head.braced then ofLines (Model.Block.ofHead o head s)
  else [.model (Model.ofHead o head s).close]

end Given

/-- What a run reads: calls and models, and the subcircuits around them. -/
inductive Mark where
  | enter (name : Text) (line : Nat)
  | given (g : Given)
  | leave
  deriving DecidableEq

/-- Enter a model in place of one of the same name, or else at the end. -/
def Model.enter (ms : List Model) (m : Model) : List Model :=
  match ms with
  | [] => [m]
  | old :: r => if sameName old.name m.name then m :: r else old :: enter r m

namespace Subcircuit

/-- The subcircuit was entered under this name on this line and holds what it was
given since. -/
structure Holds (s : Subcircuit) (name : Text) (line : Nat) (gs : List Given) : Prop where
  name : s.name = name
  line : s.line = line
  calls : s.calls.filterMap Entry.item? = gs.filterMap Given.call?
  models : s.models.filterMap Entry.item? = (gs.filterMap Given.model?).foldl Model.enter []

variable {s : Subcircuit} {name : Text} {line : Nat} {gs : List Given}

theorem items_insertModel (m : Model) (es : List (Entry Model)) :
    (insertModel m es).filterMap Entry.item? = Model.enter (es.filterMap Entry.item?) m := by
  induction es with
  | nil => rfl
  | cons e r ih =>
      cases e with
      | verbatim t => exact ih
      | item old =>
          have hold : (Entry.item old :: r).filterMap Entry.item? =
              old :: r.filterMap Entry.item? := rfl
          simp only [insertModel, hold, Model.enter]
          split
          · rfl
          · exact congrArg (old :: ·) ih

theorem items_append_verbatim {α : Type} (es : List (Entry α)) (lines : List Text) :
    (es ++ lines.map Entry.verbatim).filterMap Entry.item? = es.filterMap Entry.item? := by
  induction es with
  | nil =>
      induction lines with
      | nil => rfl
      | cons t r ih => exact ih
  | cons e r ih =>
      cases e with
      | verbatim t => exact ih
      | item a => exact congrArg (a :: ·) ih

theorem Holds.addCall (h : s.Holds name line gs) (c : Call) :
    (s.addCall c).Holds name line (gs ++ [.call c]) := by
  refine ⟨h.name, h.line, ?_, ?_⟩
  · simp only [Subcircuit.addCall, List.filterMap_append, h.calls]
    rfl
  · rw [List.filterMap_append, List.foldl_append]
    exact h.models

theorem Holds.addModel (h : s.Holds name line gs) (m : Model) :
    (s.addModel m).Holds name line (gs ++ [.model m]) := by
  refine ⟨h.name, h.line, ?_, ?_⟩
  · rw [List.filterMap_append]
    exact h.calls.trans (List.append_nil _).symm
  · rw [List.filterMap_append, List.foldl_append, ← h.models]
    exact items_insertModel m s.models

theorem Holds.addModels (h : s.Holds name line gs) (ms : List Model) :
    (ms.foldl Subcircuit.addModel s).Holds name line (gs ++ ms.map .model) := by
  induction ms generalizing s gs with
  | nil =>
      rw [List.map_nil, List.append_nil]
      exact h
  | cons m ms ih =>
      have hstep := ih (h.addModel m)
      rw [List.append_assoc] at hstep
      exact hstep

theorem Holds.copyLines (h : s.Holds name line gs) (lines : List Text) :
    (s.copyLines lines).Holds name line gs := by
  simp only [Subcircuit.copyLines]
  split
  · exact ⟨h.name, h.line, h.calls, (items_append_verbatim s.models lines).trans h.models⟩
  · split
    · exact ⟨h.name, h.line, (items_append_verbatim s.calls lines).trans h.calls, h.models⟩
    · exact ⟨h.name, h.line, h.calls, h.models⟩

end Subcircuit

/-- What was read for a segment: nothing that is tracked for a plain one, the call
itself, or all that a subcircuit holds, between its start and its end. -/
inductive Segment.Reads : Segment → List Mark → Prop where
  | plain (lines : List Text) : Reads (.plain lines) []
  | call (c : Call) : Reads (.call c) [.given (.call c)]
  | block {sub : Subcircuit} {name : Text} {line : Nat} {gs : List Given}
      (h : sub.Holds name line gs) :
      Reads (.block sub) (.enter name line :: gs.map .given ++ [.leave])

inductive Segment.AllRead : List Segment → List Mark → Prop where
  | nil : AllRead [] []
  | cons {segment : Segment} {r : List Segment} {ms rest : List Mark} (h : segment.Reads ms)
      (hr : AllRead r rest) : AllRead (segment :: r) (ms ++ rest)

theorem Segment.AllRead.append {a b : List Segment} {ms rest : List Mark} (ha : AllRead a ms)
    (hb : AllRead b rest) : AllRead (a ++ b) (ms ++ rest) := by
  induction ha with
  | nil => exact hb
  | cons h _ ih =>
      rw [List.append_assoc]
      exact .cons h ih

theorem Segment.AllRead.plain (lines : List Text) : AllRead [.plain lines] [] :=
  .cons (.plain lines) .nil

theorem Call.close_name_reference (c : Call) :
    c.close.name = c.name ∧ c.close.reference = c.reference := by
  simp only [close]
  split <;> exact ⟨rfl, rfl⟩

/-- A call starts with the letter it is given, in upper or lower case. -/
theorem Call.head_letter (c : Call) (r : Resolution) :
    (c.head r).head?.map Char.toLower = some r.letter.toLower := by
  have hspaced : ∀ (x : Char) (w : Text) (ws : List Text),
      (spaced ((x :: w) :: ws)).head? = some x := by
    intro x w ws
    cases ws <;> rfl
  cases hname : c.name with
  | nil =>
      simp only [head, hname, withLetter]
      exact congrArg (Option.map Char.toLower) (hspaced r.letter [] _)
  | cons x w =>
      simp only [head, hname, withLetter]
      split
      · next h =>
          have hx : x.toLower = r.letter.toLower := by simpa using h
          rw [← hx]
          exact congrArg (Option.map Char.toLower) (hspaced x w _)
      · exact congrArg (Option.map Char.toLower) (hspaced r.letter (x :: w) _)

end SpiceDeck
