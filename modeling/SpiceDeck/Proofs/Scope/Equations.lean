import SpiceDeck.Scope.Step
import Mathlib.Tactic.Common

/-!
Equations for the steps of a scope. Lines that are copied one after the other stay
together: all of them go to the place that takes the first. What follows the end of a
model block happens in the scope around it.
-/

namespace SpiceDeck
open Text

namespace Deck

@[simp] theorem append_empty (d : Deck) : d ++ ({} : Deck) = d := by
  cases d with
  | mk lines warnings => exact congr (congrArg Deck.mk (List.append_nil _)) (List.append_nil _)

end Deck

namespace Model

def addTexts (m : Model) (lines : List Text) : Model :=
  { m with tail := m.tail ++ lines.map .verbatim }

@[simp] theorem addTexts_nil (m : Model) : m.addTexts [] = m := by simp [addTexts]

theorem addTexts_cons (m : Model) (t : Text) (r : List Text) :
    m.addTexts (t :: r) = (m.addText t).addTexts r := by
  simp [addTexts, addText]

theorem Block.modifyCurrent_id (b : Model.Block) : (b.modifyCurrent fun m => m) = b := by
  simp only [modifyCurrent, ite_self]
  split
  · have hid : (fun p : Nat × Model => (p.1, p.2)) = id := rfl
    rw [hid, List.map_id]
  · rfl

theorem Block.modifyCurrent_modifyCurrent (b : Model.Block) (f g : Model → Model) :
    (b.modifyCurrent f).modifyCurrent g = b.modifyCurrent fun m => g (f m) := by
  cases hc : b.current with
  | none => simp only [modifyCurrent, hc]
  | some index =>
      simp only [modifyCurrent, hc, List.map_map, Model.Block.mk.injEq, true_and, and_true]
      refine List.map_congr_left ?_
      rintro ⟨i, m⟩ -
      simp only [Function.comp]
      split <;> rfl

end Model

namespace Subcircuit

def copyLines (s : Subcircuit) (lines : List Text) : Subcircuit :=
  if !s.models.isEmpty then { s with models := s.models ++ lines.map .verbatim }
  else if !s.calls.isEmpty then { s with calls := s.calls ++ lines.map .verbatim }
  else { s with body := s.body ++ lines }

theorem copyLines_nil (s : Subcircuit) : s.copyLines [] = s := by
  simp only [copyLines, List.map_nil, List.append_nil, ite_self]

theorem copyLines_cons (s : Subcircuit) (t : Text) (r : List Text) :
    s.copyLines (t :: r) = (s.copyLine t).copyLines r := by
  cases hm : s.models with
  | cons m ms => simp [copyLines, copyLine, hm]
  | nil =>
      cases hc : s.calls with
      | cons c cs => simp [copyLines, copyLine, hm, hc]
      | nil => simp [copyLines, copyLine, hm, hc]

theorem foldl_copyLine (s : Subcircuit) (lines : List Text) :
    lines.foldl copyLine s = s.copyLines lines := by
  induction lines generalizing s with
  | nil => exact (copyLines_nil s).symm
  | cons t r ih => rw [List.foldl_cons, ih, copyLines_cons]

end Subcircuit

namespace Scope

theorem copyAll_top (lines : List Text) : copyAll lines .top = (.top, .ofLines lines) := by
  induction lines with
  | nil => rfl
  | cons t r ih =>
      simp only [copyAll, copy, ih]
      rfl

theorem copyAll_pins (sub : Subcircuit) (lines : List Text) :
    copyAll lines (.pins sub) = (.pins { sub with header := sub.header ++ lines }, {}) := by
  induction lines generalizing sub with
  | nil => simp only [copyAll, List.append_nil]
  | cons t r ih =>
      simp only [copyAll, copy, ih, List.append_assoc]
      rfl

theorem copyAll_body (sub : Subcircuit) (lines : List Text) :
    copyAll lines (.body sub) = (.body (sub.copyLines lines), {}) := by
  induction lines generalizing sub with
  | nil => rw [copyAll, Subcircuit.copyLines_nil]
  | cons t r ih =>
      simp only [copyAll, copy, ih, Subcircuit.copyLines_cons]
      rfl

theorem copyAll_model (parent : Option Subcircuit) (b : Model.Block) (lines : List Text) :
    copyAll lines (.model parent b) = (.model parent (b.modifyCurrent (·.addTexts lines)), {}) := by
  induction lines generalizing b with
  | nil => simp only [copyAll, Model.addTexts_nil, Model.Block.modifyCurrent_id]
  | cons t r ih =>
      simp only [copyAll, copy, ih, Model.Block.modifyCurrent_modifyCurrent, Model.addTexts_cons]
      rfl

theorem copy_eq_copyAll (t : Text) (scope : Scope) : scope.copy t = scope.copyAll [t] := by
  simp only [copyAll, Deck.append_empty]

theorem interruptModel_eq (cx : Context) (parent : Option Subcircuit) (b : Model.Block)
    (s : Statement) (kind : Statement.Kind) :
    interruptModel cx parent b s kind =
      (((around (endModel parent b).1).step cx s kind).1,
        Deck.warn (.unterminated "model block".toList b.name kind.name) s.number ++
          (endModel parent b).2 ++ ((around (endModel parent b).1).step cx s kind).2) := by
  simp only [interruptModel]
  cases (endModel parent b).1 <;> rfl

theorem finish_model (cx : Context) (parent : Option Subcircuit) (b : Model.Block) :
    finish cx (.model parent b) =
      Deck.warn (.unterminated "model block".toList b.name "end of input".toList) b.common.line ++
        (endModel parent b).2 ++ (around (endModel parent b).1).finish cx := by
  simp only [finish]
  cases (endModel parent b).1 <;> rfl

end Scope

end SpiceDeck
