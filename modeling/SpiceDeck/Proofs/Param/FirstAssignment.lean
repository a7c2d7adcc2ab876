import SpiceDeck.Param.Assignment
import Mathlib.Order.Bounds.Defs
import Mathlib.Tactic.Common

/-!
The place at which the parameters of a header start. A header is cut by a scan for the first
assignment, and what follows the cut is read by the reader of assignments. Main statement: the
scan finds the first place, at the front or behind a blank, at which the reader succeeds.
-/

namespace SpiceDeck
open Text

namespace Text

theorem byteLength_append (a b : Text) : byteLength (a ++ b) = byteLength a + byteLength b := by
  induction a with
  | nil => exact (Nat.zero_add _).symm
  | cons c a ih => simp only [List.cons_append, byteLength, ih, Nat.add_assoc]

end Text

namespace Param

/-- A single equals sign stands at the front. -/
def startsWithEquals : Text → Bool
  | '=' :: after => after.head? != some '='
  | _ => false

theorem equalsAhead_false (t : Text) : equalsAhead false t = startsWithEquals (trimStart t) := by
  induction t with
  | nil => rfl
  | cons c r ih =>
      cases hc : isSpace c with
      | true =>
          have htrim : trimStart (c :: r) = trimStart r := by simp [trimStart, hc]
          rw [htrim, ← ih]
          simp [equalsAhead, hc]
      | false =>
          have htrim : trimStart (c :: r) = c :: r := by simp [trimStart, hc]
          rw [htrim]
          by_cases he : c = '='
          · subst he
            rfl
          · simp [equalsAhead, startsWithEquals, hc, he]

theorem equalsAhead_true (t : Text) :
    equalsAhead true t = startsWithEquals (trimStart (t.dropWhile isTargetChar)) := by
  induction t with
  | nil => rfl
  | cons c r ih =>
      cases hc : isTargetChar c with
      | true => simpa [equalsAhead, hc] using ih
      | false =>
          rw [List.dropWhile_cons_of_neg (by simp [hc]), ← equalsAhead_false]
          simp [equalsAhead, hc]

theorem startsAssignment_cons (c : Char) (r : Text) :
    startsAssignment (c :: r) = (isNameStart c && equalsAhead true r) := by
  rw [equalsAhead_true, startsAssignment, assignment?]
  cases isNameStart c with
  | false => rfl
  | true =>
      simp only [if_true, Bool.true_and]
      split
      · rename_i after h
        rw [h, startsWithEquals]
        by_cases he : after.head? = some '='
        · simp [he]
        · simp [he]
      · rename_i h
        rw [startsWithEquals]
        · rfl
        · exact h

/-- Whether an assignment may start behind the text; `fresh` tells it of the empty text. -/
def mayStartAfter (fresh : Bool) (before : Text) : Bool :=
  (before.getLast?.map isSpace).getD fresh

theorem mayStartAfter_cons (fresh : Bool) (c : Char) (before : Text) :
    mayStartAfter fresh (c :: before) = mayStartAfter (isSpace c) before := by
  simp only [mayStartAfter, List.getLast?_cons]
  cases before.getLast? <;> rfl

/-- The cut gives back the text, and an assignment may and does start there. -/
theorem cutFrom?_some {fresh : Bool} {t before rest : Text}
    (h : cutFrom? fresh t = some (before, rest)) :
    t = before ++ rest ∧ mayStartAfter fresh before = true ∧ startsAssignment rest = true := by
  induction t generalizing fresh before with
  | nil => cases h
  | cons c r ih =>
      simp only [cutFrom?] at h
      split at h
      · rename_i hstart
        simp only [Bool.and_eq_true] at hstart
        cases h
        refine ⟨rfl, hstart.1.1, ?_⟩
        rw [startsAssignment_cons, hstart.1.2, hstart.2]
        rfl
      · obtain ⟨⟨a, b⟩, hab, heq⟩ := Option.map_eq_some_iff.mp h
        cases heq
        obtain ⟨rfl, hmay, hassign⟩ := ih hab
        refine ⟨rfl, ?_, hassign⟩
        rw [mayStartAfter_cons]
        exact hmay

/-- Where an assignment may and does start, the scan has found this place or an earlier one. -/
theorem exists_cutFrom? {fresh : Bool} {before rest : Text}
    (hmay : mayStartAfter fresh before = true) (hassign : startsAssignment rest = true) :
    ∃ first behind, cutFrom? fresh (before ++ rest) = some (first, behind) ∧ first <+: before := by
  induction before generalizing fresh with
  | nil =>
      have hfresh : fresh = true := hmay
      cases rest with
      | nil => cases hassign
      | cons c r =>
          rw [startsAssignment_cons, Bool.and_eq_true] at hassign
          refine ⟨[], c :: r, ?_, List.prefix_refl []⟩
          simp [cutFrom?, hfresh, hassign.1, hassign.2]
  | cons c before ih =>
      rw [mayStartAfter_cons] at hmay
      obtain ⟨first, behind, hcut, hfirst⟩ := ih hmay
      simp only [List.cons_append, cutFrom?]
      split
      · exact ⟨[], _, rfl, List.nil_prefix⟩
      · exact ⟨c :: first, behind, by rw [hcut]; rfl, (List.prefix_cons_inj c).mpr hfirst⟩

/-- The place, counted in bytes, is the front of the text or directly follows a blank, and an
assignment can be read off the text from there on. -/
def AssignsAt (t : Text) (offset : Nat) : Prop :=
  ∃ before rest, t = before ++ rest ∧ byteLength before = offset ∧
    (before = [] ∨ ∃ c, before.getLast? = some c ∧ isSpace c = true) ∧
    ∃ name after, assignment? rest = some (name, after)

theorem mayStartAfter_iff {before : Text} :
    mayStartAfter true before = true ↔
      before = [] ∨ ∃ c, before.getLast? = some c ∧ isSpace c = true := by
  cases h : before.getLast? with
  | none => simp [mayStartAfter, List.getLast?_eq_none_iff.mp h]
  | some c =>
      have hne : before ≠ [] := by
        rintro rfl
        cases h
      simp [mayStartAfter, h, hne]

theorem startsAssignment_iff {t : Text} :
    startsAssignment t = true ↔ ∃ name after, assignment? t = some (name, after) := by
  rw [startsAssignment, Option.isSome_iff_exists]
  exact Prod.exists

theorem assignsAt_of_cut {t before rest : Text} (h : cutAtAssignment? t = some (before, rest)) :
    AssignsAt t (byteLength before) := by
  obtain ⟨htext, hmay, hassign⟩ := cutFrom?_some h
  exact ⟨before, rest, htext, rfl, mayStartAfter_iff.mp hmay, startsAssignment_iff.mp hassign⟩

theorem AssignsAt.exists_cut {t : Text} {offset : Nat} (h : AssignsAt t offset) :
    ∃ before rest, cutAtAssignment? t = some (before, rest) ∧ byteLength before ≤ offset := by
  obtain ⟨before, rest, rfl, rfl, hmay, hassign⟩ := h
  obtain ⟨first, behind, hcut, between, rfl⟩ :=
    exists_cutFrom? (mayStartAfter_iff.mpr hmay) (startsAssignment_iff.mpr hassign)
  refine ⟨first, behind, hcut, ?_⟩
  rw [byteLength_append]
  exact Nat.le_add_right _ _

/-- The scan for the first assignment and the reader of assignments agree: the scan gives the
least place at the front or behind a blank at which the reader succeeds, and nothing exactly if
there is no such place. -/
theorem assignmentOffset?_isLeast (t : Text) :
    (∀ offset, assignmentOffset? t = some offset ↔ IsLeast {i | AssignsAt t i} offset) ∧
      (assignmentOffset? t = none ↔ ¬ ∃ offset, AssignsAt t offset) := by
  cases hcut : cutAtAssignment? t with
  | none =>
      have hoffset : assignmentOffset? t = none := by rw [assignmentOffset?, hcut]; rfl
      have hnone : ¬ ∃ offset, AssignsAt t offset := by
        rintro ⟨offset, h⟩
        obtain ⟨before, rest, hsome, -⟩ := h.exists_cut
        rw [hcut] at hsome
        cases hsome
      refine ⟨fun offset => ?_, iff_of_true hoffset hnone⟩
      rw [hoffset]
      exact iff_of_false nofun fun h => hnone ⟨offset, h.1⟩
  | some cut =>
      obtain ⟨before, rest⟩ := cut
      have hoffset : assignmentOffset? t = some (byteLength before) := by
        rw [assignmentOffset?, hcut]
        rfl
      have hleast : IsLeast {i | AssignsAt t i} (byteLength before) := by
        refine ⟨assignsAt_of_cut hcut, ?_⟩
        intro i hi
        obtain ⟨first, behind, hfirst, hle⟩ := AssignsAt.exists_cut hi
        rw [hcut] at hfirst
        cases hfirst
        exact hle
      rw [hoffset]
      constructor
      · intro offset
        rw [Option.some.injEq]
        constructor
        · rintro rfl
          exact hleast
        · intro h
          exact Nat.le_antisymm (hleast.2 h.1) (h.2 hleast.1)
      · exact iff_of_false nofun fun h => h ⟨_, hleast.1⟩

/-- A comparison is passed over, whatever stands around its equals signs, and the place is
counted in bytes. -/
example : assignmentOffset? "\u03B1 a == b c= =1".toList = some 10 := by decide +kernel

end Param
end SpiceDeck
