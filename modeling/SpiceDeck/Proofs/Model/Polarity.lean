import SpiceDeck.Model.Basic
import Mathlib.Data.List.Basic
import Mathlib.Tactic.Common

/-!
The assignment that a model takes its polarity from. The polarity is that of the first
assignment to `type` that names one; what is taken off the line is the first assignment to
`type`, whatever it says. Main statement: the line loses the assignment that gave the polarity,
and no other, exactly if no other assignment to `type` stands before it.
-/

namespace SpiceDeck
open Text

section Erase
variable {α : Type} {p q : α → Bool} {xs : List α}

theorem countP_eraseP_of_mem {a : α} (ha : a ∈ xs) (hq : q a = true) :
    (xs.eraseP q).countP q + 1 = xs.countP q := by
  obtain ⟨b, before, after, hbefore, hb, rfl, heq⟩ := List.exists_of_eraseP ha hq
  rw [heq]
  simp only [List.countP_append, List.countP_cons, hb, if_true]
  omega

/-- Of two classes the smaller one erases what the larger one erases exactly if the first
member of the larger one is in both. -/
theorem eraseP_eq_eraseP_iff (hqp : ∀ a, q a = true → p a = true) (hany : xs.any q = true) :
    xs.eraseP p = xs.eraseP q ↔ (xs.find? p).any q = true := by
  induction xs with
  | nil => cases hany
  | cons a r ih =>
      by_cases hp : p a = true
      · rw [List.eraseP_cons_of_pos hp, List.find?_cons_of_pos hp, Option.any_some]
        by_cases hq : q a = true
        · rw [List.eraseP_cons_of_pos hq]
          exact iff_of_true rfl hq
        · rw [List.eraseP_cons_of_neg hq]
          refine iff_of_false ?_ hq
          -- the member of the smaller class would be lost on one side only
          intro heq
          obtain ⟨b, hb, hqb⟩ := List.any_eq_true.mp hany
          have hmem : b ∈ r := by
            obtain rfl | hmem := List.mem_cons.mp hb
            · exact absurd hqb hq
            · exact hmem
          have hcount := congrArg (List.countP q) heq
          rw [List.countP_cons_of_neg hq, ← countP_eraseP_of_mem hmem hqb] at hcount
          omega
      · have hq : ¬ q a = true := fun h => hp (hqp a h)
        have hrest : r.any q = true := by simpa [hq] using hany
        rw [List.eraseP_cons_of_neg hp, List.eraseP_cons_of_neg hq, List.find?_cons_of_neg hp,
          ← ih hrest, List.cons.injEq]
        exact and_iff_right rfl

end Erase

namespace Piece

/-- An assignment to `type` whose value names a polarity. -/
def givesPolarity : Piece → Bool
  | .assign name value => sameName name "type".toList && (Polarity.ofText? value.text).isSome
  | .fragment _ | .comment _ => false

theorem assigns_of_givesPolarity (p : Piece) (h : p.givesPolarity = true) :
    p.assigns "type".toList = true := by
  cases p with
  | assign name value => exact (Bool.and_eq_true_iff.mp h).1
  | fragment _ | comment _ => cases h

end Piece

theorem Polarity.isSome_onLine? (l : ParamLine) :
    (Polarity.onLine? l).isSome = l.pieces.any Piece.givesPolarity := by
  rw [onLine?]
  induction l.pieces with
  | nil => rfl
  | cons p r ih =>
      cases p with
      | fragment _ | comment _ => exact ih
      | assign name value =>
          rw [List.findSome?_cons, List.any_cons, ← ih]
          simp only [Piece.givesPolarity]
          cases sameName name "type".toList with
          | false => rfl
          | true =>
              simp only [if_true, Bool.true_and]
              cases ofText? value.text <;> rfl

namespace ParamLine

/-- The line without the first assignment that gives a polarity. -/
def withoutPolarity (l : ParamLine) : ParamLine :=
  { l with pieces := l.pieces.eraseP Piece.givesPolarity }

/-- The first assignment to `type` gives the polarity, if any does. -/
def polarityLeads (l : ParamLine) : Bool :=
  !l.pieces.any Piece.givesPolarity ||
    (l.pieces.find? fun p => p.assigns "type".toList).any Piece.givesPolarity

end ParamLine

namespace Model
variable {l : ParamLine}

theorem remainder_of_polarity (h : l.pieces.any Piece.givesPolarity = true) :
    remainder l = l.erase "type".toList := by
  rw [← Polarity.isSome_onLine?] at h
  obtain ⟨p, hp⟩ := Option.isSome_iff_exists.mp h
  rw [remainder, hp]

theorem remainder_of_no_polarity (h : l.pieces.any Piece.givesPolarity = false) :
    remainder l = l := by
  rw [← Polarity.isSome_onLine?, Option.isSome_eq_false_iff, Option.isNone_iff_eq_none] at h
  rw [remainder, h]

theorem remainder_eq_withoutPolarity_iff (l : ParamLine) :
    remainder l = l.withoutPolarity ↔ l.polarityLeads = true := by
  cases hany : l.pieces.any Piece.givesPolarity with
  | false =>
      have hkept : l.pieces.eraseP Piece.givesPolarity = l.pieces :=
        List.eraseP_of_forall_not (List.any_eq_false.mp hany)
      rw [remainder_of_no_polarity hany, ParamLine.withoutPolarity, hkept]
      exact iff_of_true rfl (by rw [ParamLine.polarityLeads, hany]; rfl)
  | true =>
      have hleads : l.polarityLeads =
          (l.pieces.find? fun p => p.assigns "type".toList).any Piece.givesPolarity := by
        rw [ParamLine.polarityLeads, hany]
        rfl
      rw [remainder_of_polarity hany, hleads,
        ← eraseP_eq_eraseP_iff Piece.assigns_of_givesPolarity hany, ParamLine.erase,
        ParamLine.withoutPolarity, ParamLine.mk.injEq]
      simp

/-- Where another assignment to `type` comes first, that one is lost and the one that gave the
polarity stays. -/
theorem remainder_of_not_polarityLeads (h : l.polarityLeads = false) :
    ∃ before p between q after, l.pieces = before ++ p :: (between ++ q :: after) ∧
      p.assigns "type".toList = true ∧ p.givesPolarity = false ∧ q.givesPolarity = true ∧
      remainder l = { l with pieces := before ++ (between ++ q :: after) } := by
  rw [ParamLine.polarityLeads, Bool.or_eq_false_iff, Bool.not_eq_false'] at h
  obtain ⟨hany, hfirst⟩ := h
  obtain ⟨q, hq, hgives⟩ := List.any_eq_true.mp hany
  cases hfind : l.pieces.find? fun p => p.assigns "type".toList with
  | none =>
      have hnone := List.find?_eq_none.mp hfind q hq
      exact absurd (q.assigns_of_givesPolarity hgives) hnone
  | some p =>
      rw [hfind, Option.any_some] at hfirst
      obtain ⟨hp, before, rest, hpieces, hbefore⟩ := List.find?_eq_some_iff_append.mp hfind
      have hnot : ∀ a ∈ before, ¬ a.assigns "type".toList = true := by
        intro a ha
        simpa using hbefore a ha
      have hmem : q ∈ rest := by
        rw [hpieces, List.mem_append, List.mem_cons] at hq
        obtain hq | rfl | hq := hq
        · exact absurd (q.assigns_of_givesPolarity hgives) (hnot q hq)
        · rw [hfirst] at hgives
          cases hgives
        · exact hq
      obtain ⟨between, after, rfl⟩ := List.append_of_mem hmem
      refine ⟨before, p, between, q, after, hpieces, hp, hfirst, hgives, ?_⟩
      rw [remainder_of_polarity hany, ParamLine.erase, hpieces,
        List.eraseP_append_right _ hnot, List.eraseP_cons_of_pos hp]

/-- A model keeps a line less exactly the first assignment that gives a polarity, or the whole
line if none does, if and only if the first assignment to `type` on the line is that one.
Otherwise the first assignment to `type`, which names no polarity, is taken off in its place. -/
theorem keeps_withoutPolarity_iff (m : Model) (l : ParamLine) :
    ((m.withParams l).params = some l.withoutPolarity ↔ l.polarityLeads = true) ∧
      ((m.addParams l).tail = m.tail ++ [.params l.withoutPolarity] ↔ l.polarityLeads = true) ∧
      (l.polarityLeads = false →
        ∃ before p between q after, l.pieces = before ++ p :: (between ++ q :: after) ∧
          p.assigns "type".toList = true ∧ p.givesPolarity = false ∧ q.givesPolarity = true ∧
          (m.withParams l).params = some { l with pieces := before ++ (between ++ q :: after) } ∧
          (m.addParams l).tail =
            m.tail ++ [.params { l with pieces := before ++ (between ++ q :: after) }]) := by
  have hparams : (m.withParams l).params = some (remainder l) := rfl
  have htail : (m.addParams l).tail = m.tail ++ [.params (remainder l)] := rfl
  rw [hparams, htail, ← remainder_eq_withoutPolarity_iff]
  refine ⟨by simp, by simp, ?_⟩
  intro h
  obtain ⟨before, p, between, q, after, hpieces, hp, hfirst, hgives, hrest⟩ :=
    remainder_of_not_polarityLeads h
  exact ⟨before, p, between, q, after, hpieces, hp, hfirst, hgives, by rw [hrest], by rw [hrest]⟩

/-- A line whose first assignment to `type` names no polarity. -/
def mixedTypes : ParamLine where
  pieces :=
    [.assign "type".toList { text := ['x'], form := .bare },
      .assign "type".toList { text := ['n'], form := .bare }, .assign ['w'] (.numeric ['1'])]

/-- The polarity comes from the second assignment, and the first one is lost. -/
theorem keeps_withoutPolarity_mixedTypes :
    mixedTypes.polarityLeads = false ∧
      ((new "nch".toList "bsim4".toList 1).withParams mixedTypes).params ≠
        some mixedTypes.withoutPolarity ∧
      ((new "nch".toList "bsim4".toList 1).withParams mixedTypes).render =
        [".model nch nmos type=\x7bn\x7d w=1".toList] ∧
      ∃ before p between q after, mixedTypes.pieces = before ++ p :: (between ++ q :: after) ∧
        p.assigns "type".toList = true ∧ p.givesPolarity = false ∧ q.givesPolarity = true ∧
        ((new "nch".toList "bsim4".toList 1).withParams mixedTypes).params =
          some { mixedTypes with pieces := before ++ (between ++ q :: after) } := by
  obtain ⟨hparams, -, hlost⟩ :=
    keeps_withoutPolarity_iff (new "nch".toList "bsim4".toList 1) mixedTypes
  have hleads : mixedTypes.polarityLeads = false := by decide +kernel
  obtain ⟨before, p, between, q, after, hpieces, hp, hfirst, hgives, hkept, -⟩ := hlost hleads
  refine ⟨hleads, ?_, by decide +kernel, before, p, between, q, after, hpieces, hp, hfirst,
    hgives, hkept⟩
  intro hsame
  rw [hparams.mp hsame] at hleads
  cases hleads

end Model
end SpiceDeck
