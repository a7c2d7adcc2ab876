import SpiceDeck.Proofs.Written.Headers
import SpiceDeck.Proofs.Written.Readings

/-!
Headers as they are read. Whatever its form, the lines of a header go on with one another. Main
statement: the parameters that the lines of a header give are written in words that read back.
-/

namespace SpiceDeck
open Text

namespace Header
open Param

variable {o : Options} {h h' h'' : Header} {ls : List Line}

/-- The second header has more lines, which go on with those of the first. -/
def Extends (o : Options) (h h' : Header) : Prop :=
  ∃ cs, h'.tail = h.tail ++ cs ∧ (Sound (Continuation.carried h.tail) →
    AllBraceFree ((cs.filterMap Continuation.params?).flatMap ParamLine.pieces) →
      Chain o (Continuation.carried h.tail) cs (Continuation.carried h'.tail))

theorem extends_of_tail_eq (heq : h'.tail = h.tail) : Extends o h h' := by
  refine ⟨[], by rw [heq, List.append_nil], fun _ _ => ?_⟩
  rw [heq]
  exact .nil

theorem Extends.trans (hx : Extends o h h') (hy : Extends o h' h'') : Extends o h h'' := by
  obtain ⟨cs, hcs, hfirst⟩ := hx
  obtain ⟨ds, hds, hrest⟩ := hy
  refine ⟨cs ++ ds, by rw [hds, hcs, List.append_assoc], fun hsound hfree => ?_⟩
  rw [List.filterMap_append, List.flatMap_append] at hfree
  have hchain := hfirst hsound fun p hp => hfree p (List.mem_append_left _ hp)
  exact hchain.append (hrest (hchain.sound hsound) fun p hp => hfree p (List.mem_append_right _ hp))

theorem extends_silent (o : Options) (h : Header) {t : Text} (ht : isSilent t = true) :
    Extends o h (h.push (.verbatim t)) := by
  refine ⟨[.verbatim t], rfl, fun _ _ => .silent ht ?_⟩
  rw [push, carried_concat_verbatim]
  exact .nil

theorem extends_params {c : Carry} (hc : Continuation.carried h.tail = c) (t : Text)
    (place : Placement) :
    Extends o h (h.push (.params ((readAssignments o t place c).withMarker .plus))) := by
  subst hc
  refine ⟨_, rfl, fun hsound hfree => .params rfl (composed_readAssignments hsound ?_) ?_⟩
  · exact fun p hp => hfree p (List.mem_append_left _ hp)
  · rw [push, carried_concat_params]
    exact .nil

/-- Before the closing parenthesis nothing is open. -/
theorem extends_readPins (hc : Continuation.carried h.tail = .closed) (t : Text) :
    Extends o h (h.readPins o t).1 ∧
      ((h.readPins o t).2 = false → Continuation.carried (h.readPins o t).1.tail = .closed) := by
  simp only [readPins]
  split
  · exact ⟨extends_of_tail_eq rfl, fun _ => hc⟩
  · split
    · exact ⟨extends_of_tail_eq rfl, fun hopen => absurd hopen (by simp)⟩
    · exact ⟨extends_params (h := h.pushPins _) hc _ _, fun hopen => absurd hopen (by simp)⟩

theorem extends_readLines (hsilent : SilentApart ls) {closed : Bool}
    (hc : closed = false → Continuation.carried h.tail = .closed) :
    Extends o h (h.readLines o closed ls).1 := by
  induction ls generalizing h closed with
  | nil => exact extends_of_tail_eq rfl
  | cons l r ih =>
      obtain ⟨hl, hr⟩ := List.forall_mem_cons.mp hsilent
      simp only [readLines]
      split
      · next hcode =>
          refine (extends_silent o h (hl (by simpa using hcode))).trans (ih hr fun hopen => ?_)
          rw [push, carried_concat_verbatim]
          exact hc hopen
      · split
        · next hclosed =>
            refine Extends.trans (extends_params rfl _ .subcircuitLocal) (ih hr fun hopen => ?_)
            rw [hclosed] at hopen
            cases hopen
        · next hopen =>
            obtain ⟨hpins, hnext⟩ := extends_readPins (o := o) (hc (by simpa using hopen)) l.content
            exact hpins.trans (ih hr hnext)

theorem extends_readBare (h : Header) (inParams : Bool) (t : Text) :
    Extends o h (h.readBare o inParams t).1 := by
  have hpins : ∀ (b : Bool) (pins : List Text),
      (if b then h else h.pushPins pins).tail = h.tail := by
    intro b pins
    cases b <;> rfl
  simp only [readBare]
  generalize (if inParams || (Continuation.carried h.tail).isOpen then ([], t)
    else (cutAtAssignment? t).getD (t, [])) = x
  split
  · exact extends_of_tail_eq (hpins _ _)
  · exact (extends_of_tail_eq (hpins _ _)).trans (extends_params (by rw [hpins]) _ _)

theorem extends_readBareLines (hsilent : SilentApart ls) (h : Header) (inParams : Bool) :
    Extends o h (h.readBareLines o inParams ls) := by
  induction ls generalizing h inParams with
  | nil => exact extends_of_tail_eq rfl
  | cons l r ih =>
      obtain ⟨hl, hr⟩ := List.forall_mem_cons.mp hsilent
      simp only [readBareLines]
      split
      · exact (extends_readBare h inParams l.content).trans (ih hr _ _)
      · next hcode =>
          exact (extends_silent o h (hl (by simpa using hcode))).trans (ih hr _ _)

theorem extends_ofHead (head : SubcircuitOpening) (hsilent : SilentApart ls) :
    Extends o { pins := [] } (ofHead o head ls).1 := by
  simp only [ofHead]
  split
  · obtain ⟨hpins, hnext⟩ := extends_readPins (o := o) (h := { pins := [] }) rfl head.rest
    exact hpins.trans (extends_readLines hsilent hnext)
  · exact (extends_readBare _ _ _).trans (extends_readBareLines hsilent _ _)
  · exact (extends_readBare _ _ _).trans (extends_readBareLines hsilent _ _)

/-- The lines of a header without others above them, as they are closed. -/
theorem Extends.below (hx : Extends o h h') (hnil : h.tail = [])
    (hr : Repeatable o (h'.tail.filterMap Continuation.params?)) :
    Below o .closed ((Continuation.close h'.tail).map Continuation.render) := by
  obtain ⟨cs, hcs, hchain⟩ := hx
  obtain ⟨hfree, hproduct⟩ := hr
  rw [hnil, List.nil_append] at hcs
  subst hcs
  rw [hnil] at hchain
  exact ((hchain sound_closed hfree).back_of_closed hproduct).toBelow

end Header
end SpiceDeck
