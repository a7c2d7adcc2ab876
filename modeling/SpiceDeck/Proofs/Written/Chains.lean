import SpiceDeck.Proofs.Written.Params

/-!
Lines of parameters as a first reading leaves them, one after the other. Main statement: once
the last of them is closed, they are written in words that read back, unless closing makes a
product in braces of the last value.
-/

namespace SpiceDeck
open Text

namespace Continuation

theorem modifyFirst_append (f : ParamLine → ParamLine) (xs ys : List Continuation) :
    modifyFirst f (xs ++ ys) =
      if (xs.filterMap params?).isEmpty then xs ++ modifyFirst f ys
      else modifyFirst f xs ++ ys := by
  induction xs with
  | nil => rfl
  | cons x r ih =>
      cases x with
      | params l => rfl
      | verbatim t =>
          have hcons : ((.verbatim t : Continuation) :: r).filterMap params? =
              r.filterMap params? := rfl
          rw [List.cons_append, modifyFirst, ih, hcons]
          split <;> rfl

theorem close_verbatim (t : Text) (r : List Continuation) :
    close (.verbatim t :: r) = .verbatim t :: close r := by
  rw [close, modifyLast, List.reverse_cons, modifyFirst_append]
  split
  · next hempty =>
      have hr : close r = r := by
        rw [close, modifyLast, Model.modifyFirst_eq_self, List.reverse_reverse]
        intro l hl
        rw [List.isEmpty_iff.mp hempty] at hl
        cases hl
      rw [hr]
      simp [modifyFirst]
  · rw [List.reverse_append, close, modifyLast]
    rfl

theorem close_params (l : ParamLine) (r : List Continuation) :
    close (.params l :: r) =
      if (r.filterMap params?).isEmpty then .params l.close :: r else .params l :: close r := by
  rw [close, modifyLast, List.reverse_cons, modifyFirst_append, List.filterMap_reverse,
    List.isEmpty_reverse]
  split
  · simp [modifyFirst]
  · rw [List.reverse_append, close, modifyLast]
    rfl

/-- A line and the lines below it, with the last line of parameters closed. -/
def closeBelow (l : ParamLine) (r : List Continuation) : ParamLine × List Continuation :=
  if (r.filterMap params?).isEmpty then (l.close, r) else (l, close r)

theorem close_cons (l : ParamLine) (r : List Continuation) :
    close (.params l :: r) = .params (closeBelow l r).1 :: (closeBelow l r).2 := by
  rw [close_params, closeBelow]
  split <;> rfl

theorem marker_closeBelow (l : ParamLine) (r : List Continuation) :
    (closeBelow l r).1.marker = l.marker := by
  rw [closeBelow]
  split
  · exact Param.Source.marker_close l
  · rfl

end Continuation

namespace Param
open Source

variable {o : Options} {c c' c'' : Carry} {l : ParamLine} {ps : List Piece}
  {xs ys r : List Continuation}

theorem Listed.endsOpen (h : Listed o ps c) : EndsOpen ps c := by
  induction h with
  | nil | remarks _ _ => nofun
  | value _ _ _ ih => exact ih.cons _
  | begun _ _ hv => exact fun _ => ⟨[], _, _, rfl, rfl, hv.leaves⟩

theorem Composed.endsOpen (h : Composed o c ps c') : EndsOpen ps c' := by
  cases h with
  | fresh h => exact h.endsOpen
  | ended _ h => exact h.endsOpen.cons _
  | continued _ hv => exact fun _ => ⟨[], _, _, rfl, rfl, hv.leaves⟩

/-- The closed line reads back unless closing it makes a product in braces. -/
theorem Composed.readsBack_close (h : Composed o c l.pieces l.carry)
    (hproduct : l.closesProduct o = false) :
    ReadsBack o c.again (l.close.pieces.map Piece.render) .closed := by
  obtain ⟨heq, hclosed⟩ | ⟨before, p, v, hp, hclose, -, -, hopen⟩ := close_pieces h.endsOpen
  · have hread := h.rereads
    rwa [hclosed, ← heq] at hread
  · obtain ⟨u, hu, hiff⟩ := h.rereads_close hopen hp
    have hlast : l.closesProduct o = p.closesProduct o l.carry := by
      rw [ParamLine.closesProduct, hp, List.getLast?_concat]
      rfl
    rw [hlast] at hproduct
    rw [hclose]
    rw [hiff.mpr hproduct] at hu
    exact hu

/-- Lines as readings leave them, from what is open before the first to what the last leaves
open. -/
inductive Chain (o : Options) : Carry → List Continuation → Carry → Prop where
  | nil {c : Carry} : Chain o c [] c
  | silent {c c' : Carry} {t : Text} {r : List Continuation} : isSilent t = true →
      Chain o c r c' → Chain o c (.verbatim t :: r) c'
  | params {c c' : Carry} {l : ParamLine} {r : List Continuation} : l.marker = .plus →
      Composed o c l.pieces l.carry → Chain o l.carry r c' → Chain o c (.params l :: r) c'

theorem Chain.append (hx : Chain o c xs c') (hy : Chain o c' ys c'') :
    Chain o c (xs ++ ys) c'' := by
  induction hx with
  | nil => exact hy
  | silent ht _ ih => exact .silent ht (ih hy)
  | params hm hl _ ih => exact .params hm hl (ih hy)

theorem Chain.sound (h : Chain o c xs c') (hc : Sound c) : Sound c' := by
  induction h with
  | nil => exact hc
  | silent _ _ ih => exact ih hc
  | params _ hl _ ih => exact ih hl.sound

theorem render_plus (h : l.marker = .plus) :
    l.render = marked .plus (l.pieces.map Piece.render) := by
  rw [render_marked (by rw [h]; nofun), h, marked]

/-- Comments and blank lines leave open what was open before them. -/
theorem Chain.silent_of_params (h : Chain o c xs c')
    (hxs : (xs.filterMap Continuation.params?).isEmpty = true) :
    c' = c ∧ ∀ t ∈ xs.map Continuation.render, isSilent t = true := by
  induction h with
  | nil => exact ⟨rfl, nofun⟩
  | silent ht _ ih =>
      obtain ⟨rfl, hall⟩ := ih hxs
      exact ⟨rfl, List.forall_mem_cons.mpr ⟨ht, hall⟩⟩
  | params _ _ _ _ => cases hxs

/-- Lines that are read back as they are written, the last of which leaves nothing open. -/
inductive Back (o : Options) : Carry → List Continuation → Prop where
  | nil : Back o .closed []
  | silent {c : Carry} {t : Text} {r : List Continuation} : isSilent t = true → Back o c r →
      Back o c (.verbatim t :: r)
  | params {c c' : Carry} {l : ParamLine} {r : List Continuation} : l.marker = .plus →
      ReadsBack o c (l.pieces.map Piece.render) c' → Back o c' r → Back o c (.params l :: r)

theorem Back.toBelow (h : Back o c xs) : Below o c (xs.map Continuation.render) := by
  induction h with
  | nil => exact .nil
  | silent ht _ ih => exact .silent ht ih
  | params hm hl _ ih =>
      rw [List.map_cons, Continuation.render, render_plus hm]
      exact .params hl ih

/-- The words of the parameters on the lines with some. -/
theorem Back.contents (h : Back o c xs) {ls : List Line}
    (hls : ls.map Line.body = (xs.map Continuation.render).map Line.settledBody) :
    (ls.filter Line.isCode).map Line.content =
      (xs.filterMap Continuation.params?).map fun l => spaced (l.pieces.map Piece.render) := by
  induction h generalizing ls with
  | nil =>
      rw [List.map_eq_nil_iff.mp hls]
      rfl
  | silent ht _ ih =>
      obtain ⟨l, ls, rfl, hl, hr⟩ := List.map_eq_cons_iff.mp hls
      have hcode : ¬l.isCode = true := by
        rw [Line.isCode_settledBody hl, Continuation.render, ht]
        decide
      rw [List.filter_cons_of_neg hcode]
      exact ih hr
  | params hm hws _ ih =>
      obtain ⟨l, ls, rfl, hl, hr⟩ := List.map_eq_cons_iff.mp hls
      rw [Continuation.render, render_plus hm] at hl
      obtain ⟨hcode, hcontent⟩ := code_marked_plus (RereadsLine.trim hws) hl
      rw [List.filter_cons_of_pos hcode, List.map_cons, hcontent, ih hr]
      rfl

theorem Back.silent_of_params (h : Back o c xs) (hxs : xs.filterMap Continuation.params? = []) :
    ∀ t ∈ xs.map Continuation.render, isSilent t = true := by
  induction h with
  | nil => exact nofun
  | silent ht _ ih => exact List.forall_mem_cons.mpr ⟨ht, ih hxs⟩
  | params _ _ _ _ => cases hxs

/-- The first line of parameters is read with the carry that is handed over to it. -/
theorem Back.first (h : Back o c xs) {l : ParamLine} {r : List ParamLine}
    (hxs : xs.filterMap Continuation.params? = l :: r) :
    ∃ c', ReadsBack o c (l.pieces.map Piece.render) c' := by
  induction h with
  | nil => cases hxs
  | silent _ _ ih => exact ih hxs
  | params _ hws _ _ =>
      cases hxs
      exact ⟨_, hws⟩

theorem back_silent (hxs : (xs.filterMap Continuation.params?).isEmpty = true)
    (h : ∀ t ∈ xs.map Continuation.render, isSilent t = true) : Back o .closed xs := by
  induction xs with
  | nil => exact .nil
  | cons x r ih =>
      cases x with
      | params l => cases hxs
      | verbatim t =>
          obtain ⟨ht, hr⟩ := List.forall_mem_cons.mp h
          exact .silent ht (ih hxs hr)

theorem Chain.back_close (h : Chain o c xs c')
    (hxs : (xs.filterMap Continuation.params?).isEmpty = false)
    (hproduct : closesProduct o (xs.filterMap Continuation.params?) = false) :
    Back o c.again (Continuation.close xs) := by
  induction h with
  | nil => cases hxs
  | silent ht _ ih =>
      rw [Continuation.close_verbatim]
      exact .silent ht (ih hxs hproduct)
  | @params c c' l r hm hl hr ih =>
      have hcons : ((.params l : Continuation) :: r).filterMap Continuation.params? =
          l :: r.filterMap Continuation.params? := rfl
      rw [hcons] at hproduct
      rw [Continuation.close_params]
      split
      · next hempty =>
          rw [List.isEmpty_iff.mp hempty] at hproduct
          exact .params ((marker_close l).trans hm)
            (hl.readsBack_close (by simpa [closesProduct] using hproduct))
            (back_silent hempty (hr.silent_of_params hempty).2)
      · next hempty =>
          have hne : r.filterMap Continuation.params? ≠ [] := by simpa using hempty
          rw [closesProduct_cons l hne] at hproduct
          exact .params hm hl.rereads (ih (by simpa using hempty) hproduct)

/-- Lines with nothing open above them read back once the last one is closed. -/
theorem Chain.back_of_closed (h : Chain o .closed xs c')
    (hproduct : closesProduct o (xs.filterMap Continuation.params?) = false) :
    Back o .closed (Continuation.close xs) := by
  cases hxs : (xs.filterMap Continuation.params?).isEmpty with
  | true =>
      have hclose : Continuation.close xs = xs := by
        refine close_of_carried ?_
        rw [carried_eq, List.isEmpty_iff.mp hxs]
        rfl
      rw [hclose]
      exact back_silent hxs (h.silent_of_params hxs).2
  | false => exact h.back_close hxs hproduct

/-- The lines of a statement, with the last one closed, read back. -/
theorem Chain.readsBack (hl : Composed o .closed l.pieces l.carry) (h : Chain o l.carry xs c')
    (hproduct : closesProduct o (l :: xs.filterMap Continuation.params?) = false) :
    let closed := Continuation.closeBelow l xs
    ReadsBack o .closed (closed.1.pieces.map Piece.render) closed.1.carry.again ∧
      Back o closed.1.carry.again closed.2 := by
  intro closed
  simp only [closed, Continuation.closeBelow]
  split
  · next hempty =>
      rw [List.isEmpty_iff.mp hempty] at hproduct
      have hcarry : l.close.carry = .closed := by
        rw [ParamLine.close, ParamLine.isOpen]
        cases hc : l.carry <;> simp [Carry.isOpen, hc]
      rw [hcarry]
      exact ⟨hl.readsBack_close (by simpa [closesProduct] using hproduct),
        back_silent hempty (h.silent_of_params hempty).2⟩
  · next hempty =>
      have hne : xs.filterMap Continuation.params? ≠ [] := by simpa using hempty
      rw [closesProduct_cons l hne] at hproduct
      exact ⟨hl.rereads, h.back_close (by simpa using hempty) hproduct⟩

/-- Lines that leave nothing open read back as they are. -/
theorem Chain.back (h : Chain o c xs .closed) : Back o c.again xs := by
  generalize hend : Carry.closed = c' at h
  induction h with
  | nil =>
      subst hend
      exact .nil
  | silent ht _ ih => exact .silent ht (ih hend)
  | params hm hl _ ih => exact .params hm hl.rereads (ih hend)

theorem Back.append (hx : Back o c xs) (hy : Back o .closed ys) : Back o c (xs ++ ys) := by
  induction hx with
  | nil => exact hy
  | silent ht _ ih => exact .silent ht ih
  | params hm hl _ ih => exact .params hm hl ih

/-- Comments and blank lines may stand above. -/
theorem Back.append_silent (hx : Back o c' xs)
    (hempty : (xs.filterMap Continuation.params?).isEmpty = true) (hy : Back o c ys) :
    Back o c (xs ++ ys) := by
  induction hx with
  | nil => exact hy
  | silent ht _ ih => exact .silent ht (ih hempty)
  | params _ _ _ _ => cases hempty

/-- The lines below a head are a chain. -/
theorem chain_tail {place : Placement} {ls : List Line} (hc : Sound c)
    (hsilent : ∀ l ∈ ls, l.isCode = false → isSilent l.verbatim = true)
    (hfree : AllBraceFree
      (((tail o place c ls).filterMap Continuation.params?).flatMap ParamLine.pieces)) :
    ∃ c', Chain o c (tail o place c ls) c' := by
  induction ls generalizing c with
  | nil => exact ⟨c, .nil⟩
  | cons l r ih =>
      obtain ⟨hl, hr⟩ := List.forall_mem_cons.mp hsilent
      simp only [tail] at hfree ⊢
      split at hfree
      · next hcode =>
          rw [if_pos hcode]
          have hcomposed : Composed o c (readContinuation o l.text place c).pieces
              (readContinuation o l.text place c).carry :=
            composed_readAssignments hc fun p hp => hfree p (List.mem_append_left _ hp)
          obtain ⟨c', hrest⟩ := ih hcomposed.sound hr
            fun p hp => hfree p (List.mem_append_right _ hp)
          exact ⟨c', .params rfl hcomposed hrest⟩
      · next hcode =>
          rw [if_neg hcode]
          obtain ⟨c', hrest⟩ := ih hc hr hfree
          exact ⟨c', .silent (hl (by simpa using hcode)) hrest⟩

end Param
end SpiceDeck
