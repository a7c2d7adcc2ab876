import SpiceDeck.Proofs.Model.Carry
import SpiceDeck.Proofs.Written.Models

/-!
Parameters, calls and models as they are read and closed. Main statements: where bare values
are free of braces and closing makes no product in braces, all of them are written in words
that read back.
-/

namespace SpiceDeck
open Text

namespace Param
open Source

variable {o : Options} {c c' c₁ : Carry} {ps : List Piece} {l : ParamLine}
  {xs ys : List Continuation}

/-- No bare value has braces, and closing the last line makes no product in braces. -/
def Repeatable (o : Options) (ls : List ParamLine) : Prop :=
  AllBraceFree (ls.flatMap ParamLine.pieces) ∧ closesProduct o ls = false

instance (o : Options) (ls : List ParamLine) : Decidable (Repeatable o ls) :=
  inferInstanceAs (Decidable (_ ∧ _))

/-- Comments and blank lines are read as such. -/
def SilentApart (ls : List Line) : Prop := ∀ l ∈ ls, l.isCode = false → isSilent l.verbatim = true

theorem mem_of_mem_dropCode {n : Nat} {l : Line} {ls : List Line} (h : l ∈ dropCode n ls) :
    l ∈ ls := by
  induction ls generalizing n with
  | nil => cases h
  | cons x r ih =>
      simp only [dropCode] at h
      split at h
      · cases n with
        | zero => exact h
        | succ n => exact List.mem_cons_of_mem _ (ih h)
      · obtain rfl | h := List.mem_cons.mp h
        · exact List.mem_cons_self
        · exact List.mem_cons_of_mem _ (ih h)

theorem SilentApart.dropCode {ls : List Line} (h : SilentApart ls) (n : Nat) :
    SilentApart (dropCode n ls) := fun l hl => h l (mem_of_mem_dropCode hl)

theorem composed_readStatement? {t : Text} {place : Placement} (hc : Sound c)
    (h : readStatement? o t place c = some l) :
    (l.marker = .param ∨ l.marker = .plus) ∧
      (AllBraceFree l.pieces → Composed o c l.pieces l.carry) := by
  simp only [readStatement?] at h
  split at h
  · cases h
    exact ⟨.inl rfl, fun hfree => composed_readAssignments hc hfree⟩
  · split at h
    · cases h
      refine ⟨?_, fun hfree => composed_readAssignments hc hfree⟩
      change (if _ then Marker.plus else .param) = _ ∨ (if _ then Marker.plus else .param) = _
      split
      · exact .inr rfl
      · exact .inl rfl
    · cases h

theorem sound_closed : Sound .closed := trivial

/-- The lines below a line that is read, and this with them, as they are closed. -/
theorem readsBack_tail {ls : List Line} {place : Placement} (hsilent : SilentApart ls)
    (hl : AllBraceFree l.pieces → Composed o .closed l.pieces l.carry)
    (h : Repeatable o (l :: (tail o place l.carry ls).filterMap Continuation.params?)) :
    ∃ c₁, ReadsBack o .closed
        ((Continuation.closeBelow l (tail o place l.carry ls)).1.pieces.map Piece.render) c₁ ∧
      Back o c₁ (Continuation.closeBelow l (tail o place l.carry ls)).2 := by
  obtain ⟨hfree, hproduct⟩ := h
  rw [List.flatMap_cons] at hfree
  have hcomposed := hl fun p hp => hfree p (List.mem_append_left _ hp)
  obtain ⟨c', hchain⟩ := chain_tail hcomposed.sound hsilent
    fun p hp => hfree p (List.mem_append_right _ hp)
  exact ⟨_, hchain.readsBack hcomposed hproduct⟩

end Param

namespace Scope
variable {o : Options} {s : Statement} {place : Param.Placement} {head : ParamLine}

/-- The lines below the head of a parameter statement, as they are read. -/
def parameterTail (o : Options) (s : Statement) (place : Param.Placement) (head : ParamLine) :
    List Continuation :=
  Param.tail o (if head.marker = .param then .topLevel else place) head.carry s.tail

/-- A parameter statement is written with its marker in words that read back. -/
theorem parameterLines_writes (hsilent : Param.SilentApart s.tail)
    (hhead : Param.readStatement? o s.head.content place .closed = some head)
    (h : Param.Repeatable o
      (head :: (parameterTail o s place head).filterMap Continuation.params?)) :
    ∃ ws c raws, Param.ReadsBack o .closed ws c ∧ Param.Below o c raws ∧
      (parameterLines o s place).1 = head.marker ∧
      (parameterLines o s place).2.1 = Param.marked head.marker ws :: raws ∧
      (parameterLines o s place).2.2.lines = [] := by
  obtain ⟨hmarker, hcomposed⟩ := Param.composed_readStatement? Param.sound_closed hhead
  obtain ⟨c, hws, hback⟩ := Param.readsBack_tail hsilent hcomposed h
  have hrender : ∀ l : ParamLine, l.marker = head.marker →
      l.render = Param.marked head.marker (l.pieces.map Piece.render) := by
    intro l hl
    rw [Param.render_marked (by rw [hl]; obtain h | h := hmarker <;> rw [h] <;> nofun), hl]
    rfl
  refine ⟨_, c, _, hws, hback.toBelow, ?_, ?_, ?_⟩
  · simp only [parameterLines, hhead]
  · simp only [parameterLines, hhead, Continuation.close_cons, List.map_cons, Continuation.render]
    rw [hrender _ (Continuation.marker_closeBelow _ _)]
  · simp only [parameterLines, hhead]
    exact lines_warnIf _ _ _

end Scope

namespace Call
variable {o : Options} {c : Call}

/-- The parameters of a closed call are written in words that read back. -/
structure IsSound (o : Options) (c : Call) : Prop where
  marker : c.params.marker = .none
  reads : ∃ c₁, Param.ReadsBack o .closed (c.params.pieces.map Piece.render) c₁ ∧
    Param.Back o c₁ c.tail

theorem isSound_close_ofHead {head : CallOpening} {s : Statement}
    (hsilent : Param.SilentApart s.lines)
    (h : Param.Repeatable o (Call.ofHead o head s).paramLines) :
    (Call.ofHead o head s).close.IsSound o := by
  obtain ⟨c, hws, hback⟩ := Param.readsBack_tail (hsilent.dropCode head.consumed)
    (fun hfree => Param.composed_readAssignments Param.sound_closed hfree) h
  have hclose : (Call.ofHead o head s).close.params =
        (Continuation.closeBelow (Call.ofHead o head s).params (Call.ofHead o head s).tail).1 ∧
      (Call.ofHead o head s).close.tail =
        (Continuation.closeBelow (Call.ofHead o head s).params (Call.ofHead o head s).tail).2 := by
    rw [Call.close, Continuation.closeBelow]
    split <;> exact ⟨rfl, rfl⟩
  refine ⟨?_, c, ?_, ?_⟩
  · rw [hclose.1, Continuation.marker_closeBelow]
    exact Param.marker_readAssignments _ _ _ _
  · rw [hclose.1]
    exact hws
  · rw [hclose.2]
    exact hback

/-- The pins and the reference of a call as they are written. -/
def parts (c : Call) (r : Resolution) : List Text :=
  c.pins ++ if r.dropReference then [] else [c.reference]

theorem render_eq (hm : c.params.marker = .none) (r : Resolution) :
    c.render r =
      written (withLetter r.letter c.name) (c.parts r) (c.params.pieces.map Piece.render) ::
        c.tail.map Continuation.render := by
  have hparams : c.params.render = spaced (c.params.pieces.map Piece.render) := by
    rw [ParamLine.render, hm]
  rw [render, head, written, ← hparams]
  simp only [parts, List.cons_append, List.append_assoc]
  rw [← List.append_assoc, ← List.cons_append, spaced_concat]

end Call

namespace Param
open Source
variable {o : Options} {c c' : Carry} {ps : List Piece} {l : ParamLine} {f : Piece → Bool}

/-- A list stays one without an assignment that is not its last. -/
theorem Listed.eraseP (h : Listed o ps c) (hf : ∀ p, f p = true → ∃ name v, p = .assign name v)
    (hlast : c.isOpen = true → (∃ p ∈ ps.dropLast, f p = true) ∨ ∀ p ∈ ps, f p = false) :
    Listed o (ps.eraseP f) c := by
  have hcomment : ∀ x, f (.comment x) = false := by
    intro x
    rw [Bool.eq_false_iff]
    intro hx
    obtain ⟨name, v, heq⟩ := hf _ hx
    cases heq
  induction h with
  | nil => exact .nil
  | @remarks x ys hx hink =>
      have hnone : ((x :: ys).map Piece.comment).eraseP f = (x :: ys).map Piece.comment := by
        refine List.eraseP_of_forall_not ?_
        intro p hp
        obtain ⟨t, -, rfl⟩ := List.mem_map.mp hp
        simp [hcomment]
      rw [hnone]
      exact .remarks hx hink
  | @value name v ps c hn hv hps ih =>
      cases hfirst : f (.assign name v) with
      | true =>
          rw [List.eraseP_cons_of_pos hfirst]
          exact hps
      | false =>
          rw [List.eraseP_cons_of_neg (by rw [hfirst]; decide)]
          refine .value hn hv (ih fun hc => ?_)
          obtain ⟨p, hp, hfp⟩ | hnone := hlast hc
          · cases ps with
            | nil => cases hp
            | cons q r =>
                rw [List.dropLast_cons_cons, List.mem_cons] at hp
                obtain rfl | hp := hp
                · rw [hfirst] at hfp
                  cases hfp
                · exact .inl ⟨p, hp, hfp⟩
          · exact .inr fun p hp => hnone p (List.mem_cons_of_mem _ hp)
  | @begun name v c hn hc hv =>
      obtain ⟨p, hp, -⟩ | hnone := hlast hc
      · cases hp
      · rw [List.eraseP_of_forall_not (by simpa using hnone)]
        exact .begun hn hc hv

theorem Composed.eraseP (h : Composed o c ps c')
    (hf : ∀ p, f p = true → ∃ name v, p = .assign name v)
    (hlast : c'.isOpen = true → (∃ p ∈ ps.dropLast, f p = true) ∨ ∀ p ∈ ps, f p = false) :
    Composed o c (ps.eraseP f) c' := by
  have hfragment : ∀ v, f (.fragment v) = false := by
    intro v
    rw [Bool.eq_false_iff]
    intro hv
    obtain ⟨name, w, heq⟩ := hf _ hv
    cases heq
  cases h with
  | fresh h => exact .fresh (h.eraseP hf hlast)
  | @ended _ _ v ps hv h =>
      rw [List.eraseP_cons_of_neg (by rw [hfragment]; decide)]
      refine .ended hv (h.eraseP hf fun hc => ?_)
      obtain ⟨p, hp, hfp⟩ | hnone := hlast hc
      · cases ps with
        | nil => cases hp
        | cons q r =>
            rw [List.dropLast_cons_cons, List.mem_cons] at hp
            obtain rfl | hp := hp
            · rw [hfragment] at hfp
              cases hfp
            · exact .inl ⟨p, hp, hfp⟩
      · exact .inr fun p hp => hnone p (List.mem_cons_of_mem _ hp)
  | @continued _ _ v hc hv =>
      rw [List.eraseP_cons_of_neg (by rw [hfragment]; decide)]
      exact .continued hc hv

/-- Taking a polarity off a line leaves its other pieces as they are. -/
theorem Composed.remainder (h : Composed o c l.pieces l.carry) (hread : l.IsRead) :
    Composed o c (Model.remainder l).pieces (Model.remainder l).carry := by
  rw [Model.carry_remainder]
  cases hany : l.pieces.any Piece.givesPolarity with
  | false => rwa [Model.remainder_of_no_polarity hany]
  | true =>
      rw [Model.remainder_of_polarity hany]
      refine h.eraseP (f := fun p => p.assigns "type".toList) ?_ fun hc => .inl ?_
      · intro p hp
        cases p with
        | assign name v => exact ⟨name, v, rfl⟩
        | fragment v | comment t => cases hp
      · -- the last piece is open, so the one that gives the polarity stands before it
        obtain ⟨before, p, hpieces, hunnamed⟩ := hread.unnamed hc
        obtain ⟨q, hq, hgives⟩ := List.any_eq_true.mp hany
        rw [hpieces, List.mem_append, List.mem_singleton] at hq
        obtain hq | rfl := hq
        · exact ⟨q, by rwa [hpieces, List.dropLast_concat], Piece.assigns_of_givesPolarity q hgives⟩
        · rw [hunnamed] at hgives
          cases hgives

theorem closesProduct_remainder (hread : l.IsRead) :
    (Model.remainder l).closesProduct o = l.closesProduct o := by
  cases hc : l.carry with
  | closed =>
      rw [closesProduct_of_closed hc, closesProduct_of_closed (by rw [Model.carry_remainder, hc])]
  | bare _ | brace _ | quote _ =>
      obtain ⟨before, kept, p, hp, hkept⟩ := hread.pieces_remainder
        (by rw [ParamLine.isOpen, hc]; rfl)
      rw [ParamLine.closesProduct, ParamLine.closesProduct, Model.carry_remainder, hp, hkept,
        List.getLast?_concat, List.getLast?_concat]

end Param
end SpiceDeck
