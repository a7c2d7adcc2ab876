import SpiceDeck.Proofs.Written.Readings

/-!
Models as they are read. The lines of a model go on with one another, also where a polarity is
taken off them. Main statement: the model of a closed statement is written in words that read
back.
-/

namespace SpiceDeck
open Text

namespace Param
open Source

variable {o : Options} {c : Carry} {xs : List Continuation} {ws : List Text}

/-- Lines with nothing on them need not be written. -/
theorem Back.tailLines (h : Back o c xs) : Below o c (Model.tailLines xs) := by
  induction h with
  | nil => exact .nil
  | silent ht _ ih => exact .silent ht ih
  | @params c c' l r hm hl _ ih =>
      cases hempty : l.isEmpty with
      | true =>
          have hpieces : l.pieces = [] := List.isEmpty_iff.mp hempty
          rw [hpieces] at hl
          obtain ⟨rfl, rfl⟩ := ReadsBack.closed_of_nil hl
          simp only [Model.tailLines, List.filterMap_cons, hempty, if_true]
          exact ih
      | false =>
          rw [Model.tailLines_params hempty, render_plus hm]
          exact .params hl ih

end Param

namespace Model
open Param Source

variable {o : Options} {m : Model} {c : Carry} {l : ParamLine}

/-- What the line of the head leaves open. -/
def headCarry (m : Model) : Carry := m.params.elim .closed ParamLine.carry

/-- The words of the head behind the type. -/
def headWords (m : Model) : List Text := m.params.elim [] fun l => l.pieces.map Piece.render

/-- The type comes from a keyword. -/
def IsTyped (m : Model) : Prop := ∃ keyword p, m.type = .given keyword p

/-- A model whose lines go on with one another up to what the last one leaves open. -/
structure Runs (o : Options) (m : Model) (c : Carry) : Prop where
  typed : m.IsTyped
  head : ∀ l ∈ m.params, l.marker = .none ∧ Composed o .closed l.pieces l.carry
  tail : Chain o m.headCarry m.tail c

/-- A model that is written in words that read back. -/
structure IsSound (o : Options) (m : Model) : Prop where
  typed : m.IsTyped
  marker : ∀ l ∈ m.params, l.marker = .none
  head : ReadsBack o .closed m.headWords m.headCarry.again
  tail : Back o m.headCarry.again m.tail

theorem isTyped_new (base keyword : Text) (line : Nat) : (new base keyword line).IsTyped :=
  ⟨keyword, none, rfl⟩

theorem IsTyped.absorb (h : m.IsTyped) (l : ParamLine) : (m.absorb l).IsTyped := by
  obtain ⟨keyword, p, hp⟩ := h
  simp only [Model.absorb]
  split
  · next q hq => exact ⟨keyword, some q, by rw [hp, ModelType.resolve_given]⟩
  · exact ⟨keyword, p, hp⟩

theorem marker_remainder (l : ParamLine) : (remainder l).marker = l.marker := by
  rw [remainder]
  split <;> rfl

theorem runs_new (o : Options) (base keyword : Text) (line : Nat) :
    (new base keyword line).Runs o .closed :=
  ⟨isTyped_new base keyword line, nofun, .nil⟩

theorem runs_withParams (hm : m.IsTyped) (hnil : m.tail = []) (hmarker : l.marker = .none)
    (hread : l.IsRead) (hl : Composed o .closed l.pieces l.carry) :
    (m.withParams l).Runs o l.carry := by
  have htail : (m.withParams l).tail = [] := (tail_absorb m l).trans hnil
  refine ⟨hm.absorb l, ?_, ?_⟩
  · rintro x ⟨⟩
    exact ⟨(marker_remainder l).trans hmarker, hl.remainder hread⟩
  · rw [htail, headCarry]
    change Chain o (remainder l).carry [] l.carry
    rw [carry_remainder]
    exact .nil

theorem Runs.addParams (h : m.Runs o c) (hmarker : l.marker = .plus) (hread : l.IsRead)
    (hl : Composed o c l.pieces l.carry) : (m.addParams l).Runs o l.carry := by
  have hhead : (m.addParams l).params = m.params := params_absorb m l
  refine ⟨h.typed.absorb l, ?_, ?_⟩
  · rw [hhead]
    exact h.head
  · have hlast : Chain o c [.params (remainder l)] l.carry := by
      have hcomposed := hl.remainder hread
      rw [← carry_remainder l]
      exact .params ((marker_remainder l).trans hmarker) hcomposed .nil
    rw [headCarry, hhead]
    exact h.tail.append hlast

theorem Runs.addText {t : Text} (h : m.Runs o c) (ht : isSilent t = true) :
    (m.addText t).Runs o c :=
  ⟨h.typed, h.head, h.tail.append (.silent ht .nil)⟩

theorem Runs.sound (h : m.Runs o c) : Sound c := by
  refine h.tail.sound ?_
  rw [headCarry]
  cases hparams : m.params with
  | none => exact sound_closed
  | some l => exact (h.head l hparams).2.sound

theorem Runs.isSound (h : m.Runs o .closed) : m.IsSound o := by
  refine ⟨h.typed, fun l hl => (h.head l hl).1, ?_, h.tail.back⟩
  rw [headWords, headCarry]
  cases hparams : m.params with
  | none => exact .fresh .nil
  | some l => exact (h.head l hparams).2.rereads

theorem Runs.isSound_close (h : m.Runs o c) (hproduct : closesProduct o m.paramLines = false) :
    m.close.IsSound o := by
  obtain ⟨htyped, hhead, htail⟩ := h
  cases hparams : m.params with
  | none =>
      rw [headCarry, hparams] at htail
      rw [paramLines, hparams] at hproduct
      have hclose : m.close.params = none ∧ m.close.type = m.type ∧
          Back o .closed m.close.tail := by
        simp only [close, hparams]
        split
        · next hempty =>
            exact ⟨rfl, rfl, back_silent hempty (htail.silent_of_params hempty).2⟩
        · next hne =>
            exact ⟨rfl, rfl, htail.back_close (by simpa using hne) hproduct⟩
      obtain ⟨hnone, htype, hback⟩ := hclose
      refine ⟨by rwa [IsTyped, htype], by simp [hnone], ?_, ?_⟩
      · rw [headWords, headCarry, hnone]
        exact .fresh .nil
      · rw [headCarry, hnone]
        exact hback
  | some l =>
      obtain ⟨hmarker, hcomposed⟩ := hhead l hparams
      rw [headCarry, hparams] at htail
      rw [paramLines, hparams] at hproduct
      obtain ⟨hwords, hback⟩ := htail.readsBack hcomposed hproduct
      have hclose : m.close.params = some (Continuation.closeBelow l m.tail).1 ∧
          m.close.type = m.type ∧ m.close.tail = (Continuation.closeBelow l m.tail).2 := by
        simp only [close, Continuation.closeBelow, hparams, Option.map_some]
        split
        · exact ⟨rfl, rfl, rfl⟩
        · exact ⟨rfl, rfl, rfl⟩
      obtain ⟨hsome, htype, hcloseTail⟩ := hclose
      refine ⟨by rwa [IsTyped, htype], ?_, ?_, ?_⟩
      · rw [hsome]
        rintro x ⟨⟩
        rw [Continuation.marker_closeBelow, hmarker]
      · rw [headWords, headCarry, hsome]
        exact hwords
      · rw [headCarry, hsome, hcloseTail]
        exact hback

/-- The words around the parameters can be told apart, and no line below the head is empty or
starts with a second plus sign. -/
structure Repeats (m : Model) : Prop where
  name : IsInk m.name
  type : IsInk m.type.emitted
  noParen : '(' ∉ m.type.emitted
  full : ∀ t ∈ tailLines m.tail, IsFull t = true

instance (m : Model) : Decidable m.Repeats :=
  decidable_of_iff ((!m.name.isEmpty && m.name.all (!isSpace ·)) = true ∧
      (!m.type.emitted.isEmpty && m.type.emitted.all (!isSpace ·)) = true ∧
      '(' ∉ m.type.emitted ∧ ∀ t ∈ tailLines m.tail, IsFull t = true)
    ⟨fun h => ⟨(isInk_iff _).mpr h.1, (isInk_iff _).mpr h.2.1, h.2.2.1, h.2.2.2⟩,
      fun h => ⟨(isInk_iff _).mp h.name, (isInk_iff _).mp h.type, h.noParen, h.full⟩⟩

theorem IsSound.headLine (h : m.IsSound o) :
    m.headLine = written m.name m.type.emitted m.headWords := by
  obtain ⟨-, hmarker, hhead, -⟩ := h
  cases hparams : m.params with
  | some l =>
      have hnil := hhead.spaced_eq_nil_iff
      rw [headWords, hparams, Option.elim_some] at hnil ⊢
      refine headLine_eq hparams (hmarker l hparams) ?_
      rw [hnil, ParamLine.isEmpty, List.isEmpty_iff, List.map_eq_nil_iff]
  | none =>
      rw [headWords, hparams]
      cases m
      cases hparams
      exact (List.append_nil _).symm

theorem IsSound.written (h : m.IsSound o) (hr : m.Repeats) :
    Written o m.name m.type.emitted m.headLine (tailLines m.tail) := by
  obtain ⟨keyword, p, hp⟩ := h.typed
  rw [h.headLine]
  refine ⟨hr.name, hr.type, hr.noParen, ?_, h.head, h.tail.tailLines, hr.full⟩
  rw [hp]
  exact ModelType.emitted_ofKeyword_emitted keyword p

section Statement

/-- The parameter lines that are read from the parts of a statement. -/
def Part.linesFrom (o : Options) (c : Carry) : List Part → List ParamLine
  | [] => []
  | .code t :: r =>
      let l := readContinuation o t .modelBody c
      l :: linesFrom o l.carry r
  | .passive _ :: r => linesFrom o c r

/-- Those of all parts, the first of which is the head line. -/
def Part.linesRead (o : Options) : List Part → List ParamLine
  | .code t :: r =>
      let l := readAssignments o t .modelBody .closed
      l :: Part.linesFrom o l.carry r
  | parts => Part.linesFrom o .closed parts

/-- The parameter lines of a model statement as they are read. -/
def linesRead (o : Options) (h : ModelOpening) (s : Statement) : List ParamLine :=
  let parts := .code h.rest :: s.tail.map Part.ofLine
  Part.linesRead o (if h.parenthesized then Part.closeList parts else parts)

theorem Part.isRead_linesFrom (hc : Sound c) (ps : List Part) :
    ∀ l ∈ Part.linesFrom o c ps, l.IsRead := by
  induction ps generalizing c with
  | nil => nofun
  | cons p r ih =>
      cases p with
      | code t =>
          have hread := ParamLine.isRead_readContinuation hc o t .modelBody
          exact List.forall_mem_cons.mpr ⟨hread, ih hread.sound⟩
      | passive t => exact ih hc

theorem paramLines_readParts (m : Model) (ps : List Part) :
    (readParts o m c ps).paramLines = m.paramLines ++ (Part.linesFrom o c ps).map remainder := by
  induction ps generalizing m c with
  | nil => exact (List.append_nil _).symm
  | cons p r ih =>
      cases p with
      | code t =>
          simp only [readParts, Part.linesFrom, ih, paramLines_addParams, List.map_cons,
            List.append_assoc, List.singleton_append]
      | passive t => simp only [readParts, Part.linesFrom, ih, paramLines_addText]

theorem Runs.readParts {ps : List Part} (h : m.Runs o c)
    (hsilent : ∀ t, Part.passive t ∈ ps → isSilent t = true)
    (hfree : AllBraceFree ((Part.linesFrom o c ps).flatMap ParamLine.pieces)) :
    ∃ c', (Model.readParts o m c ps).Runs o c' := by
  induction ps generalizing m c with
  | nil => exact ⟨c, h⟩
  | cons p r ih =>
      have hr : ∀ t, Part.passive t ∈ r → isSilent t = true :=
        fun t ht => hsilent t (List.mem_cons_of_mem _ ht)
      cases p with
      | code t =>
          have hsound := h.sound
          simp only [Part.linesFrom, List.flatMap_cons] at hfree
          have hl : Composed o c (readContinuation o t .modelBody c).pieces
              (readContinuation o t .modelBody c).carry :=
            composed_readAssignments hsound fun p hp => hfree p (List.mem_append_left _ hp)
          exact ih (h.addParams rfl (ParamLine.isRead_readContinuation hsound o t .modelBody) hl) hr
            fun p hp => hfree p (List.mem_append_right _ hp)
      | passive t => exact ih (h.addText (hsilent t List.mem_cons_self)) hr hfree

theorem closesProduct_map_remainder {ls : List ParamLine} (h : ∀ l ∈ ls, l.IsRead) :
    closesProduct o (ls.map remainder) = closesProduct o ls := by
  rw [closesProduct, closesProduct, List.getLast?_map]
  cases hlast : ls.getLast? with
  | none => rfl
  | some l => exact Param.closesProduct_remainder (h l (List.mem_of_getLast? hlast))

theorem passive_dropParen {ps : List Part} {t : Text} (h : Part.passive t ∈ Part.dropParen ps) :
    Part.passive t ∈ ps := by
  induction ps with
  | nil => exact h
  | cons p r ih =>
      cases p with
      | passive u =>
          obtain heq | h := List.mem_cons.mp h
          · exact List.mem_cons.mpr (.inl heq)
          · exact List.mem_cons_of_mem _ (ih h)
      | code u =>
          simp only [Part.dropParen] at h
          split at h
          · exact List.mem_cons_of_mem _ ((List.mem_cons.mp h).resolve_left (by simp))
          · exact List.mem_cons_of_mem _ (ih ((List.mem_cons.mp h).resolve_left (by simp)))

theorem isSound_close_ofParts {ps : List Part} (hm : m.IsTyped) (hparams : m.params = none)
    (hnil : m.tail = []) (hsilent : ∀ t, Part.passive t ∈ ps → isSilent t = true)
    (hr : Repeatable o (Part.linesRead o ps)) :
    (match ps with
      | .code t :: r =>
          let l := readAssignments o t .modelBody .closed
          readParts o (m.withParams l) l.carry r
      | parts => readParts o m .closed parts).close.IsSound o := by
  obtain ⟨hfree, hproduct⟩ := hr
  have hruns : m.Runs o .closed := by
    refine ⟨hm, by rw [hparams]; nofun, ?_⟩
    rw [headCarry, hparams, hnil]
    exact .nil
  have hlines : m.paramLines = [] := by rw [paramLines, hparams, hnil]; rfl
  -- only a head line with code on it is read as the line of the type
  have hplain : Part.linesRead o ps = Part.linesFrom o .closed ps →
      (readParts o m .closed ps).close.IsSound o := by
    intro heq
    rw [heq] at hfree hproduct
    obtain ⟨c, hc⟩ := hruns.readParts hsilent hfree
    refine hc.isSound_close ?_
    rw [paramLines_readParts, hlines, List.nil_append,
      closesProduct_map_remainder (Part.isRead_linesFrom sound_closed _)]
    exact hproduct
  cases ps with
  | nil => exact hplain rfl
  | cons p r =>
      cases p with
      | passive t => exact hplain rfl
      | code t =>
          have hread := ParamLine.isRead_readAssignments sound_closed o t .modelBody
          rw [Part.linesRead, List.flatMap_cons] at hfree
          have hhead := runs_withParams hm hnil (marker_readAssignments _ _ _ _) hread
            (composed_readAssignments sound_closed fun p hp => hfree p (List.mem_append_left _ hp))
          obtain ⟨c, hc⟩ := hhead.readParts (fun t ht => hsilent t (List.mem_cons_of_mem _ ht))
            fun p hp => hfree p (List.mem_append_right _ hp)
          refine hc.isSound_close ?_
          rw [paramLines_readParts, paramLines_withParams hnil, List.singleton_append,
            ← List.map_cons, closesProduct_map_remainder (List.forall_mem_cons.mpr
              ⟨hread, Part.isRead_linesFrom hread.sound r⟩)]
          exact hproduct

/-- The model of a closed statement is written in words that read back. -/
theorem isSound_close_ofHead {h : ModelOpening} {s : Statement} (hsilent : SilentApart s.tail)
    (hr : Repeatable o (linesRead o h s)) : (ofHead o h s).close.IsSound o := by
  refine isSound_close_ofParts (isTyped_new _ _ _) rfl rfl ?_ hr
  have hparts : ∀ t, Part.passive t ∈ Part.code h.rest :: s.tail.map Part.ofLine →
      isSilent t = true := by
    intro t ht
    obtain ⟨l, hl, heq⟩ := List.mem_map.mp ((List.mem_cons.mp ht).resolve_left nofun)
    rw [Part.ofLine] at heq
    split at heq
    · cases heq
    · next hcode =>
        cases heq
        exact hsilent l hl (by simpa using hcode)
  intro t ht
  split at ht
  · rw [Part.closeList] at ht
    split at ht
    · exact hparts t (List.mem_reverse.mp (passive_dropParen (List.mem_reverse.mp ht)))
    · exact hparts t ht
  · exact hparts t ht

end Statement
end Model
end SpiceDeck
