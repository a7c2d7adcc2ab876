import Mathlib.Data.List.Nodup
import SpiceDeck.Proofs.Written.ModelReadings

/-!
Model blocks as they are read. The lines of each bin go on with one another, whatever lines of
other bins stand between them. Main statement: the models of a closed block are written in
words that read back.
-/

namespace SpiceDeck
open Text

namespace Model.Block
open Param Source

variable {o : Options} {b : Model.Block} {c : Carry} {p : Part} {ps qs : List Part}

/-- No bare value on the line of the part has braces. -/
def Part.IsPlain (p : Part) : Prop := ∀ l ∈ p.params?, AllBraceFree l.pieces

instance (p : Part) : Decidable p.IsPlain :=
  decidable_of_iff (p.params?.all fun l => decide (AllBraceFree l.pieces)) (by
    simp [Part.IsPlain, Option.all_eq_true])

/-- The parts are read one after the other, comments and blank lines as such. -/
def AreRead (o : Options) : Carry → List Part → Prop
  | _, [] => True
  | c, p :: r =>
      p.IsRead o c ∧ (∀ t, p = .line (.verbatim t) → isSilent t = true) ∧
        AreRead o (p.carryAfter c) r

theorem AreRead.append (hp : AreRead o c ps) (hq : AreRead o (ps.foldl Part.carryAfter c) qs) :
    AreRead o c (ps ++ qs) := by
  induction ps generalizing c with
  | nil => exact hq
  | cons p r ih => exact ⟨hp.1, hp.2.1, ih hp.2.2 hq⟩

theorem areRead_partsOfLine (o : Options) (c : Carry) (t : Text) (line : Nat) :
    AreRead o c (partsOfLine o c t line).1 := by
  simp only [partsOfLine]
  split
  · trivial
  · refine ⟨Part.isRead_partOfText o c _ line, ?_, trivial⟩
    intro t ht
    rw [partOfText] at ht
    split at ht <;> cases ht

theorem areRead_partsOf {ls : List Line} (hsilent : SilentApart ls) (c : Carry) :
    AreRead o c (partsOf o c ls).1 := by
  induction ls generalizing c with
  | nil => trivial
  | cons l r ih =>
      obtain ⟨hl, hr⟩ := List.forall_mem_cons.mp hsilent
      simp only [partsOf]
      split
      · split
        · exact areRead_partsOfLine o c _ _
        · exact (areRead_partsOfLine o c _ _).append (ih hr _)
      · next hcode =>
          refine ⟨trivial, ?_, ih hr c⟩
          rintro t ⟨⟩
          exact hl (by simpa using hcode)

theorem areRead_partsOfHead {s : Statement} (h : ModelOpening) (hsilent : SilentApart s.tail) :
    AreRead o .closed (partsOfHead o h s).1 := by
  simp only [partsOfHead]
  split
  · exact areRead_partsOfLine o _ _ _
  · exact (areRead_partsOfLine o _ _ _).append (areRead_partsOf hsilent _)

/-- A block whose models have lines that go on with one another. -/
structure Runs (o : Options) (b : Model.Block) : Prop where
  tracks : b.Tracks o
  sound : Sound b.carry
  params : b.common.params = none
  common : b.common.Runs o (b.carryAt none)
  bins : ∀ x ∈ b.bins, x.2.Runs o (b.carryAt (some x.1))

theorem runs_new (o : Options) (base keyword : Text) (line : Nat) :
    (new base keyword line).Runs o where
  tracks := tracks_new o base keyword line
  sound := sound_closed
  params := rfl
  common := Model.runs_new o base keyword line
  bins := nofun

theorem Part.IsRead.sound (h : p.IsRead o c) (hc : Sound c) : Sound (p.carryAfter c) := by
  cases p with
  | bin index l line =>
      obtain ⟨-, t, rfl⟩ := h
      exact (ParamLine.isRead_readAssignments sound_closed o t .modelBody).sound
  | line l =>
      cases l with
      | params l =>
          obtain ⟨t, rfl⟩ := h
          exact (ParamLine.isRead_readContinuation hc o t .modelBody).sound
      | verbatim t => exact hc

theorem runs_add {m : Model} {l : Continuation} (h : m.Runs o c) (hread : (Part.line l).IsRead o c)
    (hsilent : ∀ t, l = .verbatim t → isSilent t = true) (hplain : (Part.line l).IsPlain) :
    (m.add l).Runs o ((Part.line l).carryAfter c) := by
  cases l with
  | verbatim t => exact h.addText (hsilent t rfl)
  | params l =>
      obtain ⟨t, rfl⟩ := hread
      have hfree : AllBraceFree (readContinuation o t .modelBody c).pieces := hplain _ rfl
      exact h.addParams rfl (ParamLine.isRead_readContinuation h.sound o t .modelBody)
        (composed_readAssignments h.sound hfree)

theorem Runs.addLine {l : Continuation} (h : b.Runs o) (hread : (Part.line l).IsRead o b.carry)
    (hsilent : ∀ t, l = .verbatim t → isSilent t = true) (hplain : (Part.line l).IsPlain) :
    (b.add (.line l)).Runs o := by
  have htracks := h.tracks.addLine hread
  have hsound : Sound (b.add (.line l)).carry := hread.sound h.sound
  have hcommon := h.common
  have hbins := h.bins
  rw [add_line] at htracks hsound ⊢
  cases hc : b.current with
  | none =>
      simp only [carryAt, hc, if_true] at hcommon hbins
      rw [modifyCurrent_common hc] at htracks hsound ⊢
      refine ⟨htracks, hsound, ?_, ?_, ?_⟩
      · cases l with
        | params l => exact (params_absorb b.common l).trans h.params
        | verbatim t => exact h.params
      · rw [carryAt, if_pos hc]
        exact runs_add hcommon hread hsilent hplain
      · intro x hx
        simp only [carryAt, hc]
        exact hbins x hx
  | some index =>
      rw [modifyCurrent_bin hc] at htracks hsound ⊢
      refine ⟨htracks, hsound, h.params, ?_, ?_⟩
      · simp only [carryAt, hc, reduceCtorEq, if_false] at hcommon ⊢
        exact hcommon
      · intro x hx
        obtain ⟨y, hy, rfl⟩ := List.mem_map.mp hx
        have hruns := hbins y hy
        by_cases hi : y.1 = index
        · simp only [carryAt, hc, hi, if_true] at hruns ⊢
          exact runs_add hruns hread hsilent hplain
        · have hne : some index ≠ some y.1 := fun heq => hi (Option.some.inj heq).symm
          simp only [carryAt, hc, hi, hne, if_false] at hruns ⊢
          exact hruns

theorem Runs.addBin {index line : Nat} {l : ParamLine} (h : b.Runs o)
    (hread : (Part.bin index l line).IsRead o b.carry) (hplain : (Part.bin index l line).IsPlain) :
    (b.add (.bin index l line)).Runs o := by
  have htracks := h.tracks.addBin hread.1 index l line
  have hsound : Sound (b.add (.bin index l line)).carry := hread.sound h.sound
  have hat : ∀ place, b.carryAt place = .closed := by
    intro place
    rw [carryAt, hread.1, ite_self]
  have hother : ∀ place, some index ≠ place →
      (b.add (.bin index l line)).carryAt place = .closed := by
    intro place hne
    exact if_neg hne
  have hnew : (b.add (.bin index l line)).carryAt (some index) = l.carry := if_pos rfl
  refine ⟨htracks, hsound, h.params, ?_, ?_⟩
  · rw [hother none (by simp), ← hat none]
    exact h.common
  · intro x hx
    obtain rfl | ⟨hx, hne⟩ := h.tracks.distinct.mem_insertBin hx
    · rw [hnew]
      obtain ⟨-, t, rfl⟩ := hread
      exact runs_withParams (isTyped_new b.common.base b.keyword line) rfl
        (marker_readAssignments _ _ _ _)
        (ParamLine.isRead_readAssignments sound_closed o t .modelBody)
        (composed_readAssignments sound_closed (hplain _ rfl))
    · rw [hother (some x.1) fun heq => hne (Option.some.inj heq).symm, ← hat (some x.1)]
      exact h.bins x hx

theorem Runs.foldl_add (h : b.Runs o) (hread : AreRead o b.carry ps)
    (hplain : ∀ p ∈ ps, p.IsPlain) : (ps.foldl add b).Runs o := by
  induction ps generalizing b with
  | nil => exact h
  | cons p r ih =>
      obtain ⟨hp, hr⟩ := List.forall_mem_cons.mp hplain
      obtain ⟨hfirst, hsilent, hrest⟩ := hread
      refine ih ?_ hrest hr
      cases p with
      | bin index l line => exact h.addBin hfirst hp
      | line l => exact h.addLine hfirst (fun t ht => hsilent t (congrArg Part.line ht)) hp

theorem Runs.readLines {ls : List Line} (h : b.Runs o) (hsilent : SilentApart ls)
    (hplain : ∀ p ∈ (partsOf o b.carry ls).1, p.IsPlain) : (b.readLines o ls).1.Runs o := by
  rw [readLines_eq_foldl_add]
  exact h.foldl_add (areRead_partsOf hsilent b.carry) hplain

theorem runs_ofHead {s : Statement} (head : ModelOpening) (hsilent : SilentApart s.tail)
    (hplain : ∀ p ∈ (partsOfHead o head s).1, p.IsPlain) : (ofHead o head s).1.Runs o := by
  rw [ofHead_eq_foldl_add]
  exact (runs_new o head.name head.keyword s.number).foldl_add (areRead_partsOfHead head hsilent)
    hplain

theorem Runs.addText {t : Text} (h : b.Runs o) (ht : isSilent t = true) :
    (b.modifyCurrent (·.addText t)).Runs o := by
  rw [addText_eq_add]
  refine h.addLine trivial ?_ nofun
  rintro u ⟨⟩
  exact ht

/-- Closing the block makes no product in braces, and where the common part has parameters, no
bin has a value that its header leaves open. -/
structure Repeats (o : Options) (b : Model.Block) : Prop where
  product : closesProduct o b.currentModel.paramLines = false
  apart : (b.common.tail.filterMap Continuation.params?).isEmpty = true ∨
    ∀ x ∈ b.closeValue.bins, x.2.headCarry.isOpen = false
  models : ∀ m ∈ b.closeValue.models, m.Repeats

instance (o : Options) (b : Model.Block) : Decidable (b.Repeats o) :=
  decidable_of_iff (closesProduct o b.currentModel.paramLines = false ∧
      ((b.common.tail.filterMap Continuation.params?).isEmpty = true ∨
        ∀ x ∈ b.closeValue.bins, x.2.headCarry.isOpen = false) ∧
      ∀ m ∈ b.closeValue.models, m.Repeats)
    ⟨fun h => ⟨h.1, h.2.1, h.2.2⟩, fun h => ⟨h.product, h.apart, h.models⟩⟩

/-- The models of a block before they get what they share. -/
theorem Runs.isSound_closeValue (h : b.Runs o)
    (hproduct : closesProduct o b.currentModel.paramLines = false) :
    b.closeValue.common.IsSound o ∧ ∀ x ∈ b.closeValue.bins, x.2.IsSound o := by
  have hcommon := h.common
  have hbins := h.bins
  simp only [closeValue]
  split
  · cases hc : b.current with
    | none =>
        simp only [carryAt, hc, if_true] at hcommon hbins
        have hcurrent : b.currentModel = b.common := by rw [currentModel, hc]; rfl
        rw [hcurrent] at hproduct
        rw [modifyCurrent_common hc]
        exact ⟨hcommon.isSound_close hproduct, fun x hx => (hbins x hx).isSound⟩
    | some index =>
        simp only [carryAt, hc, reduceCtorEq, if_false] at hcommon
        rw [modifyCurrent_bin hc]
        refine ⟨hcommon.isSound, ?_⟩
        intro x hx
        obtain ⟨y, hy, rfl⟩ := List.mem_map.mp hx
        have hruns := hbins y hy
        by_cases hi : y.1 = index
        · have hlookup := h.tracks.lookup_current hc
          have hself : y.2 = b.currentModel := by
            obtain ⟨before, after, hbins', -⟩ := List.lookup_eq_some_iff.mp hlookup
            have hmem : (index, b.currentModel) ∈ b.bins := by rw [hbins']; simp
            exact congrArg Prod.snd (List.inj_on_of_nodup_map h.tracks.distinct hy hmem hi)
          simp only [hi, if_true]
          rw [hself] at hruns ⊢
          exact hruns.isSound_close hproduct
        · have hne : some index ≠ some y.1 := fun heq => hi (Option.some.inj heq).symm
          simp only [carryAt, hc, hne, if_false] at hruns
          simp only [hi, if_false]
          exact hruns.isSound
  · next hclosed =>
      have hcarry : b.carry = .closed := by
        cases hc : b.carry <;> simp [hc, Carry.isOpen] at hclosed ⊢
      have hat : ∀ place, b.carryAt place = .closed := by
        intro place
        rw [carryAt, hcarry, ite_self]
      rw [hat] at hcommon
      exact ⟨hcommon.isSound, fun x hx => (hat (some x.1) ▸ hbins x hx).isSound⟩

theorem params_closeValue (h : b.common.params = none) : b.closeValue.common.params = none := by
  simp only [closeValue]
  split
  · cases hc : b.current with
    | none =>
        rw [modifyCurrent_common hc]
        simp only [Model.close, h]
        split <;> rfl
    | some index =>
        rw [modifyCurrent_bin hc]
        exact h
  · exact h

theorem isEmpty_params?_close (ls : List Continuation) :
    ((Continuation.close ls).filterMap Continuation.params?).isEmpty =
      (ls.filterMap Continuation.params?).isEmpty := by
  obtain hnil | ⟨before, l, hl⟩ := List.eq_nil_or_concat' (ls.filterMap Continuation.params?)
  · rw [hnil, close_of_carried (by rw [carried_eq, hnil]; rfl), hnil]
  · rw [params?_close hl, hl]
    cases before <;> rfl

/-- Closing a value adds no line of parameters to the common part. -/
theorem isEmpty_params?_closeValue (b : Model.Block) :
    (b.closeValue.common.tail.filterMap Continuation.params?).isEmpty =
      (b.common.tail.filterMap Continuation.params?).isEmpty := by
  simp only [closeValue]
  split
  · cases hc : b.current with
    | none =>
        rw [modifyCurrent_common hc]
        simp only [Model.close]
        split
        · rfl
        · exact isEmpty_params?_close _
    | some index =>
        rw [modifyCurrent_bin hc]
  · rfl

/-- The models of a closed block are written in words that read back. -/
theorem Runs.isSound_models (h : b.Runs o) (hr : b.Repeats o) :
    ∀ m ∈ b.closeValue.models, m.IsSound o := by
  obtain ⟨hcommon, hbins⟩ := h.isSound_closeValue hr.product
  intro m hm
  rw [models] at hm
  split at hm
  · cases List.mem_singleton.mp hm
    exact hcommon
  · obtain ⟨x, hx, rfl⟩ := List.mem_map.mp hm
    obtain ⟨htyped, hmarker, hhead, htail⟩ := hbins x hx
    have hnone := params_closeValue h.params
    have hshared : b.closeValue.shared = b.closeValue.common.tail := by
      rw [shared, hnone]
      rfl
    have hback : Back o .closed b.closeValue.common.tail := by
      have hback := hcommon.tail
      rw [headCarry, hnone] at hback
      exact hback
    refine ⟨?_, hmarker, hhead, ?_⟩
    · simp only [IsTyped, complete]
      split
      · exact hcommon.typed
      · exact htyped
    · change Back o x.2.headCarry.again (b.closeValue.shared ++ x.2.tail)
      rw [hshared]
      obtain hempty | hclosed := hr.apart
      · exact hback.append_silent ((isEmpty_params?_closeValue b).trans hempty) htail
      · have hcarry : x.2.headCarry.again = .closed := by
          have hnot := hclosed x hx
          cases hc : x.2.headCarry with
          | closed => rfl
          | bare _ | brace _ | quote _ =>
              rw [hc] at hnot
              cases hnot
        rw [hcarry] at htail ⊢
        exact hback.append htail

end Model.Block
end SpiceDeck
