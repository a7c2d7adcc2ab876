import SpiceDeck.Proofs.Model.OpenLine
import SpiceDeck.Proofs.Model.Parts
import Mathlib.Data.List.Chain

/-!
What a model block leaves open. The block records it apart from its lines, and the lines go to
the common part and to bins that may replace each other. Main statements: what is recorded is what
the last parameter line of the current model leaves open, every other open value goes on in the
next line of its model, and closing the block ends the value that the last line read left open.
-/

namespace SpiceDeck
open Text

namespace Param
variable {c : Carry} {l : ParamLine} {v : Value} {rest : List Piece}

theorem fromPrevious_resumeValue (h : c.isOpen = true) (t : Text) :
    (resumeValue c t).value.fromPrevious = true := by
  cases c with
  | closed => cases h
  | brace _ | quote _ =>
      simp only [resumeValue]
      split
      · rfl
      · rfl
  | bare depth =>
      simp only [resumeValue, bareValue]
      split
      · rfl
      · split
        · rfl
        · rfl

/-- A line that is read into an open value starts with the rest of the value. -/
theorem pieces_readAssignments (h : c.isOpen = true) (o : Options) (t : Text) (place : Placement) :
    ∃ v rest, (readAssignments o t place c).pieces = .fragment v :: rest ∧
      v.fromPrevious = true := by
  simp only [readAssignments, h, if_true]
  refine ⟨(resumeValue c (trim t)).value, ?_⟩
  split
  · exact ⟨[], rfl, fromPrevious_resumeValue h _⟩
  · simp only [Listing.allPieces]
    split
    · exact ⟨_, rfl, fromPrevious_resumeValue h _⟩
    · exact ⟨_, rfl, fromPrevious_resumeValue h _⟩

/-- The polarity is not taken from such a start. -/
theorem pieces_remainder_fragment (h : l.pieces = .fragment v :: rest) :
    ∃ rest, (Model.remainder l).pieces = .fragment v :: rest := by
  simp only [Model.remainder]
  split
  · refine ⟨rest.eraseP fun p => p.assigns "type".toList, ?_⟩
    rw [ParamLine.erase, h]
    rfl
  · exact ⟨rest, h⟩

end Param

/-- The next line of the model is the one that takes up the value the line leaves open. -/
structure ParamLine.GoesOnIn (o : Options) (l next : ParamLine) : Prop where
  read : ∃ t, next = Model.remainder (Param.readContinuation o t .modelBody l.carry)
  resumes : ∃ v rest, next.pieces = .fragment v :: rest ∧ v.fromPrevious = true

theorem ParamLine.goesOnIn_readContinuation {l : ParamLine} (h : l.isOpen = true) (o : Options)
    (t : Text) :
    l.GoesOnIn o (Model.remainder (Param.readContinuation o t .modelBody l.carry)) := by
  refine ⟨⟨t, rfl⟩, ?_⟩
  obtain ⟨v, rest, hpieces, hv⟩ := Param.pieces_readAssignments h o _ .modelBody
  obtain ⟨kept, hkept⟩ := Param.pieces_remainder_fragment
    (l := Param.readContinuation o t .modelBody l.carry) hpieces
  exact ⟨v, kept, hkept, hv⟩

namespace Model.Block.Part

/-- The parameter line that a part is, or starts with. -/
def params? : Part → Option ParamLine
  | .bin _ l _ | .line (.params l) => some l
  | .line (.verbatim _) => none

/-- The part was read where the given carry was open. No bin starts in an open value. -/
def IsRead (o : Options) (c : Carry) : Part → Prop
  | .bin _ l _ => c = .closed ∧ ∃ t, l = Param.readAssignments o t .modelBody .closed
  | .line (.params l) => ∃ t, l = Param.readContinuation o t .modelBody c
  | .line (.verbatim _) => True

theorem isRead_partOfText (o : Options) (c : Carry) (t : Text) (line : Nat) :
    (partOfText o c t line).IsRead o c := by
  simp only [partOfText]
  split
  · next index rest hbin =>
      cases c with
      | closed => exact ⟨rfl, rest, rfl⟩
      | bare _ | brace _ | quote _ => cases hbin
  · exact ⟨t, rfl⟩

end Model.Block.Part

namespace Model
variable {o : Options} {m : Model} {c : Carry}

def carried (m : Model) : Carry := (m.paramLines.getLast?.map ParamLine.carry).getD .closed

/-- Every parameter line of the model is closed or goes on in the next one. -/
def IsSettled (o : Options) (m : Model) : Prop :=
  ∀ before l after, m.paramLines = before ++ l :: after →
    l.isOpen = false ∨ ∃ next rest, after = next :: rest ∧ l.GoesOnIn o next

/-- The model leaves the given carry, and what the lines before the last one leave open goes on
in the next one. -/
structure LeavesOpen (o : Options) (c : Carry) (m : Model) : Prop where
  carried : m.carried = c
  resumed : m.paramLines.IsChain fun l next => l.isOpen = true → l.GoesOnIn o next

theorem LeavesOpen.isSettled (h : m.LeavesOpen o .closed) : m.IsSettled o := by
  intro before l after hlines
  cases after with
  | nil =>
      have hcarry := h.carried
      rw [Model.carried, hlines, List.getLast?_concat] at hcarry
      exact .inl (congrArg Carry.isOpen hcarry)
  | cons next rest =>
      have hchain := h.resumed
      rw [hlines, List.isChain_append_cons_cons] at hchain
      cases hopen : l.isOpen with
      | false => exact .inl rfl
      | true => exact .inr ⟨next, rest, rfl, hchain.2.1 hopen⟩

theorem params_absorb (m : Model) (l : ParamLine) : (m.absorb l).params = m.params := by
  simp only [absorb]
  split <;> rfl

theorem paramLines_withParams (h : m.tail = []) (l : ParamLine) :
    (m.withParams l).paramLines = [remainder l] := by
  have htail : (m.withParams l).tail = [] := (tail_absorb m l).trans h
  rw [paramLines, htail]
  rfl

theorem paramLines_addParams (m : Model) (l : ParamLine) :
    (m.addParams l).paramLines = m.paramLines ++ [remainder l] := by
  have hparams : (m.addParams l).params = m.params := params_absorb m l
  rw [paramLines, hparams, paramLines, List.append_assoc]
  simp only [addParams, List.filterMap_append]
  rfl

theorem paramLines_addText (m : Model) (t : Text) : (m.addText t).paramLines = m.paramLines := by
  simp [paramLines, addText, Continuation.params?]

theorem leavesOpen_withParams (h : m.tail = []) (o : Options) (l : ParamLine) :
    (m.withParams l).LeavesOpen o l.carry := by
  have hlines := paramLines_withParams h l
  refine ⟨?_, by rw [hlines]; exact List.isChain_singleton _⟩
  rw [carried, hlines]
  exact carry_remainder l

theorem LeavesOpen.addText (h : m.LeavesOpen o c) (t : Text) : (m.addText t).LeavesOpen o c := by
  have hlines := paramLines_addText m t
  exact ⟨by rw [Model.carried, hlines]; exact h.carried, by rw [hlines]; exact h.resumed⟩

theorem LeavesOpen.addParams (h : m.LeavesOpen o c) (t : Text) :
    (m.addParams (Param.readContinuation o t .modelBody c)).LeavesOpen o
      (Param.readContinuation o t .modelBody c).carry := by
  have hlines := paramLines_addParams m (Param.readContinuation o t .modelBody c)
  constructor
  · rw [Model.carried, hlines, List.getLast?_concat]
    exact carry_remainder _
  · rw [hlines, List.isChain_append]
    refine ⟨h.resumed, List.isChain_singleton _, ?_⟩
    intro l hl next hnext hopen
    have hcarry : l.carry = c := by
      have hcarried := h.carried
      rw [Model.carried, hl] at hcarried
      exact hcarried
    cases hnext
    rw [← hcarry]
    exact l.goesOnIn_readContinuation hopen o t

theorem LeavesOpen.add {l : Continuation} (h : m.LeavesOpen o c)
    (hl : (Block.Part.line l).IsRead o c) :
    (m.add l).LeavesOpen o ((Block.Part.line l).carryAfter c) := by
  cases l with
  | verbatim t => exact h.addText t
  | params l =>
      obtain ⟨t, rfl⟩ := hl
      exact h.addParams t

theorem params?_modifyFirst {f : ParamLine → ParamLine} {ls : List Continuation} {l : ParamLine}
    {rest : List ParamLine} (h : ls.filterMap Continuation.params? = l :: rest) :
    (Continuation.modifyFirst f ls).filterMap Continuation.params? = f l :: rest := by
  induction ls with
  | nil => cases h
  | cons k r ih =>
      cases k with
      | verbatim t => exact ih h
      | params k =>
          obtain ⟨rfl, rfl⟩ := List.cons.inj h
          rfl

theorem params?_close {ls : List Continuation} {before : List ParamLine} {l : ParamLine}
    (h : ls.filterMap Continuation.params? = before ++ [l]) :
    (Continuation.close ls).filterMap Continuation.params? = before ++ [l.close] := by
  have hrev : ls.reverse.filterMap Continuation.params? = l :: before.reverse := by
    rw [List.filterMap_reverse, h, List.reverse_concat]
  rw [Continuation.close, Continuation.modifyLast, List.filterMap_reverse,
    params?_modifyFirst hrev, List.reverse_cons, List.reverse_reverse]

theorem paramLines_close {before : List ParamLine} {l : ParamLine}
    (h : m.paramLines = before ++ [l]) : m.close.paramLines = before ++ [l.close] := by
  simp only [close]
  split
  · next hempty =>
      rw [List.isEmpty_iff] at hempty
      rw [paramLines, hempty, List.append_nil] at h
      rw [paramLines, hempty, List.append_nil]
      cases hp : m.params with
      | none => simp [hp] at h
      | some k =>
          have hlines : [] ++ [k] = before ++ [l] := by rw [← h, hp]; rfl
          obtain ⟨rfl, hk⟩ := List.append_inj' hlines rfl
          cases hk
          rfl
  · next hne =>
      rw [List.isEmpty_iff] at hne
      obtain ⟨init, last, htail⟩ := List.eq_nil_or_concat' _ |>.resolve_left hne
      rw [paramLines, htail, ← List.append_assoc] at h
      obtain ⟨rfl, hlast⟩ := List.append_inj' h rfl
      cases hlast
      rw [paramLines, params?_close htail, List.append_assoc]

end Model

namespace Model.Block

/-- The blocks that reading gives, each with the last parameter line read into it. -/
inductive ReadTo (o : Options) : Model.Block → Option ParamLine → Prop where
  | new (base keyword : Text) (line : Nat) : ReadTo o (new base keyword line) none
  | add {b : Model.Block} {last : Option ParamLine} {p : Part} (h : ReadTo o b last)
      (hp : p.IsRead o b.carry) : ReadTo o (b.add p) (p.params?.or last)

theorem lookup_insertBin (index : Nat) (m : Model) (bins : List (Nat × Model)) :
    (insertBin index m bins).lookup index = some m := by
  induction bins with
  | nil => simp [insertBin]
  | cons p r ih =>
      obtain ⟨i, old⟩ := p
      by_cases h : i = index
      · simp [insertBin, h]
      · simp [insertBin, h, List.lookup_cons, beq_false_of_ne (Ne.symm h), ih]

theorem Distinct.mem_insertBin {index : Nat} {m : Model} {bins : List (Nat × Model)}
    {x : Nat × Model} (hd : Distinct bins) (h : x ∈ Block.insertBin index m bins) :
    x = (index, m) ∨ x ∈ bins ∧ x.1 ≠ index := by
  induction bins with
  | nil => exact .inl (List.mem_singleton.mp h)
  | cons p r ih =>
      obtain ⟨hp, hr⟩ := List.nodup_cons.mp hd
      simp only [Block.insertBin] at h
      split at h
      · next heq =>
          obtain rfl | hx := List.mem_cons.mp h
          · exact .inl (by rw [heq])
          · refine .inr ⟨List.mem_cons_of_mem p hx, ?_⟩
            intro hxi
            exact hp (heq ▸ hxi ▸ List.mem_map_of_mem hx)
      · next hne =>
          obtain rfl | hx := List.mem_cons.mp h
          · exact .inr ⟨List.mem_cons_self, hne⟩
          · exact (ih hr hx).imp_right fun hx => ⟨List.mem_cons_of_mem p hx.1, hx.2⟩

theorem lookup_map_index (f : Model → Model) (index : Nat) (bins : List (Nat × Model)) :
    (bins.map fun x => (x.1, if x.1 = index then f x.2 else x.2)).lookup index =
      (bins.lookup index).map f := by
  induction bins with
  | nil => rfl
  | cons p r ih =>
      obtain ⟨i, m⟩ := p
      by_cases h : i = index
      · simp [h]
      · simp [h, List.lookup_cons, beq_false_of_ne (Ne.symm h), ih]

/-- What the block leaves open at a place: at the current one what the last line left open. -/
def carryAt (b : Model.Block) (place : Option Nat) : Carry :=
  if b.current = place then b.carry else .closed

/-- The block's record fits its lines. -/
structure Tracks (o : Options) (b : Model.Block) : Prop where
  common : b.common.LeavesOpen o (b.carryAt none)
  bins : ∀ x ∈ b.bins, x.2.LeavesOpen o (b.carryAt (some x.1))
  distinct : Distinct b.bins
  entered : ∀ index, b.current = some index → (b.bins.lookup index).isSome = true

variable {o : Options} {b : Model.Block} {last : Option ParamLine}

theorem tracks_new (o : Options) (base keyword : Text) (line : Nat) :
    (new base keyword line).Tracks o where
  common := ⟨rfl, List.isChain_nil⟩
  bins := nofun
  distinct := .nil
  entered := nofun

/-- A line goes to the current model, which alone may leave a value open. -/
theorem Tracks.addLine (h : b.Tracks o) {l : Continuation} (hl : (Part.line l).IsRead o b.carry) :
    (b.add (.line l)).Tracks o := by
  have hcommon := h.common
  have hbins := h.bins
  rw [add_line]
  cases hc : b.current with
  | none =>
      simp only [carryAt, hc, if_true] at hcommon hbins
      rw [modifyCurrent_common hc]
      refine ⟨?_, ?_, h.distinct, ?_⟩
      · rw [carryAt, if_pos hc]
        exact hcommon.add hl
      · intro x hx
        simp only [carryAt, hc]
        exact hbins x hx
      · intro index hi
        cases hc.symm.trans hi
  | some index =>
      rw [modifyCurrent_bin hc]
      refine ⟨?_, ?_, ?_, ?_⟩
      · simp only [carryAt, hc, reduceCtorEq, if_false] at hcommon ⊢
        exact hcommon
      · intro x hx
        obtain ⟨y, hy, rfl⟩ := List.mem_map.mp hx
        have hleaves := hbins y hy
        by_cases hi : y.1 = index
        · simp only [carryAt, hc, hi, if_true] at hleaves ⊢
          exact hleaves.add hl
        · have hne : some index ≠ some y.1 := fun heq => hi (Option.some.inj heq).symm
          simp only [carryAt, hc, hi, hne, if_false] at hleaves ⊢
          exact hleaves
      · rw [Distinct, List.map_map]
        exact h.distinct
      · intro i hi
        cases hc.symm.trans hi
        have hlookup := congrArg Option.isSome (lookup_map_index (·.add l) index b.bins)
        rw [Option.isSome_map, h.entered index hc] at hlookup
        exact hlookup

/-- A bin starts where nothing is open, so that the model before it is settled. -/
theorem Tracks.addBin (h : b.Tracks o) (hclosed : b.carry = .closed) (index : Nat) (l : ParamLine)
    (line : Nat) : (b.add (.bin index l line)).Tracks o := by
  have hat : ∀ place, b.carryAt place = .closed := by
    intro place
    rw [carryAt, hclosed, ite_self]
  have hother : ∀ place, some index ≠ place →
      (b.add (.bin index l line)).carryAt place = .closed := by
    intro place hne
    exact if_neg hne
  have hnew : (b.add (.bin index l line)).carryAt (some index) = l.carry := if_pos rfl
  refine ⟨?_, ?_, h.distinct.insertBin _ _, ?_⟩
  · rw [hother none nofun, ← hat none]
    exact h.common
  · intro x hx
    obtain rfl | ⟨hx, hne⟩ := h.distinct.mem_insertBin hx
    · rw [hnew]
      exact leavesOpen_withParams rfl o l
    · rw [hother (some x.1) fun heq => hne (Option.some.inj heq).symm, ← hat (some x.1)]
      exact h.bins x hx
  · intro i hi
    cases hi
    rw [add, openBin, lookup_insertBin]
    rfl

theorem ReadTo.tracks (h : ReadTo o b last) : b.Tracks o := by
  induction h with
  | new base keyword line => exact tracks_new o base keyword line
  | @add b last p _ hp ih =>
      cases p with
      | bin index l line => exact ih.addBin hp.1 index l line
      | line l => exact ih.addLine hp

theorem Tracks.lookup_current (h : b.Tracks o) {index : Nat} (hc : b.current = some index) :
    b.bins.lookup index = some b.currentModel := by
  obtain ⟨m, hm⟩ := Option.isSome_iff_exists.mp (h.entered index hc)
  simp [currentModel, hc, hm]

/-- The carry is what the last parameter line of the current model leaves open. -/
theorem Tracks.carry_eq (h : b.Tracks o) : b.carry = b.currentModel.carried := by
  cases hc : b.current with
  | none =>
      have hcommon := h.common.carried
      simp only [carryAt, hc, if_true] at hcommon
      rw [← hcommon, currentModel, hc]
      rfl
  | some index =>
      obtain ⟨before, after, hbins, -⟩ := List.lookup_eq_some_iff.mp (h.lookup_current hc)
      have hcurrent := (h.bins (index, b.currentModel) (by simp [hbins])).carried
      simp only [carryAt, hc, if_true] at hcurrent
      exact hcurrent.symm

/-- The carry describes the last parameter line of the current model. What stands before the
first bin is settled once there is a bin, and so is every bin but the current one. -/
structure CarryFits (o : Options) (b : Model.Block) : Prop where
  carry : b.carry = b.currentModel.carried
  common : b.current ≠ none → b.common.IsSettled o
  bins : ∀ x ∈ b.bins, b.current ≠ some x.1 → x.2.IsSettled o

theorem Tracks.carryFits (h : b.Tracks o) : b.CarryFits o := by
  refine ⟨h.carry_eq, ?_, ?_⟩
  · intro hc
    have hcommon := h.common
    rw [carryAt, if_neg hc] at hcommon
    exact hcommon.isSettled
  · intro x hx hc
    have hbin := h.bins x hx
    rw [carryAt, if_neg hc] at hbin
    exact hbin.isSettled

theorem Tracks.currentModel_modifyCurrent (h : b.Tracks o) (f : Model → Model) :
    (b.modifyCurrent f).currentModel = f b.currentModel := by
  cases hc : b.current with
  | none => simp [modifyCurrent, currentModel, hc]
  | some index =>
      rw [modifyCurrent_bin hc, currentModel, hc, Option.bind_some, lookup_map_index,
        h.lookup_current hc]
      rfl

theorem currentModel_withCarry (b : Model.Block) (c : Carry) :
    ({ b with carry := c }).currentModel = b.currentModel := rfl

theorem paramLines_openBin (b : Model.Block) (index : Nat) (l : ParamLine) (line : Nat) :
    (b.openBin index l line).currentModel.paramLines = [remainder l] := by
  rw [openBin, currentModel, Option.bind_some, lookup_insertBin, Option.getD_some]
  exact paramLines_withParams rfl l

/-- The last parameter line of the current model is what was kept of the last line read. -/
theorem ReadTo.getLast?_currentModel (h : ReadTo o b last) :
    b.currentModel.paramLines.getLast? = last.map remainder := by
  induction h with
  | new base keyword line => rfl
  | @add b last p h _ ih =>
      cases p with
      | bin index l line =>
          rw [Block.add, currentModel_withCarry, paramLines_openBin]
          rfl
      | line l =>
          rw [add_line, currentModel_withCarry, h.tracks.currentModel_modifyCurrent]
          cases l with
          | verbatim t =>
              rw [Model.add, paramLines_addText]
              exact ih
          | params l =>
              rw [Model.add, paramLines_addParams, List.getLast?_concat]
              rfl

theorem ReadTo.carry_eq (h : ReadTo o b last) :
    b.carry = (last.map ParamLine.carry).getD .closed := by
  rw [h.tracks.carry_eq, carried, h.getLast?_currentModel]
  cases last with
  | none => rfl
  | some l => exact carry_remainder l

/-- The last line that was read is known to be as a reading leaves it. -/
theorem ReadTo.isRead (h : ReadTo o b last) : ∀ l ∈ last, l.IsRead := by
  induction h with
  | new base keyword line => nofun
  | @add b last p h hp ih =>
      have hsound : Param.Sound b.carry := by
        rw [h.carry_eq]
        cases last with
        | none => trivial
        | some l => exact (ih l rfl).sound
      match p, hp with
      | .bin index l line, hp =>
          obtain ⟨-, t, rfl⟩ := hp
          rintro k ⟨⟩
          exact ParamLine.isRead_readAssignments (c := .closed) trivial o t .modelBody
      | .line (.params l), hp =>
          obtain ⟨t, rfl⟩ := hp
          rintro k ⟨⟩
          exact ParamLine.isRead_readContinuation hsound o t .modelBody
      | .line (.verbatim t), _ => exact ih

def lastPiece? (b : Model.Block) : Option Piece :=
  b.currentModel.paramLines.getLast?.bind fun l => l.pieces.getLast?

/-- Closing the block writes something behind its last piece. -/
def SuppliesDelimiter (b : Model.Block) : Prop :=
  ∃ text delimiter, delimiter ≠ [] ∧ b.lastPiece?.map Piece.render = some text ∧
    b.closeValue.lastPiece?.map Piece.render = some (text ++ delimiter)

/-- Closing the block makes a comment of its last piece, an assignment that has no value. -/
def DropsAssignment (b : Model.Block) : Prop :=
  ∃ name value, b.lastPiece? = some (.assign name value) ∧
    b.closeValue.lastPiece? = some (.comment ("$ ".toList ++ name ++ ['=']))

theorem ReadTo.isOpen_eq (h : ReadTo o b last) : b.isOpen = last.any ParamLine.isOpen := by
  rw [isOpen, Model.isOpen, h.getLast?_currentModel, h.carry_eq]
  cases last with
  | none => rfl
  | some l =>
      have hcarry : (remainder l).isOpen = l.isOpen := congrArg Carry.isOpen (carry_remainder l)
      simp only [Option.map_some, Option.any_some, Option.getD_some, hcarry]
      exact Bool.and_self _

/-- Where the last line left nothing open, closing changes nothing. -/
theorem ReadTo.closeValue_eq_self (h : ReadTo o b last) (hclosed : ∀ l ∈ last, l.isOpen = false) :
    b.closeValue = b := by
  have hcarry : b.carry.isOpen = false := by
    rw [h.carry_eq]
    cases last with
    | none => rfl
    | some l => exact hclosed l rfl
  rw [closeValue, hcarry]
  rfl

/-- Where it left a value open, closing ends the last parameter line of the current model. -/
theorem ReadTo.lastPiece?_closeValue {l : ParamLine} (h : ReadTo o b (some l))
    (hopen : l.isOpen = true) :
    b.lastPiece? = (remainder l).pieces.getLast? ∧
      b.closeValue.lastPiece? = (remainder l).close.pieces.getLast? := by
  have hlast := h.getLast?_currentModel
  obtain ⟨before, hlines⟩ := List.getLast?_eq_some_iff.mp hlast
  have hcarry : b.carry.isOpen = true := by
    rw [h.carry_eq]
    exact hopen
  constructor
  · rw [lastPiece?, hlast]
    rfl
  · rw [closeValue, hcarry, if_pos rfl, lastPiece?, currentModel_withCarry,
      h.tracks.currentModel_modifyCurrent, paramLines_close hlines, List.getLast?_concat]
    rfl

theorem not_suppliesDelimiter (h : b.closeValue = b) : ¬ b.SuppliesDelimiter := by
  rintro ⟨text, delimiter, hne, htext, hclose⟩
  rw [h, htext, Option.some.injEq] at hclose
  exact hne (List.append_right_eq_self.mp hclose.symm)

/-- Closing supplies a delimiter exactly if the last line left a value open that some line has
given a text. -/
theorem ReadTo.suppliesDelimiter_iff (h : ReadTo o b last) :
    b.SuppliesDelimiter ↔ ∃ l ∈ last, l.isOpen = true ∧ l.endsVoid = false := by
  cases last with
  | none => exact iff_of_false (not_suppliesDelimiter (h.closeValue_eq_self nofun)) nofun
  | some l =>
      cases hopen : l.isOpen with
      | false =>
          refine iff_of_false (not_suppliesDelimiter (h.closeValue_eq_self ?_)) ?_
          · rintro k ⟨⟩
            exact hopen
          · rintro ⟨k, ⟨⟩, hk, -⟩
            rw [hopen] at hk
            cases hk
      | true =>
          obtain ⟨hbefore, hafter⟩ := h.lastPiece?_closeValue hopen
          have hgets := ((h.isRead l rfl).getsDelimiter_remainder hopen).1
          rw [SuppliesDelimiter, hbefore, hafter]
          refine hgets.trans ⟨fun hvoid => ⟨l, rfl, hopen, hvoid⟩, ?_⟩
          rintro ⟨k, ⟨⟩, -, hvoid⟩
          exact hvoid

theorem ReadTo.dropsAssignment {l : ParamLine} (h : ReadTo o b (some l)) (hopen : l.isOpen = true)
    (hvoid : l.endsVoid = true) : b.DropsAssignment := by
  obtain ⟨hbefore, hafter⟩ := h.lastPiece?_closeValue hopen
  obtain ⟨before, name, value, hpieces, hclose⟩ :=
    ((h.isRead l rfl).getsDelimiter_remainder hopen).2 hvoid
  refine ⟨name, value, ?_, ?_⟩
  · rw [hbefore, hpieces, List.getLast?_concat]
  · rw [hafter, hclose, List.getLast?_concat]

theorem ReadTo.readLine (h : ReadTo o b last) (t : Text) (line : Nat) :
    ∃ last, ReadTo o (b.readLine o t line).1 last := by
  simp only [Block.readLine]
  split
  · exact ⟨last, h⟩
  · rw [readText_eq_add]
    exact ⟨_, h.add (Part.isRead_partOfText o b.carry _ line)⟩

theorem ReadTo.addText (h : ReadTo o b last) (t : Text) :
    ReadTo o (b.modifyCurrent (·.addText t)) last := by
  rw [addText_eq_add]
  exact h.add (p := .line (.verbatim t)) trivial

theorem ReadTo.addTexts (h : ReadTo o b last) (lines : List Text) :
    ReadTo o (b.modifyCurrent (·.addTexts lines)) last := by
  induction lines generalizing b with
  | nil =>
      simp only [addTexts_nil, modifyCurrent_id]
      exact h
  | cons t r ih =>
      have hrest := ih (h.addText t)
      rw [modifyCurrent_modifyCurrent] at hrest
      simp only [addTexts_cons]
      exact hrest

theorem ReadTo.readLines (h : ReadTo o b last) (lines : List Line) :
    ∃ last, ReadTo o (b.readLines o lines).1 last := by
  induction lines generalizing b last with
  | nil => exact ⟨last, h⟩
  | cons l r ih =>
      simp only [Block.readLines]
      split
      · obtain ⟨next, hnext⟩ := h.readLine l.content l.number
        split
        · exact ⟨next, hnext⟩
        · exact ih hnext
      · exact ih (h.addText l.verbatim)

theorem readTo_ofHead (o : Options) (head : ModelOpening) (s : Statement) :
    ∃ last, ReadTo o (ofHead o head s).1 last := by
  obtain ⟨last, hlast⟩ :=
    (ReadTo.new head.name head.keyword s.number).readLine (o := o) head.rest s.number
  simp only [ofHead]
  split
  · exact ⟨last, hlast⟩
  · exact hlast.readLines s.tail

end Model.Block
end SpiceDeck
