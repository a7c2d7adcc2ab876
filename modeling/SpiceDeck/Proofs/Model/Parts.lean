import SpiceDeck.Model.Read
import SpiceDeck.Proofs.Scope.Equations
import Mathlib.Data.List.Basic

/-!
Model blocks by what is read into them. Reading a block only looks at what its last
line left open, so the parts that the lines give can be listed without the block. The
parts before the first bin make up the common model and those after the header of a bin
that bin; of the bins with one index the last one stays.
-/

namespace SpiceDeck
open Text

def Model.add (m : Model) : Continuation → Model
  | .params l => m.addParams l
  | .verbatim t => m.addText t

namespace Model.Block

/-- What a line gives to a block: the header of a bin, or a line of what is open. -/
inductive Part where
  | bin (index : Nat) (params : ParamLine) (line : Nat)
  | line (l : Continuation)
  deriving DecidableEq

/-- What the block leaves open after a part, given what it left open before. -/
def Part.carryAfter (carry : Carry) : Part → Carry
  | .bin _ l _ | .line (.params l) => l.carry
  | .line (.verbatim _) => carry

def add (b : Model.Block) (p : Part) : Model.Block :=
  let taken := match p with
    | .bin index l line => b.openBin index l line
    | .line l => b.modifyCurrent (·.add l)
  { taken with carry := p.carryAfter b.carry }

def partOfText (o : Options) (carry : Carry) (t : Text) (line : Nat) : Part :=
  match if carry.isOpen then none else Head.bin? t with
  | some (index, rest) => .bin index (Param.readAssignments o rest .modelBody .closed) line
  | none => .line (.params (Param.readContinuation o t .modelBody carry))

/-- The parts of a body line, and whether it closes the block. -/
def partsOfLine (o : Options) (carry : Carry) (t : Text) (line : Nat) : List Part × Bool :=
  let (t, closes) := splitClose carry t
  let t := trim t
  (if t.isEmpty then [] else [partOfText o carry t line], closes)

/-- The parts of lines up to the one that closes the block, and the lines after it if
there is one. -/
def partsOf (o : Options) (carry : Carry) : List Line → List Part × Option (List Line)
  | [] => ([], none)
  | l :: r =>
      if l.isCode then
        let (ps, closed) := partsOfLine o carry l.content l.number
        if closed then (ps, some r)
        else
          let (qs, rest) := partsOf o (ps.foldl Part.carryAfter carry) r
          (ps ++ qs, rest)
      else
        let (qs, rest) := partsOf o carry r
        (.line (.verbatim l.verbatim) :: qs, rest)

def partsOfHead (o : Options) (h : ModelOpening) (s : Statement) :
    List Part × Option (List Line) :=
  let (ps, closed) := partsOfLine o .closed h.rest s.number
  if closed then (ps, some s.tail)
  else
    let (qs, rest) := partsOf o (ps.foldl Part.carryAfter .closed) s.tail
    (ps ++ qs, rest)

theorem readText_eq_add (o : Options) (b : Model.Block) (t : Text) (line : Nat) :
    b.readText o t line = b.add (partOfText o b.carry t line) := by
  simp only [readText, partOfText]
  cases (if b.carry.isOpen then none else Head.bin? t) <;> rfl

theorem readLine_eq_add (o : Options) (b : Model.Block) (t : Text) (line : Nat) :
    b.readLine o t line =
      ((partsOfLine o b.carry t line).1.foldl add b, (partsOfLine o b.carry t line).2) := by
  simp only [readLine, partsOfLine]
  split
  · rfl
  · rw [readText_eq_add]
    rfl

theorem carry_foldl_add (b : Model.Block) (ps : List Part) :
    (ps.foldl add b).carry = ps.foldl Part.carryAfter b.carry := by
  induction ps generalizing b with
  | nil => rfl
  | cons p r ih => exact ih (b.add p)

theorem addText_eq_add (b : Model.Block) (t : Text) :
    b.modifyCurrent (·.addText t) = b.add (.line (.verbatim t)) := by
  cases hc : b.current with
  | none => simp only [add, modifyCurrent, hc, Part.carryAfter]; rfl
  | some index => simp only [add, modifyCurrent, hc, Part.carryAfter]; rfl

/-- Reading lines into a block is taking in the parts that they give. -/
theorem readLines_eq_foldl_add (o : Options) (b : Model.Block) (lines : List Line) :
    b.readLines o lines =
      ((partsOf o b.carry lines).1.foldl add b, (partsOf o b.carry lines).2) := by
  induction lines generalizing b with
  | nil => rfl
  | cons l r ih =>
      cases hl : l.isCode with
      | true =>
          simp only [readLines, partsOf, hl, if_true, readLine_eq_add]
          split
          · rfl
          · rw [ih, carry_foldl_add, List.foldl_append]
      | false =>
          have hcarry : (b.add (.line (.verbatim l.verbatim))).carry = b.carry := rfl
          simp only [readLines, partsOf, hl, Bool.false_eq_true, if_false, addText_eq_add, ih,
            hcarry, List.foldl_cons]

theorem ofHead_eq_foldl_add (o : Options) (h : ModelOpening) (s : Statement) :
    ofHead o h s = ((partsOfHead o h s).1.foldl add (new h.name h.keyword s.number),
      (partsOfHead o h s).2) := by
  have hcarry : (new h.name h.keyword s.number).carry = .closed := rfl
  simp only [ofHead, partsOfHead, readLine_eq_add, hcarry]
  split
  · rfl
  · rw [readLines_eq_foldl_add, carry_foldl_add, List.foldl_append, hcarry]

/-- A bin from its header to the next one. -/
structure Section where
  index : Nat
  params : ParamLine
  line : Nat
  lines : List Continuation

def Section.model (base keyword : Text) (s : Section) : Model :=
  s.lines.foldl Model.add
    (({ Model.new base keyword s.line with bin := some s.index }).withParams s.params)

/-- The lines before the first bin, and the bins. -/
def sections : List Part → List Continuation × List Section
  | [] => ([], [])
  | .line l :: r => (l :: (sections r).1, (sections r).2)
  | .bin index params line :: r => ([], ⟨index, params, line, (sections r).1⟩ :: (sections r).2)

/-- End the value that the last of the models leaves open. -/
def closeLast (common : Model) (bins : List (Nat × Model)) : Model × List (Nat × Model) :=
  match bins.getLast? with
  | none => (common.close, [])
  | some (index, m) => (common, bins.dropLast ++ [(index, m.close)])

/-- Enter a bin under its index. -/
def enterBin (bins : List (Nat × Model)) (bin : Nat × Model) : List (Nat × Model) :=
  insertBin bin.1 bin.2 bins

def commonOf (base keyword : Text) (line : Nat) (ps : List Part) : Model :=
  (sections ps).1.foldl Model.add (Model.new base keyword line)

def binsOf (base keyword : Text) (ps : List Part) : List (Nat × Model) :=
  (sections ps).2.map fun s => (s.index, s.model base keyword)

/-- The models that parts stand for: the common one alone, or else one for each index
of a bin, which is the last one opened under it with the common lines in front. -/
def modelsOf (base keyword : Text) (line : Nat) (ps : List Part) : List Model :=
  let common := commonOf base keyword line ps
  let bins := binsOf base keyword ps
  let (common, bins) :=
    if (ps.foldl Part.carryAfter .closed).isOpen then closeLast common bins else (common, bins)
  if bins.isEmpty then [common]
  else (bins.foldl enterBin []).map fun (_, m) => ({ keyword, common } : Model.Block).complete m

def Section.parts (s : Section) : List Part :=
  .bin s.index s.params s.line :: s.lines.map .line

theorem sections_parts (ps : List Part) :
    (sections ps).1.map .line ++ (sections ps).2.flatMap Section.parts = ps := by
  induction ps with
  | nil => rfl
  | cons p r ih =>
      cases p with
      | line l => exact congrArg (.line l :: ·) ih
      | bin index params line => exact congrArg (.bin index params line :: ·) ih

theorem modifyCurrent_withCarry (b : Model.Block) (c : Carry) (f : Model → Model) :
    ({ b with carry := c }).modifyCurrent f = { b.modifyCurrent f with carry := c } := by
  simp only [modifyCurrent]
  cases b.current <;> rfl

theorem add_line (b : Model.Block) (l : Continuation) :
    b.add (.line l) =
      { b.modifyCurrent (·.add l) with carry := (Part.line l).carryAfter b.carry } := rfl

theorem modifyCurrent_common {b : Model.Block} (h : b.current = none) (f : Model → Model) :
    b.modifyCurrent f = { b with common := f b.common } := by
  rw [modifyCurrent, h]

theorem modifyCurrent_bin {b : Model.Block} {index : Nat} (h : b.current = some index)
    (f : Model → Model) :
    b.modifyCurrent f =
      { b with bins := b.bins.map fun x => (x.1, if x.1 = index then f x.2 else x.2) } := by
  rw [modifyCurrent, h]

theorem foldl_add_lines (b : Model.Block) (ls : List Continuation) :
    (ls.map Part.line).foldl add b =
      { b.modifyCurrent (fun m => ls.foldl Model.add m) with
        carry := (ls.map Part.line).foldl Part.carryAfter b.carry } := by
  induction ls generalizing b with
  | nil =>
      rw [List.map_nil, List.foldl_nil]
      simp only [List.foldl_nil, modifyCurrent_id]
  | cons l r ih =>
      have hadd : b.add (.line l) =
          { b.modifyCurrent (·.add l) with carry := Part.carryAfter b.carry (.line l) } := rfl
      rw [List.map_cons, List.foldl_cons, ih, hadd, modifyCurrent_withCarry,
        modifyCurrent_modifyCurrent]
      rfl

theorem mem_fst_insertBin {index i : Nat} {m : Model} {bins : List (Nat × Model)}
    (h : i ∈ (insertBin index m bins).map Prod.fst) : i = index ∨ i ∈ bins.map Prod.fst := by
  induction bins with
  | nil => exact .inl (List.mem_singleton.mp h)
  | cons p r ih =>
      simp only [insertBin] at h
      split at h
      · exact .inr h
      · obtain rfl | h := List.mem_cons.mp h
        · exact .inr List.mem_cons_self
        · exact (ih h).imp_right (List.mem_cons_of_mem p.1)

/-- The bins of a block have different indices. -/
def Distinct (bins : List (Nat × Model)) : Prop := (bins.map Prod.fst).Nodup

theorem Distinct.nil : Distinct [] := List.Pairwise.nil

theorem Distinct.insertBin {bins : List (Nat × Model)} (h : Distinct bins) (index : Nat)
    (m : Model) : Distinct (insertBin index m bins) := by
  induction bins with
  | nil => exact List.pairwise_singleton _ index
  | cons p r ih =>
      obtain ⟨hp, hr⟩ := List.nodup_cons.mp h
      simp only [Model.Block.insertBin]
      split
      · exact h
      · next hne =>
          refine List.nodup_cons.mpr ⟨?_, ih hr⟩
          intro hmem
          obtain hmem | hmem := mem_fst_insertBin hmem
          · exact hne hmem
          · exact hp hmem

/-- Changing a bin that was just entered is entering it changed. -/
theorem map_insertBin {bins : List (Nat × Model)} (h : Distinct bins) (index : Nat) (m : Model)
    (f : Model → Model) :
    ((insertBin index m bins).map fun p => (p.1, if p.1 = index then f p.2 else p.2)) =
      insertBin index (f m) bins := by
  induction bins with
  | nil => simp [insertBin]
  | cons p r ih =>
      obtain ⟨hp, hr⟩ := List.nodup_cons.mp h
      simp only [insertBin]
      split
      · next he =>
          have hrest : (r.map fun p => (p.1, if p.1 = index then f p.2 else p.2)) = r := by
            conv_rhs => rw [← List.map_id r]
            refine List.map_congr_left ?_
            intro q hq
            have hne : q.1 ≠ index := by
              intro heq
              exact hp (he ▸ heq ▸ List.mem_map_of_mem hq)
            simp [hne]
          simp [he, hrest]
      · next hne => simp [hne, ih hr]

theorem base_foldl_add (ls : List Continuation) (m : Model) :
    (ls.foldl Model.add m).base = m.base := by
  induction ls generalizing m with
  | nil => rfl
  | cons l r ih =>
      rw [List.foldl_cons, ih]
      cases l with
      | verbatim t => rfl
      | params l =>
          simp only [Model.add, Model.addParams, Model.absorb]
          split <;> rfl

theorem foldl_add_section {b : Model.Block} (h : Distinct b.bins) (s : Section) :
    s.parts.foldl add b =
      { b with
        bins := enterBin b.bins (s.index, s.model b.common.base b.keyword)
        current := some s.index
        carry := s.parts.foldl Part.carryAfter b.carry } := by
  have hbins := map_insertBin h s.index
    (({ Model.new b.common.base b.keyword s.line with bin := some s.index }).withParams s.params)
    fun m => s.lines.foldl Model.add m
  simp only [Section.parts, List.foldl_cons, foldl_add_lines]
  simp only [add, openBin, modifyCurrent, Model.Block.mk.injEq, true_and, and_true]
  exact hbins

theorem foldl_add_sections {b : Model.Block} (h : Distinct b.bins) (later : List Section) :
    (later.flatMap Section.parts).foldl add b =
        { b with
          bins :=
            (later.map fun s => (s.index, s.model b.common.base b.keyword)).foldl enterBin b.bins
          current := (later.getLast?.map Section.index).or b.current
          carry := (later.flatMap Section.parts).foldl Part.carryAfter b.carry } ∧
      Distinct ((later.flatMap Section.parts).foldl add b).bins := by
  induction later generalizing b with
  | nil => exact ⟨rfl, h⟩
  | cons s r ih =>
      have hs := foldl_add_section h s
      have hnext : Distinct (s.parts.foldl add b).bins := by
        rw [hs]
        exact h.insertBin _ _
      obtain ⟨heq, hdistinct⟩ := ih hnext
      rw [List.flatMap_cons, List.foldl_append]
      refine ⟨?_, hdistinct⟩
      rw [heq, hs, List.foldl_append]
      cases r with
      | nil => rfl
      | cons t r =>
          obtain ⟨last, hlast⟩ : ∃ last, (t :: r).getLast? = some last :=
            ⟨_, List.getLast?_eq_some_getLast (List.cons_ne_nil t r)⟩
          have hcons : (s :: t :: r).getLast? = some last := by
            rw [List.getLast?_cons_cons, hlast]
          simp only [hlast, hcons]
          rfl

/-- A new block after the parts that it has taken in. -/
theorem foldl_add_new (base keyword : Text) (line : Nat) (ps : List Part) :
    ps.foldl add (new base keyword line) =
      { keyword
        common := commonOf base keyword line ps
        bins := (binsOf base keyword ps).foldl enterBin []
        current := (sections ps).2.getLast?.map Section.index
        carry := ps.foldl Part.carryAfter .closed } := by
  have hfirst : ((sections ps).1.map Part.line).foldl add (new base keyword line) =
      { keyword
        common := commonOf base keyword line ps
        carry := ((sections ps).1.map Part.line).foldl Part.carryAfter .closed } :=
    foldl_add_lines _ _
  have hbase : (commonOf base keyword line ps).base = base := base_foldl_add _ _
  have hparts : ps.foldl add (new base keyword line) =
      ((sections ps).2.flatMap Section.parts).foldl add
        (((sections ps).1.map Part.line).foldl add (new base keyword line)) := by
    rw [← List.foldl_append, sections_parts]
  rw [hparts, hfirst, (foldl_add_sections Distinct.nil _).1]
  simp only [hbase, ← List.foldl_append, sections_parts, Option.or_none]
  rfl

theorem isEmpty_foldl_enterBin (bins : List (Nat × Model)) :
    (bins.foldl enterBin []).isEmpty = bins.isEmpty := by
  obtain rfl | ⟨init, last, rfl⟩ := List.eq_nil_or_concat' bins
  · rfl
  · simp only [List.foldl_append, List.foldl_cons, List.foldl_nil, enterBin]
    cases init.foldl enterBin [] with
    | nil => simp [insertBin]
    | cons p r =>
        simp only [insertBin]
        split <;> simp

theorem distinct_foldl_enterBin {bins : List (Nat × Model)} (h : Distinct bins)
    (later : List (Nat × Model)) : Distinct (later.foldl enterBin bins) := by
  induction later generalizing bins with
  | nil => exact h
  | cons p r ih => exact ih (h.insertBin p.1 p.2)

/-- Closing the current model of a block closes the last one that was entered. -/
theorem modifyCurrent_close (keyword : Text) (common : Model) (bins : List (Nat × Model))
    (carry : Carry) :
    ({ keyword, common, bins := bins.foldl enterBin [], current := bins.getLast?.map Prod.fst,
        carry : Model.Block }).modifyCurrent Model.close =
      { keyword
        common := (closeLast common bins).1
        bins := (closeLast common bins).2.foldl enterBin []
        current := bins.getLast?.map Prod.fst
        carry } := by
  obtain rfl | ⟨init, last, rfl⟩ := List.eq_nil_or_concat' bins
  · rfl
  · have hbins := map_insertBin (distinct_foldl_enterBin .nil init) last.1 last.2 Model.close
    simp only [List.getLast?_concat, Option.map_some, closeLast, List.dropLast_concat,
      List.foldl_append, modifyCurrent, Model.Block.mk.injEq, true_and, and_true]
    exact hbins

/-- A block that has taken in parts closes with the models that they stand for. -/
theorem models_foldl_add (base keyword : Text) (line : Nat) (ps : List Part) :
    (ps.foldl add (new base keyword line)).closeValue.models = modelsOf base keyword line ps := by
  have hcurrent : (sections ps).2.getLast?.map Section.index =
      (binsOf base keyword ps).getLast?.map Prod.fst := by
    simp [binsOf, Function.comp_def]
  rw [foldl_add_new, hcurrent]
  simp only [closeValue, modelsOf, modifyCurrent_close]
  split
  · simp only [models, isEmpty_foldl_enterBin]
    rfl
  · simp only [models, isEmpty_foldl_enterBin]
    rfl

end Model.Block

end SpiceDeck
