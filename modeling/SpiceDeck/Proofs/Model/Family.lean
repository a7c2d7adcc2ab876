import SpiceDeck.Proofs.Model.Bins
import SpiceDeck.Proofs.Symbols.Declared

/-!
The families of models. A model has the family of the keyword it was declared with, but is
written with another keyword: a shorter spelling, or the polarity that a parameter gave.
Main statement: the family of the written keyword is that of the model exactly if the
polarity is one of that family. The shorter spelling loses the family of inductors.
-/

namespace SpiceDeck
open Text

def Polarity.family : Polarity → Family
  | .nmos | .pmos => .mos
  | .npn | .pnp => .bipolar

@[simp] theorem Polarity.ofKeyword_keyword (p : Polarity) :
    Family.ofKeyword p.keyword = p.family := by
  cases p <;> decide

/-- Keywords whose short spelling no stem begins. -/
def losesFamily (keyword : Text) : Bool :=
  ["ind".toList, "inductor".toList].contains (lower keyword)

theorem Family.ofKeyword_writtenType_iff (keyword : Text) :
    ofKeyword (writtenType keyword) = ofKeyword keyword ↔ losesFamily keyword = false := by
  -- both sides depend on the keyword in lower case only, which is one of the table or not
  have hshort : ∀ x ∈ shortTypes, ofKeyword x.2 = ofKeyword x.1 ↔ losesFamily x.1 = false := by
    decide
  have hlower : losesFamily (lower keyword) = losesFamily keyword := by
    rw [losesFamily, lower_lower, losesFamily]
  cases hw : shortTypes.lookup (lower keyword) with
  | some w =>
      obtain ⟨before, after, heq, -⟩ := List.lookup_eq_some_iff.mp hw
      have hmem : (lower keyword, w) ∈ shortTypes := by
        rw [heq]
        exact List.mem_append_right _ List.mem_cons_self
      rw [writtenType, hw, ← ofKeyword_lower keyword, ← hlower]
      exact hshort _ hmem
  | none =>
      rw [writtenType, hw]
      refine ⟨fun _ => ?_, fun _ => rfl⟩
      have hin : ∀ k ∈ ["ind".toList, "inductor".toList], shortTypes.lookup k ≠ none := by decide
      rw [losesFamily, List.contains_eq_mem, decide_eq_false_iff_not]
      intro hmem
      exact hin _ hmem hw

theorem losesFamily_of_lacksPolarity {keyword : Text} (h : lacksPolarity keyword = true) :
    losesFamily keyword = false := by
  have hin : ∀ k ∈ ["ind".toList, "inductor".toList], lacksPolarity k = false := by decide
  rw [losesFamily, List.contains_eq_mem, decide_eq_false_iff_not]
  intro hmem
  have hfixed := hin _ hmem
  simp only [lacksPolarity, lower_lower] at h hfixed
  rw [h] at hfixed
  cases hfixed

namespace ModelType

theorem family_given (keyword : Text) (p : Option Polarity) :
    (given keyword p).family = (ofKeyword keyword).family := by
  simp only [given, ofKeyword]
  split <;> rfl

theorem family_ofKeyword_iff (keyword : Text) :
    (ofKeyword keyword).family = Family.ofKeyword keyword ↔ losesFamily keyword = false := by
  simp only [ofKeyword]
  split
  · next h => exact ⟨fun _ => losesFamily_of_lacksPolarity h, fun _ => rfl⟩
  · exact Family.ofKeyword_writtenType_iff keyword

end ModelType

/-- A polarity that the type takes up is one of the family of its keyword. -/
def Polarity.Suits (keyword : Text) (p : Option Polarity) : Prop :=
  lacksPolarity keyword = true → ∀ q ∈ p, q.family = Family.ofKeyword keyword

instance (keyword : Text) (p : Option Polarity) : Decidable (Polarity.Suits keyword p) :=
  inferInstanceAs (Decidable (_ → _))

theorem ModelType.ofKeyword_emitted_given (keyword : Text) (p : Option Polarity) :
    Family.ofKeyword (given keyword p).emitted = (given keyword p).family ↔
      Polarity.Suits keyword p := by
  simp only [given, Polarity.Suits]
  cases lacksPolarity keyword with
  | false => simp [emitted, family]
  | true =>
      cases p with
      | none => simp [emitted, family]
      | some q => simp [emitted, family]

namespace Model

/-- What is put into a model: the parameters of its head line, or a further line. -/
inductive Input where
  | head (l : ParamLine)
  | line (l : Continuation)

def put (m : Model) : Input → Model
  | .head l => m.withParams l
  | .line l => m.add l

/-- The further line that gives the same polarity. -/
def Input.asLine : Input → Continuation
  | .head l => .params l
  | .line l => l

theorem type_absorb {m m' : Model} (h : m.type = m'.type) (l : ParamLine) :
    (m.absorb l).type = (m'.absorb l).type := by
  simp only [absorb]
  cases Polarity.onLine? l with
  | none => exact h
  | some q => exact congrArg (ModelType.resolve q) h

/-- As to types, a head line counts as any other line. -/
theorem type_put {m m' : Model} (h : m.type = m'.type) (x : Input) :
    (m.put x).type = (m'.add x.asLine).type := by
  cases x with
  | head l => exact type_absorb h l
  | line l =>
      cases l with
      | params l => exact type_absorb h l
      | verbatim t => exact h

theorem type_foldl_put {m m' : Model} (h : m.type = m'.type) (xs : List Input) :
    (xs.foldl put m).type = ((xs.map Input.asLine).foldl add m').type := by
  induction xs generalizing m m' with
  | nil => exact h
  | cons x r ih => exact ih (type_put h x)

theorem type_foldl_put_new (base keyword : Text) (line : Nat) (xs : List Input) :
    (xs.foldl put (new base keyword line)).type =
      .given keyword (Polarity.last? (xs.map Input.asLine)) := by
  rw [type_foldl_put rfl, foldl_add_given _ (ModelType.given_none keyword).symm, Option.or_none]

namespace Block

/-- What is done to a block: a bin is opened, or something is put into the model that lines
go to. -/
inductive Input where
  | bin (index : Nat) (params : ParamLine) (line : Nat)
  | put (x : Model.Input)

def take (b : Model.Block) : Input → Model.Block
  | .bin index params line => b.openBin index params line
  | .put x => b.modifyCurrent (·.put x)

/-- The polarities of the models of a block: the last one of the bin, or else the last one
before the first bin. -/
def polarities (ps : List Part) : List (Option Polarity) :=
  if (sections ps).2.isEmpty then [Polarity.last? (sections ps).1]
  else (lastOpenings (sections ps).2).map fun s => s.polarity?.or (Polarity.last? (sections ps).1)

theorem map_type_models_foldl_add (base keyword : Text) (line : Nat) (ps : List Part) :
    (ps.foldl add (new base keyword line)).models.map Model.type =
      (polarities ps).map (ModelType.given keyword) := by
  rw [models_eq_map, polarities]
  split
  · rfl
  · rw [List.map_map, List.map_map]
    rfl

def Input.part : Input → Part
  | .bin index params line => .bin index params line
  | .put x => .line x.asLine

/-- The blocks have the same bins with the same types. -/
structure SameTypes (b b' : Model.Block) : Prop where
  keyword : b.keyword = b'.keyword
  current : b.current = b'.current
  common : b.common.type = b'.common.type
  bins : List.Forall₂ (fun x y => x.1 = y.1 ∧ x.2.type = y.2.type) b.bins b'.bins

theorem forall₂_insertBin {bins bins' : List (Nat × Model)} {m m' : Model}
    (h : List.Forall₂ (fun x y => x.1 = y.1 ∧ x.2.type = y.2.type) bins bins')
    (hm : m.type = m'.type) (index : Nat) :
    List.Forall₂ (fun x y => x.1 = y.1 ∧ x.2.type = y.2.type) (insertBin index m bins)
      (insertBin index m' bins') := by
  induction h with
  | nil => exact .cons ⟨rfl, hm⟩ .nil
  | @cons x y r r' hxy hr ih =>
      simp only [insertBin, ← hxy.1]
      split
      · exact .cons ⟨rfl, hm⟩ hr
      · exact .cons ⟨rfl, hxy.2⟩ ih

theorem SameTypes.modifyCurrent {b b' : Model.Block} (h : SameTypes b b') {f g : Model → Model}
    (hfg : ∀ m m', m.type = m'.type → (f m).type = (g m').type) :
    SameTypes (b.modifyCurrent f) (b'.modifyCurrent g) := by
  simp only [Block.modifyCurrent, ← h.current]
  split
  · refine ⟨h.keyword, rfl, h.common, ?_⟩
    rw [List.forall₂_map_left_iff, List.forall₂_map_right_iff]
    refine h.bins.imp ?_
    rintro ⟨i, m⟩ ⟨j, m'⟩ ⟨rfl, hm⟩
    refine ⟨rfl, ?_⟩
    dsimp only
    split
    · exact hfg m m' hm
    · exact hm
  · exact ⟨h.keyword, rfl, hfg _ _ h.common, h.bins⟩

theorem SameTypes.take {b b' : Model.Block} (h : SameTypes b b') (x : Input) :
    SameTypes (b.take x) (b'.add x.part) := by
  cases x with
  | bin index params line =>
      refine ⟨h.keyword, rfl, h.common, forall₂_insertBin h.bins ?_ index⟩
      refine type_absorb ?_ params
      exact congrArg ModelType.ofKeyword h.keyword
  | put x =>
      have hput := h.modifyCurrent fun m m' hm => type_put hm x
      exact ⟨hput.keyword, hput.current, hput.common, hput.bins⟩

theorem SameTypes.foldl {b b' : Model.Block} (h : SameTypes b b') (xs : List Input) :
    SameTypes (xs.foldl Block.take b) ((xs.map Input.part).foldl add b') := by
  induction xs generalizing b b' with
  | nil => exact h
  | cons x r ih => exact ih (h.take x)

theorem SameTypes.models {b b' : Model.Block} (h : SameTypes b b') :
    b.models.map Model.type = b'.models.map Model.type := by
  have hempty : b.bins.isEmpty = b'.bins.isEmpty := by
    rw [Bool.eq_iff_iff, List.isEmpty_iff_length_eq_zero, List.isEmpty_iff_length_eq_zero,
      h.bins.length_eq]
  simp only [Block.models, hempty]
  split
  · exact congrArg (fun t => [t]) h.common
  · rw [List.map_map, List.map_map, ← List.forall₂_eq_eq_eq, List.forall₂_map_left_iff,
      List.forall₂_map_right_iff]
    refine h.bins.imp ?_
    intro x y hxy
    simp only [Function.comp_apply, complete, hxy.2, h.common]

theorem map_type_models_foldl_take (base keyword : Text) (line : Nat) (xs : List Input) :
    (xs.foldl take (new base keyword line)).models.map Model.type =
      (polarities (xs.map Input.part)).map (ModelType.given keyword) := by
  have hnew : SameTypes (new base keyword line) (new base keyword line) := ⟨rfl, rfl, rfl, .nil⟩
  rw [(hnew.foldl xs).models, map_type_models_foldl_add]

end Block

/-- The keyword that is written for a model, whatever was put into it, is of the family of
the model if and only if the polarity that came last suits its keyword; and so it is for
every model that a block stands for. -/
theorem ofKeyword_emitted_iff (base keyword : Text) (line : Nat) :
    (∀ xs : List Input,
      Family.ofKeyword (xs.foldl put (new base keyword line)).type.emitted =
          (xs.foldl put (new base keyword line)).family ↔
        Polarity.Suits keyword (Polarity.last? (xs.map Input.asLine))) ∧
    ∀ xs : List Block.Input,
      List.Forall₂
        (fun p m => Family.ofKeyword m.type.emitted = m.family ↔ Polarity.Suits keyword p)
        (Block.polarities (xs.map Block.Input.part))
        (xs.foldl Block.take (Block.new base keyword line)).models := by
  constructor
  · intro xs
    rw [family, type_foldl_put_new]
    exact ModelType.ofKeyword_emitted_given keyword _
  · intro xs
    have htypes := (Block.map_type_models_foldl_take base keyword line xs).symm
    rw [← List.forall₂_eq_eq_eq, List.forall₂_map_left_iff, List.forall₂_map_right_iff] at htypes
    refine htypes.imp ?_
    intro p m htype
    rw [family, ← htype]
    exact ModelType.ofKeyword_emitted_given keyword p

/-- A bipolar model that is given the polarity of the other family, alone and with a suitable
one after it. -/
def unsuited : List Input := [.head (Block.settingLine "type" "n")]

def corrected : List Input := unsuited ++ [.line (.params (Block.settingLine "type" "npn"))]

theorem ofKeyword_emitted_unsuited :
    Family.ofKeyword (unsuited.foldl put (new "q".toList "vbic".toList 1)).type.emitted ≠
        (unsuited.foldl put (new "q".toList "vbic".toList 1)).family ∧
      Family.ofKeyword (corrected.foldl put (new "q".toList "vbic".toList 1)).type.emitted =
        (corrected.foldl put (new "q".toList "vbic".toList 1)).family := by
  have hiff := (ofKeyword_emitted_iff "q".toList "vbic".toList 1).1
  constructor
  · intro h
    exact absurd ((hiff unsuited).mp h) (by decide)
  · exact (hiff corrected).mpr (by decide)

end Model
end SpiceDeck
