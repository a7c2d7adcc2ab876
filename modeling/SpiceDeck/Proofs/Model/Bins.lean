import Mathlib.Data.List.Induction
import SpiceDeck.Proofs.Model.Parts

/-!
The bins of a model block. Bins may be opened again in any order, and a bin that is opened
again starts anew in the place of the old one. Main statement: a block stands for one model
for each index, in the order in which the indices came up, with the lines before the first
bin and those that followed the last opening of the index; the polarity that came last is
the one that is written.
-/

namespace SpiceDeck
open Text

namespace Polarity

@[simp] theorem lacksPolarity_keyword (p : Polarity) : lacksPolarity p.keyword = false := by
  cases p <;> decide

/-- The polarity that a line of a model gives. -/
def ofLine? : Continuation → Option Polarity
  | .params l => onLine? l
  | .verbatim _ => none

/-- The polarity that the lines of a model give last. -/
def last? (ls : List Continuation) : Option Polarity := (ls.filterMap ofLine?).getLast?

theorem last?_cons (l : Continuation) (r : List Continuation) :
    last? (l :: r) = (last? r).or (ofLine? l) := by
  cases hl : ofLine? l with
  | none => simp [last?, hl]
  | some p =>
      rw [last?, List.filterMap_cons_some hl, List.getLast?_cons]
      cases h : (r.filterMap ofLine?).getLast? <;> simp [last?, h]

end Polarity

namespace ModelType

/-- The type that a keyword and a polarity make. A polarity counts only if it is missing. -/
def given (keyword : Text) (p : Option Polarity) : ModelType :=
  if lacksPolarity keyword then .deferred keyword p else .known (writtenType keyword)

theorem given_none (keyword : Text) : given keyword none = ofKeyword keyword := rfl

theorem resolve_given (keyword : Text) (p : Option Polarity) (q : Polarity) :
    (given keyword p).resolve q = given keyword (some q) := by
  simp only [given]
  split <;> rfl

theorem emitted_given (keyword : Text) (p : Option Polarity) :
    (given keyword p).emitted =
      if lacksPolarity keyword then (p.map Polarity.keyword).getD keyword
      else writtenType keyword := by
  simp only [given]
  split
  · cases p <;> rfl
  · rfl

theorem isResolved_given (keyword : Text) (p : Option Polarity) :
    (given keyword p).isResolved = (!lacksPolarity keyword || p.isSome) := by
  simp only [given]
  split
  · next h => cases p <;> simp [isResolved, h]
  · next h => simp [isResolved, h]

end ModelType

/-- The short spellings leave no polarity open. -/
theorem lacksPolarity_writtenType {keyword : Text} (h : lacksPolarity keyword = false) :
    lacksPolarity (writtenType keyword) = false := by
  have hshort : ∀ x ∈ shortTypes, lacksPolarity x.2 = false := by decide
  cases hw : shortTypes.lookup (lower keyword) with
  | none =>
      rw [writtenType, hw]
      exact h
  | some w =>
      obtain ⟨before, after, heq, -⟩ := List.lookup_eq_some_iff.mp hw
      rw [writtenType, hw]
      apply hshort (lower keyword, w)
      rw [heq]
      exact List.mem_append_right _ List.mem_cons_self

namespace Model

/-- A line as a model keeps it. -/
def keptLine : Continuation → Continuation
  | .params l => .params (remainder l)
  | .verbatim t => .verbatim t

/-- A line gives its polarity to the type, and what is left of it goes to the others. -/
theorem add_given (m : Model) {keyword : Text} {p : Option Polarity}
    (h : m.type = .given keyword p) (l : Continuation) :
    m.add l = { m with type := .given keyword ((Polarity.ofLine? l).or p)
                       tail := m.tail ++ [keptLine l] } := by
  cases l with
  | verbatim t => simp [add, addText, Polarity.ofLine?, keptLine, ← h]
  | params l =>
      simp only [add, addParams, absorb, Polarity.ofLine?, keptLine]
      cases Polarity.onLine? l with
      | none => simp [← h]
      | some q => simp [h, ModelType.resolve_given]

theorem foldl_add_given (m : Model) {keyword : Text} {p : Option Polarity}
    (h : m.type = .given keyword p) (ls : List Continuation) :
    ls.foldl add m = { m with type := .given keyword ((Polarity.last? ls).or p)
                              tail := m.tail ++ ls.map keptLine } := by
  induction ls generalizing m p with
  | nil => simp [Polarity.last?, ← h]
  | cons l r ih =>
      rw [List.foldl_cons, add_given m h, ih _ rfl, Polarity.last?_cons, Option.or_assoc]
      simp

namespace Block

/-- The polarity that the lines of a bin give last, its header being the first of them. -/
def Section.polarity? (s : Section) : Option Polarity :=
  Polarity.last? (.params s.params :: s.lines)

theorem model_section (base keyword : Text) (s : Section) :
    s.model base keyword =
      { base, bin := some s.index, type := .given keyword s.polarity?
        params := some (remainder s.params), tail := s.lines.map keptLine, line := s.line } := by
  have hopened : ({ Model.new base keyword s.line with bin := some s.index }).withParams s.params =
      { base, bin := some s.index, type := .given keyword (Polarity.onLine? s.params)
        params := some (remainder s.params), line := s.line } := by
    simp only [withParams, absorb, Model.new]
    cases Polarity.onLine? s.params with
    | none => simp [ModelType.given_none]
    | some q => simp [← ModelType.given_none, ModelType.resolve_given]
  rw [Section.model, hopened, foldl_add_given _ rfl, Section.polarity?, Polarity.last?_cons]
  simp [Polarity.ofLine?]

theorem commonOf_eq (base keyword : Text) (line : Nat) (ps : List Part) :
    commonOf base keyword line ps =
      { base, type := .given keyword (Polarity.last? (sections ps).1)
        tail := (sections ps).1.map keptLine, line } := by
  rw [commonOf, foldl_add_given _ (ModelType.given_none keyword).symm, Option.or_none]
  rfl

/-- The bin that was opened last under an index. -/
def lastOpened? (bins : List Section) (index : Nat) : Option Section :=
  bins.reverse.find? fun s => s.index == index

/-- The bins as they were opened last, in the order in which their indices came up. -/
def lastOpenings (bins : List Section) : List Section :=
  (bins.map Section.index).eraseDups.filterMap (lastOpened? bins)

variable {bins : List Section} {index : Nat} {s : Section}

theorem index_of_lastOpened? (h : lastOpened? bins index = some s) : s.index = index := by
  have hfound := List.find?_some h
  exact eq_of_beq hfound

theorem lastOpened?_concat (bins : List Section) (s : Section) (index : Nat) :
    lastOpened? (bins ++ [s]) index =
      if s.index = index then some s else lastOpened? bins index := by
  rw [lastOpened?, List.reverse_concat]
  split
  · next h => exact List.find?_cons_of_pos (beq_iff_eq.mpr h)
  · next h => exact List.find?_cons_of_neg fun hs => h (eq_of_beq hs)

theorem exists_lastOpened? (h : index ∈ bins.map Section.index) :
    ∃ s, lastOpened? bins index = some s := by
  obtain ⟨s, hs, rfl⟩ := List.mem_map.mp h
  rw [← Option.isSome_iff_exists, lastOpened?, List.find?_isSome]
  exact ⟨s, List.mem_reverse.mpr hs, beq_self_eq_true _⟩

/-- There is one bin for each index that came up. -/
theorem map_index_lastOpenings (bins : List Section) :
    (lastOpenings bins).map Section.index = (bins.map Section.index).eraseDups := by
  have hindex : ∀ i ∈ (bins.map Section.index).eraseDups,
      (lastOpened? bins i).map Section.index = some i := by
    intro i hi
    obtain ⟨s, hs⟩ := exists_lastOpened? (List.mem_eraseDups.mp hi)
    rw [hs, Option.map_some, index_of_lastOpened? hs]
  rw [lastOpenings, List.map_filterMap, List.filterMap_congr hindex, List.filterMap_some]

theorem insertBin_of_mem {bins : List (Nat × Model)} (h : Distinct bins) {index : Nat}
    (hmem : index ∈ bins.map Prod.fst) (m : Model) :
    insertBin index m bins = bins.map fun x => if x.1 = index then (index, m) else x := by
  induction bins with
  | nil => cases hmem
  | cons p r ih =>
      obtain ⟨hp, hr⟩ := List.nodup_cons.mp h
      by_cases he : p.1 = index
      · have hrest : (r.map fun x => if x.1 = index then (index, m) else x) = r := by
          conv_rhs => rw [← List.map_id r]
          apply List.map_congr_left
          intro x hx
          have hne : x.1 ≠ index := by
            intro heq
            exact hp (he ▸ heq ▸ List.mem_map_of_mem hx)
          rw [if_neg hne, id]
        simp [insertBin, he, hrest]
      · have hmem : index ∈ r.map Prod.fst :=
          (List.mem_cons.mp hmem).resolve_left fun heq => he heq.symm
        simp [insertBin, he, ih hr hmem]

theorem insertBin_of_not_mem {bins : List (Nat × Model)} {index : Nat}
    (hmem : index ∉ bins.map Prod.fst) (m : Model) :
    insertBin index m bins = bins ++ [(index, m)] := by
  induction bins with
  | nil => rfl
  | cons p r ih =>
      obtain ⟨hp, hr⟩ := not_or.mp fun h => hmem (List.mem_cons.mpr h)
      simp [insertBin, Ne.symm hp, ih hr]

theorem eraseDups_concat {α : Type} [DecidableEq α] (keys : List α) (k : α) :
    (keys ++ [k]).eraseDups = if k ∈ keys then keys.eraseDups else keys.eraseDups ++ [k] := by
  rw [List.eraseDups_append]
  split
  · next h => simp [List.removeAll, h]
  · next h => simp [List.removeAll, h, List.eraseDups_cons]

theorem lastOpenings_concat_of_mem (h : s.index ∈ bins.map Section.index) :
    lastOpenings (bins ++ [s]) =
      (lastOpenings bins).map fun x => if x.index = s.index then s else x := by
  have hkeys : ((bins ++ [s]).map Section.index).eraseDups =
      (bins.map Section.index).eraseDups := by
    rw [List.map_append]
    exact (eraseDups_concat _ _).trans (if_pos h)
  rw [lastOpenings, hkeys, lastOpenings, List.map_filterMap]
  apply List.filterMap_congr
  intro i hi
  obtain ⟨x, hx⟩ := exists_lastOpened? (List.mem_eraseDups.mp hi)
  rw [lastOpened?_concat, hx, Option.map_some, index_of_lastOpened? hx]
  by_cases hs : s.index = i
  · rw [if_pos hs, if_pos hs.symm]
  · rw [if_neg hs, if_neg (Ne.symm hs)]

theorem lastOpenings_concat_of_not_mem (h : s.index ∉ bins.map Section.index) :
    lastOpenings (bins ++ [s]) = lastOpenings bins ++ [s] := by
  have hkeys : ((bins ++ [s]).map Section.index).eraseDups =
      (bins.map Section.index).eraseDups ++ [s.index] := by
    rw [List.map_append]
    exact (eraseDups_concat _ _).trans (if_neg h)
  rw [lastOpenings, hkeys, List.filterMap_append, lastOpenings]
  congr 1
  · apply List.filterMap_congr
    intro i hi
    have hne : s.index ≠ i := by
      rintro rfl
      exact h (List.mem_eraseDups.mp hi)
    rw [lastOpened?_concat, if_neg hne]
  · simp [lastOpened?_concat]

/-- Of the bins that are entered under one index, the last one stays, in the place of the
first. -/
theorem foldl_enterBin_eq (f : Section → Model) (bins : List Section) :
    (bins.map fun s => (s.index, f s)).foldl enterBin [] =
      (lastOpenings bins).map fun s => (s.index, f s) := by
  induction bins using List.reverseRecOn with
  | nil => rfl
  | append_singleton bins s ih =>
      have hdistinct : Distinct ((lastOpenings bins).map fun s => (s.index, f s)) := by
        rw [← ih]
        exact distinct_foldl_enterBin Distinct.nil _
      have hkeys : ((lastOpenings bins).map fun s => (s.index, f s)).map Prod.fst =
          (bins.map Section.index).eraseDups := by
        rw [List.map_map, ← map_index_lastOpenings]
        rfl
      rw [List.map_append, List.foldl_append, ih]
      by_cases h : s.index ∈ bins.map Section.index
      · have hmem : s.index ∈ ((lastOpenings bins).map fun s => (s.index, f s)).map Prod.fst := by
          rw [hkeys]
          exact List.mem_eraseDups.mpr h
        rw [lastOpenings_concat_of_mem h]
        refine (insertBin_of_mem hdistinct hmem (f s)).trans ?_
        rw [List.map_map, List.map_map]
        apply List.map_congr_left
        intro x _
        simp only [Function.comp_apply]
        split <;> rfl
      · have hmem : s.index ∉ ((lastOpenings bins).map fun s => (s.index, f s)).map Prod.fst := by
          rw [hkeys]
          exact fun hi => h (List.mem_eraseDups.mp hi)
        rw [lastOpenings_concat_of_not_mem h, List.map_append]
        exact insertBin_of_not_mem hmem (f s)

/-- A bin gets the common polarity only if it has none of its own. -/
theorem complete_section (base keyword : Text) (line : Nat) (ps : List Part) (s : Section)
    {b : Model.Block} (hb : b.common = commonOf base keyword line ps) :
    b.complete (s.model base keyword) =
      { base, bin := some s.index, line := s.line
        type := .given keyword (s.polarity?.or (Polarity.last? (sections ps).1))
        params := some (remainder s.params)
        tail := ((sections ps).1 ++ s.lines).map keptLine } := by
  have hshared : b.shared = (sections ps).1.map keptLine := by
    rw [shared, hb, commonOf_eq]
    rfl
  have htype : b.common.type = .given keyword (Polarity.last? (sections ps).1) := by
    rw [hb, commonOf_eq]
  simp only [complete, model_section, hshared, htype, ModelType.isResolved_given, List.map_append]
  congr 1
  cases hk : lacksPolarity keyword with
  | false => simp [ModelType.given, hk]
  | true =>
      cases s.polarity? with
      | some p => simp
      | none => cases Polarity.last? (sections ps).1 <;> simp

theorem models_eq_map (base keyword : Text) (line : Nat) (ps : List Part) :
    (ps.foldl add (new base keyword line)).models =
      if (sections ps).2.isEmpty then
        [{ base, line
           type := .given keyword (Polarity.last? (sections ps).1)
           tail := (sections ps).1.map keptLine }]
      else (lastOpenings (sections ps).2).map fun s =>
        { base, bin := some s.index, line := s.line
          type := .given keyword (s.polarity?.or (Polarity.last? (sections ps).1))
          params := some (remainder s.params)
          tail := ((sections ps).1 ++ s.lines).map keptLine } := by
  have hempty : (binsOf base keyword ps).isEmpty = (sections ps).2.isEmpty := List.isEmpty_map
  rw [foldl_add_new, models, isEmpty_foldl_enterBin, hempty]
  split
  · exact congrArg (fun m => [m]) (commonOf_eq base keyword line ps)
  · rw [binsOf, foldl_enterBin_eq, List.map_map]
    apply List.map_congr_left
    intro s _
    exact complete_section base keyword line ps s rfl

/-- A model that is written with a type of unknown polarity is reported, and no other. -/
theorem warning?_given {m : Model} {keyword : Text} {p : Option Polarity}
    (h : m.type = .given keyword p) :
    m.warning? = if lacksPolarity m.type.emitted then
      some (Cause.at (.unresolvedPolarity m.name m.type.emitted) m.line) else none := by
  rw [h, ModelType.emitted_given]
  simp only [warning?, h, ModelType.given]
  cases hk : lacksPolarity keyword with
  | false => simp [lacksPolarity_writtenType hk]
  | true =>
      cases p with
      | none => simp [hk]
      | some q => simp

theorem exists_type_of_mem_models {base keyword : Text} {line : Nat} {ps : List Part} {m : Model}
    (h : m ∈ (ps.foldl add (new base keyword line)).models) : ∃ p, m.type = .given keyword p := by
  rw [models_eq_map] at h
  split at h
  · cases List.mem_singleton.mp h
    exact ⟨_, rfl⟩
  · obtain ⟨s, -, rfl⟩ := List.mem_map.mp h
    exact ⟨_, rfl⟩

/-- What a block stands for. Without bins that is one model with all lines; otherwise it is
one model for each index, in the order in which the indices came up: the header that opened
it last, the lines before the first bin and the lines between that header and the next one,
each less the assignment that gave a polarity. Where the keyword leaves the polarity open,
the one that came last since that header is written, or else the last one before the first
bin; the model is reported if there is neither. -/
theorem models_of_parts (base keyword : Text) (line : Nat) (ps : List Part) :
    (ps.foldl add (new base keyword line)).models =
        (if (sections ps).2.isEmpty then
          [{ base, line
             type := .given keyword (Polarity.last? (sections ps).1)
             tail := (sections ps).1.map keptLine }]
        else (lastOpenings (sections ps).2).map fun s =>
          { base, bin := some s.index, line := s.line
            type := .given keyword (s.polarity?.or (Polarity.last? (sections ps).1))
            params := some (remainder s.params)
            tail := ((sections ps).1 ++ s.lines).map keptLine }) ∧
      (lastOpenings (sections ps).2).map Section.index =
        ((sections ps).2.map Section.index).eraseDups ∧
      (∀ p, (ModelType.given keyword p).emitted =
        if lacksPolarity keyword then (p.map Polarity.keyword).getD keyword
        else writtenType keyword) ∧
      ∀ m ∈ (ps.foldl add (new base keyword line)).models,
        m.warning? = if lacksPolarity m.type.emitted then
          some (Cause.at (.unresolvedPolarity m.name m.type.emitted) m.line) else none := by
  refine ⟨models_eq_map base keyword line ps, map_index_lastOpenings _,
    ModelType.emitted_given keyword, ?_⟩
  intro m hm
  obtain ⟨p, hp⟩ := exists_type_of_mem_models hm
  exact warning?_given hp

/-- A line that assigns a number or a word to a name. -/
def settingLine (name value : String) : ParamLine :=
  { pieces := [.assign name.toList (.numeric value.toList)] }

/-- A bin that is opened again after another one, which never gets a polarity. -/
def reopenedParts : List Part :=
  [ .line (.params (settingLine "tox" "4n")), .bin 3 (settingLine "type" "n") 2,
    .line (.params (settingLine "lmin" "1u")), .bin 1 (settingLine "lmax" "2u") 4,
    .bin 3 (settingLine "lmin" "0") 5, .line (.params (settingLine "TYPE" "p")),
    .line (.verbatim "* end".toList) ]

theorem models_of_parts_reopened :
    (reopenedParts.foldl add (new "nch".toList "bsim4".toList 1)).models.map Model.render =
        [ [".model nch.3 pmos lmin=0".toList, "tox=4n".toList, "* end".toList],
          [".model nch.1 bsim4 lmax=2u".toList, "tox=4n".toList] ] ∧
      ∃ m ∈ (reopenedParts.foldl add (new "nch".toList "bsim4".toList 1)).models,
        m.name = "nch.1".toList ∧
          m.warning? = some (Cause.at (.unresolvedPolarity m.name "bsim4".toList) 4) := by
  obtain ⟨hmodels, -, -, hwarning⟩ := models_of_parts "nch".toList "bsim4".toList 1 reopenedParts
  have hother : ((reopenedParts.foldl add (new "nch".toList "bsim4".toList 1)).models.any
      fun m => m.name == "nch.1".toList && m.type.emitted == "bsim4".toList && m.line == 4) =
        true := by
    rw [hmodels]
    decide +kernel
  constructor
  · rw [hmodels]
    decide +kernel
  · obtain ⟨m, hm, hfacts⟩ := List.any_eq_true.mp hother
    simp only [Bool.and_eq_true, beq_iff_eq] at hfacts
    refine ⟨m, hm, hfacts.1.1, ?_⟩
    rw [hwarning m hm, hfacts.1.2, hfacts.2]
    rfl

end Block
end Model
end SpiceDeck
