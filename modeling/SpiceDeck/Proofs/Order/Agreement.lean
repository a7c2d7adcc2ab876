import SpiceDeck.Conversion
import SpiceDeck.Proofs.Scope.Equations

/-!
What a deck declares does not depend on the order of its lines, as long as no model is
declared with two types; and a run depends on the declarations by way of the answers they
give to look-ups alone.
-/

namespace SpiceDeck
open Text

namespace Symbols

/-- Declarations that answer every look-up alike. -/
structure Agree (a b : Symbols) : Prop where
  subcircuit : ∀ name, a.isSubcircuit name = b.isSubcircuit name
  model : ∀ name, a.modelType? name = b.modelType? name

/-- The subcircuit under which a line is recorded. -/
def recordedSubcircuit? (raw : Text) : Option Text :=
  if isPassive (trim raw) then none else (subcircuitDeclared? (trim raw)).map lower

/-- What a declared model is recorded under, with its type: its name, and for a bin its
base name, too. -/
def records (name type : Text) : List (Text × Text) :=
  (lower name, lower type) :: ((binBase? (lower name)).map fun base => (base, lower type)).toList

def recordedModels (raw : Text) : List (Text × Text) :=
  if isPassive (trim raw) then []
  else match subcircuitDeclared? (trim raw), modelDeclared? (trim raw) with
    | none, some (name, type) => records name type
    | _, _ => []

/-- No model is declared with two types. -/
def Consistent (raws : List Text) : Prop :=
  ∀ p ∈ raws.flatMap recordedModels, ∀ q ∈ raws.flatMap recordedModels, p.1 = q.1 → p.2 = q.2

instance (raws : List Text) : Decidable (Consistent raws) :=
  inferInstanceAs (Decidable (∀ p ∈ _, ∀ q ∈ _, _))

variable {s : Symbols} {raw name type : Text} {raws : List Text}

theorem addLine_cases (s : Symbols) (raw : Text) :
    (recordedSubcircuit? raw = none ∧ recordedModels raw = [] ∧ s.addLine raw = s) ∨
      (∃ name, recordedSubcircuit? raw = some (lower name) ∧ recordedModels raw = [] ∧
        s.addLine raw = s.addSubcircuit name) ∨
      (∃ name type, recordedSubcircuit? raw = none ∧ recordedModels raw = records name type ∧
        s.addLine raw = s.addModel name type) := by
  simp only [recordedSubcircuit?, recordedModels, addLine]
  cases isPassive (trim raw) with
  | true => exact .inl ⟨rfl, rfl, rfl⟩
  | false =>
      cases subcircuitDeclared? (trim raw) with
      | some name => exact .inr (.inl ⟨name, rfl, rfl, rfl⟩)
      | none =>
          cases modelDeclared? (trim raw) with
          | none => exact .inl ⟨rfl, rfl, rfl⟩
          | some model => exact .inr (.inr ⟨model.1, model.2, rfl, rfl, rfl⟩)

theorem subcircuits_foldl :
    name ∈ (raws.foldl addLine s).subcircuits ↔
      name ∈ s.subcircuits ∨ name ∈ raws.filterMap recordedSubcircuit? := by
  induction raws generalizing s with
  | nil => simp
  | cons raw r ih =>
      rw [List.foldl_cons, ih]
      obtain ⟨hr, -, hs⟩ | ⟨declared, hr, -, hs⟩ | ⟨declared, keyword, hr, -, hs⟩ :=
        addLine_cases s raw
      · rw [hs, List.filterMap_cons_none hr]
      · rw [hs, List.filterMap_cons_some hr, List.mem_cons, ← or_assoc, or_comm (b := name = _)]
        simp [addSubcircuit]
      · rw [hs, List.filterMap_cons_none hr]
        rfl

theorem models_addModel (s : Symbols) (name type : Text) :
    ∃ base, (s.addModel name type).models = (lower name, lower type) :: base ++ s.models ∧
      (lower name, lower type) :: base ⊆ records name type ∧
      ∀ n u, (n, u) ∈ records name type →
        n = lower name ∨ n ∈ base.map Prod.fst ∨ (s.models.lookup n).isSome = true := by
  simp only [addModel, records]
  cases binBase? (lower name) with
  | none => exact ⟨[], rfl, List.Subset.refl _, by simp_all⟩
  | some base =>
      cases hbase : (s.models.lookup base).isSome with
      | true =>
          refine ⟨[], by simp [hbase], by simp, ?_⟩
          rintro n u hn
          obtain hn | hn := List.mem_cons.mp hn
          · exact .inl (Prod.mk.inj hn).1
          · rw [(Prod.mk.inj (List.mem_singleton.mp hn)).1]
            exact .inr (.inr hbase)
      | false =>
          refine ⟨[(base, lower type)], by simp [hbase], by simp, ?_⟩
          rintro n u hn
          obtain hn | hn := List.mem_cons.mp hn
          · exact .inl (Prod.mk.inj hn).1
          · exact .inr (.inl (List.mem_map_of_mem hn))

theorem mem_models_foldl (h : (name, type) ∈ (raws.foldl addLine s).models) :
    (name, type) ∈ s.models ∨ (name, type) ∈ raws.flatMap recordedModels := by
  induction raws generalizing s with
  | nil => exact .inl h
  | cons raw r ih =>
      rw [List.flatMap_cons, List.mem_append]
      obtain h | h := ih h
      · obtain ⟨-, -, hs⟩ | ⟨declared, -, -, hs⟩ | ⟨declared, keyword, -, hr, hs⟩ :=
          addLine_cases s raw
        · rw [hs] at h
          exact .inl h
        · rw [hs] at h
          exact .inl h
        · obtain ⟨base, hmodels, hrecords, -⟩ := models_addModel s declared keyword
          rw [hs, hmodels] at h
          rw [hr]
          obtain h | h := List.mem_append.mp h
          · exact .inr (.inl (hrecords h))
          · exact .inl h
      · exact .inr (.inr h)

theorem isSome_lookup_append {front back : List (Text × Text)}
    (h : name ∈ front.map Prod.fst ∨ (back.lookup name).isSome = true) :
    ((front ++ back).lookup name).isSome = true := by
  induction front with
  | nil => exact h.resolve_left (by simp)
  | cons p r ih =>
      rw [List.cons_append, List.lookup_cons]
      split
      · rfl
      · next hne =>
          refine ih (h.imp_left fun h => ?_)
          obtain rfl | h := List.mem_cons.mp h
          · simp at hne
          · exact h

theorem isSome_lookup_foldl
    (h : (s.models.lookup name).isSome = true ∨ (name, type) ∈ raws.flatMap recordedModels) :
    ((raws.foldl addLine s).models.lookup name).isSome = true := by
  induction raws generalizing s with
  | nil => exact h.resolve_right (by simp)
  | cons raw r ih =>
      rw [List.flatMap_cons, List.mem_append, ← or_assoc] at h
      refine ih (h.imp_left fun h => ?_)
      obtain ⟨-, hr, hs⟩ | ⟨declared, -, hr, hs⟩ | ⟨declared, keyword, -, hr, hs⟩ :=
        addLine_cases s raw
      · rw [hr] at h
        rw [hs]
        exact h.resolve_right List.not_mem_nil
      · rw [hr] at h
        rw [hs]
        exact h.resolve_right List.not_mem_nil
      · obtain ⟨base, hmodels, -, hnames⟩ := models_addModel s declared keyword
        rw [hs, hmodels]
        refine isSome_lookup_append ?_
        obtain h | h := h
        · exact .inr h
        · rw [hr] at h
          rw [List.map_cons, List.mem_cons, or_assoc]
          exact hnames name type h

theorem modelType?_eq_some_iff (hc : Consistent raws) :
    (raws.foldl addLine {}).modelType? name = some type ↔
      (lower name, type) ∈ raws.flatMap recordedModels := by
  have hmem : ∀ {u : Text}, (raws.foldl addLine {}).models.lookup (lower name) = some u →
      (lower name, u) ∈ raws.flatMap recordedModels := by
    intro u hu
    obtain ⟨l, r, hsplit, -⟩ := List.lookup_eq_some_iff.mp hu
    have hin : (lower name, u) ∈ (raws.foldl addLine {}).models := by
      rw [hsplit]
      exact List.mem_append_right _ List.mem_cons_self
    exact (mem_models_foldl hin).resolve_left List.not_mem_nil
  constructor
  · exact hmem
  · intro h
    obtain ⟨u, hu⟩ := Option.isSome_iff_exists.mp
      (isSome_lookup_foldl (s := {}) (Or.inr h))
    have heq : type = u := hc _ h _ (hmem hu) rfl
    rw [modelType?, hu, heq]

/-- The order of the lines does not matter to what they declare. -/
theorem agree_of_perm {raws raws' : List Text} (hp : raws.Perm raws') (hc : Consistent raws) :
    Agree (raws'.foldl addLine {}) (raws.foldl addLine {}) := by
  have hc' : Consistent raws' := by
    have hmem : ∀ {p}, p ∈ raws'.flatMap recordedModels → p ∈ raws.flatMap recordedModels :=
      fun h => (hp.symm.flatMap_right recordedModels).subset h
    exact fun p hx q hy => hc p (hmem hx) q (hmem hy)
  constructor
  · intro name
    rw [Bool.eq_iff_iff]
    simp only [isSubcircuit, List.contains_iff_mem, subcircuits_foldl]
    rw [(hp.filterMap recordedSubcircuit?).mem_iff]
  · intro name
    refine Option.ext fun type => ?_
    rw [modelType?_eq_some_iff hc, modelType?_eq_some_iff hc',
      (hp.flatMap_right recordedModels).mem_iff]

variable {a b : Symbols}

namespace Agree

theorem isKnown (h : Agree a b) (name : Text) : a.isKnown name = b.isKnown name := by
  rw [Symbols.isKnown, Symbols.isKnown, h.subcircuit, h.model]

theorem kind (h : Agree a b) (o : Options) (d : Dialect) (s : Statement) :
    s.kind a o d = s.kind b o d := by
  simp only [Statement.kind, Head.bareCall?, h.isKnown]

theorem find (h : Agree a b) (o : Options) (name reference : Text) (family : Option Family) :
    Resolution.find a o name reference family = Resolution.find b o name reference family := by
  simp only [Resolution.find, h.subcircuit, h.model]

theorem close (h : Agree a b) (o : Options) (sub : Subcircuit) (name : Option Text) (n : Nat) :
    sub.close a o name n = sub.close b o name n := by
  have hcalls : Subcircuit.renderCall a o sub = Subcircuit.renderCall b o sub := by
    funext e
    cases e with
    | verbatim t => rfl
    | item c => simp only [Subcircuit.renderCall, h.find]
  simp only [Subcircuit.close, Subcircuit.render, hcalls]

end Agree

end Symbols

namespace Scope

variable {a b : Symbols}

theorem stepTop_agree (h : a.Agree b) (o : Options) (s : Statement) (kind : Statement.Kind) :
    stepTop ⟨a, o⟩ s kind = stepTop ⟨b, o⟩ s kind := by
  cases kind with
  | deviceCall head => simp only [stepTop, h.find]
  | simulator _ | parameters | statistics | model _ | binHeader _ _ | blockClose
  | subcircuitClose _ | subcircuitOpen _ | directive _ | other => rfl

theorem stepBody_agree (h : a.Agree b) (o : Options) (sub : Subcircuit) (s : Statement)
    (kind : Statement.Kind) : stepBody ⟨a, o⟩ sub s kind = stepBody ⟨b, o⟩ sub s kind := by
  cases kind with
  | subcircuitClose name => simp only [stepBody, h.close]
  | simulator _ | parameters | statistics | model _ | binHeader _ _ | blockClose | deviceCall _
  | subcircuitOpen _ | directive _ | other => rfl

theorem step_agree (h : a.Agree b) (o : Options) (s : Statement) (kind : Statement.Kind)
    (scope : Scope) : scope.step ⟨a, o⟩ s kind = scope.step ⟨b, o⟩ s kind := by
  cases scope with
  | top => exact stepTop_agree h o s kind
  | body sub => exact stepBody_agree h o sub s kind
  | pins sub =>
      cases kind with
      | subcircuitClose name => exact stepBody_agree h o sub s (.subcircuitClose name)
      | simulator _ | parameters | statistics | model _ | binHeader _ _ | blockClose
      | deviceCall _ | subcircuitOpen _ | directive _ | other => rfl
  | model parent block =>
      have hinterrupt : interruptModel ⟨a, o⟩ parent block s kind =
          interruptModel ⟨b, o⟩ parent block s kind := by
        rw [interruptModel_eq, interruptModel_eq]
        cases (endModel parent block).1 with
        | none => simp only [around, step, stepTop_agree h]
        | some sub => simp only [around, step, stepBody_agree h]
      cases kind with
      | subcircuitOpen _ | subcircuitClose _ | model _ => exact hinterrupt
      | simulator _ | parameters | statistics | binHeader _ _ | blockClose | deviceCall _
      | directive _ | other => rfl

theorem finish_agree (h : a.Agree b) (o : Options) (scope : Scope) :
    scope.finish ⟨a, o⟩ = scope.finish ⟨b, o⟩ := by
  cases scope with
  | top => rfl
  | pins sub | body sub => simp only [finish, finishSubcircuit, h.close]
  | model parent block => simp only [finish, finishSubcircuit, h.close]

end Scope

/-- A run asks the declarations and does nothing else with them. -/
theorem Session.run_agree {a b : Symbols} (h : a.Agree b) (o : Options) (start : Session)
    (items : List Item) : start.run ⟨a, o⟩ items = start.run ⟨b, o⟩ items := by
  have hpush : ∀ (start : Session) (item : Item),
      start.push ⟨a, o⟩ item = start.push ⟨b, o⟩ item := by
    intro start item
    cases item with
    | line l => rfl
    | statement s => simp only [push, pushStatement, h.kind, Scope.step_agree h]
  induction items generalizing start with
  | nil => exact Scope.finish_agree h o start.scope
  | cons item r ih => simp only [run, hpush, ih]

end SpiceDeck
