import SpiceDeck.Proofs.Model.Family
import SpiceDeck.Proofs.Scope.Bracketing
import SpiceDeck.Proofs.Symbols.HeadLine

/-!
Calls to models of the open subcircuit. A call in a subcircuit takes its letter from the
models that are kept there, any other call from the symbols of the whole text. Main
statement: for a model that is declared once the two letters agree exactly if the short
spelling of its type keeps the family.
-/

namespace SpiceDeck
open Text

/-- The models that an item may declare in either dialect, with the line they stand on. -/
def Item.declared : Item → List (Nat × ModelOpening)
  | .line _ => []
  | .statement s => [true, false].filterMap fun spectre =>
      (Head.model? spectre s.head.content).map fun head => (s.number, head)

theorem Item.mem_declared {item : Item} {x : Nat × ModelOpening} (h : x ∈ item.declared) :
    ∃ s spectre, item = .statement s ∧ x.1 = s.number ∧
      Head.model? spectre s.head.content = some x.2 := by
  cases item with
  | line l => cases h
  | statement s =>
      obtain ⟨spectre, -, h⟩ := List.mem_filterMap.mp h
      obtain ⟨head, hhead, rfl⟩ := Option.map_eq_some_iff.mp h
      exact ⟨s, spectre, rfl, rfl, hhead⟩

theorem Item.mem_declared_of_kind {s : Statement} {symbols : Symbols} {o : Options} {d : Dialect}
    {head : ModelOpening} (h : s.kind symbols o d = .model head) :
    (s.number, head) ∈ (Item.statement s).declared := by
  have hmodel := Statement.model?_of_kind h
  apply List.mem_filterMap.mpr
  refine ⟨decide (d = .spectre), ?_, ?_⟩
  · cases decide (d = .spectre) <;> decide
  · rw [hmodel]
    rfl

namespace Model

/-- The model was declared under this name with this keyword, whatever was read into it. -/
structure OfKeyword (base keyword : Text) (m : Model) : Prop where
  base : m.base = base
  type : ∃ p, m.type = .given keyword p

variable {base keyword : Text} {m : Model}

theorem ofKeyword_new (base keyword : Text) (line : Nat) :
    OfKeyword base keyword (new base keyword line) :=
  ⟨rfl, none, (ModelType.given_none keyword).symm⟩

theorem OfKeyword.family (h : OfKeyword base keyword m) :
    m.family = (ModelType.ofKeyword keyword).family := by
  obtain ⟨p, hp⟩ := h.type
  rw [Model.family, hp, ModelType.family_given]

theorem OfKeyword.absorb (h : OfKeyword base keyword m) (l : ParamLine) :
    OfKeyword base keyword (m.absorb l) := by
  simp only [Model.absorb]
  cases Polarity.onLine? l with
  | none => exact h
  | some q =>
      obtain ⟨p, hp⟩ := h.type
      refine ⟨h.base, some q, ?_⟩
      simp only [hp, ModelType.resolve_given]

theorem OfKeyword.withParams (h : OfKeyword base keyword m) (l : ParamLine) :
    OfKeyword base keyword (m.withParams l) :=
  ⟨(h.absorb l).base, (h.absorb l).type⟩

theorem OfKeyword.addParams (h : OfKeyword base keyword m) (l : ParamLine) :
    OfKeyword base keyword (m.addParams l) :=
  ⟨(h.absorb l).base, (h.absorb l).type⟩

theorem OfKeyword.addText (h : OfKeyword base keyword m) (t : Text) :
    OfKeyword base keyword (m.addText t) :=
  ⟨h.base, h.type⟩

theorem close_base_type (m : Model) : m.close.base = m.base ∧ m.close.type = m.type := by
  simp only [Model.close]
  split
  · exact ⟨rfl, rfl⟩
  · exact ⟨rfl, rfl⟩

theorem OfKeyword.close (h : OfKeyword base keyword m) : OfKeyword base keyword m.close := by
  obtain ⟨hbase, htype⟩ := close_base_type m
  exact ⟨hbase.trans h.base, htype ▸ h.type⟩

theorem OfKeyword.readParts (h : OfKeyword base keyword m) (o : Options) (carry : Carry)
    (parts : List Part) : OfKeyword base keyword (m.readParts o carry parts) := by
  induction parts generalizing m carry with
  | nil => exact h
  | cons part r ih =>
      cases part with
      | code t => exact ih (h.addParams _) _
      | passive t => exact ih (h.addText t) carry

theorem ofKeyword_ofHead (o : Options) (head : ModelOpening) (s : Statement) :
    OfKeyword head.name head.keyword (ofHead o head s) := by
  have hnew := ofKeyword_new head.name head.keyword s.number
  simp only [ofHead]
  split
  · exact (hnew.withParams _).readParts o _ _
  · exact hnew.readParts o _ _

theorem Block.models_closeValue (b : Model.Block) :
    b.closeValue.models.map (fun m => (m.base, m.type)) =
      b.models.map fun m => (m.base, m.type) := by
  simp only [Block.closeValue]
  split
  · cases hc : b.current with
    | none =>
        simp only [Block.modifyCurrent, hc, Block.models, Block.complete, close_base_type]
        split
        · simp [close_base_type]
        · rw [List.map_map, List.map_map]
          rfl
    | some index =>
        simp only [Block.modifyCurrent, hc, Block.models, Block.complete, List.isEmpty_map]
        split
        · rfl
        · rw [List.map_map, List.map_map, List.map_map]
          apply List.map_congr_left
          intro x _
          simp only [Function.comp_apply]
          split
          · simp [close_base_type]
          · rfl
  · rfl

theorem Block.ofKeyword_of_mem_modelsOf {line : Nat} {ps : List Block.Part}
    (h : m ∈ Block.modelsOf base keyword line ps) : OfKeyword base keyword m := by
  rw [← Block.models_foldl_add] at h
  have hkin : (m.base, m.type) ∈
      (ps.foldl Block.add (.new base keyword line)).models.map fun m => (m.base, m.type) := by
    rw [← Block.models_closeValue]
    exact List.mem_map_of_mem h
  obtain ⟨m', hm', heq⟩ := List.mem_map.mp hkin
  obtain ⟨hbase, htype⟩ := Prod.mk.inj heq
  rw [Block.models_eq_map] at hm'
  split at hm'
  · cases List.mem_singleton.mp hm'
    exact ⟨hbase.symm, _, htype.symm⟩
  · obtain ⟨s, -, rfl⟩ := List.mem_map.mp hm'
    exact ⟨hbase.symm, _, htype.symm⟩

theorem mem_enter {entered : List Model} {x : Model} (h : m ∈ enter entered x) :
    m ∈ entered ∨ m = x := by
  induction entered with
  | nil => exact .inr (List.mem_singleton.mp h)
  | cons old r ih =>
      simp only [enter] at h
      split at h
      · obtain rfl | h := List.mem_cons.mp h
        · exact .inr rfl
        · exact .inl (List.mem_cons_of_mem old h)
      · obtain rfl | h := List.mem_cons.mp h
        · exact .inl List.mem_cons_self
        · exact (ih h).imp_left (List.mem_cons_of_mem old)

theorem mem_foldl_enter {ms entered : List Model} (h : m ∈ ms.foldl enter entered) :
    m ∈ entered ∨ m ∈ ms := by
  induction ms generalizing entered with
  | nil => exact .inl h
  | cons x r ih =>
      obtain hm | hm := ih h
      · obtain hm | rfl := mem_enter hm
        · exact .inl hm
        · exact .inr List.mem_cons_self
      · exact .inr (List.mem_cons_of_mem x hm)

end Model

namespace Kept

/-- A model that is kept was declared as `P` says; the parts of a block declare nothing. -/
def Fits (P : Text → Text → Prop) : Kept → Prop
  | .model m => ∃ base keyword, P base keyword ∧ m.OfKeyword base keyword
  | .block base keyword _ => P base keyword
  | .pins _ | .header _ | .line _ | .call _ | .part _ => True

variable {P : Text → Text → Prop}

theorem fits_models {ks : List Kept} (h : ∀ k ∈ ks, k.Fits P) {m : Model} (hm : m ∈ models ks) :
    ∃ base keyword, P base keyword ∧ m.OfKeyword base keyword := by
  induction ks with
  | nil => cases hm
  | cons k r ih =>
      have hr : ∀ k ∈ r, k.Fits P := fun k hk => h k (List.mem_cons_of_mem _ hk)
      have hk := h k List.mem_cons_self
      cases k with
      | model m' =>
          obtain rfl | hm := List.mem_cons.mp hm
          · exact hk
          · exact ih hr hm
      | block base keyword n =>
          obtain hm | hm := List.mem_append.mp hm
          · exact ⟨base, keyword, hk, Model.Block.ofKeyword_of_mem_modelsOf hm⟩
          · exact ih hr hm
      | pins _ | header _ | line _ | call _ | part _ => exact ih hr hm

end Kept

def Track.Fits (P : Text → Text → Prop) : Track → Prop
  | .keep k => k.Fits P
  | .enter _ _ | .leave => True

namespace Scope

variable {P : Text → Text → Prop} {cx : Context} {s : Statement} {kind : Statement.Kind}

theorem fits_map {α : Type} (f : α → Kept) (xs : List α) (hf : ∀ x, (f x).Fits P) :
    ∀ k ∈ xs.map f, k.Fits P := by
  intro k hk
  obtain ⟨x, -, rfl⟩ := List.mem_map.mp hk
  exact hf x

theorem fits_lines (ts : List Text) : ∀ k ∈ ts.map Kept.line, k.Fits P :=
  fits_map Kept.line ts fun _ => trivial

theorem fits_blockKept (x : List Model.Block.Part × Option (List Line)) :
    ∀ k ∈ blockKept x, k.Fits P := by
  obtain ⟨ps, rest⟩ := x
  have hparts : ∀ k ∈ ps.map Kept.part, k.Fits P := fits_map Kept.part ps fun _ => trivial
  cases rest with
  | none => exact hparts
  | some rest => exact List.forall_mem_append.mpr ⟨hparts, fits_lines _⟩

theorem fits_modelKept (o : Options) {head : ModelOpening} (s : Statement)
    (h : P head.name head.keyword) : ∀ k ∈ modelKept o head s, k.Fits P := by
  intro k hk
  rw [modelKept] at hk
  split at hk
  · obtain rfl | hk := List.mem_cons.mp hk
    · exact h
    · exact fits_blockKept _ k hk
  · cases List.mem_singleton.mp hk
    exact ⟨_, _, h, (Model.ofKeyword_ofHead o head s).close⟩

theorem fits_headers (ts : List Text) : ∀ k ∈ ts.map Kept.header, k.Fits P :=
  fits_map Kept.header ts fun _ => trivial

theorem fits_header (h : Header) : ∀ k ∈ h.kept, k.Fits P := by
  have hpins : ∀ k ∈ h.pins.map Kept.pins, k.Fits P := fits_map Kept.pins _ fun _ => trivial
  exact List.forall_mem_append.mpr ⟨hpins, fits_headers _⟩

theorem fits_bodyKept (cx : Context) (s : Statement)
    (h : ∀ head, kind = .model head → P head.name head.keyword) :
    ∀ k ∈ bodyKept cx s kind, k.Fits P := by
  cases kind with
  | model head => exact fits_modelKept cx.options s (h head rfl)
  | parameters =>
      simp only [bodyKept]
      split
      · exact fits_lines _
      · exact fits_headers _
  | deviceCall head =>
      intro k hk
      cases List.mem_singleton.mp hk
      trivial
  | subcircuitClose _ =>
      intro k hk
      cases hk
  | directive _ | subcircuitOpen _ | binHeader _ _ | blockClose | other | simulator _
  | statistics => exact fits_lines _

theorem fits_kept (cx : Context) (s : Statement) (scope : Scope)
    (h : ∀ head, kind = .model head → P head.name head.keyword) :
    ∀ k ∈ scope.kept cx s kind, k.Fits P := by
  cases scope with
  | top =>
      intro k hk
      cases hk
  | body sub => exact fits_bodyKept cx s h
  | pins sub =>
      cases kind with
      | subcircuitClose _ =>
          intro k hk
          cases hk
      | simulator _ | parameters | statistics | model _ | binHeader _ _ | blockClose
      | subcircuitOpen _ | directive _ | deviceCall _ | other => exact fits_header _
  | model parent b =>
      cases parent with
      | none =>
          intro k hk
          cases hk
      | some sub =>
          cases kind with
          | blockClose => exact fits_lines _
          | subcircuitOpen _ | subcircuitClose _ | model _ => exact fits_bodyKept cx s h
          | simulator _ | parameters | statistics | binHeader _ _ | directive _ | deviceCall _
          | other => exact fits_blockKept (Model.Block.partsOf cx.options b.carry s.lines)

theorem fits_copied (scope : Scope) (lines : List Text) : ∀ k ∈ scope.copied lines, k.Fits P := by
  cases scope with
  | top =>
      intro k hk
      cases hk
  | body sub => exact fits_lines _
  | pins sub => exact fits_headers _
  | model parent b =>
      cases parent with
      | none =>
          intro k hk
          cases hk
      | some sub => exact fits_map Kept.part _ fun _ => trivial

theorem fits_map_keep {ks : List Kept} (h : ∀ k ∈ ks, k.Fits P) :
    ∀ t ∈ ks.map Track.keep, t.Fits P := by
  intro t ht
  obtain ⟨k, hk, rfl⟩ := List.mem_map.mp ht
  exact h k hk

theorem fits_tracks (scope : Scope) (h : ∀ head, kind = .model head → P head.name head.keyword) :
    ∀ t ∈ scope.tracks cx s kind, t.Fits P := by
  have hkept := fits_map_keep (fits_kept cx s scope h)
  intro t ht
  simp only [tracks] at ht
  split at ht
  · obtain ht | ht := List.mem_append.mp ht
    · exact hkept t ht
    · cases List.mem_singleton.mp ht
      trivial
  · exact hkept t ht
  · obtain rfl | ht := List.mem_cons.mp ht
    · trivial
    · exact fits_map_keep (fits_header _) t ht
  · cases ht

end Scope

namespace Session

variable {P : Text → Text → Prop}

theorem kind_of_dispatched? {cx : Context} {a : Session} {item : Item} {s : Statement}
    {kind : Statement.Kind} (h : a.dispatched? cx item = some (s, kind)) :
    item = .statement s ∧ s.kind cx.symbols cx.options a.dialect = kind := by
  cases item with
  | line l => cases h
  | statement s' =>
      simp only [dispatched?] at h
      split at h
      · cases h
      · split at h
        · cases h
        · cases h
        · next hkind =>
            cases h
            exact ⟨rfl, rfl⟩

/-- What is kept in a run was declared by its statements. -/
theorem fits_run (cx : Context) (a : Session) (items : List Item)
    (h : ∀ item ∈ items, ∀ x ∈ item.declared, P x.2.name x.2.keyword) :
    ∀ t ∈ a.tracks cx items, t.Fits P := by
  induction items generalizing a with
  | nil =>
      intro t ht
      rw [tracks, Scope.lastTracks] at ht
      split at ht
      · cases List.mem_singleton.mp ht
        trivial
      · cases ht
  | cons item r ih =>
      intro t ht
      rw [tracks, List.mem_append] at ht
      obtain ht | ht := ht
      · simp only [itemTracks] at ht
        split at ht
        · next s kind hd =>
            obtain ⟨rfl, hkind⟩ := kind_of_dispatched? hd
            refine Scope.fits_tracks a.scope ?_ t ht
            rintro head rfl
            exact h _ List.mem_cons_self _ (Item.mem_declared_of_kind hkind)
        · exact Scope.fits_map_keep (Scope.fits_copied _ _) t ht
      · exact ih _ (fun x hx => h x (List.mem_cons_of_mem item hx)) t ht

end Session

theorem Segment.Accounts.fits {P : Text → Text → Prop} {cx : Context} {segments : List Segment}
    {ts : List Track} (h : Accounts cx segments ts) (hts : ∀ t ∈ ts, t.Fits P) {sub : Subcircuit}
    (hsub : .block sub ∈ segments) :
    ∃ name line ks, sub.Keeps name line ks ∧ ∀ k ∈ ks, k.Fits P := by
  induction h with
  | nil => cases hsub
  | plain _ _ ih | call _ _ ih =>
      obtain hsub | hsub := List.mem_cons.mp hsub
      · cases hsub
      · exact ih hts hsub
  | block hs _ _ ih =>
      obtain hsub | hsub := List.mem_cons.mp hsub
      · cases hsub
        refine ⟨_, _, _, hs, ?_⟩
        intro k hk
        exact hts (.keep k) (by simp [hk])
      · refine ih ?_ hsub
        intro t ht
        exact hts t (by simp [ht])

namespace Session

/-- The family of a model of a subcircuit is that of the type it is written with, for the
keyword it is declared with. -/
theorem exists_declared_of_modelFamily? {cx : Context} {d : Dialect} {items : List Item}
    {sub : Subcircuit} (hsub : .block sub ∈ segments cx { dialect := d } items) {name : Text}
    {f : Family} (hf : sub.modelFamily? name = some f) :
    ∃ item ∈ items, ∃ x ∈ item.declared, sameName x.2.name name = true ∧
      f = (ModelType.ofKeyword x.2.keyword).family := by
  have haccounts := accounts_run cx { dialect := d } items (.closed rfl)
  have hfits := fits_run cx { dialect := d } items
    (P := fun base keyword => ∃ item ∈ items, ∃ x ∈ item.declared,
      x.2.name = base ∧ x.2.keyword = keyword)
    (fun item hitem x hx => ⟨item, hitem, x, hx, rfl, rfl⟩)
  obtain ⟨_, _, ks, hkeeps, hks⟩ := haccounts.fits hfits hsub
  rw [Subcircuit.modelFamily?, hkeeps.models] at hf
  obtain ⟨m, hfind, rfl⟩ := Option.map_eq_some_iff.mp hf
  obtain hm | hm := Model.mem_foldl_enter (List.mem_of_find?_eq_some hfind)
  · cases hm
  · obtain ⟨_, _, ⟨item, hitem, x, hx, rfl, rfl⟩, hof⟩ := Kept.fits_models hks hm
    have hbase := List.find?_some hfind
    rw [hof.base] at hbase
    exact ⟨item, hitem, x, hx, hbase, hof.family⟩

end Session

namespace Symbols

/-- The text declares the name once: as a model with this keyword, on the line with this
index. -/
structure DeclaredOnce (t name keyword : Text) (k : Nat) : Prop where
  line : ∃ m ∈ (Text.lines t)[k]?.bind declaredModel?, sameName m.1 name = true
  noLine : ∀ x ∈ (Text.lines t).zipIdx, x.2 ≠ k →
    ∀ m ∈ declaredModel? x.1, sameName m.1 name = false
  statement : ∀ item ∈ Item.ofText t, ∀ x ∈ item.declared, sameName x.2.name name = true →
    x.1 = k + 1 ∧ x.2.keyword = keyword
  noSubcircuit : (scan t).isSubcircuit name = false

variable {t name keyword : Text} {k : Nat}

/-- The symbols have a type of the family that the keyword of the statement gives. -/
theorem DeclaredOnce.modelType? (h : DeclaredOnce t name keyword k) {item : Item}
    {x : Nat × ModelOpening} (hitem : item ∈ Item.ofText t) (hx : x ∈ item.declared)
    (hname : sameName x.2.name name = true) :
    ∃ type, (scan t).modelType? name = some type ∧
      Family.ofKeyword type = Family.ofKeyword keyword := by
  obtain ⟨⟨declared, type⟩, hline, hsame⟩ := h.line
  obtain ⟨raw, hraw, hm⟩ := Option.bind_eq_some_iff.mp hline
  obtain ⟨hnumber, hkeyword⟩ := h.statement item hitem x hx hname
  have hlower : lower declared = lower name := eq_of_beq hsame
  have htype : (scan t).modelType? declared = some (lower type) := by
    apply modelType?_scan hraw hm
    intro i x hx hi m hm
    have hother := h.noLine (x, i) (List.mem_zipIdx_iff_getElem?.mpr hx) hi m hm
    rwa [sameName, ← hlower] at hother
  refine ⟨lower type, ?_, ?_⟩
  · rwa [Symbols.modelType?, hlower] at htype
  · -- the statement is on the line that the symbols have the type from
    obtain ⟨s, spectre, rfl, hfirst, hmodel⟩ := Item.mem_declared hx
    obtain ⟨k', raw', joined, hk', hhead⟩ :=
      Line.mem_readFrom (Item.mem_lines_ofText hitem (l := s.head) List.mem_cons_self)
    have hindex : k' = k := by
      rw [hfirst, Statement.number, hhead, Line.number_read] at hnumber
      omega
    subst hindex
    rw [hraw] at hk'
    cases hk'
    have hcode : isSilent raw = false := by
      apply Line.isSilent_of_isCode (feed_not_mem_lines (List.mem_of_getElem? hraw))
      rw [← hhead]
      exact Item.isCode_head_group hitem
    have hagree : sameName x.2.name declared = true := by
      rw [sameName, hlower]
      exact hname
    rw [hhead] at hmodel
    rw [Family.ofKeyword_lower, ← hkeyword]
    exact Line.ofKeyword_declaredModel? hcode hm hmodel hagree

end Symbols

theorem Family.letter_inj {f g : Family} : f.letter = g.letter ↔ f = g := by
  cases f <;> cases g <;> decide

namespace Session

open Symbols

/-- A model that is read has the family of its keyword if and only if the short spelling of
the keyword keeps the family; and under the same condition a call to a model that the text
declares once gets the same letter from the subcircuit that keeps the model as from the
symbols of the text. -/
theorem letter_buffered_iff (keyword : Text) :
    (∀ base line, (Model.new base keyword line).family = Family.ofKeyword keyword ↔
      losesFamily keyword = false) ∧
    ∀ (t : Text) (o : Options) (d : Dialect) (sub : Subcircuit) (c : Call) (k : Nat),
      DeclaredOnce t c.reference keyword k →
      .block sub ∈ segments ⟨scan t, o⟩ { dialect := d } (Item.ofText t) →
      (sub.modelFamily? c.reference).isSome = true →
      (((Segment.block sub).resolution ⟨scan t, o⟩ c).letter =
          ((Segment.call c).resolution ⟨scan t, o⟩ c).letter ↔
        losesFamily keyword = false) := by
  constructor
  · intro base line
    exact ModelType.family_ofKeyword_iff keyword
  · intro t o d sub c k honce hsub hsome
    obtain ⟨f, hf⟩ := Option.isSome_iff_exists.mp hsome
    obtain ⟨item, hitem, x, hx, hname, rfl⟩ := exists_declared_of_modelFamily? hsub hf
    obtain ⟨type, htype, hfamily⟩ := honce.modelType? hitem hx hname
    have hkeyword := (honce.statement item hitem x hx hname).2
    simp only [Segment.resolution, hf, Resolution.find, honce.noSubcircuit, htype,
      Resolution.ofFamily, Bool.false_eq_true, if_false, Family.letter_inj, hfamily, hkeyword]
    exact ModelType.family_ofKeyword_iff keyword

/-- Two models that a subcircuit keeps, one of them with a keyword that loses its family. -/
def bufferingDeck : Text := "subckt a (p n)\nmodel lm inductor\nmodel dm diode\nends a\n".toList

def subcircuit? : Segment → Option Subcircuit
  | .block sub => some sub
  | .plain _ | .call _ => none

def callTo (reference : Text) : Call :=
  { name := "k1".toList, pins := [], reference, params := { pieces := [] }, line := 1 }

theorem letter_buffered_iff_bufferingDeck :
    ∃ sub, Segment.block sub ∈ segments ⟨scan bufferingDeck, {}⟩ { dialect := .spectre }
        (Item.ofText bufferingDeck) ∧
      ((Segment.block sub).resolution ⟨scan bufferingDeck, {}⟩ (callTo "lm".toList)).letter ≠
        ((Segment.call (callTo "lm".toList)).resolution ⟨scan bufferingDeck, {}⟩
          (callTo "lm".toList)).letter ∧
      ((Segment.block sub).resolution ⟨scan bufferingDeck, {}⟩ (callTo "dm".toList)).letter =
        ((Segment.call (callTo "dm".toList)).resolution ⟨scan bufferingDeck, {}⟩
          (callTo "dm".toList)).letter := by
  have hinductor : DeclaredOnce bufferingDeck "lm".toList "inductor".toList 1 :=
    ⟨by decide +kernel, by decide +kernel, by decide +kernel, by decide +kernel⟩
  have hdiode : DeclaredOnce bufferingDeck "dm".toList "diode".toList 2 :=
    ⟨by decide +kernel, by decide +kernel, by decide +kernel, by decide +kernel⟩
  have hsub : ∃ sub ∈ (segments ⟨scan bufferingDeck, {}⟩ { dialect := .spectre }
        (Item.ofText bufferingDeck)).filterMap subcircuit?,
      (sub.modelFamily? "lm".toList).isSome = true ∧
        (sub.modelFamily? "dm".toList).isSome = true := by
    decide +kernel
  obtain ⟨sub, hmem, hlm, hdm⟩ := hsub
  obtain ⟨segment, hsegment, hblock⟩ := List.mem_filterMap.mp hmem
  cases segment with
  | plain _ | call _ => cases hblock
  | block sub' =>
      cases hblock
      have hlm := (letter_buffered_iff _).2 bufferingDeck {} .spectre sub (callTo "lm".toList) 1
        hinductor hsegment hlm
      have hdm := (letter_buffered_iff _).2 bufferingDeck {} .spectre sub (callTo "dm".toList) 2
        hdiode hsegment hdm
      refine ⟨sub, hsegment, ?_, hdm.mpr (by decide)⟩
      intro h
      exact absurd (hlm.mp h) (by decide)

end Session

end SpiceDeck
