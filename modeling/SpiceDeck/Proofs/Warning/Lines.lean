import SpiceDeck.Proofs.Scope.Calls
import SpiceDeck.Proofs.Statement.Origin

/-!
Where warnings point. Calls, models, blocks and subcircuits keep the number of the line
they were read from and are reported long after it, so the invariant is on everything
that is kept: each number is that of a code line. Main statement: a warning of a
conversion carries the number of a line of the text that is neither a comment nor blank.
-/

namespace SpiceDeck
open Text

variable {P : Nat → Prop}

namespace Deck

/-- Every warning points at a line with the property. -/
def Located (P : Nat → Prop) (d : Deck) : Prop :=
  ∀ w ∈ d.warnings, ∃ n, w.line = some n ∧ P n

variable {a b : Deck}

theorem located_empty : Located P {} := by
  intro w hw
  cases hw

theorem located_ofLines (lines : List Text) : Located P (ofLines lines) := by
  intro w hw
  cases hw

theorem Located.append (ha : a.Located P) (hb : b.Located P) : (a ++ b).Located P := by
  intro w hw
  rw [warnings_append] at hw
  obtain hw | hw := List.mem_append.mp hw
  · exact ha w hw
  · exact hb w hw

theorem located_warn (c : Cause) {n : Nat} (h : P n) : Located P (warn c n) := by
  intro w hw
  cases List.mem_singleton.mp hw
  exact ⟨n, rfl, h⟩

theorem located_warnIf (b : Bool) (c : Cause) {n : Nat} (h : P n) :
    Located P (warnIf b c n) := by
  cases b with
  | false => exact located_empty
  | true => exact located_warn c h

theorem located_concat {α : Type} {f : α → Deck} {l : List α}
    (h : ∀ x ∈ l, (f x).Located P) : (concat (l.map f)).Located P := by
  induction l with
  | nil => exact located_empty
  | cons x r ih =>
      apply Located.append
      · exact h x List.mem_cons_self
      · apply ih
        intro y hy
        exact h y (List.mem_cons_of_mem x hy)

end Deck

open Deck

namespace Model

@[simp] theorem line_absorb (m : Model) (l : ParamLine) : (m.absorb l).line = m.line := by
  simp only [absorb]
  split <;> rfl

@[simp] theorem line_withParams (m : Model) (l : ParamLine) : (m.withParams l).line = m.line :=
  line_absorb m l

@[simp] theorem line_addParams (m : Model) (l : ParamLine) : (m.addParams l).line = m.line :=
  line_absorb m l

@[simp] theorem line_close (m : Model) : m.close.line = m.line := by
  simp only [close]
  split <;> rfl

theorem line_readParts (o : Options) (m : Model) (carry : Carry) (ps : List Part) :
    (readParts o m carry ps).line = m.line := by
  induction ps generalizing m carry with
  | nil => rfl
  | cons p r ih =>
      cases p with
      | code t =>
          rw [readParts, ih]
          exact line_addParams m _
      | passive t => exact ih (m.addText t) carry

theorem line_ofHead (o : Options) (h : ModelOpening) (s : Statement) :
    (ofHead o h s).line = s.number := by
  simp only [ofHead]
  split
  · rw [line_readParts]
    exact line_withParams _ _
  · exact line_readParts o _ _ _

theorem located_warning? {m : Model} (h : P m.line) :
    ∀ w ∈ m.warning?, ∃ n, w.line = some n ∧ P n := by
  intro w hw
  simp only [warning?] at hw
  split at hw
  · cases hw
    exact ⟨m.line, rfl, h⟩
  · cases hw
  · cases hw

namespace Block

/-- The block and its bins are kept with lines that have the property. -/
structure Located (P : Nat → Prop) (b : Model.Block) : Prop where
  common : P b.common.line
  bins : ∀ x ∈ b.bins, P x.2.line

variable {b : Model.Block}

theorem located_new (base keyword : Text) {n : Nat} (h : P n) :
    Located P (new base keyword n) := by
  refine ⟨h, ?_⟩
  intro x hx
  cases hx

theorem mem_insertBin {index : Nat} {m : Model} {bins : List (Nat × Model)} {x : Nat × Model}
    (h : x ∈ insertBin index m bins) : x.2 = m ∨ x ∈ bins := by
  induction bins with
  | nil =>
      cases List.mem_singleton.mp h
      exact .inl rfl
  | cons y r ih =>
      obtain ⟨i, old⟩ := y
      simp only [insertBin] at h
      split at h
      · obtain rfl | h := List.mem_cons.mp h
        · exact .inl rfl
        · exact .inr (List.mem_cons_of_mem _ h)
      · obtain rfl | h := List.mem_cons.mp h
        · exact .inr List.mem_cons_self
        · exact (ih h).imp_right (List.mem_cons_of_mem _)

theorem Located.openBin (h : b.Located P) (index : Nat) (l : ParamLine) {n : Nat} (hn : P n) :
    (b.openBin index l n).Located P := by
  refine ⟨h.common, ?_⟩
  intro x hx
  obtain hx | hx := mem_insertBin hx
  · rw [hx, line_withParams]
    exact hn
  · exact h.bins x hx

theorem Located.modifyCurrent (h : b.Located P) {f : Model → Model}
    (hf : ∀ m, (f m).line = m.line) : (b.modifyCurrent f).Located P := by
  simp only [Block.modifyCurrent]
  split
  · refine ⟨h.common, ?_⟩
    intro x hx
    obtain ⟨y, hy, rfl⟩ := List.mem_map.mp hx
    have hline : P y.2.line := h.bins y hy
    dsimp only
    split
    · rw [hf]
      exact hline
    · exact hline
  · refine ⟨?_, h.bins⟩
    rw [hf]
    exact h.common

theorem Located.withCarry (h : b.Located P) (c : Carry) : ({ b with carry := c }).Located P :=
  ⟨h.common, h.bins⟩

theorem Located.closeValue (h : b.Located P) : b.closeValue.Located P := by
  simp only [Block.closeValue]
  split
  · exact (h.modifyCurrent line_close).withCarry _
  · exact h

theorem Located.currentModel (h : b.Located P) : P b.currentModel.line := by
  simp only [Block.currentModel]
  cases hm : b.current.bind fun index => b.bins.lookup index with
  | none => exact h.common
  | some m =>
      obtain ⟨index, -, hindex⟩ := Option.bind_eq_some_iff.mp hm
      obtain ⟨before, after, hbins, -⟩ := List.lookup_eq_some_iff.mp hindex
      apply h.bins (index, m)
      rw [hbins]
      exact List.mem_append_right _ List.mem_cons_self

theorem Located.models (h : b.Located P) : ∀ m ∈ b.models, P m.line := by
  intro m hm
  simp only [Block.models] at hm
  split at hm
  · cases List.mem_singleton.mp hm
    exact h.common
  · obtain ⟨x, hx, rfl⟩ := List.mem_map.mp hm
    exact h.bins x hx

theorem Located.readText (h : b.Located P) (o : Options) (t : Text) {n : Nat} (hn : P n) :
    (b.readText o t n).Located P := by
  simp only [Block.readText]
  split
  · exact (h.openBin _ _ hn).withCarry _
  · exact (h.modifyCurrent fun m => line_addParams m _).withCarry _

theorem Located.readLine (h : b.Located P) (o : Options) (t : Text) {n : Nat} (hn : P n) :
    (b.readLine o t n).1.Located P := by
  simp only [Block.readLine]
  split
  · exact h
  · exact h.readText o _ hn

theorem Located.addText (h : b.Located P) (t : Text) :
    (b.modifyCurrent (·.addText t)).Located P :=
  h.modifyCurrent fun _ => rfl

/-- Every code line that may start a bin has the property. -/
theorem Located.readLines (h : b.Located P) (o : Options) {lines : List Line}
    (hl : ∀ l ∈ lines, l.isCode = true → P l.number) : (b.readLines o lines).1.Located P := by
  induction lines generalizing b with
  | nil => exact h
  | cons l r ih =>
      have hr : ∀ x ∈ r, x.isCode = true → P x.number := by
        intro x hx
        exact hl x (List.mem_cons_of_mem l hx)
      cases hc : l.isCode with
      | true =>
          have hline := h.readLine o l.content (hl l List.mem_cons_self hc)
          simp only [Block.readLines, hc, if_true]
          split
          · exact hline
          · exact ih hline hr
      | false =>
          simp only [Block.readLines, hc, Bool.false_eq_true, if_false]
          exact ih (h.addText l.verbatim) hr

end Block
end Model

/-- The statement was read from code lines that have the property. -/
structure Statement.Located (P : Nat → Prop) (s : Statement) : Prop where
  head : P s.number
  tail : ∀ l ∈ s.tail, l.isCode = true → P l.number

namespace Statement

variable {s : Statement}

theorem Located.lines (h : s.Located P) : ∀ l ∈ s.lines, l.isCode = true → P l.number := by
  intro l hl hc
  obtain rfl | hl := List.mem_cons.mp hl
  · exact h.head
  · exact h.tail l hl hc

end Statement

theorem Model.Block.located_ofHead {s : Statement} (h : s.Located P) (o : Options)
    (head : ModelOpening) : (ofHead o head s).1.Located P := by
  have hline := (located_new head.name head.keyword h.head).readLine o head.rest h.head
  simp only [ofHead]
  split
  · exact hline
  · exact hline.readLines o h.tail

namespace Subcircuit

/-- Everything that the subcircuit keeps comes from lines that have the property. -/
structure Located (P : Nat → Prop) (s : Subcircuit) : Prop where
  line : P s.line
  calls : ∀ c ∈ s.calls.filterMap Entry.item?, P c.line
  models : ∀ m ∈ s.models.filterMap Entry.item?, P m.line

variable {sub : Subcircuit}

theorem mem_items_insertModel {m x : Model} {es : List (Entry Model)}
    (h : x ∈ (insertModel m es).filterMap Entry.item?) :
    x = m ∨ x ∈ es.filterMap Entry.item? := by
  induction es with
  | nil => exact .inl (List.mem_singleton.mp h)
  | cons e r ih =>
      cases e with
      | verbatim t => exact ih h
      | item old =>
          simp only [insertModel] at h
          split at h
          · obtain rfl | h := List.mem_cons.mp h
            · exact .inl rfl
            · exact .inr (List.mem_cons_of_mem _ h)
          · obtain rfl | h := List.mem_cons.mp h
            · exact .inr List.mem_cons_self
            · exact (ih h).imp_right (List.mem_cons_of_mem _)

theorem Located.addModel (h : sub.Located P) {m : Model} (hm : P m.line) :
    (sub.addModel m).Located P := by
  refine ⟨h.line, h.calls, ?_⟩
  intro x hx
  obtain rfl | hx := mem_items_insertModel hx
  · exact hm
  · exact h.models x hx

theorem Located.addModels (h : sub.Located P) {ms : List Model} (hm : ∀ m ∈ ms, P m.line) :
    (ms.foldl Subcircuit.addModel sub).Located P := by
  induction ms generalizing sub with
  | nil => exact h
  | cons m r ih =>
      apply ih (h.addModel (hm m List.mem_cons_self))
      intro x hx
      exact hm x (List.mem_cons_of_mem m hx)

theorem Located.addCall (h : sub.Located P) {c : Call} (hc : P c.line) :
    (sub.addCall c).Located P := by
  refine ⟨h.line, ?_, h.models⟩
  intro x hx
  rw [Subcircuit.addCall, List.filterMap_append] at hx
  obtain hx | hx := List.mem_append.mp hx
  · exact h.calls x hx
  · cases List.mem_singleton.mp hx
    exact hc

theorem Located.copyLines (h : sub.Located P) (lines : List Text) :
    (sub.copyLines lines).Located P := by
  simp only [Subcircuit.copyLines]
  split
  · refine ⟨h.line, h.calls, ?_⟩
    rw [items_append_verbatim]
    exact h.models
  · split
    · refine ⟨h.line, ?_, h.models⟩
      rw [items_append_verbatim]
      exact h.calls
    · exact ⟨h.line, h.calls, h.models⟩

theorem located_renderCall (symbols : Symbols) (o : Options) (h : sub.Located P) :
    ∀ e ∈ sub.calls, (renderCall symbols o sub e).Located P := by
  intro e he
  cases e with
  | verbatim t => exact located_ofLines [t]
  | item c =>
      intro w hw
      obtain ⟨cause, -, rfl⟩ := Option.map_eq_some_iff.mp (Option.mem_toList.mp hw)
      exact ⟨c.line, rfl, h.calls c (List.mem_filterMap.mpr ⟨_, he, rfl⟩)⟩

theorem located_renderModel {m : Model} (h : P m.line) : (renderModel (.item m)).Located P := by
  intro w hw
  exact Model.located_warning? h w (Option.mem_toList.mp hw)

theorem Located.render (h : sub.Located P) (symbols : Symbols) (o : Options) :
    (sub.render symbols o).Located P := by
  have hmodels : ∀ e ∈ sub.models, (renderModel e).Located P := by
    intro e he
    cases e with
    | verbatim t => exact located_ofLines [t]
    | item m => exact located_renderModel (h.models m (List.mem_filterMap.mpr ⟨_, he, rfl⟩))
  apply Deck.Located.append
  · apply Deck.Located.append
    · apply Deck.Located.append
      · exact (located_ofLines _).append (located_concat (located_renderCall symbols o h))
      · exact located_ofLines _
    · exact located_concat hmodels
  · exact located_ofLines _

/-- The line of the closing statement matters only if that names the subcircuit. -/
theorem Located.close (h : sub.Located P) (symbols : Symbols) (o : Options) {name : Option Text}
    {n : Nat} (hn : name.isSome = true → P n) : (sub.close symbols o name n).Located P := by
  cases name with
  | none => exact located_empty.append (h.render symbols o)
  | some name => exact (located_warnIf _ _ (hn rfl)).append (h.render symbols o)

end Subcircuit

namespace Scope

/-- Everything that is open comes from lines that have the property. -/
def Located (P : Nat → Prop) : Scope → Prop
  | .top => True
  | .pins sub | .body sub => sub.Located P
  | .model parent block => (∀ sub ∈ parent, sub.Located P) ∧ block.Located P

/-- The place after a step and what the step reports. -/
def LocatedAfter (P : Nat → Prop) (x : Scope × Deck) : Prop := x.1.Located P ∧ x.2.Located P

variable {s : Statement} {parent : Option Subcircuit} {b : Model.Block} {sub : Subcircuit}

theorem located_none : ∀ sub ∈ (none : Option Subcircuit), sub.Located P := by
  intro sub hsub
  cases hsub

theorem located_around (h : ∀ sub ∈ parent, sub.Located P) : (around parent).Located P := by
  cases parent with
  | none => trivial
  | some sub => exact h sub rfl

theorem Located.copyAll {scope : Scope} (h : scope.Located P) (lines : List Text) :
    LocatedAfter P (scope.copyAll lines) := by
  cases scope with
  | top =>
      rw [copyAll_top]
      exact ⟨trivial, located_ofLines lines⟩
  | pins sub =>
      rw [copyAll_pins]
      exact ⟨⟨h.line, h.calls, h.models⟩, located_empty⟩
  | body sub =>
      rw [copyAll_body]
      exact ⟨Subcircuit.Located.copyLines h lines, located_empty⟩
  | model parent b =>
      rw [copyAll_model]
      exact ⟨⟨h.1, h.2.modifyCurrent fun _ => rfl⟩, located_empty⟩

theorem located_endModel (hp : ∀ sub ∈ parent, sub.Located P) (hb : b.Located P) :
    (∀ sub ∈ (endModel parent b).1, sub.Located P) ∧ (endModel parent b).2.Located P := by
  have hvalue := located_warnIf b.isOpen .unclosedValue hb.currentModel
  have hmodels := hb.closeValue.models
  cases parent with
  | none =>
      refine ⟨located_none, hvalue.append (located_concat ?_)⟩
      intro m hm
      exact Subcircuit.located_renderModel (hmodels m hm)
  | some sub =>
      refine ⟨?_, hvalue⟩
      intro x hx
      cases hx
      exact (hp sub rfl).addModels hmodels

theorem located_leaveModel (hp : ∀ sub ∈ parent, sub.Located P) (hb : b.Located P)
    (rest : List Line) : LocatedAfter P (leaveModel parent b rest) := by
  obtain ⟨hparent, hdeck⟩ := located_endModel hp hb
  obtain ⟨hscope, hcopied⟩ := (located_around hparent).copyAll (rest.map Line.verbatim)
  exact ⟨hscope, hdeck.append hcopied⟩

theorem located_readBlock (hp : ∀ sub ∈ parent, sub.Located P)
    (x : Model.Block × Option (List Line)) :
    x.1.Located P → LocatedAfter P (match x with
      | (block, none) => (.model parent block, {})
      | (block, some rest) => leaveModel parent block rest) := by
  intro hx
  obtain ⟨b, rest⟩ := x
  cases rest with
  | none => exact ⟨⟨hp, hx⟩, located_empty⟩
  | some rest => exact located_leaveModel hp hx rest

theorem located_enterModel (hs : s.Located P) (hp : ∀ sub ∈ parent, sub.Located P) (o : Options)
    (head : ModelOpening) : LocatedAfter P (enterModel o parent head s) := by
  simp only [enterModel]
  split
  · exact located_readBlock hp _ (Model.Block.located_ofHead hs o head)
  · have hvalue := located_warnIf (Model.ofHead o head s).isOpen .unclosedValue hs.head
    have hm : P (Model.ofHead o head s).close.line := by
      rw [Model.line_close, Model.line_ofHead]
      exact hs.head
    cases parent with
    | none => exact ⟨trivial, hvalue.append (Subcircuit.located_renderModel hm)⟩
    | some sub => exact ⟨(hp sub rfl).addModel hm, hvalue⟩

theorem located_withHeader (hs : P s.number) (hsub : sub.Located P) (h : Header) :
    (sub.withHeader h s.number).1.Located P ∧ (sub.withHeader h s.number).2.Located P :=
  ⟨⟨hsub.line, hsub.calls, hsub.models⟩, located_warnIf _ _ hs⟩

theorem located_enterSubcircuit (hs : s.Located P) (o : Options) (head : SubcircuitOpening) :
    LocatedAfter P (enterSubcircuit o head s) := by
  have hnew : Subcircuit.Located P { name := head.name, line := s.number } := by
    refine ⟨hs.head, ?_, ?_⟩
    · intro c hc
      cases hc
    · intro m hm
      cases hm
  obtain ⟨hsub, hdeck⟩ := located_withHeader hs.head hnew (Header.ofHead o head s.tail).1
  refine ⟨?_, hdeck⟩
  simp only [enterSubcircuit]
  split
  · exact hsub
  · exact hsub

theorem located_parameterLines (hs : P s.number) (o : Options) (place : Param.Placement) :
    (parameterLines o s place).2.2.Located P := by
  simp only [parameterLines]
  split
  · exact located_empty
  · exact located_warnIf _ _ hs

theorem located_oddStatement (hs : P s.number) : (oddStatement s).Located P :=
  located_warnIf _ _ hs

theorem line_close_ofHead (o : Options) (head : CallOpening) (s : Statement) :
    (Call.ofHead o head s).close.line = s.number := by
  simp only [Call.close]
  split <;> rfl

theorem located_stepTop (cx : Context) (hs : s.Located P) (kind : Statement.Kind) :
    LocatedAfter P (stepTop cx s kind) := by
  cases kind with
  | parameters =>
      exact ⟨trivial, (located_ofLines _).append (located_parameterLines hs.head _ _)⟩
  | model head => exact located_enterModel hs located_none cx.options head
  | subcircuitOpen head => exact located_enterSubcircuit hs cx.options head
  | subcircuitClose name =>
      exact ⟨trivial, (located_warn _ hs.head).append (located_ofLines _)⟩
  | binHeader _ _ | blockClose =>
      exact ⟨trivial, (located_warn _ hs.head).append (located_ofLines _)⟩
  | directive text => exact ⟨trivial, located_ofLines _⟩
  | deviceCall head =>
      refine ⟨trivial, ?_⟩
      intro w hw
      obtain hw | hw := List.mem_append.mp hw
      · exact located_warnIf _ _ hs.head w hw
      · obtain ⟨cause, -, rfl⟩ := Option.map_eq_some_iff.mp (Option.mem_toList.mp hw)
        exact ⟨s.number, rfl, hs.head⟩
  | other | simulator _ | statistics =>
      exact ⟨trivial, (located_oddStatement hs.head).append (located_ofLines _)⟩

theorem located_stepBody (cx : Context) (hs : s.Located P) (hsub : sub.Located P)
    (kind : Statement.Kind) : LocatedAfter P (stepBody cx sub s kind) := by
  have hcopied : (s.verbatim.foldl Subcircuit.copyLine sub).Located P := by
    rw [Subcircuit.foldl_copyLine]
    exact hsub.copyLines _
  cases kind with
  | parameters =>
      have hdeck := located_parameterLines (s := s) hs.head cx.options .subcircuitLocal
      simp only [stepBody]
      split
      · exact ⟨⟨hsub.line, hsub.calls, hsub.models⟩, hdeck⟩
      · exact ⟨⟨hsub.line, hsub.calls, hsub.models⟩, hdeck⟩
  | model head =>
      refine located_enterModel hs ?_ cx.options head
      intro x hx
      cases hx
      exact hsub
  | subcircuitClose name =>
      refine ⟨trivial, ?_⟩
      exact (hsub.close _ _ fun _ => hs.head).append (located_ofLines _)
  | subcircuitOpen head =>
      exact ⟨⟨hsub.line, hsub.calls, hsub.models⟩, located_warn _ hs.head⟩
  | binHeader _ _ | blockClose => exact ⟨hcopied, located_warn _ hs.head⟩
  | directive text => exact ⟨⟨hsub.line, hsub.calls, hsub.models⟩, located_empty⟩
  | deviceCall head =>
      refine ⟨hsub.addCall ?_, located_warnIf _ _ hs.head⟩
      rw [line_close_ofHead]
      exact hs.head
  | other | simulator _ | statistics => exact ⟨hcopied, located_oddStatement hs.head⟩

theorem located_readPins (hs : s.Located P) (hsub : sub.Located P) (x : Header × Bool) :
    LocatedAfter P
      (let (h, complete) := x
       let (sub, d) := sub.withHeader h s.number
       (if complete then .body sub else .pins sub, d)) := by
  obtain ⟨hnext, hdeck⟩ := located_withHeader hs.head hsub x.1
  refine ⟨?_, hdeck⟩
  dsimp only
  split
  · exact hnext
  · exact hnext

theorem located_stepPins (cx : Context) (hs : s.Located P) (hsub : sub.Located P)
    (kind : Statement.Kind) : LocatedAfter P (stepPins cx sub s kind) := by
  cases kind with
  | subcircuitClose name => exact located_stepBody cx hs hsub (.subcircuitClose name)
  | simulator _ | parameters | statistics | model _ | binHeader _ _ | blockClose
  | subcircuitOpen _ | directive _ | deviceCall _ | other => exact located_readPins hs hsub _

theorem located_interruptModel (cx : Context) (hs : s.Located P)
    (hp : ∀ sub ∈ parent, sub.Located P) (hb : b.Located P) (kind : Statement.Kind) :
    LocatedAfter P (interruptModel cx parent b s kind) := by
  obtain ⟨hparent, hdeck⟩ := located_endModel hp hb
  have haround : LocatedAfter P ((around (endModel parent b).1).step cx s kind) := by
    cases hend : (endModel parent b).1 with
    | none => exact located_stepTop cx hs kind
    | some sub => exact located_stepBody cx hs (hparent sub hend) kind
  rw [interruptModel_eq]
  exact ⟨haround.1, ((located_warn _ hs.head).append hdeck).append haround.2⟩

/-- One statement: what is kept and what is reported comes from lines that were there or
from the lines of the statement. -/
theorem Located.step (cx : Context) (hs : s.Located P) (kind : Statement.Kind) {scope : Scope}
    (h : scope.Located P) : LocatedAfter P (scope.step cx s kind) := by
  cases scope with
  | top => exact located_stepTop cx hs kind
  | pins sub => exact located_stepPins cx hs h kind
  | body sub => exact located_stepBody cx hs h kind
  | model parent b =>
      cases kind with
      | blockClose => exact located_leaveModel h.1 h.2 s.tail
      | subcircuitOpen _ | subcircuitClose _ | model _ =>
          exact located_interruptModel cx hs h.1 h.2 _
      | simulator _ | parameters | statistics | binHeader _ _ | directive _ | deviceCall _
      | other => exact located_readBlock h.1 _ (h.2.readLines cx.options hs.lines)

theorem located_finishSubcircuit (cx : Context) (h : sub.Located P) :
    (finishSubcircuit cx sub).Located P := by
  refine (located_warn _ h.line).append (h.close _ _ ?_)
  intro hname
  cases hname

theorem Located.finish (cx : Context) {scope : Scope} (h : scope.Located P) :
    (scope.finish cx).Located P := by
  cases scope with
  | top => exact located_empty
  | pins sub | body sub => exact located_finishSubcircuit cx h
  | model parent b =>
      obtain ⟨hparent, hdeck⟩ := located_endModel h.1 h.2
      rw [finish_model]
      refine ((located_warn _ h.2.common).append hdeck).append ?_
      cases hend : (endModel parent b).1 with
      | none => exact located_empty
      | some sub => exact located_finishSubcircuit cx (hparent sub hend)

end Scope

/-- The item was read from code lines that have the property. -/
def Item.Located (P : Nat → Prop) : Item → Prop
  | .line _ => True
  | .statement s => s.Located P

namespace Session

theorem located_push (cx : Context) {a : Session} (h : a.scope.Located P) {item : Item}
    (hi : item.Located P) :
    (a.push cx item).1.scope.Located P ∧ (a.push cx item).2.Located P := by
  cases hd : a.dispatched? cx item with
  | none =>
      obtain ⟨lines, hscope, hdeck⟩ := push_of_not_dispatched hd
      rw [hscope, hdeck]
      exact h.copyAll lines
  | some x =>
      obtain ⟨s, kind⟩ := x
      have hs : s.Located P := by
        cases item with
        | line l => cases hd
        | statement t =>
            simp only [dispatched?] at hd
            split at hd
            · cases hd
            · split at hd
              · cases hd
              · cases hd
              · cases hd
                exact hi
      obtain ⟨hscope, hdeck⟩ := push_of_dispatched hd
      rw [hscope, hdeck]
      exact h.step cx hs kind

theorem located_run (cx : Context) (a : Session) (h : a.scope.Located P) (items : List Item)
    (hi : ∀ item ∈ items, item.Located P) : (a.run cx items).Located P := by
  induction items generalizing a with
  | nil => exact h.finish cx
  | cons item r ih =>
      obtain ⟨hscope, hdeck⟩ := located_push cx h (hi item List.mem_cons_self)
      apply hdeck.append
      apply ih _ hscope
      intro x hx
      exact hi x (List.mem_cons_of_mem item hx)

end Session

namespace Item

theorem located_ofText (t : Text) : ∀ item ∈ ofText t, item.Located (Line.IsCodeAt t) := by
  intro item h
  cases item with
  | line l => trivial
  | statement s =>
      constructor
      · apply Line.isCodeAt_number (mem_lines_ofText h List.mem_cons_self)
        exact isCode_head_group h
      · intro l hl
        exact Line.isCodeAt_number (mem_lines_ofText h (List.mem_cons_of_mem _ hl))

end Item

namespace Conversion

/-- Every warning of a conversion carries the number of a line of the text, and that line is
neither a comment nor blank. -/
theorem warning_isCodeAt (o : Options) (d : Dialect) (t : Text) :
    ∀ w ∈ (ofText o d t).warnings, ∃ n, w.line = some n ∧ 1 ≤ n ∧ n ≤ (lines t).length ∧
      ∃ raw, (lines t)[n - 1]? = some raw ∧ isSilent raw = false :=
  Session.located_run ⟨Symbols.scan t, o⟩ { dialect := d } trivial (Item.ofText t)
    (Item.located_ofText t)

/-- A subcircuit and a block that nothing closes, a call of something unknown, a bin without
a polarity and a value left open, with comments between them. -/
def openDeck : Text :=
  ("* deck\nsubckt s (a b)\n// call\nx1 (a b) what r=2*\n\nmodel nch bsim4 \x7b\n* bin\n" ++
    "1: vth0=(1 +\n").toList

theorem warning_isCodeAt_openDeck :
    (ofText {} .spectre openDeck).warnings.map Warning.line =
      [some 4, some 6, some 8, some 2, some 4, some 8] ∧
    ∀ w ∈ (ofText {} .spectre openDeck).warnings, ∃ n, w.line = some n ∧ 1 ≤ n ∧
      n ≤ (lines openDeck).length ∧
      ∃ raw, (lines openDeck)[n - 1]? = some raw ∧ isSilent raw = false :=
  ⟨by decide +kernel, warning_isCodeAt {} .spectre openDeck⟩

end Conversion
end SpiceDeck
