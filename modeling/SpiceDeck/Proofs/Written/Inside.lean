import SpiceDeck.Proofs.Scope.DeclaredModels
import SpiceDeck.Proofs.Written.Outside

/-!
Written lines inside of subcircuits. The parts of a subcircuit are written in a fixed order, and
in this order they are read again: the lines of the body, then the calls, then the models. Main
statements: what each section has been written with is added to the same section.
-/

namespace SpiceDeck
open Text

/-- Kept things and the lines between them: comments, blank lines, and statements as `P` has
them. -/
inductive Entries {α : Type} (P : Text → List Text → Prop) (Q : α → Prop) :
    List (Entry α) → Prop where
  | nil : Entries P Q []
  | line {t : Text} {r : List (Entry α)} : isSilent t = true → Entries P Q r →
      Entries P Q (.verbatim t :: r)
  | statement {head : Text} {tail : List Text} {r : List (Entry α)} : IsStatement head tail →
      P head tail → Entries P Q r → Entries P Q ((head :: tail).map .verbatim ++ r)
  | item {a : α} {r : List (Entry α)} : Q a → Entries P Q r → Entries P Q (.item a :: r)

namespace Entries
variable {α : Type} {P : Text → List Text → Prop} {Q Q' : α → Prop} {xs ys : List (Entry α)}

theorem append (hx : Entries P Q xs) (hy : Entries P Q ys) : Entries P Q (xs ++ ys) := by
  induction hx with
  | nil => exact hy
  | line ht _ ih => exact .line ht ih
  | statement hs hp _ ih =>
      rw [List.append_assoc]
      exact .statement hs hp ih
  | item hq _ ih => exact .item hq ih

theorem mono (h : Entries P Q xs) (hq : ∀ a, .item a ∈ xs → Q a → Q' a) : Entries P Q' xs := by
  induction h with
  | nil => exact .nil
  | line ht _ ih => exact .line ht (ih fun a ha => hq a (List.mem_cons_of_mem _ ha))
  | statement hs hp _ ih =>
      exact .statement hs hp (ih fun a ha => hq a (List.mem_append_right _ ha))
  | item hqa _ ih =>
      exact .item (hq _ List.mem_cons_self hqa) (ih fun a ha => hq a (List.mem_cons_of_mem _ ha))

end Entries

namespace Entry
variable {α : Type}

theorem flatMap_verbatim {write : Entry α → List Text} (hwrite : ∀ t, write (.verbatim t) = [t])
    (ts : List Text) : (ts.map Entry.verbatim).flatMap write = ts := by
  rw [List.flatMap_map]
  simp only [hwrite]
  exact List.flatMap_singleton' ts

theorem filterMap_verbatim (ts : List Text) :
    (ts.map Entry.verbatim).filterMap (item? : Entry α → Option α) = [] := by
  rw [List.filterMap_map]
  exact List.filterMap_eq_nil_iff.mpr fun _ _ => rfl

end Entry

namespace Subcircuit
variable {cx : Context} {family? : Text → Option Family} {sub : Subcircuit}

/-- The lines above the models. -/
def upperLines (cx : Context) (family? : Text → Option Family) (sub : Subcircuit) : List Text :=
  sub.openingLines ++ sub.body ++ sub.calls.flatMap (Call.entryLines cx family?)

theorem copyLines_body (hcalls : sub.calls = []) (hmodels : sub.models = []) (ts : List Text) :
    sub.copyLines ts = { sub with body := sub.body ++ ts } := by
  simp only [copyLines, hcalls, hmodels]
  rfl

theorem copyLines_models (h : sub.models ≠ []) (ts : List Text) :
    sub.copyLines ts = { sub with models := sub.models ++ ts.map .verbatim } := by
  have hempty : sub.models.isEmpty = false := List.isEmpty_eq_false_iff.mpr h
  simp only [copyLines, hempty]
  rfl

theorem models_copyLines (h : sub.models = []) (ts : List Text) :
    (sub.copyLines ts).models = [] := by
  have hempty : sub.models.isEmpty = true := List.isEmpty_iff.mpr h
  simp only [copyLines, hempty, Bool.not_true, Bool.false_eq_true, if_false]
  split <;> exact h

/-- Above the models lines are added at the end. -/
theorem upperLines_copyLines (cx : Context) (family? : Text → Option Family)
    (h : sub.models = []) (ts : List Text) :
    (sub.copyLines ts).name = sub.name ∧
      (sub.copyLines ts).upperLines cx family? = sub.upperLines cx family? ++ ts := by
  have hentries := Entry.flatMap_verbatim fun t =>
    (rfl : Call.entryLines cx family? (.verbatim t) = [t])
  have hempty : sub.models.isEmpty = true := List.isEmpty_iff.mpr h
  simp only [copyLines, hempty, Bool.not_true, Bool.false_eq_true, if_false]
  split
  · refine ⟨rfl, ?_⟩
    simp only [upperLines, openingLines, List.flatMap_append, hentries, List.append_assoc]
  · next hcalls =>
      have hnil : sub.calls = [] := by simpa using hcalls
      refine ⟨rfl, ?_⟩
      simp only [upperLines, openingLines, hnil, List.flatMap_nil, List.append_nil,
        List.append_assoc]

theorem upperLines_addCall (c : Call) :
    (sub.addCall c).upperLines cx family? =
      sub.upperLines cx family? ++ Call.entryLines cx family? (.item c) := by
  simp [upperLines, addCall, openingLines]

/-- Places above the models to which lines can be copied. -/
structure IsAbove (K : Subcircuit → Prop) : Prop where
  models : ∀ sub, K sub → sub.models = []
  copies : ∀ sub, K sub → ∀ ts, K (sub.copyLines ts)

/-- Before its calls. -/
def InBody (sub : Subcircuit) : Prop := sub.calls = [] ∧ sub.models = []

/-- Before its models. -/
def InUpper (sub : Subcircuit) : Prop := sub.models = []

theorem isAbove_inBody : IsAbove InBody where
  models _ h := h.2
  copies _ h ts := by
    rw [copyLines_body h.1 h.2]
    exact h

theorem isAbove_inUpper : IsAbove InUpper where
  models _ h := h
  copies _ h ts := models_copyLines h ts

end Subcircuit

namespace Scope

theorem copy_body (sub : Subcircuit) (t : Text) :
    copy t (.body sub) = (.body (sub.copyLines [t]), {}) := by
  rw [copy_eq_copyAll, copyAll_body]

/-- Where `K` holds, the lines are added above the models, and `K` still holds. -/
structure AddsLines (cx : Context) (d : Dialect) (family? : Text → Option Family)
    (K : Subcircuit → Prop) (xs : List Text) : Prop where
  fresh : Line.StartsAfresh xs
  passes : Line.Settled xs → ∀ n sub, K sub → ∃ next, Passes cx d (.body sub) n xs (.body next) [] ∧
    K next ∧ next.name = sub.name ∧
      next.upperLines cx family? = sub.upperLines cx family? ++ xs

section AddsLines
variable {cx : Context} {d : Dialect} {family? : Text → Option Family} {K : Subcircuit → Prop}
  {xs ys tail raws ws : List Text} {head : Text} {c : Carry}

theorem addsLines_nil (cx : Context) (d : Dialect) (family? : Text → Option Family)
    (K : Subcircuit → Prop) : AddsLines cx d family? K [] :=
  ⟨nofun, fun _ n sub h => ⟨sub, passes_nil cx d _ n, h, rfl, (List.append_nil _).symm⟩⟩

theorem AddsLines.append (hx : AddsLines cx d family? K xs) (hy : AddsLines cx d family? K ys) :
    AddsLines cx d family? K (xs ++ ys) where
  fresh := hx.fresh.append hy.fresh
  passes hs n sub h := by
    obtain ⟨hsx, hsy⟩ := Line.settled_append.mp hs
    obtain ⟨middle, hfirst, hmiddle, hname, hlines⟩ := hx.passes hsx n sub h
    obtain ⟨next, hrest, hnext, hname', hlines'⟩ := hy.passes hsy (n + xs.length) middle hmiddle
    exact ⟨next, hfirst.append hrest hsx hsy hy.fresh, hnext, hname'.trans hname,
      by rw [hlines', hlines, List.append_assoc]⟩

theorem addsLines_silent (hk : Subcircuit.IsAbove K) (h : ∀ t ∈ xs, isSilent t = true) :
    AddsLines cx d family? K xs := by
  induction xs with
  | nil => exact addsLines_nil cx d family? K
  | cons t r ih =>
      obtain ⟨ht, hr⟩ := List.forall_mem_cons.mp h
      have hfirst : AddsLines cx d family? K [t] := by
        refine ⟨Line.startsAfresh_silent (List.forall_mem_singleton.mpr ht), ?_⟩
        intro hs n sub hsub
        have hpasses := passes_silent cx d (.body sub) n ht (hs t List.mem_cons_self)
        rw [copy_body] at hpasses
        obtain ⟨hname, hlines⟩ :=
          Subcircuit.upperLines_copyLines cx family? (hk.models sub hsub) [t]
        exact ⟨_, hpasses, hk.copies sub hsub [t], hname, hlines⟩
      exact hfirst.append (ih hr)

theorem addsLines_statement (h : IsStatement head tail)
    (hstep : ∀ s : Statement, s.ReadsAs head tail → ∀ sub, K sub → ∃ kind next,
      s.kind cx.symbols cx.options d = kind ∧ Session.reachesScope kind = true ∧
        (stepBody cx sub s kind).1 = .body next ∧ (stepBody cx sub s kind).2.lines = [] ∧
        K next ∧ next.name = sub.name ∧
          next.upperLines cx family? = sub.upperLines cx family? ++ head :: tail) :
    AddsLines cx d family? K (head :: tail) where
  fresh := h.startsAfresh
  passes hs n sub hsub := by
    obtain ⟨b, out, hpasses, next, rfl, rfl, hnext⟩ := passes_statement cx d (.body sub)
      (Q := fun b out => ∃ next, b = .body next ∧ out = [] ∧ K next ∧ next.name = sub.name ∧
        next.upperLines cx family? = sub.upperLines cx family? ++ head :: tail) h hs n (by
        intro s hreads
        obtain ⟨kind, next, hkind, hreaches, hscope, hlines, hnext⟩ := hstep s hreads sub hsub
        exact ⟨kind, hkind, hreaches, next, hscope, hlines, hnext⟩)
    exact ⟨next, hpasses, hnext⟩

theorem addsLines_copied (hk : Subcircuit.IsAbove K) (h : IsStatement head tail)
    (hkind : Statement.IsCopied cx d head tail) :
    AddsLines cx d family? K (head :: tail) := by
  refine addsLines_statement h fun s hs sub hsub => ?_
  obtain ⟨hscope, hlines⟩ := stepBody_copied hkind cx sub s
  obtain ⟨hname, hupper⟩ := Subcircuit.upperLines_copyLines cx family? (hk.models sub hsub)
    (head :: tail)
  rw [hs.verbatim] at hscope
  exact ⟨_, _, hs.kind_eq _ _ _, Statement.Kind.reachesScope_of_isCopied hkind, hscope, hlines,
    hk.copies sub hsub _, hname, hupper⟩

/-- A subcircuit that opens in another one is copied as well. -/
theorem addsLines_opening {opening : SubcircuitOpening} (h : IsStatement head tail)
    (hkind : (Statement.ofTexts head tail).kind cx.symbols cx.options d = .subcircuitOpen opening) :
    AddsLines cx d family? Subcircuit.InBody (head :: tail) := by
  refine addsLines_statement h fun s hs sub hsub => ?_
  refine ⟨.subcircuitOpen opening, { sub with body := sub.body ++ s.verbatim }, ?_, rfl, rfl, rfl,
    hsub, rfl, ?_⟩
  · rw [hs.kind_eq, hkind]
  · obtain ⟨hcalls, -⟩ := hsub
    simp only [Subcircuit.upperLines, Subcircuit.openingLines, hcalls, hs.verbatim,
      List.flatMap_nil, List.append_nil, List.append_assoc]

theorem addsLines_parameters (hws : Param.ReadsBack cx.options .closed ws c)
    (hbelow : Param.Below cx.options c raws) :
    AddsLines cx d family? Subcircuit.InBody (Param.marked .param ws :: raws) := by
  obtain ⟨tail, after, rfl, htail, hends, hafter⟩ := hbelow.split
  have hst := isStatement_param ws htail hends
  refine (addsLines_statement hst fun s hs sub hsub => ?_).append
    (addsLines_silent Subcircuit.isAbove_inBody hafter)
  have hcontent : s.head.content = Param.marked .param ws := by rw [hs.content hst, trim_param hws]
  refine ⟨.parameters, { sub with body := sub.body ++ Param.marked .param ws :: tail },
    kind_param cx.symbols cx.options d ws hcontent, rfl, ?_, ?_, hsub, rfl, ?_⟩
  · simp only [stepBody, parameterLines_written hs hst hws htail, if_true]
  · simp only [stepBody, parameterLines_written hs hst hws htail, if_true]
  · obtain ⟨hcalls, -⟩ := hsub
    simp only [Subcircuit.upperLines, Subcircuit.openingLines, hcalls, List.flatMap_nil,
      List.append_nil, List.append_assoc]

theorem addsLines_call (h : Call.Written cx d family? head raws) :
    AddsLines cx d family? Subcircuit.InUpper (head :: raws) := by
  obtain ⟨tail, after, rfl, htail, hst, hafter⟩ := h.split
  refine (addsLines_statement hst fun s hs sub hsub => ?_).append
    (addsLines_silent Subcircuit.isAbove_inUpper hafter)
  obtain ⟨opening, hkind, hlines⟩ := htail.read hst hs
  refine ⟨_, sub.addCall (Call.ofHead cx.options opening s).close, hkind, rfl, rfl, ?_, hsub, rfl,
    ?_⟩
  · exact lines_warnIf _ _ _
  · rw [Subcircuit.upperLines_addCall, hlines]

/-- Entries above the models are added as they are written. -/
theorem addsLines_entries {Q : Call → Prop} {write : Entry Call → List Text}
    (hwrite : ∀ t, write (.verbatim t) = [t])
    (hq : ∀ c, Q c → AddsLines cx d family? Subcircuit.InUpper (write (.item c)))
    {entries : List (Entry Call)} (h : Entries (Statement.IsCopied cx d) Q entries) :
    AddsLines cx d family? Subcircuit.InUpper (entries.flatMap write) := by
  induction h with
  | nil => exact addsLines_nil cx d family? _
  | @line t r ht _ ih =>
      rw [List.flatMap_cons, hwrite]
      exact (addsLines_silent Subcircuit.isAbove_inUpper
        (List.forall_mem_singleton.mpr ht)).append ih
  | @statement head tail r hs hhead _ ih =>
      rw [List.flatMap_append, Entry.flatMap_verbatim hwrite]
      exact (addsLines_copied Subcircuit.isAbove_inUpper hs hhead).append ih
  | @item c r hc _ ih =>
      rw [List.flatMap_cons]
      exact (hq c hc).append ih

end AddsLines
end Scope

namespace Entries
variable {α : Type} {P : Text → List Text → Prop} {Q : α → Prop} {xs : List (Entry α)}

theorem startsAfresh (h : Entries P Q xs) {write : Entry α → List Text}
    (hwrite : ∀ t, write (.verbatim t) = [t])
    (hq : ∀ a, Q a → Line.StartsAfresh (write (.item a))) :
    Line.StartsAfresh (xs.flatMap write) := by
  induction h with
  | nil => nofun
  | @line t r ht _ ih =>
      rw [List.flatMap_cons, hwrite]
      exact (Line.startsAfresh_silent (List.forall_mem_singleton.mpr ht)).append ih
  | @statement head tail r hs _ _ ih =>
      rw [List.flatMap_append, Entry.flatMap_verbatim hwrite]
      exact hs.startsAfresh.append ih
  | @item a r ha _ ih =>
      rw [List.flatMap_cons]
      exact (hq a ha).append ih

end Entries

namespace Subcircuit
variable {sub : Subcircuit} {entries : List (Entry Model)} {m : Model}

/-- The lines of a section of models. -/
def modelLines (entries : List (Entry Model)) : List Text :=
  entries.flatMap (Segment.entryLines Model.render)

theorem insertModel_of_new
    (h : ∀ x ∈ entries.filterMap Entry.item?, sameName x.name m.name = false) :
    insertModel m entries = entries ++ [.item m] := by
  induction entries with
  | nil => rfl
  | cons e r ih =>
      cases e with
      | verbatim t => exact congrArg (Entry.verbatim t :: ·) (ih h)
      | item x =>
          obtain ⟨hx, hr⟩ := List.forall_mem_cons.mp h
          rw [insertModel, hx, if_neg Bool.false_ne_true, ih hr]
          rfl

/-- A section of models and what is read from its lines: the same lines, and models of the same
names whose types are the written ones. -/
structure Rereads (written read : List (Entry Model)) : Prop where
  lines : modelLines read = modelLines written
  names : (read.filterMap Entry.item?).map (fun m => (m.base, m.name, m.type)) =
    (written.filterMap Entry.item?).map fun m => (m.name, m.name, .ofKeyword m.type.emitted)

theorem Rereads.append {xs ys us vs : List (Entry Model)} (hx : Rereads xs us)
    (hy : Rereads ys vs) : Rereads (xs ++ ys) (us ++ vs) := by
  refine ⟨?_, ?_⟩
  · rw [modelLines, modelLines, List.flatMap_append, List.flatMap_append]
    exact congr (congrArg _ hx.lines) hy.lines
  · rw [List.filterMap_append, List.filterMap_append, List.map_append, List.map_append, hx.names,
      hy.names]

theorem Rereads.copied (ts : List Text) :
    Rereads (ts.map .verbatim) (ts.map .verbatim) := by
  refine ⟨rfl, ?_⟩
  rw [Entry.filterMap_verbatim]
  rfl

theorem Rereads.name_eq {m x : Model} {us : List (Entry Model)} (h : Rereads [.item m] us)
    (hx : x ∈ us.filterMap Entry.item?) : x.name = m.name := by
  have hmem := List.mem_map_of_mem (f := fun m : Model => (m.base, m.name, m.type)) hx
  rw [h.names] at hmem
  exact (Prod.mk.inj (Prod.mk.inj (List.mem_singleton.mp hmem)).2).1

theorem modelLines_verbatim (ts : List Text) : modelLines (ts.map .verbatim) = ts :=
  Entry.flatMap_verbatim (fun _ => rfl) ts

end Subcircuit

namespace Scope
open Subcircuit

variable {cx : Context} {d : Dialect} {entries : List (Entry Model)}

theorem passes_below_silent (cx : Context) (d : Dialect) {ts : List Text}
    (h : ∀ t ∈ ts, isSilent t = true) (hs : Line.Settled ts) (n : Nat) {sub : Subcircuit}
    (hsub : sub.models ≠ []) :
    Passes cx d (.body sub) n ts (.body { sub with models := sub.models ++ ts.map .verbatim })
      [] := by
  induction ts generalizing n sub with
  | nil =>
      rw [List.map_nil, List.append_nil]
      exact passes_nil cx d _ n
  | cons t r ih =>
      obtain ⟨ht, hr⟩ := List.forall_mem_cons.mp h
      obtain ⟨hst, hsr⟩ := Line.settled_cons.mp hs
      have hfirst := passes_silent cx d (.body sub) n ht hst
      rw [copy_body, copyLines_models hsub] at hfirst
      have hmore : (sub.models ++ [t].map .verbatim) ≠ [] := by simp
      have hrest := @ih hr hsr (n + [t].length)
        { sub with models := sub.models ++ [t].map .verbatim } hmore
      have hpasses := hfirst.append hrest (by simpa [Line.Settled] using hst) hsr
        (Line.startsAfresh_silent hr)
      rw [List.append_assoc] at hpasses
      exact hpasses

theorem passes_below_copied {head : Text} {tail : List Text} (hst : IsStatement head tail)
    (hcopied : Statement.IsCopied cx d head tail) (hs : Line.Settled (head :: tail)) (n : Nat)
    {sub : Subcircuit} (hsub : sub.models ≠ []) :
    Passes cx d (.body sub) n (head :: tail)
      (.body { sub with models := sub.models ++ (head :: tail).map .verbatim }) [] := by
  obtain ⟨b, out, hpasses, rfl, rfl⟩ := passes_statement cx d (.body sub)
    (Q := fun b out => b = .body { sub with
      models := sub.models ++ (head :: tail).map .verbatim } ∧ out = []) hst hs n (by
      intro s hreads
      obtain ⟨hscope, hout⟩ := stepBody_copied hcopied cx sub s
      rw [hreads.verbatim, copyLines_models hsub] at hscope
      exact ⟨_, hreads.kind_eq _ _ _, Statement.Kind.reachesScope_of_isCopied hcopied, hscope,
        hout⟩)
  exact hpasses

/-- A model is added to the section with the comments below it. -/
theorem passes_model {m : Model} (h : Model.Written cx.options m.name m.type.emitted m.headLine
    (Model.tailLines m.tail)) (hs : Line.Settled m.render) (n : Nat) {sub : Subcircuit}
    (hnew : ∀ x ∈ sub.ownModels, sameName x.name m.name = false) :
    ∃ read, Passes cx d (.body sub) n m.render
        (.body { sub with models := sub.models ++ read }) [] ∧
      Rereads [.item m] read ∧ read ≠ [] := by
  obtain ⟨tail, after, htail, hwritten, hst, hafter⟩ := h.split
  have hrender : m.render = (m.headLine :: tail) ++ after := by rw [Model.render_eq, htail]; rfl
  rw [hrender] at hs ⊢
  obtain ⟨hsx, hsy⟩ := Line.settled_append.mp hs
  obtain ⟨b, out, hpasses, m', rfl, rfl, hm'⟩ := passes_statement cx d (.body sub)
    (Q := fun b out => ∃ m' : Model, b = .body (sub.addModel m') ∧ out = [] ∧
      m'.render = m.headLine :: tail ∧ m'.base = m.name ∧ m'.name = m.name ∧
        m'.type = .ofKeyword m.type.emitted) hst hsx n (by
      intro s hreads
      obtain ⟨opening, hkind, hbraced, hmodel⟩ := hwritten.read d hst hreads
      refine ⟨_, hkind, rfl, (Model.ofHead cx.options opening s).close, ?_, ?_, hmodel⟩
      · simp only [step, stepBody, enterModel, hbraced, Bool.false_eq_true, if_false]
      · simp only [step, stepBody, enterModel, hbraced, Bool.false_eq_true, if_false]
        exact lines_warnIf _ _ _)
  obtain ⟨hlines, hbase, hname, htype⟩ := hm'
  have hadd : sub.addModel m' = { sub with models := sub.models ++ [.item m'] } := by
    rw [addModel, insertModel_of_new]
    intro x hx
    rw [hname]
    exact hnew x hx
  rw [hadd] at hpasses
  have hmore : ({ sub with models := sub.models ++ [.item m'] } : Subcircuit).models ≠ [] := by simp
  have hrest := passes_below_silent cx d hafter hsy (n + (m.headLine :: tail).length) hmore
  have hall := hpasses.append hrest hsx hsy (Line.startsAfresh_silent hafter)
  rw [List.append_assoc] at hall
  refine ⟨[.item m'] ++ after.map .verbatim, hall, ?_, by simp⟩
  have hcopied := Rereads.copied after
  refine ⟨?_, ?_⟩
  · have hread : modelLines ([.item m'] ++ after.map .verbatim) =
        m'.render ++ modelLines (after.map .verbatim) := rfl
    have hitem : modelLines [.item m] = m.render := List.append_nil _
    rw [hread, modelLines_verbatim, hlines, hitem, hrender]
  · rw [List.filterMap_append, List.map_append, hcopied.names, Entry.filterMap_verbatim]
    simp [Entry.item?, hbase, hname, htype]

/-- Behind the models of the subcircuit the entries are read back. -/
def ReadsModels (cx : Context) (d : Dialect) (entries : List (Entry Model)) (n : Nat)
    (sub : Subcircuit) : Prop :=
  ∃ read, Passes cx d (.body sub) n (modelLines entries)
      (.body { sub with models := sub.models ++ read }) [] ∧ Rereads entries read

theorem ReadsModels.append (xs : List (Entry Model)) {ys us : List (Entry Model)} {n : Nat}
    {sub : Subcircuit} (hs : Line.Settled (modelLines (xs ++ ys)))
    (hfresh : Line.StartsAfresh (modelLines ys))
    (hx : Passes cx d (.body sub) n (modelLines xs)
      (.body { sub with models := sub.models ++ us }) [])
    (hxs : Rereads xs us)
    (hy : ReadsModels cx d ys (n + (modelLines xs).length)
      { sub with models := sub.models ++ us }) :
    ReadsModels cx d (xs ++ ys) n sub := by
  obtain ⟨read, hy, hys⟩ := hy
  rw [modelLines, List.flatMap_append] at hs
  rw [ReadsModels, modelLines, List.flatMap_append]
  obtain ⟨hsx, hsy⟩ := Line.settled_append.mp hs
  refine ⟨us ++ read, ?_, hxs.append hys⟩
  have hall := hx.append hy hsx hsy hfresh
  rw [List.append_assoc] at hall
  exact hall

theorem mem_ownModels_append {sub : Subcircuit} {us : List (Entry Model)} {x : Model}
    (h : x ∈ ownModels { sub with models := sub.models ++ us }) :
    x ∈ sub.ownModels ∨ x ∈ us.filterMap Entry.item? := by
  rwa [ownModels, List.filterMap_append, List.mem_append] at h

/-- The entries of a section of models are read back in their order. -/
theorem readsModels
    (h : Entries (Statement.IsCopied cx d)
      (fun m => Model.Written cx.options m.name m.type.emitted m.headLine (Model.tailLines m.tail))
      entries)
    (hs : Line.Settled (modelLines entries))
    (hdistinct : (entries.filterMap Entry.item?).Pairwise fun a b => sameName a.name b.name = false)
    (n : Nat) {sub : Subcircuit}
    (hfirst : sub.models ≠ [] ∨ ∀ e ∈ entries.head?, (Entry.item? e).isSome = true)
    (hnew : ∀ x ∈ sub.ownModels, ∀ m ∈ entries.filterMap Entry.item?,
      sameName x.name m.name = false) : ReadsModels cx d entries n sub := by
  have hafresh : ∀ {ys : List (Entry Model)}, Entries (Statement.IsCopied cx d)
      (fun m => Model.Written cx.options m.name m.type.emitted m.headLine (Model.tailLines m.tail))
      ys → Line.StartsAfresh (modelLines ys) := fun hys =>
    hys.startsAfresh (fun _ => rfl) fun m hm => (writesAgain_model (d := d) hm).fresh
  induction h generalizing n sub with
  | nil =>
      refine ⟨[], ?_, rfl, rfl⟩
      rw [List.append_nil]
      exact passes_nil cx d _ n
  | @line t r ht hr ih =>
      have hsub : sub.models ≠ [] :=
        hfirst.resolve_right fun h => absurd (h _ rfl) Bool.false_ne_true
      have hlines : Line.Settled ([t] ++ modelLines r) := hs
      obtain ⟨hst, hsr⟩ := Line.settled_append.mp hlines
      refine ReadsModels.append [.verbatim t] hs (hafresh hr)
        (passes_below_silent cx d (List.forall_mem_singleton.mpr ht) hst n hsub)
        (Rereads.copied [t]) ?_
      refine ih hsr hdistinct _ (.inl (by simp)) fun x hx => ?_
      exact hnew x ((mem_ownModels_append hx).resolve_right List.not_mem_nil)
  | @statement head tail r hst hcopied hr ih =>
      have hsub : sub.models ≠ [] :=
        hfirst.resolve_right fun h => absurd (h _ rfl) Bool.false_ne_true
      have htexts := modelLines_verbatim (head :: tail)
      have hlines := hs
      rw [modelLines, List.flatMap_append] at hlines
      obtain ⟨hsx, hsr⟩ := Line.settled_append.mp hlines
      rw [List.filterMap_append, Entry.filterMap_verbatim, List.nil_append] at hdistinct hnew
      have hpasses : Passes cx d (.body sub) n (modelLines ((head :: tail).map .verbatim))
          (.body { sub with models := sub.models ++ (head :: tail).map .verbatim }) [] := by
        rw [htexts]
        exact passes_below_copied hst hcopied (htexts ▸ hsx) n hsub
      refine ReadsModels.append _ hs (hafresh hr) hpasses (Rereads.copied (head :: tail)) ?_
      refine ih hsr hdistinct _ (.inl (by simp)) fun x hx => ?_
      refine hnew x ((mem_ownModels_append hx).resolve_right ?_)
      rw [Entry.filterMap_verbatim]
      exact List.not_mem_nil
  | @item m r hm hr ih =>
      obtain ⟨hfirst', hrest⟩ := List.pairwise_cons.mp hdistinct
      have hitem : modelLines [.item m] = m.render := List.append_nil _
      have hlines : Line.Settled (m.render ++ modelLines r) := hs
      obtain ⟨hsx, hsr⟩ := Line.settled_append.mp hlines
      obtain ⟨read, hpasses, hreads, hne⟩ := passes_model hm hsx n
        fun x hx => hnew x hx m List.mem_cons_self
      rw [← hitem] at hpasses
      refine ReadsModels.append [.item m] hs (hafresh hr) hpasses hreads ?_
      refine ih hsr hrest _ (.inl (by simp [hne])) fun x hx y hy => ?_
      obtain hx | hx := mem_ownModels_append hx
      · exact hnew x hx y (List.mem_cons_of_mem m hy)
      · rw [hreads.name_eq hx]
        exact hfirst' y hy

end Scope
end SpiceDeck
