import SpiceDeck.Proofs.Written.Headers

/-!
Written subcircuits that are read again. A subcircuit is written section by section, and each
section is taken up by the same section of the subcircuit that is read. Main statement: a
subcircuit with sections that are read back is written again as it stands.
-/

namespace SpiceDeck
open Text

namespace Subcircuit
variable {cx first : Context} {d : Dialect} {sub : Subcircuit} {lines : List Text}

/-- The family of a model of this name, as its written type tells it. -/
def writtenFamily? (sub : Subcircuit) (reference : Text) : Option Family :=
  (sub.ownModels.find? fun m => sameName m.name reference).map fun m =>
    (ModelType.ofKeyword m.type.emitted).family

theorem modelFamily?_of_rereads {read : Subcircuit} (h : Rereads sub.models read.models) :
    read.modelFamily? = sub.writtenFamily? := by
  funext reference
  let p (x : Text × Text × ModelType) : Bool := sameName x.1 reference
  have hfind := congrArg (fun xs => (xs.find? p).map fun x => x.2.2.family) h.names
  simp only [List.find?_map, Option.map_map] at hfind
  exact hfind

theorem gap_append_gap (lines : List Text) : gap (lines ++ gap lines) = [] := by
  cases hlast : lines.getLast? with
  | none =>
      rw [List.getLast?_eq_none_iff.mp hlast]
      rfl
  | some l =>
      cases hblank : isBlank l with
      | true =>
          have hgap : gap lines = [] := by simp [gap, hlast, hblank]
          rw [hgap, List.append_nil, hgap]
      | false =>
          have hgap : gap lines = [[]] := by simp [gap, hlast, hblank]
          rw [hgap, gap, List.getLast?_concat]
          rfl

theorem silent_gap (lines : List Text) : ∀ t ∈ gap lines, isSilent t = true := by
  intro t ht
  simp only [gap] at ht
  split at ht
  · split at ht
    · cases ht
    · cases List.mem_singleton.mp ht
      rfl
  · cases ht

theorem lines_block (cx : Context) (sub : Subcircuit) :
    Segment.lines cx (.block sub) =
      sub.upperLines cx sub.modelFamily? ++ gap (sub.upperLines cx sub.modelFamily?) ++
        modelLines sub.models ++ [".ends ".toList ++ sub.name] := by
  have hcalls : Segment.upperLines cx sub = sub.upperLines cx sub.modelFamily? := by
    refine congrArg (sub.openingLines ++ sub.body ++ ·) (congrArg (List.flatMap · sub.calls) ?_)
    funext e
    cases e <;> rfl
  have hmodels : Segment.lowerLines sub = modelLines sub.models := by
    refine congrArg (List.flatMap · sub.models) ?_
    funext e
    cases e <;> rfl
  rw [Segment.lines, hcalls, hmodels]

/-- A subcircuit with sections that are read back when it is written. -/
structure IsWritten (first cx : Context) (d : Dialect) (sub : Subcircuit) : Prop where
  header : sub.HeaderRepeats
  below : Param.Below cx.options .closed sub.header
  body : Scope.AddsLines cx d sub.writtenFamily? InBody sub.body
  calls : Entries (Statement.IsCopied cx d)
    (fun c => Scope.AddsLines cx d sub.writtenFamily? InUpper
      (Call.entryLines first sub.modelFamily? (.item c))) sub.calls
  models : Entries (Statement.IsCopied cx d)
    (fun m => Model.Written cx.options m.name m.type.emitted m.headLine (Model.tailLines m.tail))
    sub.models
  starts : ∀ e ∈ sub.models.head?, (Entry.item? e).isSome = true
  distinct : sub.DistinctModels

theorem IsWritten.addsLines_calls (h : sub.IsWritten first cx d) :
    Scope.AddsLines cx d sub.writtenFamily? InUpper
      (sub.calls.flatMap (Call.entryLines first sub.modelFamily?)) :=
  Scope.addsLines_entries (fun _ => rfl) (fun _ hc => hc) h.calls

end Subcircuit

namespace Scope
open Subcircuit
variable {first cx : Context} {d : Dialect} {sub : Subcircuit}

theorem isStatement_closing (name : Text) : IsStatement (".ends ".toList ++ name) [] :=
  ⟨rfl, by rintro ⟨⟩, nofun, nofun⟩

/-- The statement that ends a subcircuit writes all of it. -/
theorem passes_closing (cx : Context) (d : Dialect) (hname : IsInk sub.name)
    (hs : Line.isSettled (".ends ".toList ++ sub.name) = true) (n : Nat) :
    Passes cx d (.body sub) n [".ends ".toList ++ sub.name] .top
      (Segment.lines cx (.block sub)) := by
  obtain ⟨b, out, hpasses, rfl, rfl⟩ := passes_statement cx d (.body sub)
    (Q := fun b out => b = .top ∧ out = Segment.lines cx (.block sub))
    (isStatement_closing sub.name) (by simpa [Line.Settled] using hs) n (by
      intro s hreads
      have hst := isStatement_closing sub.name
      have hends : EndsInInk (".ends ".toList ++ sub.name) :=
        EndsInInk.append (fun c hc => hname.2 c (List.mem_of_getLast? hc)) hname.1 _
      have hcontent : s.head.content = ".ends ".toList ++ sub.name := by
        have hstart : trimStart (".ends ".toList ++ sub.name) = ".ends ".toList ++ sub.name := rfl
        rw [hreads.content hst, trim, hstart, hends.trimEnd]
      have hcode : s.head.isCode = true := by
        rw [Line.isCode_settledBody hreads.head, hst.code]
        rfl
      obtain ⟨name, hkind⟩ := Statement.kind_closing hcode hcontent cx.symbols cx.options d
      obtain ⟨htop, hlines⟩ := stepBody_close cx sub s name
      rw [hreads.verbatim_tail, List.append_nil] at hlines
      exact ⟨_, hkind, rfl, htop, hlines⟩)
  exact hpasses

/-- The lines above the models are taken up one section after the other. -/
theorem passes_upper (h : sub.IsWritten first cx d)
    (hs : Line.Settled (sub.upperLines first sub.modelFamily?)) (n : Nat) :
    ∃ next, Passes cx d .top n (sub.upperLines first sub.modelFamily?) (.body next) [] ∧
      InUpper next ∧ next.name = sub.name ∧
        next.upperLines cx sub.writtenFamily? = sub.upperLines first sub.modelFamily? := by
  have hcalls := h.addsLines_calls
  obtain ⟨hsu, hsc⟩ := Line.settled_append.mp hs
  obtain ⟨hso, hsb⟩ := Line.settled_append.mp hsu
  obtain ⟨opened, hopen, hopened, hname, hlines⟩ :=
    passes_opening cx d sub.writtenFamily? h.header h.below hso n
  obtain ⟨filled, hfill, hfilled, hname', hlines'⟩ := h.body.passes hsb _ opened hopened
  obtain ⟨called, hcall, hcalled, hname'', hlines''⟩ := hcalls.passes hsc
    (n + (sub.openingLines ++ sub.body).length) filled hfilled.2
  have hfirst := hopen.append hfill hso hsb h.body.fresh
  refine ⟨called, hfirst.append hcall hsu hsc hcalls.fresh, hcalled,
    hname''.trans (hname'.trans hname), ?_⟩
  rw [hlines'', hlines', hlines]
  rfl

theorem startsAfresh_models (h : sub.IsWritten first cx d) :
    Line.StartsAfresh (modelLines sub.models) :=
  h.models.startsAfresh (fun _ => rfl) fun _ hm => (writesAgain_model (d := d) hm).fresh

/-- Behind them an empty line and the models are taken up. -/
theorem passes_sections (h : sub.IsWritten first cx d) {upper : List Text}
    (hupper : sub.upperLines first sub.modelFamily? = upper)
    (hs : Line.Settled (upper ++ gap upper ++ modelLines sub.models)) (n : Nat) :
    ∃ next, Passes cx d .top n (upper ++ gap upper ++ modelLines sub.models) (.body next) [] ∧
      next.name = sub.name ∧ next.upperLines cx sub.writtenFamily? = upper ++ gap upper ∧
        Rereads sub.models next.models := by
  have hgap := silent_gap upper
  obtain ⟨hsg, hsm⟩ := Line.settled_append.mp hs
  obtain ⟨hsu, hsg'⟩ := Line.settled_append.mp hsg
  obtain ⟨called, hcall, hcalled, hname, hlines⟩ := passes_upper h (hupper ▸ hsu) n
  rw [hupper] at hcall hlines
  have hempty : AddsLines cx d sub.writtenFamily? InUpper (gap upper) :=
    addsLines_silent isAbove_inUpper hgap
  obtain ⟨apart, hpass, hapart, hname', hlines'⟩ :=
    hempty.passes hsg' (n + upper.length) called hcalled
  have hmodels : apart.models = [] := hapart
  obtain ⟨read, hread, hrereads⟩ := readsModels h.models hsm h.distinct
    (n + (upper ++ gap upper).length) (.inr h.starts)
    (show ∀ x ∈ apart.ownModels, _ by simp [ownModels, hmodels])
  have hfirst := hcall.append hpass hsu hsg' hempty.fresh
  refine ⟨_, hfirst.append hread hsg hsm (startsAfresh_models h), hname'.trans hname, ?_, ?_⟩
  · rw [hlines] at hlines'
    exact hlines'
  · rw [hmodels]
    exact hrereads

/-- A written subcircuit is written again as it stands. -/
theorem writesAgain_subcircuit (h : sub.IsWritten first cx d) :
    WritesAgain cx d (Segment.lines first (.block sub)) := by
  have hclosing : Line.StartsAfresh [".ends ".toList ++ sub.name] :=
    (isStatement_closing sub.name).startsAfresh
  rw [lines_block]
  refine ⟨?_, fun hs n => ?_⟩
  · refine ((Line.StartsAfresh.append ?_ (Line.startsAfresh_silent (silent_gap _))).append
      (startsAfresh_models h)).append hclosing
    exact ((startsAfresh_opening h.header.pins).append h.body.fresh).append h.addsLines_calls.fresh
  · obtain ⟨hsx, hsy⟩ := Line.settled_append.mp hs
    obtain ⟨next, hpasses, hname, hupper, hrereads⟩ := passes_sections h rfl hsx n
    have hclose := passes_closing cx d (hname.symm ▸ h.header.name : IsInk next.name)
      (by rw [hname]; exact hsy _ List.mem_cons_self)
      (n + (sub.upperLines first sub.modelFamily? ++ gap (sub.upperLines first sub.modelFamily?) ++
        modelLines sub.models).length)
    have hall := hpasses.append (hname ▸ hclose) hsx hsy hclosing
    rw [List.nil_append, lines_block, modelFamily?_of_rereads hrereads, hupper, gap_append_gap,
      hrereads.lines, List.append_nil, hname] at hall
    exact hall

end Scope
end SpiceDeck
