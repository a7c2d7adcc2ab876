import SpiceDeck.Proofs.Written.Devices
import SpiceDeck.Proofs.Written.HeaderReadings
import SpiceDeck.Proofs.Written.ModelReadings
import SpiceDeck.Proofs.Written.Subcircuits

/-!
Subcircuits while they are read. Each section is filled with what is written in lines that read
back. Main statement: a subcircuit with such sections is written again as it stands, where its
pins and its calls can be told apart.
-/

namespace SpiceDeck
open Text

section Copied
variable {α : Type} {P : Text → List Text → Prop} {Q : α → Prop} {ts : List Text} {cx : Context}
  {d : Dialect} {family? : Text → Option Family} {K : Subcircuit → Prop}

theorem Parts.entries (h : Parts P ts) : Entries P Q (ts.map .verbatim) := by
  induction h with
  | nil => exact .nil
  | line ht _ ih => exact .line ht ih
  | statement hs hp _ ih =>
      rw [← List.cons_append, List.map_append]
      exact .statement hs hp ih

theorem Parts.addsLines (h : Parts (Statement.IsCopied cx d) ts) (hk : Subcircuit.IsAbove K) :
    Scope.AddsLines cx d family? K ts := by
  induction h with
  | nil => exact Scope.addsLines_nil cx d family? K
  | @line t r ht _ ih =>
      exact (Scope.addsLines_silent hk (List.forall_mem_singleton.mpr ht)).append ih
  | statement hs hp _ ih => exact (Scope.addsLines_copied hk hs hp).append ih

theorem Parts.writesAgain (h : Parts (Statement.IsCopied cx d) ts) : Scope.WritesAgain cx d ts := by
  induction h with
  | nil => exact Scope.writesAgain_nil cx d
  | @line t r ht _ ih =>
      exact (Scope.writesAgain_silent (List.forall_mem_singleton.mpr ht)).append ih
  | statement hs hp _ ih => exact (Scope.writesAgain_copied hs hp).append ih

theorem Entries.insertModel {Q : Model → Prop} {m : Model} {es : List (Entry Model)}
    (h : Entries P Q es) (hm : Q m) : Entries P Q (Subcircuit.insertModel m es) := by
  have hverbatim : ∀ (ts : List Text) (r : List (Entry Model)),
      Subcircuit.insertModel m (ts.map .verbatim ++ r) =
        ts.map .verbatim ++ Subcircuit.insertModel m r := by
    intro ts r
    induction ts with
    | nil => rfl
    | cons t ts ih => exact congrArg (Entry.verbatim t :: ·) ih
  induction h with
  | nil => exact .item hm .nil
  | line ht _ ih => exact .line ht ih
  | statement hs hp _ ih =>
      rw [hverbatim]
      exact .statement hs hp ih
  | item hold hr ih =>
      rw [Subcircuit.insertModel]
      split
      · exact .item hm hr
      · exact .item hold ih

end Copied

theorem Param.Below.append {o : Options} {c : Carry} {xs ys : List Text} (hx : Param.Below o c xs)
    (hy : Param.Below o .closed ys) : Param.Below o c (xs ++ ys) := by
  induction hx with
  | nil => exact hy
  | silent ht _ ih => exact .silent ht ih
  | params hws _ ih => exact .params hws ih

namespace Subcircuit
variable {first cx : Context} {d : Dialect} {sub : Subcircuit} {ts : List Text}

/-- What an open subcircuit has is written in lines that read back. -/
structure IsSound (cx : Context) (d : Dialect) (sub : Subcircuit) : Prop where
  header : Param.Below cx.options .closed sub.header
  body : ∀ family?, Scope.AddsLines cx d family? InBody sub.body
  calls : Entries (Statement.IsCopied cx d) (Call.IsSound cx.options) sub.calls
  models : Entries (Statement.IsCopied cx d) (fun m => m.IsSound cx.options ∧ m.Repeats) sub.models
  starts : ∀ e ∈ sub.models.head?, (Entry.item? e).isSome = true
  distinct : (sub.ownModels.map Model.key).Nodup

theorem isSound_new (cx : Context) (d : Dialect) (name : Text) (line : Nat) :
    IsSound cx d { name, line } where
  header := .nil
  body family? := Scope.addsLines_nil cx d family? InBody
  calls := .nil
  models := .nil
  starts := nofun
  distinct := List.nodup_nil

theorem IsSound.addHeader (h : sub.IsSound cx d) (hts : Param.Below cx.options .closed ts)
    (pins : List (List Text)) :
    IsSound cx d { sub with pins := pins, header := sub.header ++ ts } :=
  ⟨h.header.append hts, h.body, h.calls, h.models, h.starts, h.distinct⟩

theorem IsSound.addBody (h : sub.IsSound cx d)
    (hts : ∀ family?, Scope.AddsLines cx d family? InBody ts) :
    IsSound cx d { sub with body := sub.body ++ ts } :=
  ⟨h.header, fun family? => (h.body family?).append (hts family?), h.calls, h.models, h.starts,
    h.distinct⟩

theorem IsSound.copyLines (h : sub.IsSound cx d) (hts : Parts (Statement.IsCopied cx d) ts) :
    (sub.copyLines ts).IsSound cx d := by
  obtain ⟨hheader, hbody, hcalls, hmodels, hstarts, hdistinct⟩ := h
  simp only [Subcircuit.copyLines]
  split
  · next hne =>
      refine ⟨hheader, hbody, hcalls, hmodels.append hts.entries, ?_, ?_⟩
      · obtain ⟨e, r, heq⟩ := List.exists_cons_of_ne_nil (l := sub.models) (by simpa using hne)
        rw [heq] at hstarts ⊢
        exact hstarts
      · rw [ownModels, items_append_verbatim]
        exact hdistinct
  · split
    · exact ⟨hheader, hbody, hcalls.append hts.entries, hmodels, hstarts, hdistinct⟩
    · exact ⟨hheader, fun family? => (hbody family?).append (hts.addsLines isAbove_inBody), hcalls,
        hmodels, hstarts, hdistinct⟩

theorem IsSound.addCall (h : sub.IsSound cx d) {c : Call} (hc : c.IsSound cx.options) :
    (sub.addCall c).IsSound cx d :=
  ⟨h.header, h.body, h.calls.append (.item hc .nil), h.models, h.starts, h.distinct⟩

theorem IsSound.addModel (h : sub.IsSound cx d) {m : Model} (hm : m.IsSound cx.options)
    (hr : m.Repeats) : (sub.addModel m).IsSound cx d := by
  refine ⟨h.header, h.body, h.calls, h.models.insertModel ⟨hm, hr⟩, ?_, ?_⟩
  · have hstarts := h.starts
    simp only [Subcircuit.addModel]
    cases hmodels : sub.models with
    | nil =>
        rintro e ⟨⟩
        rfl
    | cons e r =>
        rw [hmodels] at hstarts
        cases e with
        | verbatim t => cases hstarts _ rfl
        | item old =>
            rw [insertModel]
            split <;> (rintro e ⟨⟩; rfl)
  · have hitems : (sub.addModel m).ownModels = Model.enter sub.ownModels m :=
      items_insertModel m sub.models
    rw [hitems, Model.enter_eq_enterBy, keys_enterBy]
    split
    · exact h.distinct
    · next hnew =>
        rw [List.nodup_append]
        refine ⟨h.distinct, List.pairwise_singleton _ _, ?_⟩
        rintro a ha b hb rfl
        rw [List.mem_singleton.mp hb] at ha
        exact hnew ha

theorem IsSound.addModels (h : sub.IsSound cx d) {ms : List Model}
    (hms : ∀ m ∈ ms, m.IsSound cx.options ∧ m.Repeats) :
    (ms.foldl Subcircuit.addModel sub).IsSound cx d := by
  induction ms generalizing sub with
  | nil => exact h
  | cons m r ih =>
      obtain ⟨⟨hm, hr⟩, hrest⟩ := List.forall_mem_cons.mp hms
      exact ih (h.addModel hm hr) hrest

/-- The pins can be told apart, and each call is written as a call of the same device or as a line
that is copied. -/
structure Repeats (first cx : Context) (d : Dialect) (sub : Subcircuit) : Prop where
  header : sub.HeaderRepeats
  calls : ∀ c ∈ sub.calls.filterMap Entry.item?, c.Repeats cx d sub.writtenFamily?
    (Resolution.find first.symbols first.options c.name c.reference
      (sub.modelFamily? c.reference))

instance (first cx : Context) (d : Dialect) (sub : Subcircuit) :
    Decidable (sub.Repeats first cx d) :=
  decidable_of_iff (sub.HeaderRepeats ∧ ∀ c ∈ sub.calls.filterMap Entry.item?,
      c.Repeats cx d sub.writtenFamily? (Resolution.find first.symbols first.options c.name
        c.reference (sub.modelFamily? c.reference)))
    ⟨fun h => ⟨h.1, h.2⟩, fun h => ⟨h.header, h.calls⟩⟩

theorem IsSound.isWritten (h : sub.IsSound cx d) (hr : sub.Repeats first cx d) :
    sub.IsWritten first cx d where
  header := hr.header
  below := h.header
  body := h.body _
  calls := h.calls.mono fun c hc hsound =>
    Scope.addsLines_render hsound (hr.calls c (List.mem_filterMap.mpr ⟨_, hc, rfl⟩))
  models := h.models.mono fun _ _ hm => hm.1.written hm.2
  starts := h.starts
  distinct := (List.pairwise_map.mp h.distinct).imp fun hne => beq_eq_false_iff_ne.mpr hne

theorem IsSound.writesAgain (h : sub.IsSound cx d) (hr : sub.Repeats first cx d) :
    Scope.WritesAgain cx d (Segment.lines first (.block sub)) :=
  Scope.writesAgain_subcircuit (h.isWritten hr)

end Subcircuit
end SpiceDeck
