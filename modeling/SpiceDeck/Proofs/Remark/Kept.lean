import SpiceDeck.Proofs.Inert.Kept
import SpiceDeck.Proofs.Remark.Writing

/-!
Blocks and subcircuits that differ in their remarks alone. Entering calls, models and
lines keeps them so, and so is what they are written as.
-/

namespace SpiceDeck
open Text

namespace Model.Block

/-- Blocks that differ in their remarks alone. No block has parameters on the line of its
common part. -/
structure Alongside (a b : Model.Block) : Prop where
  keyword : a.keyword = b.keyword
  current : a.current = b.current
  carry : a.carry = b.carry
  common : a.common.Alongside b.common
  bare : b.common.params = none
  bins : List.Forall₂ (fun p q => p.1 = q.1 ∧ p.2.Alongside q.2) a.bins b.bins

namespace Alongside
variable {a b : Model.Block}

theorem name (h : a.Alongside b) : a.name = b.name := h.common.base

theorem openBin (h : a.Alongside b) (index : Nat) {l m : ParamLine} (hl : l.Alongside m)
    (hm : m.marker = .none) (line : Nat) :
    (a.openBin index l line).Alongside (b.openBin index m line) := by
  have hnew : Model.Alongside
      (({ Model.new a.common.base a.keyword line with bin := some index }).withParams l)
      (({ Model.new b.common.base b.keyword line with bin := some index }).withParams m) := by
    rw [h.common.base, h.keyword]
    exact Model.Alongside.withParams ⟨rfl, rfl, rfl, rfl, .none, nofun, .nil⟩ hl hm
  have hinsert : ∀ {xs ys : List (Nat × Model)} {n k : Model}, n.Alongside k →
      List.Forall₂ (fun p q => p.1 = q.1 ∧ p.2.Alongside q.2) xs ys →
      List.Forall₂ (fun p q => p.1 = q.1 ∧ p.2.Alongside q.2) (insertBin index n xs)
        (insertBin index k ys) := by
    intro xs ys n k hn hxs
    induction hxs with
    | nil => exact .cons ⟨rfl, hn⟩ .nil
    | @cons p q _ _ hp hrest ih =>
        obtain ⟨i, old⟩ := p
        obtain ⟨j, old'⟩ := q
        obtain ⟨rfl, hold⟩ := hp
        simp only [insertBin]
        split
        · exact .cons ⟨rfl, hn⟩ hrest
        · exact .cons ⟨rfl, hold⟩ ih
  exact { h with current := rfl, bins := hinsert hnew h.bins }

theorem modifyCurrent (h : a.Alongside b) {f g : Model → Model}
    (hfg : ∀ {m n : Model}, m.Alongside n → (f m).Alongside (g n))
    (hg : ∀ {n : Model}, n.params = none → (g n).params = none) :
    (a.modifyCurrent f).Alongside (b.modifyCurrent g) := by
  have ha := h.current
  cases hb : b.current with
  | none =>
      rw [hb] at ha
      simp only [Model.Block.modifyCurrent, ha, hb]
      exact { h with current := rfl, common := hfg h.common, bare := hg h.bare }
  | some index =>
      rw [hb] at ha
      simp only [Model.Block.modifyCurrent, ha, hb]
      refine { h with current := rfl, bins := ?_ }
      refine List.forall₂_map_left_iff.mpr (List.forall₂_map_right_iff.mpr ?_)
      refine h.bins.imp ?_
      rintro ⟨i, m⟩ ⟨j, n⟩ ⟨rfl, hm⟩
      refine ⟨rfl, ?_⟩
      split
      · exact hfg hm
      · exact hm

theorem currentModel (h : a.Alongside b) : a.currentModel.Alongside b.currentModel := by
  have hlookup : ∀ (index : Nat) {xs ys : List (Nat × Model)} {m n : Model}, m.Alongside n →
      List.Forall₂ (fun p q => p.1 = q.1 ∧ p.2.Alongside q.2) xs ys →
      ((xs.lookup index).getD m).Alongside ((ys.lookup index).getD n) := by
    intro index xs ys m n hm hxs
    induction hxs with
    | nil => exact hm
    | @cons p q _ _ hp _ ih =>
        obtain ⟨i, k⟩ := p
        obtain ⟨j, k'⟩ := q
        obtain ⟨rfl, hk⟩ := hp
        simp only [List.lookup_cons]
        split
        · exact hk
        · exact ih
  simp only [Model.Block.currentModel, h.current]
  cases b.current with
  | none => exact h.common
  | some index => exact hlookup index h.common h.bins

theorem isOpen (h : a.Alongside b) : a.isOpen = b.isOpen := by
  simp only [Model.Block.isOpen, h.carry, h.currentModel.isOpen]

theorem closeValue (h : a.Alongside b) : a.closeValue.Alongside b.closeValue := by
  have hmodify := h.modifyCurrent (f := Model.close) (g := Model.close) (fun hm => hm.close) (by
    intro n hn
    simp only [Model.close, hn]
    split <;> rfl)
  simp only [Model.Block.closeValue, h.carry]
  split
  · exact { hmodify with carry := rfl }
  · exact h

theorem models (h : a.Alongside b) : List.Forall₂ Model.Alongside a.models b.models := by
  have hbare : a.common.params = none := by
    obtain ⟨ha, -⟩ | ⟨l, m, -, hb, -⟩ := h.common.params_cases
    · exact ha
    · rw [h.bare] at hb
      cases hb
  have hshared : ∀ {b : Model.Block}, b.common.params = none → b.shared = b.common.tail := by
    intro b hb
    rw [shared, hb]
    rfl
  simp only [Model.Block.models, rel_isEmpty h.bins]
  split
  · exact .cons h.common .nil
  · refine List.forall₂_map_left_iff.mpr (List.forall₂_map_right_iff.mpr ?_)
    refine h.bins.imp ?_
    rintro ⟨i, m⟩ ⟨j, n⟩ ⟨-, hm⟩
    have htype : m.type = n.type := hm.type
    refine { hm with type := ?_, tail := ?_ }
    · simp only [complete, htype, h.common.type]
    · simp only [complete, hshared hbare, hshared h.bare]
      exact List.rel_append h.common.tail hm.tail

end Alongside

end Model.Block

namespace Deck

/-- Decks whose lines differ in their remarks alone, with the same warnings. -/
structure Alongside (a b : Deck) : Prop where
  lines : List.Forall₂ Text.Alongside a.lines b.lines
  warnings : a.warnings = b.warnings

namespace Alongside
variable {a b c d : Deck}

theorem refl (a : Deck) : a.Alongside a := ⟨alongside_refl a.lines, rfl⟩

theorem append (h : a.Alongside b) (h' : c.Alongside d) : (a ++ c).Alongside (b ++ d) := by
  refine ⟨List.rel_append h.lines h'.lines, ?_⟩
  rw [warnings_append, warnings_append, h.warnings, h'.warnings]

theorem ofLines {xs ys : List Text} (h : List.Forall₂ Text.Alongside xs ys) :
    (Deck.ofLines xs).Alongside (Deck.ofLines ys) :=
  ⟨h, rfl⟩

theorem concat {xs ys : List Deck} (h : List.Forall₂ Deck.Alongside xs ys) :
    (Deck.concat xs).Alongside (Deck.concat ys) := by
  induction h with
  | nil => exact .refl _
  | cons h _ ih => exact h.append ih

end Alongside

end Deck

inductive Entry.Rel {α : Type} (R : α → α → Prop) : Entry α → Entry α → Prop where
  | item {a b : α} (h : R a b) : Rel R (.item a) (.item b)
  | verbatim {a b : Text} (h : a.Alongside b) : Rel R (.verbatim a) (.verbatim b)

theorem Entry.rel_map_verbatim {α : Type} (R : α → α → Prop) {xs ys : List Text}
    (h : List.Forall₂ Text.Alongside xs ys) :
    List.Forall₂ (Entry.Rel R) (xs.map .verbatim) (ys.map .verbatim) :=
  List.forall₂_map_left_iff.mpr (List.forall₂_map_right_iff.mpr (h.imp fun _ _ h => .verbatim h))

namespace Subcircuit

/-- Subcircuits that differ in their remarks alone. -/
structure Alongside (a b : Subcircuit) : Prop where
  name : a.name = b.name
  line : a.line = b.line
  pins : a.pins = b.pins
  header : List.Forall₂ Text.Alongside a.header b.header
  body : List.Forall₂ Text.Alongside a.body b.body
  calls : List.Forall₂ (Entry.Rel Call.Alongside) a.calls b.calls
  models : List.Forall₂ (Entry.Rel Model.Alongside) a.models b.models

namespace Alongside
variable {a b : Subcircuit} {xs ys : List Text}

theorem addHeader (h : a.Alongside b) {p q : List (List Text)} (hp : p = q)
    (hl : List.Forall₂ Text.Alongside xs ys) :
    Alongside { a with pins := p, header := a.header ++ xs }
      { b with pins := q, header := b.header ++ ys } :=
  { h with pins := hp, header := List.rel_append h.header hl }

theorem addBody (h : a.Alongside b) (hl : List.Forall₂ Text.Alongside xs ys) :
    Alongside { a with body := a.body ++ xs } { b with body := b.body ++ ys } :=
  { h with body := List.rel_append h.body hl }

theorem addCall (h : a.Alongside b) {c d : Call} (hc : c.Alongside d) :
    (a.addCall c).Alongside (b.addCall d) :=
  { h with calls := List.rel_append h.calls (.cons (.item hc) .nil) }

theorem addModel (h : a.Alongside b) {m n : Model} (hm : m.Alongside n) :
    (a.addModel m).Alongside (b.addModel n) := by
  have hinsert : ∀ {xs ys : List (Entry Model)},
      List.Forall₂ (Entry.Rel Model.Alongside) xs ys →
      List.Forall₂ (Entry.Rel Model.Alongside) (insertModel m xs) (insertModel n ys) := by
    intro xs ys hxs
    induction hxs with
    | nil => exact .cons (.item hm) .nil
    | cons he hrest ih =>
        cases he with
        | verbatim ht => exact .cons (.verbatim ht) ih
        | item ho =>
            simp only [insertModel, ho.name, hm.name]
            split
            · exact .cons (.item hm) hrest
            · exact .cons (.item ho) ih
  exact { h with models := hinsert h.models }

theorem addModels (h : a.Alongside b) {ms ns : List Model}
    (hm : List.Forall₂ Model.Alongside ms ns) :
    (ms.foldl Subcircuit.addModel a).Alongside (ns.foldl Subcircuit.addModel b) := by
  induction hm generalizing a b with
  | nil => exact h
  | cons hm _ ih => exact ih (h.addModel hm)

theorem copyLines (h : a.Alongside b) (hl : List.Forall₂ Text.Alongside xs ys) :
    (a.copyLines xs).Alongside (b.copyLines ys) := by
  simp only [Subcircuit.copyLines, rel_isEmpty h.models, rel_isEmpty h.calls]
  split
  · exact { h with models := List.rel_append h.models (Entry.rel_map_verbatim _ hl) }
  · split
    · exact { h with calls := List.rel_append h.calls (Entry.rel_map_verbatim _ hl) }
    · exact h.addBody hl

theorem modelFamily? (h : a.Alongside b) (reference : Text) :
    a.modelFamily? reference = b.modelFamily? reference := by
  have hfind : ∀ {xs ys : List (Entry Model)}, List.Forall₂ (Entry.Rel Model.Alongside) xs ys →
      ((xs.filterMap Entry.item?).find? fun m => sameName m.base reference).map Model.family =
        ((ys.filterMap Entry.item?).find? fun m => sameName m.base reference).map Model.family := by
    intro xs ys hxs
    induction hxs with
    | nil => rfl
    | cons he _ ih =>
        cases he with
        | verbatim ht => exact ih
        | @item m n hm =>
            have hfamily : m.family = n.family := congrArg ModelType.family hm.type
            simp only [List.filterMap_cons, Entry.item?, List.find?_cons, hm.base]
            split
            · exact congrArg some hfamily
            · exact ih
  exact hfind h.models

theorem renderCall (h : a.Alongside b) (symbols : Symbols) (o : Options) {c d : Entry Call}
    (hc : Entry.Rel Call.Alongside c d) :
    (Subcircuit.renderCall symbols o a c).Alongside (Subcircuit.renderCall symbols o b d) := by
  cases hc with
  | verbatim ht => exact .ofLines (.cons ht .nil)
  | item hc =>
      simp only [Subcircuit.renderCall, hc.name, hc.reference, hc.line, h.modelFamily?]
      exact ⟨hc.render _, rfl⟩

theorem renderModel {m n : Entry Model} (hm : Entry.Rel Model.Alongside m n) :
    (Subcircuit.renderModel m).Alongside (Subcircuit.renderModel n) := by
  cases hm with
  | verbatim ht => exact .ofLines (.cons ht .nil)
  | item hm => exact ⟨hm.render, congrArg Option.toList hm.warning?⟩

theorem openingLines (h : a.Alongside b) :
    List.Forall₂ Text.Alongside a.openingLines b.openingLines := by
  simp only [Subcircuit.openingLines, h.name, h.pins]
  exact .cons (.refl _) (List.rel_append (alongside_refl _) h.header)

theorem gap (h : List.Forall₂ Text.Alongside xs ys) : gap xs = gap ys := by
  let after : Option Text → List Text :=
    fun last => last.elim [] fun l => if isBlank l then [] else [[]]
  have hgap : ∀ lines, Subcircuit.gap lines = after lines.getLast? := by
    intro lines
    rw [Subcircuit.gap]
    cases lines.getLast? with
    | none => rfl
    | some l => rfl
  have hafter : ∀ {s t : Text}, s.Alongside t → after (some s) = after (some t) := by
    intro s t h
    simp only [after, Option.elim_some, h.blank]
  rw [hgap, hgap]
  exact rel_getLast? hafter h

theorem render (h : a.Alongside b) (symbols : Symbols) (o : Options) :
    (a.render symbols o).Alongside (b.render symbols o) := by
  have hcalls : (Deck.concat (a.calls.map (Subcircuit.renderCall symbols o a))).Alongside
      (Deck.concat (b.calls.map (Subcircuit.renderCall symbols o b))) := by
    refine .concat (List.forall₂_map_left_iff.mpr (List.forall₂_map_right_iff.mpr ?_))
    exact h.calls.imp fun _ _ hc => h.renderCall symbols o hc
  have hmodels : (Deck.concat (a.models.map Subcircuit.renderModel)).Alongside
      (Deck.concat (b.models.map Subcircuit.renderModel)) := by
    refine .concat (List.forall₂_map_left_iff.mpr (List.forall₂_map_right_iff.mpr ?_))
    exact h.models.imp fun _ _ hm => renderModel hm
  have hupper := (Deck.Alongside.ofLines (List.rel_append h.openingLines h.body)).append hcalls
  simp only [Subcircuit.render, gap hupper.lines, h.name]
  exact ((hupper.append (.refl _)).append hmodels).append (.refl _)

theorem close (h : a.Alongside b) (symbols : Symbols) (o : Options) (name : Option Text) (n : Nat) :
    (a.close symbols o name n).Alongside (b.close symbols o name n) := by
  simp only [Subcircuit.close, h.name]
  exact .append (.refl _) (h.render symbols o)

end Alongside

end Subcircuit

end SpiceDeck
