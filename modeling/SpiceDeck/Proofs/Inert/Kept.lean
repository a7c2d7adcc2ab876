import SpiceDeck.Proofs.Inert.Reading

/-!
Subcircuits and decks without their comments and blank lines. Two subcircuits are
alike if they differ in such lines alone; entering calls, models and lines keeps them
alike, and alike subcircuits are written alike.
-/

namespace SpiceDeck
open Text

def Warning.renumber (ρ : Nat → Nat) (w : Warning) : Warning := { w with line := w.line.map ρ }

namespace Deck

def strip (ρ : Nat → Nat) (d : Deck) : Deck := ⟨active d.lines, d.warnings.map (Warning.renumber ρ)⟩

@[simp] theorem strip_append (ρ : Nat → Nat) (a b : Deck) :
    (a ++ b).strip ρ = a.strip ρ ++ b.strip ρ := by
  simp only [strip, lines_append, warnings_append, active_append, List.map_append]
  rfl

@[simp] theorem strip_ofLines (ρ : Nat → Nat) (lines : List Text) :
    (ofLines lines).strip ρ = ofLines (active lines) := rfl

@[simp] theorem strip_warn (ρ : Nat → Nat) (c : Cause) (n : Nat) :
    (warn c n).strip ρ = warn c (ρ n) := rfl

@[simp] theorem strip_warnIf (ρ : Nat → Nat) (b : Bool) (c : Cause) (n : Nat) :
    (warnIf b c n).strip ρ = warnIf b c (ρ n) := by
  cases b <;> rfl

end Deck

namespace Entry

variable {α : Type}

def strip (f : α → α) : List (Entry α) → List (Entry α)
  | [] => []
  | .item a :: r => .item (f a) :: strip f r
  | .verbatim t :: r => if isInert t then strip f r else .verbatim t :: strip f r

@[simp] theorem strip_append (f : α → α) (a b : List (Entry α)) :
    strip f (a ++ b) = strip f a ++ strip f b := by
  induction a with
  | nil => rfl
  | cons e r ih =>
      cases e with
      | item a => exact congrArg (.item (f a) :: ·) ih
      | verbatim t =>
          simp only [List.cons_append, strip, ih]
          split <;> rfl

@[simp] theorem strip_item (f : α → α) (a : α) : strip f [.item a] = [.item (f a)] := rfl

theorem strip_map_verbatim (f : α → α) (lines : List Text) :
    strip f (lines.map .verbatim) = (active lines).map .verbatim := by
  induction lines with
  | nil => rfl
  | cons t r ih =>
      simp only [List.map_cons, strip, ih, active, List.filter_cons]
      cases isInert t <;> rfl

theorem filterMap_item?_strip (f : α → α) (es : List (Entry α)) :
    (strip f es).filterMap item? = (es.filterMap item?).map f := by
  induction es with
  | nil => rfl
  | cons e r ih =>
      cases e with
      | item a => exact congrArg (f a :: ·) ih
      | verbatim t =>
          simp only [strip]
          split
          · exact ih
          · exact ih

/-- Writing entries drops their inert lines, whatever is made of the others. -/
theorem strip_concat_map {f : α → α} {g h : Entry α → Deck} {ρ : Nat → Nat}
    (hg : ∀ t, g (.verbatim t) = .ofLines [t]) (hh : ∀ t, h (.verbatim t) = .ofLines [t])
    (hitem : ∀ a, (h (.item (f a))).strip id = (g (.item a)).strip ρ) (es : List (Entry α)) :
    (Deck.concat ((strip f es).map h)).strip id = (Deck.concat (es.map g)).strip ρ := by
  induction es with
  | nil => rfl
  | cons e r ih =>
      cases e with
      | item a => simp only [strip, List.map_cons, Deck.concat, Deck.strip_append, hitem, ih]
      | verbatim t =>
          cases ht : isInert t with
          | true =>
              simp only [strip, ht, if_true, ih, List.map_cons, Deck.concat, Deck.strip_append, hg,
                Deck.strip_ofLines, active_cons_inert ht]
              rfl
          | false =>
              simp only [strip, ht, Bool.false_eq_true, if_false, List.map_cons, Deck.concat,
                Deck.strip_append, hg, hh, Deck.strip_ofLines, ih]

end Entry

theorem isEmpty_append_left {α : Type} {a b : List α} (h : a.isEmpty = false) :
    (a ++ b).isEmpty = false := by
  cases a with
  | nil => cases h
  | cons x r => rfl

theorem isEmpty_append_right {α : Type} {a b : List α} (h : b.isEmpty = false) :
    (a ++ b).isEmpty = false := by
  cases a with
  | nil => exact h
  | cons x r => rfl

namespace Subcircuit

def strip (ρ : Nat → Nat) (s : Subcircuit) : Subcircuit :=
  { s with
    line := ρ s.line
    header := active s.header
    body := active s.body
    calls := Entry.strip (Call.strip ρ) s.calls
    models := Entry.strip (Model.strip ρ) s.models }

theorem insertModel_strip (ρ : Nat → Nat) (m : Model) (es : List (Entry Model)) :
    insertModel (m.strip ρ) (Entry.strip (Model.strip ρ) es) =
      Entry.strip (Model.strip ρ) (insertModel m es) := by
  induction es with
  | nil => rfl
  | cons e r ih =>
      cases e with
      | item old =>
          simp only [Entry.strip, insertModel, Model.name_strip, ih]
          split <;> rfl
      | verbatim t =>
          simp only [Entry.strip, insertModel, ← ih]
          split <;> rfl

@[simp] theorem strip_addModel (ρ : Nat → Nat) (s : Subcircuit) (m : Model) :
    (s.addModel m).strip ρ = (s.strip ρ).addModel (m.strip ρ) := by
  simp only [addModel, strip, insertModel_strip]

@[simp] theorem strip_addCall (ρ : Nat → Nat) (s : Subcircuit) (c : Call) :
    (s.addCall c).strip ρ = (s.strip ρ).addCall (c.strip ρ) := by
  simp only [addCall, strip, Entry.strip_append, Entry.strip_item]

@[simp] theorem modelFamily?_strip (ρ : Nat → Nat) (s : Subcircuit) (reference : Text) :
    (s.strip ρ).modelFamily? reference = s.modelFamily? reference := by
  have hbase : (fun m : Model => sameName m.base reference) ∘ Model.strip ρ =
      fun m => sameName m.base reference := rfl
  have hfamily : Model.family ∘ Model.strip ρ = Model.family := rfl
  simp only [modelFamily?, strip, Entry.filterMap_item?_strip, List.find?_map, hbase,
    Option.map_map, hfamily]

theorem active_gap (lines : List Text) : active (gap lines) = [] := by
  simp only [gap]
  split
  · split <;> rfl
  · rfl

theorem renderCall_strip (ρ : Nat → Nat) (symbols : Symbols) (o : Options) (s : Subcircuit)
    (c : Call) :
    (renderCall symbols o (s.strip ρ) (.item (c.strip ρ))).strip id =
      (renderCall symbols o s (.item c)).strip ρ := by
  have hname : (c.strip ρ).name = c.name := rfl
  have href : (c.strip ρ).reference = c.reference := rfl
  simp only [renderCall, hname, href, modelFamily?_strip, Deck.strip, Call.active_render_strip]
  cases (Resolution.find symbols o c.name c.reference (s.modelFamily? c.reference)).warning <;> rfl

theorem renderModel_strip (ρ : Nat → Nat) (m : Model) :
    (renderModel (.item (m.strip ρ))).strip id = (renderModel (.item m)).strip ρ := by
  simp only [renderModel, Deck.strip, Model.active_render_strip]
  have hwarning : (m.strip ρ).warning?.toList.map (Warning.renumber id) =
      m.warning?.toList.map (Warning.renumber ρ) := by
    have htype : (m.strip ρ).type = m.type := rfl
    simp only [Model.warning?, htype]
    split <;> rfl
  rw [hwarning]

theorem active_openingLines_strip (ρ : Nat → Nat) (s : Subcircuit) :
    active (s.strip ρ).openingLines = active s.openingLines := by
  simp only [openingLines, strip, List.cons_append]
  refine active_cons_congr _ ?_
  rw [active_append, active_append, active_active]

theorem render_strip (ρ : Nat → Nat) (symbols : Symbols) (o : Options) (s : Subcircuit) :
    ((s.strip ρ).render symbols o).strip id = (s.render symbols o).strip ρ := by
  have hcalls : (Deck.concat ((s.strip ρ).calls.map (renderCall symbols o (s.strip ρ)))).strip id =
      (Deck.concat (s.calls.map (renderCall symbols o s))).strip ρ :=
    Entry.strip_concat_map (fun _ => rfl) (fun _ => rfl) (renderCall_strip ρ symbols o s) s.calls
  have hmodels : (Deck.concat ((s.strip ρ).models.map renderModel)).strip id =
      (Deck.concat (s.models.map renderModel)).strip ρ :=
    Entry.strip_concat_map (fun _ => rfl) (fun _ => rfl) (renderModel_strip ρ) s.models
  have hbody : active (s.strip ρ).body = active s.body := active_active s.body
  have hname : (s.strip ρ).name = s.name := rfl
  simp only [render, Deck.strip_append, hcalls, hmodels, Deck.strip_ofLines, active_append,
    active_openingLines_strip, active_gap, hbody, hname]

/-- Subcircuits that differ in inert lines and in line numbers alone, and that have
the same place for a line that is copied. -/
structure Alike (ρ : Nat → Nat) (a b : Subcircuit) : Prop where
  strip : a.strip id = b.strip ρ
  calls : a.calls.isEmpty = b.calls.isEmpty
  models : a.models.isEmpty = b.models.isEmpty

namespace Alike

variable {ρ : Nat → Nat} {a b : Subcircuit}

theorem name (h : Alike ρ a b) : a.name = b.name := by
  have hs := congrArg Subcircuit.name h.strip
  exact hs

theorem line (h : Alike ρ a b) : a.line = ρ b.line := by
  have hs := congrArg Subcircuit.line h.strip
  exact hs

theorem pins (h : Alike ρ a b) : a.pins = b.pins := by
  have hs := congrArg Subcircuit.pins h.strip
  exact hs

theorem addHeader (h : Alike ρ a b) {p q : List (List Text)} {xs ys : List Text} (hp : p = q)
    (hl : active xs = active ys) :
    Alike ρ { a with pins := p, header := a.header ++ xs }
      { b with pins := q, header := b.header ++ ys } := by
  refine ⟨?_, h.calls, h.models⟩
  have hs := h.strip
  simp only [Subcircuit.strip, Subcircuit.mk.injEq] at hs
  simp only [Subcircuit.strip, active_append, hs, hl, hp]

theorem addBody (h : Alike ρ a b) {xs ys : List Text} (hl : active xs = active ys) :
    Alike ρ { a with body := a.body ++ xs } { b with body := b.body ++ ys } := by
  refine ⟨?_, h.calls, h.models⟩
  have hs := h.strip
  simp only [Subcircuit.strip, Subcircuit.mk.injEq] at hs
  simp only [Subcircuit.strip, active_append, hs, hl]

theorem addCall (h : Alike ρ a b) {c e : Call} (hc : c.strip id = e.strip ρ) :
    Alike ρ (a.addCall c) (b.addCall e) := by
  refine ⟨?_, ?_, h.models⟩
  · rw [strip_addCall, strip_addCall, h.strip, hc]
  · exact (isEmpty_append_right rfl).trans (isEmpty_append_right rfl).symm

theorem addModel (h : Alike ρ a b) {m n : Model} (hm : m.strip id = n.strip ρ) :
    Alike ρ (a.addModel m) (b.addModel n) := by
  have hne : ∀ (m : Model) (es : List (Entry Model)), (insertModel m es).isEmpty = false := by
    intro m es
    cases es with
    | nil => rfl
    | cons e r =>
        cases e with
        | item old =>
            simp only [insertModel]
            split <;> rfl
        | verbatim t => rfl
  refine ⟨?_, h.calls, ?_⟩
  · rw [strip_addModel, strip_addModel, h.strip, hm]
  · exact (hne m a.models).trans (hne n b.models).symm

theorem addModels (h : Alike ρ a b) {ms ns : List Model}
    (hm : ms.map (Model.strip id) = ns.map (Model.strip ρ)) :
    Alike ρ (ms.foldl Subcircuit.addModel a) (ns.foldl Subcircuit.addModel b) := by
  induction ms generalizing a b ns with
  | nil =>
      cases ns with
      | nil => exact h
      | cons n ns => cases hm
  | cons m ms ih =>
      cases ns with
      | nil => cases hm
      | cons n ns =>
          obtain ⟨hm, hms⟩ := List.cons.inj hm
          exact ih (h.addModel hm) hms

theorem copyLines (h : Alike ρ a b) {xs ys : List Text} (hl : active xs = active ys) :
    Alike ρ (a.copyLines xs) (b.copyLines ys) := by
  have hs := h.strip
  simp only [Subcircuit.strip, Subcircuit.mk.injEq] at hs
  simp only [Subcircuit.copyLines, ← h.models, ← h.calls]
  split
  · next hm =>
      refine ⟨?_, h.calls, ?_⟩
      · simp only [Subcircuit.strip, Entry.strip_append, Entry.strip_map_verbatim, hs, hl]
      · have hma : a.models.isEmpty = false := by simpa using hm
        rw [isEmpty_append_left hma, isEmpty_append_left (h.models.symm.trans hma)]
  · split
    · next hc =>
        refine ⟨?_, ?_, h.models⟩
        · simp only [Subcircuit.strip, Entry.strip_append, Entry.strip_map_verbatim, hs, hl]
        · have hca : a.calls.isEmpty = false := by simpa using hc
          rw [isEmpty_append_left hca, isEmpty_append_left (h.calls.symm.trans hca)]
    · exact h.addBody hl

theorem render (h : Alike ρ a b) (symbols : Symbols) (o : Options) :
    (a.render symbols o).strip id = (b.render symbols o).strip ρ := by
  rw [← render_strip, h.strip, render_strip]

theorem close (h : Alike ρ a b) (symbols : Symbols) (o : Options) (name : Option Text) (n : Nat) :
    (a.close symbols o name (ρ n)).strip id = (b.close symbols o name n).strip ρ := by
  simp only [Subcircuit.close, Deck.strip_append, h.render, h.name]
  cases name with
  | none => rfl
  | some name => simp only [Deck.strip_warnIf, id_eq]

end Alike

end Subcircuit

end SpiceDeck
