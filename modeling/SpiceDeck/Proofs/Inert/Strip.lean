import SpiceDeck.Deck.Rename
import SpiceDeck.Proofs.Scope.Equations

/-!
Comments and blank lines taken out of everything a conversion keeps. `strip` drops
the inert lines of a value and renames its line numbers; the lemmas say that it
commutes with the operations on calls, models, blocks and headers, so that none of
them depends on an inert line.
-/

namespace SpiceDeck
open Text

/-- A blank line or a comment, on one line. -/
def isInert (t : Text) : Bool := Deck.isPassive t && !t.contains '\n'

/-- The lines that are no comments and not blank. -/
def active (lines : List Text) : List Text := lines.filter (!isInert ·)

@[simp] theorem active_append (a b : List Text) : active (a ++ b) = active a ++ active b :=
  List.filter_append a b

theorem active_cons_inert {t : Text} (h : isInert t = true) (ts : List Text) :
    active (t :: ts) = active ts := by
  simp [active, h]

@[simp] theorem active_active (ts : List Text) : active (active ts) = active ts := by
  simp [active]

theorem active_cons_congr {a b : List Text} (t : Text) (h : active a = active b) :
    active (t :: a) = active (t :: b) := by
  simp only [active, List.filter_cons] at h ⊢
  rw [h]

namespace Continuation

def isActive : Continuation → Bool
  | .params _ => true
  | .verbatim t => !isInert t

def strip (lines : List Continuation) : List Continuation := lines.filter isActive

@[simp] theorem strip_nil : strip [] = [] := rfl

@[simp] theorem strip_append (a b : List Continuation) : strip (a ++ b) = strip a ++ strip b :=
  List.filter_append a b

@[simp] theorem strip_params (l : ParamLine) (r : List Continuation) :
    strip (.params l :: r) = .params l :: strip r := rfl

theorem strip_verbatim {t : Text} (h : isInert t = true) (r : List Continuation) :
    strip (.verbatim t :: r) = strip r := by
  simp [strip, isActive, h]

theorem strip_verbatim_active {t : Text} (h : isInert t = false) (r : List Continuation) :
    strip (.verbatim t :: r) = .verbatim t :: strip r := by
  simp [strip, isActive, h]

theorem strip_map_verbatim (lines : List Text) :
    strip (lines.map .verbatim) = (active lines).map .verbatim :=
  List.filter_map

@[simp] theorem filterMap_params?_strip (lines : List Continuation) :
    (strip lines).filterMap params? = lines.filterMap params? := by
  induction lines with
  | nil => rfl
  | cons l r ih =>
      cases l with
      | params line => exact congrArg (line :: ·) ih
      | verbatim t =>
          cases h : isInert t with
          | true => rw [strip_verbatim h, ih]; rfl
          | false => rw [strip_verbatim_active h]; exact ih

@[simp] theorem carried_strip (lines : List Continuation) :
    carried (strip lines) = carried lines := by
  simp [carried]

theorem strip_modifyFirst (f : ParamLine → ParamLine) (lines : List Continuation) :
    strip (modifyFirst f lines) = modifyFirst f (strip lines) := by
  induction lines with
  | nil => rfl
  | cons l r ih =>
      cases l with
      | params line => rfl
      | verbatim t =>
          cases h : isInert t with
          | true => rw [modifyFirst, strip_verbatim h, strip_verbatim h, ih]
          | false =>
              rw [modifyFirst, strip_verbatim_active h, strip_verbatim_active h, ih]
              rfl

@[simp] theorem strip_close (lines : List Continuation) :
    strip (close lines) = close (strip lines) := by
  have hrev : ∀ l : List Continuation, strip l.reverse = (strip l).reverse :=
    fun l => List.filter_reverse
  simp only [close, modifyLast, hrev, strip_modifyFirst]

theorem active_map_render_strip (lines : List Continuation) :
    active ((strip lines).map render) = active (lines.map render) := by
  induction lines with
  | nil => rfl
  | cons l r ih =>
      cases l with
      | params line => exact active_cons_congr line.render ih
      | verbatim t =>
          cases h : isInert t with
          | true =>
              rw [strip_verbatim h, List.map_cons, ih]
              exact (active_cons_inert h _).symm
          | false =>
              rw [strip_verbatim_active h]
              exact active_cons_congr t ih

theorem active_close_congr {a b : List Continuation} (h : strip a = strip b) :
    active ((close a).map render) = active ((close b).map render) := by
  rw [← active_map_render_strip, strip_close, h, ← strip_close, active_map_render_strip]

theorem carried_congr {a b : List Continuation} (h : strip a = strip b) :
    carried a = carried b := by
  rw [← carried_strip, h, carried_strip]

end Continuation

namespace Call

def strip (ρ : Nat → Nat) (c : Call) : Call :=
  { c with tail := Continuation.strip c.tail, line := ρ c.line }

@[simp] theorem isOpen_strip (ρ : Nat → Nat) (c : Call) : (c.strip ρ).isOpen = c.isOpen := by
  simp [isOpen, paramLines, strip]

@[simp] theorem strip_close (ρ : Nat → Nat) (c : Call) : c.close.strip ρ = (c.strip ρ).close := by
  simp only [close, strip, Continuation.filterMap_params?_strip]
  split
  · rfl
  · simp

theorem active_render_strip (ρ : Nat → Nat) (c : Call) (r : Resolution) :
    active ((c.strip ρ).render r) = active (c.render r) :=
  active_cons_congr (c.head r) (Continuation.active_map_render_strip c.tail)

end Call

namespace Model

def strip (ρ : Nat → Nat) (m : Model) : Model :=
  { m with tail := Continuation.strip m.tail, line := ρ m.line }

@[simp] theorem strip_new (ρ : Nat → Nat) (base keyword : Text) (line : Nat) :
    (new base keyword line).strip ρ = new base keyword (ρ line) := rfl

@[simp] theorem name_strip (ρ : Nat → Nat) (m : Model) : (m.strip ρ).name = m.name := rfl

@[simp] theorem strip_absorb (ρ : Nat → Nat) (m : Model) (l : ParamLine) :
    (m.absorb l).strip ρ = (m.strip ρ).absorb l := by
  simp only [absorb]
  split <;> rfl

@[simp] theorem strip_withParams (ρ : Nat → Nat) (m : Model) (l : ParamLine) :
    (m.withParams l).strip ρ = (m.strip ρ).withParams l := by
  simp only [withParams, ← strip_absorb]
  rfl

@[simp] theorem strip_addParams (ρ : Nat → Nat) (m : Model) (l : ParamLine) :
    (m.addParams l).strip ρ = (m.strip ρ).addParams l := by
  simp only [addParams, ← strip_absorb]
  simp [strip]

theorem strip_addText {t : Text} (h : isInert t = true) (ρ : Nat → Nat) (m : Model) :
    (m.addText t).strip ρ = m.strip ρ := by
  simp [addText, strip, Continuation.strip_verbatim h]

theorem strip_addTexts (ρ : Nat → Nat) (m : Model) (lines : List Text) :
    (m.addTexts lines).strip ρ = (m.strip ρ).addTexts (active lines) := by
  simp only [addTexts, strip, Continuation.strip_append, Continuation.strip_map_verbatim]

@[simp] theorem isOpen_strip (ρ : Nat → Nat) (m : Model) : (m.strip ρ).isOpen = m.isOpen := by
  simp [isOpen, paramLines, strip]

@[simp] theorem strip_close (ρ : Nat → Nat) (m : Model) : m.close.strip ρ = (m.strip ρ).close := by
  simp only [close, strip, Continuation.filterMap_params?_strip]
  split
  · rfl
  · simp

def headLine (m : Model) : Text :=
  let head := ".model ".toList ++ m.name ++ ' ' :: m.type.emitted
  match m.params with
  | some l => if l.isEmpty then head else head ++ ' ' :: l.render
  | none => head

def tailLines (tail : List Continuation) : List Text :=
  tail.filterMap fun
    | .params l => if l.isEmpty then none else some l.render
    | .verbatim t => some t

theorem render_eq (m : Model) : m.render = m.headLine :: tailLines m.tail := rfl

theorem active_tailLines_strip (tail : List Continuation) :
    active (tailLines (Continuation.strip tail)) = active (tailLines tail) := by
  induction tail with
  | nil => rfl
  | cons l r ih =>
      cases l with
      | params line =>
          have hl : ∀ r, tailLines (.params line :: r) =
              if line.isEmpty then tailLines r else line.render :: tailLines r := by
            intro r
            simp only [tailLines, List.filterMap_cons]
            cases line.isEmpty <;> rfl
          rw [Continuation.strip_params, hl, hl]
          split
          · exact ih
          · exact active_cons_congr _ ih
      | verbatim t =>
          cases h : isInert t with
          | true =>
              rw [Continuation.strip_verbatim h, ih]
              exact (active_cons_inert h _).symm
          | false =>
              rw [Continuation.strip_verbatim_active h]
              exact active_cons_congr t ih

theorem active_render_strip (ρ : Nat → Nat) (m : Model) :
    active (m.strip ρ).render = active m.render := by
  rw [render_eq, render_eq]
  exact active_cons_congr m.headLine (active_tailLines_strip m.tail)

end Model

namespace Model.Block

def strip (ρ : Nat → Nat) (b : Model.Block) : Model.Block :=
  { b with
    common := b.common.strip ρ
    bins := b.bins.map fun (i, m) => (i, m.strip ρ) }

@[simp] theorem strip_new (ρ : Nat → Nat) (base keyword : Text) (line : Nat) :
    (new base keyword line).strip ρ = new base keyword (ρ line) := rfl

@[simp] theorem name_strip (ρ : Nat → Nat) (b : Model.Block) : (b.strip ρ).name = b.name := rfl

@[simp] theorem carry_strip (ρ : Nat → Nat) (b : Model.Block) : (b.strip ρ).carry = b.carry := rfl

theorem insertBin_map (f : Model → Model) (index : Nat) (m : Model) (bins : List (Nat × Model)) :
    (insertBin index m bins).map (fun (i, m) => (i, f m)) =
      insertBin index (f m) (bins.map fun (i, m) => (i, f m)) := by
  induction bins with
  | nil => rfl
  | cons p r ih =>
      simp only [insertBin, List.map_cons]
      split
      · rfl
      · rw [List.map_cons, ih]

@[simp] theorem strip_openBin (ρ : Nat → Nat) (b : Model.Block) (index : Nat) (l : ParamLine)
    (line : Nat) : (b.openBin index l line).strip ρ = (b.strip ρ).openBin index l (ρ line) := by
  simp only [openBin, strip, insertBin_map, Model.strip_withParams]
  rfl

theorem lookup_map (f : Model → Model) (index : Nat) (bins : List (Nat × Model)) :
    (bins.map fun (i, m) => (i, f m)).lookup index = (bins.lookup index).map f := by
  induction bins with
  | nil => rfl
  | cons p r ih =>
      obtain ⟨i, m⟩ := p
      simp only [List.map_cons, List.lookup_cons, ih]
      cases index == i <;> rfl

@[simp] theorem currentModel_strip (ρ : Nat → Nat) (b : Model.Block) :
    (b.strip ρ).currentModel = b.currentModel.strip ρ := by
  simp only [currentModel, strip]
  cases b.current with
  | none => rfl
  | some index =>
      simp only [Option.bind_some, lookup_map]
      cases b.bins.lookup index <;> rfl

theorem strip_modifyCurrent {ρ : Nat → Nat} {f g : Model → Model}
    (h : ∀ m, (f m).strip ρ = g (m.strip ρ)) (b : Model.Block) :
    (b.modifyCurrent f).strip ρ = (b.strip ρ).modifyCurrent g := by
  simp only [modifyCurrent]
  cases hc : b.current with
  | none => simp [strip, hc, h]
  | some index =>
      simp only [strip, hc, List.map_map, Model.Block.mk.injEq, true_and, and_true]
      refine List.map_congr_left ?_
      rintro ⟨i, m⟩ -
      simp only [Function.comp]
      split <;> simp [h]

theorem strip_addText {t : Text} (h : isInert t = true) (ρ : Nat → Nat) (b : Model.Block) :
    (b.modifyCurrent (·.addText t)).strip ρ = b.strip ρ := by
  rw [strip_modifyCurrent (g := fun m => m) (Model.strip_addText h ρ), modifyCurrent_id]

@[simp] theorem isOpen_strip (ρ : Nat → Nat) (b : Model.Block) : (b.strip ρ).isOpen = b.isOpen := by
  simp [isOpen]

@[simp] theorem strip_closeValue (ρ : Nat → Nat) (b : Model.Block) :
    b.closeValue.strip ρ = (b.strip ρ).closeValue := by
  rw [closeValue, closeValue, carry_strip, ← strip_modifyCurrent (Model.strip_close ρ) b]
  split <;> rfl

@[simp] theorem shared_strip (ρ : Nat → Nat) (b : Model.Block) :
    (b.strip ρ).shared = Continuation.strip b.shared := by
  simp only [shared, strip, Model.strip, Continuation.strip_append]
  congr 1
  split
  · split <;> rfl
  · rfl

@[simp] theorem strip_complete (ρ : Nat → Nat) (b : Model.Block) (m : Model) :
    (b.complete m).strip ρ = (b.strip ρ).complete (m.strip ρ) := by
  simp only [complete, shared_strip]
  simp [Model.strip, strip]

@[simp] theorem models_strip (ρ : Nat → Nat) (b : Model.Block) :
    (b.strip ρ).models = b.models.map (Model.strip ρ) := by
  have hempty : (b.strip ρ).bins.isEmpty = b.bins.isEmpty := by simp [strip]
  simp only [models, hempty]
  split
  · rfl
  · rw [List.map_map, strip, List.map_map]
    refine List.map_congr_left ?_
    rintro ⟨i, m⟩ -
    exact (strip_complete ρ b m).symm

end Model.Block

end SpiceDeck
