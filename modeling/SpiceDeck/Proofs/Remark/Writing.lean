import SpiceDeck.Proofs.Inert.Strip
import SpiceDeck.Proofs.Remark.Reading
import Mathlib.Data.List.Forall2

/-!
Lines, calls and models that differ in their remarks alone. What such lines, calls and
models are written as differs in remarks alone, too.
-/

namespace SpiceDeck
open Text

theorem rel_isEmpty {α : Type} {R : α → α → Prop} {xs ys : List α} (h : List.Forall₂ R xs ys) :
    xs.isEmpty = ys.isEmpty := by
  cases h <;> rfl

/-- What is asked of the last of related lines, which may not be there. -/
theorem rel_getLast? {α β : Type} {R : α → α → Prop} {f : Option α → β}
    (hf : ∀ {a b}, R a b → f (some a) = f (some b)) {xs ys : List α} (h : List.Forall₂ R xs ys) :
    f xs.getLast? = f ys.getLast? := by
  induction h with
  | nil => rfl
  | cons h hrest ih =>
      cases hrest with
      | nil => exact hf h
      | cons _ _ =>
          rw [List.getLast?_cons_cons, List.getLast?_cons_cons]
          exact ih

namespace Text

/-- The text up to the first `$` that stands at the front or after a blank. -/
def beforeRemark (fresh : Bool) : Text → Text
  | [] => []
  | c :: r => if fresh && c == '$' then [] else c :: beforeRemark (isSpace c) r

def withoutRemark (t : Text) : Text := trimEnd (beforeRemark true t)

/-- Lines that differ in their remarks alone. -/
structure Alongside (a b : Text) : Prop where
  code : withoutRemark a = withoutRemark b
  blank : isBlank a = isBlank b

theorem Alongside.refl (a : Text) : Alongside a a := ⟨rfl, rfl⟩

theorem alongside_refl (xs : List Text) : List.Forall₂ Alongside xs xs :=
  List.forall₂_same.mpr fun x _ => .refl x

theorem trimEnd_append_blank (a : Text) {s : Text} (hs : ∀ c ∈ s, isSpace c = true) :
    trimEnd (a ++ s) = trimEnd a := by
  have hdrop : s.reverse.dropWhile isSpace = [] :=
    List.dropWhile_eq_nil_iff.mpr fun c hc => hs c (List.mem_reverse.mp hc)
  simp [trimEnd, List.dropWhile_append, hdrop]

/-- Text behind the code that leaves nothing but blanks before its remark. -/
theorem withoutRemark_append (p : Text) {q : Text}
    (hq : ∀ fresh, ∀ c ∈ beforeRemark fresh q, isSpace c = true) :
    withoutRemark (p ++ q) = withoutRemark p := by
  have hsplit : ∀ fresh, ∃ s, (∀ c ∈ s, isSpace c = true) ∧
      beforeRemark fresh (p ++ q) = beforeRemark fresh p ++ s := by
    intro fresh
    induction p generalizing fresh with
    | nil => exact ⟨beforeRemark fresh q, hq fresh, rfl⟩
    | cons c r ih =>
        obtain ⟨s, hs, heq⟩ := ih (isSpace c)
        by_cases hc : (fresh && c == '$') = true
        · exact ⟨[], nofun, by simp [beforeRemark, hc]⟩
        · exact ⟨s, hs, by simp [beforeRemark, hc, heq]⟩
  obtain ⟨s, hs, heq⟩ := hsplit true
  rw [withoutRemark, heq, trimEnd_append_blank _ hs, withoutRemark]

theorem withoutRemark_append_remark (p x : Text) :
    withoutRemark (p ++ remark x) = withoutRemark p := by
  refine withoutRemark_append p ?_
  intro fresh c hc
  cases fresh <;> exact List.mem_singleton.mp hc ▸ rfl

theorem withoutRemark_append_blank (p : Text) : withoutRemark (p ++ [' ']) = withoutRemark p := by
  refine withoutRemark_append p ?_
  intro fresh c hc
  cases fresh <;> exact List.mem_singleton.mp hc ▸ rfl

theorem isBlank_append {a : Text} (h : isBlank a = false) (b : Text) :
    isBlank (a ++ b) = false := by
  rw [isBlank, List.all_append, show a.all isSpace = false from h, Bool.false_and]

theorem alongside_remark {p : Text} (hp : isBlank p = false) (x : Text) :
    Alongside (p ++ remark x) p :=
  ⟨withoutRemark_append_remark p x, (isBlank_append hp _).trans hp.symm⟩

/-- A text set off by a blank, unless it is empty. -/
def setOff (t : Text) : Text := if t.isEmpty then [] else ' ' :: t

theorem withoutRemark_append_setOff (p t : Text) :
    withoutRemark (p ++ ' ' :: t) = withoutRemark (p ++ setOff t) := by
  cases t with
  | nil =>
      rw [withoutRemark_append_blank, setOff]
      simp
  | cons c r => rfl

theorem spaced_cons_cons (a b : Text) (r : List Text) :
    spaced (a :: b :: r) = a ++ ' ' :: spaced (b :: r) := by
  simp [spaced, join]

theorem spaced_append {xs ys : List Text} (hx : xs ≠ []) (hy : ys ≠ []) :
    spaced (xs ++ ys) = spaced xs ++ ' ' :: spaced ys := by
  induction xs with
  | nil => exact absurd rfl hx
  | cons a r ih =>
      cases r with
      | nil =>
          obtain ⟨b, s, rfl⟩ := List.exists_cons_of_ne_nil hy
          rw [List.singleton_append, spaced_cons_cons]
          simp [spaced, join]
      | cons b r =>
          have htail := ih (List.cons_ne_nil b r)
          rw [List.cons_append, List.cons_append, spaced_cons_cons, ← List.cons_append, htail,
            spaced_cons_cons]
          simp

end Text

namespace Piece

theorem spaced_remarks {cs : List Piece} (hne : cs ≠ []) (h : ∀ p ∈ cs, p.isRemark = true) :
    ∃ x, spaced (cs.map render) = '$' :: x := by
  cases cs with
  | nil => exact absurd rfl hne
  | cons p r =>
      have hp := h p List.mem_cons_self
      cases p with
      | assign _ _ | fragment _ => cases hp
      | comment text =>
          cases text with
          | nil => cases hp
          | cons c text =>
              have hc : c = '$' := by
                by_contra hne
                simp [isRemark, startsWith, after?, Ne.symm hne] at hp
              subst hc
              cases r with
              | nil => exact ⟨text, by simp [spaced, join, render]⟩
              | cons q r => exact ⟨_, by rw [List.map_cons, List.map_cons, spaced_cons_cons]; rfl⟩

theorem withoutRemark_values {vs cs : List Piece} (h : ∀ p ∈ cs, p.isRemark = true) (p : Text) :
    withoutRemark (p ++ setOff (spaced ((vs ++ cs).map render))) =
      withoutRemark (p ++ setOff (spaced (vs.map render))) := by
  cases cs with
  | nil => rw [List.append_nil]
  | cons c cs =>
      obtain ⟨x, hx⟩ := spaced_remarks (List.cons_ne_nil c cs) h
      rw [← withoutRemark_append_setOff, ← withoutRemark_append_setOff, List.map_append]
      cases vs with
      | nil =>
          rw [List.map_nil, List.nil_append, hx]
          exact (withoutRemark_append_remark p x).trans (withoutRemark_append_blank p).symm
      | cons v vs =>
          rw [spaced_append (by simp) (by simp), hx]
          have hassoc : p ++ ' ' :: (spaced ((v :: vs).map render) ++ ' ' :: '$' :: x) =
              (p ++ ' ' :: spaced ((v :: vs).map render)) ++ remark x := by
            simp [remark]
          rw [hassoc, withoutRemark_append_remark]

/-- The remarks behind the pieces are all that shows behind the same text. -/
theorem Alongside.setOff {ps qs : List Piece} (h : Alongside ps qs) {p : Text}
    (hp : isBlank p = false) :
    Text.Alongside (p ++ Text.setOff (spaced (ps.map render)))
      (p ++ Text.setOff (spaced (qs.map render))) := by
  obtain ⟨vs, cs, ds, rfl, rfl, -, hc, hd⟩ := h
  refine ⟨?_, (isBlank_append hp _).trans (isBlank_append hp _).symm⟩
  rw [withoutRemark_values hc, withoutRemark_values hd]

theorem closeFirst_remarks (carry : Carry) {cs : List Piece} (h : ∀ p ∈ cs, p.isRemark = true)
    (r : List Piece) : closeFirst carry (cs ++ r) = cs ++ closeFirst carry r := by
  induction cs with
  | nil => rfl
  | cons p cs ih =>
      have hp := h p List.mem_cons_self
      cases p with
      | assign _ _ | fragment _ => cases hp
      | comment text =>
          simp only [List.cons_append, closeFirst, ih fun q hq => h q (List.mem_cons_of_mem _ hq)]

/-- Closing a value gives a value, or the remark that stands for an assignment without one. -/
theorem close_value {p : Piece} (hp : p.isComment = false) (carry : Carry) :
    (p.close carry).isComment = false ∨ (p.close carry).isRemark = true := by
  cases p with
  | assign name value =>
      simp only [close]
      split
      · exact .inr rfl
      · exact .inl rfl
  | fragment value => exact .inl rfl
  | comment text => cases hp

theorem Alongside.close {ps qs : List Piece} (h : Alongside ps qs) (carry : Carry) :
    Alongside (closeFirst carry ps.reverse).reverse (closeFirst carry qs.reverse).reverse := by
  obtain ⟨vs, cs, ds, rfl, rfl, hv, hc, hd⟩ := h
  have hrev : ∀ {cs : List Piece}, (∀ p ∈ cs, p.isRemark = true) →
      ∀ p ∈ cs.reverse, p.isRemark = true :=
    fun hc p hp => hc p (List.mem_reverse.mp hp)
  rw [List.reverse_append, List.reverse_append, closeFirst_remarks carry (hrev hc),
    closeFirst_remarks carry (hrev hd), List.reverse_append, List.reverse_append,
    List.reverse_reverse, List.reverse_reverse]
  obtain rfl | ⟨ws, p, rfl⟩ := List.eq_nil_or_concat' vs
  · exact .ofRemarks hc hd
  · have hws : ∀ q ∈ ws, q.isComment = false := fun q hq => hv q (List.mem_append_left _ hq)
    have hp : p.isComment = false := hv p (by simp)
    have hfirst : (closeFirst carry (ws ++ [p]).reverse).reverse = ws ++ [p.close carry] := by
      rw [List.reverse_append, List.reverse_singleton, List.singleton_append]
      cases p with
      | comment text => cases hp
      | assign _ _ | fragment _ => simp [closeFirst]
    rw [hfirst]
    obtain hvalue | hremark := close_value hp carry
    · refine ⟨ws ++ [p.close carry], cs, ds, rfl, rfl, ?_, hc, hd⟩
      exact List.forall_mem_append.mpr ⟨hws, List.forall_mem_singleton.mpr hvalue⟩
    · refine ⟨ws, p.close carry :: cs, p.close carry :: ds, by simp, by simp, hws, ?_, ?_⟩
      · exact List.forall_mem_cons.mpr ⟨hremark, hc⟩
      · exact List.forall_mem_cons.mpr ⟨hremark, hd⟩

theorem not_assigns_of_isRemark {p : Piece} (hp : p.isRemark = true) (name : Text) :
    p.assigns name = false := by
  cases p with
  | assign _ _ | fragment _ => cases hp
  | comment text => rfl

theorem Alongside.erase {ps qs : List Piece} (h : Alongside ps qs) (name : Text) :
    Alongside (ps.eraseP (·.assigns name)) (qs.eraseP (·.assigns name)) := by
  obtain ⟨vs, cs, ds, rfl, rfl, hv, hc, hd⟩ := h
  have hnone : ∀ {cs : List Piece}, (∀ p ∈ cs, p.isRemark = true) →
      cs.eraseP (·.assigns name) = cs := by
    intro cs hc
    exact List.eraseP_of_forall_not fun p hp => by simp [not_assigns_of_isRemark (hc p hp)]
  rw [List.eraseP_append, List.eraseP_append, hnone hc, hnone hd]
  split
  · exact ⟨_, cs, ds, rfl, rfl, fun p hp => hv p (List.mem_of_mem_eraseP hp), hc, hd⟩
  · exact ⟨vs, cs, ds, rfl, rfl, hv, hc, hd⟩

end Piece

namespace ParamLine
variable {l m : ParamLine}

namespace Alongside

theorem isOpen (h : l.Alongside m) : l.isOpen = m.isOpen := congrArg Carry.isOpen h.carry

theorem close (h : l.Alongside m) : l.close.Alongside m.close := by
  by_cases hopen : m.isOpen = true
  · rw [ParamLine.close, ParamLine.close, if_pos (h.isOpen.trans hopen), if_pos hopen, h.carry]
    exact ⟨h.marker, h.pieces.close m.carry, rfl⟩
  · rw [ParamLine.close, ParamLine.close, if_neg (h.isOpen ▸ hopen), if_neg hopen]
    exact h

theorem onLine? (h : l.Alongside m) : Polarity.onLine? l = Polarity.onLine? m := by
  obtain ⟨vs, cs, ds, hl, hm, -, hc, hd⟩ := h.pieces
  have hnone : ∀ {cs : List Piece}, (∀ p ∈ cs, p.isRemark = true) →
      Polarity.onLine? { pieces := cs } = none := by
    intro cs hc
    refine List.findSome?_eq_none_iff.mpr fun p hp => ?_
    cases p with
    | assign _ _ | fragment _ => cases hc _ hp
    | comment text => rfl
  have hsplit : ∀ (l : ParamLine) (cs : List Piece), l.pieces = vs ++ cs →
      (∀ p ∈ cs, p.isRemark = true) → Polarity.onLine? l = Polarity.onLine? { pieces := vs } := by
    intro l cs hl hc
    have hcs := hnone hc
    rw [Polarity.onLine?, hl, List.findSome?_append]
    rw [Polarity.onLine?] at hcs
    rw [hcs, Option.or_none]
    rfl
  rw [hsplit l cs hl hc, hsplit m ds hm hd]

theorem remainder (h : l.Alongside m) : (Model.remainder l).Alongside (Model.remainder m) := by
  simp only [Model.remainder, h.onLine?]
  split
  · exact ⟨h.marker, h.pieces.erase _, h.carry⟩
  · exact h

theorem render (h : l.Alongside m) (hm : m.marker ≠ .none) : Text.Alongside l.render m.render := by
  have hrender : ∀ {l : ParamLine}, l.marker ≠ .none →
      l.render = l.marker.render ++ setOff (spaced (l.pieces.map Piece.render)) := by
    intro l hl
    simp only [ParamLine.render, setOff]
    cases hmarker : l.marker with
    | none => exact absurd hmarker hl
    | param | plus => split <;> simp
  have hblank : isBlank m.marker.render = false := by
    cases hmarker : m.marker with
    | none => exact absurd hmarker hm
    | param | plus => rfl
  rw [hrender hm, hrender (l := l) (h.marker ▸ hm), h.marker]
  exact h.pieces.setOff hblank

end Alongside

@[simp] theorem marker_close (l : ParamLine) : l.close.marker = l.marker := by
  simp only [close]
  split <;> rfl

@[simp] theorem marker_remainder (l : ParamLine) : (Model.remainder l).marker = l.marker := by
  simp only [Model.remainder]
  split <;> rfl

theorem isEmpty_close (l : ParamLine) : l.close.isEmpty = l.isEmpty := by
  have hlength : ∀ (carry : Carry) (ps : List Piece),
      (Piece.closeFirst carry ps).isEmpty = ps.isEmpty := by
    intro carry ps
    cases ps with
    | nil => rfl
    | cons p r => cases p <;> rfl
  simp only [close]
  split
  · simp [isEmpty, hlength]
  · rfl

/-- Lines with a word in front that differ in their remarks alone. -/
structure Marked (l m : ParamLine) : Prop extends l.Alongside m where
  marked : m.marker ≠ .none

/-- Lines of a model that differ in their remarks alone: both are left out, or none. -/
structure Kept (l m : ParamLine) : Prop extends l.Marked m where
  isEmpty : l.isEmpty = m.isEmpty

theorem Marked.close (h : l.Marked m) : l.close.Marked m.close :=
  ⟨h.toAlongside.close, by rw [marker_close]; exact h.marked⟩

theorem Kept.close (h : l.Kept m) : l.close.Kept m.close :=
  ⟨h.toMarked.close, by rw [isEmpty_close, isEmpty_close, h.isEmpty]⟩

end ParamLine

namespace Continuation

/-- Continuations whose parameter lines are related and whose other lines differ in their
remarks alone. -/
inductive Rel (R : ParamLine → ParamLine → Prop) : Continuation → Continuation → Prop where
  | params {l m : ParamLine} (h : R l m) : Rel R (.params l) (.params m)
  | verbatim {a b : Text} (h : a.Alongside b) : Rel R (.verbatim a) (.verbatim b)

variable {R S : ParamLine → ParamLine → Prop} {xs ys : List Continuation}

theorem rel_params? (h : List.Forall₂ (Rel R) xs ys) :
    List.Forall₂ R (xs.filterMap params?) (ys.filterMap params?) := by
  induction h with
  | nil => exact .nil
  | cons h _ ih =>
      cases h with
      | params h => exact .cons h ih
      | verbatim h => exact ih

theorem rel_modifyFirst {f : ParamLine → ParamLine} (hf : ∀ {l m}, R l m → R (f l) (f m))
    (h : List.Forall₂ (Rel R) xs ys) :
    List.Forall₂ (Rel R) (modifyFirst f xs) (modifyFirst f ys) := by
  induction h with
  | nil => exact .nil
  | cons h hrest ih =>
      cases h with
      | params h => exact .cons (.params (hf h)) hrest
      | verbatim h => exact .cons (.verbatim h) ih

theorem rel_close (hf : ∀ {l m}, R l m → R l.close m.close) (h : List.Forall₂ (Rel R) xs ys) :
    List.Forall₂ (Rel R) (close xs) (close ys) := by
  have hrev : List.Forall₂ (Rel R) xs.reverse ys.reverse := List.forall₂_reverse_iff.mpr h
  exact List.forall₂_reverse_iff.mpr (rel_modifyFirst hf hrev)

theorem carried_eq_elim (xs : List Continuation) :
    carried xs = (xs.filterMap params?).getLast?.elim Carry.closed ParamLine.carry := by
  rw [carried]
  cases (xs.filterMap params?).getLast? with
  | none => rfl
  | some line => rfl

theorem rel_carried (hR : ∀ {l m}, R l m → l.Alongside m) (h : List.Forall₂ (Rel R) xs ys) :
    carried xs = carried ys := by
  rw [carried_eq_elim, carried_eq_elim]
  exact rel_getLast? (f := fun last => last.elim Carry.closed ParamLine.carry)
    (fun h => (hR h).carry) (rel_params? h)

theorem rel_render (h : List.Forall₂ (Rel ParamLine.Marked) xs ys) :
    List.Forall₂ Text.Alongside (xs.map render) (ys.map render) := by
  induction h with
  | nil => exact .nil
  | cons h _ ih =>
      refine .cons ?_ ih
      cases h with
      | params h => exact h.render h.marked
      | verbatim h => exact h

end Continuation

theorem isBlank_spaced_cons {a : Text} (h : isBlank a = false) (r : List Text) :
    isBlank (spaced (a :: r)) = false := by
  cases r with
  | nil =>
      have hone : spaced [a] = a := by simp [spaced, join]
      rw [hone, h]
  | cons b s =>
      rw [spaced_cons_cons]
      exact isBlank_append h _

theorem isBlank_withLetter {name : Text} (h : isBlank name = false) (letter : Char) :
    isBlank (withLetter letter name) = false := by
  simp only [withLetter]
  split
  · exact h
  · rw [isBlank, List.all_cons, show name.all isSpace = false from h, Bool.and_false]

namespace Call

/-- The head of a call without its parameters. -/
def front (c : Call) (r : Resolution) : List Text :=
  withLetter r.letter c.name :: c.pins ++ if r.dropReference then [] else [c.reference]

theorem head_eq (c : Call) (hc : c.params.marker = .none) (r : Resolution) :
    c.head r = spaced (c.front r) ++ setOff (spaced (c.params.pieces.map Piece.render)) := by
  have hrender : c.params.render = spaced (c.params.pieces.map Piece.render) := by
    rw [ParamLine.render, hc]
  have hhead : c.head r = spaced (c.front r ++
      if (spaced (c.params.pieces.map Piece.render)).isEmpty then []
      else [spaced (c.params.pieces.map Piece.render)]) := by
    rw [head, hrender]
    rfl
  rw [hhead]
  cases spaced (c.params.pieces.map Piece.render) with
  | nil => simp [setOff]
  | cons d t =>
      have hone : spaced [d :: t] = d :: t := by simp [spaced, join]
      have hfront : c.front r ≠ [] := List.cons_ne_nil _ _
      simp only [List.isEmpty_cons, Bool.false_eq_true, if_false, setOff,
        spaced_append hfront (List.cons_ne_nil (d :: t) []), hone]

/-- Calls that differ in their remarks alone. -/
structure Alongside (a b : Call) : Prop where
  name : a.name = b.name
  pins : a.pins = b.pins
  reference : a.reference = b.reference
  line : a.line = b.line
  params : a.params.Alongside b.params
  unmarked : b.params.marker = .none
  tail : List.Forall₂ (Continuation.Rel ParamLine.Marked) a.tail b.tail
  named : isBlank b.name = false

namespace Alongside
variable {a b : Call}

theorem isOpen (h : a.Alongside b) : a.isOpen = b.isOpen := by
  have htail := (Continuation.rel_params? h.tail).imp fun _ _ h => h.toAlongside
  exact rel_getLast? (f := fun last => last.any ParamLine.isOpen) (fun h => h.isOpen)
    (List.Forall₂.cons h.params htail)

theorem close (h : a.Alongside b) : a.close.Alongside b.close := by
  have hempty := rel_isEmpty (Continuation.rel_params? h.tail)
  simp only [Call.close, hempty]
  split
  · exact { h with params := h.params.close, unmarked := by simp [h.unmarked] }
  · exact { h with tail := Continuation.rel_close (fun h => h.close) h.tail }

theorem head (h : a.Alongside b) (r : Resolution) : Text.Alongside (a.head r) (b.head r) := by
  have hfront : a.front r = b.front r := by simp only [front, h.name, h.pins, h.reference]
  rw [head_eq a (h.params.marker.trans h.unmarked), head_eq b h.unmarked, hfront]
  exact h.params.pieces.setOff (isBlank_spaced_cons (isBlank_withLetter h.named r.letter) _)

theorem render (h : a.Alongside b) (r : Resolution) :
    List.Forall₂ Text.Alongside (a.render r) (b.render r) :=
  .cons (h.head r) (Continuation.rel_render h.tail)

end Alongside

end Call

namespace Model

/-- The first line of a model without its parameters. -/
def front (m : Model) : Text := ".model ".toList ++ m.name ++ ' ' :: m.type.emitted

theorem isBlank_front (m : Model) : isBlank m.front = false := by
  have hmodel : isBlank ".model ".toList = false := by decide
  exact isBlank_append (isBlank_append hmodel _) _

theorem headLine_alongside {m : Model} {l : ParamLine} (hm : m.params = some l)
    (hl : l.marker = .none) :
    Text.Alongside m.headLine (m.front ++ setOff (spaced (l.pieces.map Piece.render))) := by
  have hrender : l.render = spaced (l.pieces.map Piece.render) := by rw [ParamLine.render, hl]
  have hhead : m.headLine = if l.isEmpty then m.front else m.front ++ ' ' :: l.render := by
    rw [headLine, hm]
    rfl
  rw [hhead, hrender]
  cases hp : l.pieces with
  | nil =>
      have hempty : l.isEmpty = true := by rw [ParamLine.isEmpty, hp]; rfl
      rw [if_pos hempty]
      simp [spaced, join, setOff, Text.Alongside.refl]
  | cons p r =>
      have hempty : l.isEmpty = false := by rw [ParamLine.isEmpty, hp]; rfl
      rw [hempty]
      refine ⟨withoutRemark_append_setOff _ _, ?_⟩
      exact (isBlank_append m.isBlank_front _).trans (isBlank_append m.isBlank_front _).symm

/-- Models that differ in their remarks alone. -/
structure Alongside (a b : Model) : Prop where
  base : a.base = b.base
  bin : a.bin = b.bin
  type : a.type = b.type
  line : a.line = b.line
  params : Option.Rel ParamLine.Alongside a.params b.params
  unmarked : ∀ l ∈ b.params, l.marker = .none
  tail : List.Forall₂ (Continuation.Rel ParamLine.Kept) a.tail b.tail

namespace Alongside
variable {a b : Model} {l m : ParamLine}

theorem name (h : a.Alongside b) : a.name = b.name := by simp only [Model.name, h.bin, h.base]

theorem absorb (h : a.Alongside b) (hl : l.Alongside m) : (a.absorb l).Alongside (b.absorb m) := by
  simp only [Model.absorb, hl.onLine?]
  split
  · next p _ => exact { h with type := congrArg (ModelType.resolve p) h.type }
  · exact h

theorem withParams (h : a.Alongside b) (hl : l.Alongside m) (hm : m.marker = .none) :
    (a.withParams l).Alongside (b.withParams m) := by
  have habsorb := h.absorb hl
  exact { habsorb with
    params := .some hl.remainder
    unmarked := by
      intro n hn
      cases hn
      rw [ParamLine.marker_remainder, hm] }

theorem addParams (h : a.Alongside b) (hl : l.Alongside m) (hm : m.marker ≠ .none)
    (hempty : (remainder l).isEmpty = (remainder m).isEmpty) :
    (a.addParams l).Alongside (b.addParams m) := by
  have habsorb := h.absorb hl
  have hkept : (remainder l).Kept (remainder m) :=
    ⟨⟨hl.remainder, by rwa [ParamLine.marker_remainder]⟩, hempty⟩
  exact { habsorb with tail := List.rel_append h.tail (.cons (.params hkept) .nil) }

theorem addTexts (h : a.Alongside b) {xs ys : List Text} (ht : List.Forall₂ Text.Alongside xs ys) :
    (a.addTexts xs).Alongside (b.addTexts ys) := by
  have hlines : List.Forall₂ (Continuation.Rel ParamLine.Kept) (xs.map .verbatim)
      (ys.map .verbatim) :=
    List.forall₂_map_left_iff.mpr (List.forall₂_map_right_iff.mpr (ht.imp fun _ _ h => .verbatim h))
  exact { h with tail := List.rel_append h.tail hlines }

theorem params_cases (h : a.Alongside b) :
    (a.params = none ∧ b.params = none) ∨
      ∃ l m, a.params = some l ∧ b.params = some m ∧ l.Alongside m ∧ m.marker = .none := by
  have hparams := h.params
  cases ha : a.params with
  | none =>
      cases hb : b.params with
      | none => exact .inl ⟨rfl, rfl⟩
      | some m => rw [ha, hb] at hparams; cases hparams
  | some l =>
      cases hb : b.params with
      | none => rw [ha, hb] at hparams; cases hparams
      | some m =>
          rw [ha, hb] at hparams
          cases hparams with
          | some hl => exact .inr ⟨l, m, rfl, rfl, hl, h.unmarked m hb⟩

theorem isOpen (h : a.Alongside b) : a.isOpen = b.isOpen := by
  have htail := (Continuation.rel_params? h.tail).imp fun _ _ h => h.toAlongside
  have hlines : List.Forall₂ ParamLine.Alongside a.paramLines b.paramLines := by
    simp only [paramLines]
    refine List.rel_append ?_ htail
    obtain ⟨ha, hb⟩ | ⟨l, m, ha, hb, hl, -⟩ := h.params_cases
    · rw [ha, hb]
      exact .nil
    · rw [ha, hb]
      exact .cons hl .nil
  exact rel_getLast? (f := fun last => last.any ParamLine.isOpen) (fun h => h.isOpen)
    hlines

theorem close (h : a.Alongside b) : a.close.Alongside b.close := by
  have hempty := rel_isEmpty (Continuation.rel_params? h.tail)
  simp only [Model.close, hempty]
  split
  · obtain ⟨ha, hb⟩ | ⟨l, m, ha, hb, hl, hm⟩ := h.params_cases
    · rw [ha, hb]
      exact { h with params := .none, unmarked := by rintro n ⟨⟩ }
    · rw [ha, hb]
      refine { h with params := .some hl.close, unmarked := ?_ }
      intro n hn
      cases hn
      rw [ParamLine.marker_close, hm]
  · exact { h with tail := Continuation.rel_close (fun h => h.close) h.tail }

theorem headLine (h : a.Alongside b) : Text.Alongside a.headLine b.headLine := by
  obtain ⟨ha, hb⟩ | ⟨l, m, ha, hb, hl, hm⟩ := h.params_cases
  · simp only [Model.headLine, ha, hb, h.name, h.type]
    exact .refl _
  · have htext := hl.pieces.setOff b.isBlank_front
    have hname := h.name
    have hfront : a.front = b.front := by
      unfold Model.front
      rw [hname, h.type]
    have hleft := headLine_alongside ha (hl.marker.trans hm)
    have hright := headLine_alongside hb hm
    rw [hfront] at hleft
    exact ⟨hleft.code.trans (htext.code.trans hright.code.symm),
      hleft.blank.trans (htext.blank.trans hright.blank.symm)⟩

theorem tailLines {xs ys : List Continuation}
    (h : List.Forall₂ (Continuation.Rel ParamLine.Kept) xs ys) :
    List.Forall₂ Text.Alongside (Model.tailLines xs) (Model.tailLines ys) := by
  induction h with
  | nil => exact .nil
  | cons h _ ih =>
      cases h with
      | verbatim h => exact .cons h ih
      | @params l m h =>
          have htext := h.render h.marked
          simp only [Model.tailLines, List.filterMap_cons, h.isEmpty]
          cases m.isEmpty with
          | true => exact ih
          | false => exact .cons htext ih

theorem render (h : a.Alongside b) : List.Forall₂ Text.Alongside a.render b.render :=
  .cons h.headLine (tailLines h.tail)

theorem warning? (h : a.Alongside b) : a.warning? = b.warning? := by
  simp only [Model.warning?, h.type, h.name, h.line]

end Alongside

end Model

end SpiceDeck
