import SpiceDeck.Conversion
import SpiceDeck.Proofs.Inert.Scope

/-!
Runs of two decks that differ in comments and blank lines. The items of one deck are
those of the other with inert lines between and inside them; from sessions that are
alike both give the same output, up to inert lines and line numbers.
-/

namespace SpiceDeck
open Text

/-- The second items are the first without inert lines. -/
inductive Item.Thinned (ρ : Nat → Nat) : List Item → List Item → Prop where
  | nil : Thinned ρ [] []
  | skip {l : Line} {xs ys : List Item} (hl : isInert l.verbatim = true) (h : Thinned ρ xs ys) :
      Thinned ρ (.line l :: xs) ys
  | statement {s t : Statement} {xs ys : List Item} (hs : s.Alike ρ t) (h : Thinned ρ xs ys) :
      Thinned ρ (.statement s :: xs) (.statement t :: ys)

namespace Session

variable {ρ : Nat → Nat} {a b : Session} {s t : Statement}

/-- Sessions that differ in inert lines and in line numbers alone. -/
structure Alike (ρ : Nat → Nat) (a b : Session) : Prop where
  dialect : a.dialect = b.dialect
  scope : a.scope.Alike ρ b.scope
  statistics : a.statistics = b.statistics

theorem mute_alike (hab : Alike ρ a b) (h : s.Alike ρ t) :
    Alike ρ (a.mute s).1 (b.mute t).1 ∧ (a.mute s).2.strip id = (b.mute t).2.strip ρ := by
  have hlines : active (s.lines.map commented) = active (t.lines.map commented) := by
    refine h.lines.map (fun _ _ => rfl) ?_
    intro l hl
    simp only [commented, hl]
    rfl
  have htext : (s.codeLines.flatMap fun l => l.text) = t.codeLines.flatMap fun l => l.text := by
    have hcode : ∀ (ρ : Nat → Nat) {s : Statement}, s.Quiet →
        ((s.strip ρ).codeLines.flatMap fun l => l.text) = s.codeLines.flatMap fun l => l.text := by
      intro ρ s hs
      rw [Statement.codeLines_strip ρ hs, List.flatMap_map]
      rfl
    rw [← hcode id h.left, h.strip, hcode ρ h.right]
  have hcopy := hab.scope.copyAll hlines
  refine ⟨⟨hab.dialect, hcopy.scope, ?_⟩, hcopy.deck⟩
  simp only [mute, htext, hab.statistics]

theorem pushStatement_alike (cx : Context) (hab : Alike ρ a b) (h : s.Alike ρ t) :
    Alike ρ (a.pushStatement cx s).1 (b.pushStatement cx t).1 ∧
      (a.pushStatement cx s).2.strip id = (b.pushStatement cx t).2.strip ρ := by
  simp only [pushStatement, hab.statistics, hab.dialect, h.kind]
  split
  · exact mute_alike hab h
  · split
    · exact ⟨⟨rfl, hab.scope, rfl⟩, rfl⟩
    · exact mute_alike hab h
    · have hstep := hab.scope.step cx h (t.kind cx.symbols cx.options b.dialect)
      exact ⟨⟨rfl, hstep.scope, rfl⟩, hstep.deck⟩

/-- An inert line changes nothing but inert lines. -/
theorem push_line_alike (cx : Context) (hab : Alike ρ a b) {l : Line}
    (hl : isInert l.verbatim = true) :
    Alike ρ (a.push cx (.line l)).1 b ∧ (a.push cx (.line l)).2.strip id = {} := by
  have hlines : active [l.verbatim] = active [] := active_cons_inert hl []
  have hcopy := hab.scope.copyAll hlines
  rw [← Scope.copy_eq_copyAll] at hcopy
  exact ⟨⟨hab.dialect, hcopy.scope, hab.statistics⟩, hcopy.deck⟩

theorem run_alike (cx : Context) {xs ys : List Item} (hi : Item.Thinned ρ xs ys)
    (hab : Alike ρ a b) : (a.run cx xs).strip id = (b.run cx ys).strip ρ := by
  induction hi generalizing a b with
  | nil => exact hab.scope.finish cx
  | skip hl _ ih =>
      obtain ⟨hnext, hdeck⟩ := push_line_alike cx hab hl
      rw [run, Deck.strip_append, hdeck, ih hnext]
      rfl
  | statement hs _ ih =>
      obtain ⟨hnext, hdeck⟩ := pushStatement_alike cx hab hs
      simp only [run, push, Deck.strip_append, hdeck, ih hnext]

end Session

end SpiceDeck
