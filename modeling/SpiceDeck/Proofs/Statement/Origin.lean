import SpiceDeck.Proofs.Inert.Deletion
import SpiceDeck.Proofs.Remark.Rereading

/-!
The physical lines that statements come from. Every line of a statement is a line of the
text under its number, read as it stands there, and the first one is code.
-/

namespace SpiceDeck
open Text

namespace Line

/-- The line of the text with this number is neither a comment nor blank. -/
def IsCodeAt (t : Text) (n : Nat) : Prop :=
  1 ≤ n ∧ n ≤ (lines t).length ∧ ∃ raw, (lines t)[n - 1]? = some raw ∧ isSilent raw = false

theorem mem_readFrom {raws : List Text} {n : Nat} {joined : Bool} {l : Line}
    (h : l ∈ readFrom n joined raws) :
    ∃ k raw before, raws[k]? = some raw ∧ l = (read (n + k) before raw).1 := by
  induction raws generalizing n joined with
  | nil => cases h
  | cons raw r ih =>
      have hmem : l = (read n joined raw).1 ∨ l ∈ readFrom (n + 1) (read n joined raw).2 r :=
        List.mem_cons.mp h
      obtain rfl | hmem := hmem
      · exact ⟨0, raw, joined, rfl, rfl⟩
      · obtain ⟨k, x, before, hk, hl⟩ := ih hmem
        refine ⟨k + 1, x, before, hk, ?_⟩
        rw [hl, Nat.add_assoc, Nat.add_comm 1 k]

theorem number_read (n : Nat) (joined : Bool) (raw : Text) : (read n joined raw).1.number = n := by
  rw [read_number raw n n]

/-- Only lines that are neither comments nor blank are read as code. -/
theorem isSilent_of_isCode {raw : Text} {n : Nat} {joined : Bool} (hfeed : '\n' ∉ raw)
    (hcode : (read n joined raw).1.isCode = true) : isSilent raw = false := by
  cases hs : isSilent raw with
  | false => rfl
  | true =>
      rw [(read_silent hs hfeed _ _).1] at hcode
      cases hcode

theorem isCodeAt_number {t : Text} {l : Line} (h : l ∈ ofText t) (hc : l.isCode = true) :
    IsCodeAt t l.number := by
  obtain ⟨k, raw, before, hk, rfl⟩ := mem_readFrom h
  have hlength : k < (lines t).length := (List.getElem?_eq_some_iff.mp hk).1
  have hfeed : '\n' ∉ raw := feed_not_mem_lines (List.mem_of_getElem? hk)
  rw [number_read]
  refine ⟨by omega, by omega, raw, ?_, isSilent_of_isCode hfeed hc⟩
  rw [Nat.add_sub_cancel_left]
  exact hk

end Line

namespace Item

/-- Only code lines start statements. -/
theorem isCode_head_groupAfter {s : Statement} (hs : s.head.isCode = true)
    (pending ls : List Line) {x : Statement} (h : .statement x ∈ groupAfter s pending ls) :
    x.head.isCode = true := by
  have hline : ∀ {ls : List Line}, Item.statement x ∉ ls.map Item.line := by
    intro ls hx
    obtain ⟨l, -, hl⟩ := List.mem_map.mp hx
    cases hl
  induction ls generalizing s pending with
  | nil =>
      obtain h | h := List.mem_cons.mp h
      · cases h
        exact hs
      · exact absurd h hline
  | cons l r ih =>
      simp only [groupAfter] at h
      split at h
      · exact ih hs _ h
      · next hc =>
          split at h
          · exact ih (s := { s with tail := s.tail ++ pending ++ [l] }) hs _ h
          · obtain h | h := List.mem_append.mp h
            · obtain h | h := List.mem_cons.mp h
              · cases h
                exact hs
              · exact absurd h hline
            · refine ih (s := { head := l }) ?_ _ h
              simpa using hc

theorem isCode_head_group {ls : List Line} {x : Statement} (h : .statement x ∈ group ls) :
    x.head.isCode = true := by
  induction ls with
  | nil => cases h
  | cons l r ih =>
      simp only [group] at h
      split at h
      · next hc => exact isCode_head_groupAfter hc _ _ h
      · obtain h | h := List.mem_cons.mp h
        · cases h
        · exact ih h

theorem mem_lines_ofText {t : Text} {item : Item} (h : item ∈ ofText t) {l : Line}
    (hl : l ∈ item.lines) : l ∈ Line.ofText t := by
  have hmem : l ∈ (group (Line.ofText t)).flatMap lines := List.mem_flatMap.mpr ⟨item, h, hl⟩
  rwa [flatMap_lines_group] at hmem

end Item
end SpiceDeck
