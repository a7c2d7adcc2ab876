import SpiceDeck.Proofs.Statement.Origin
import SpiceDeck.Proofs.Text.Words

/-!
The code of a physical line. A line is copied with a remark in place of a comment and
without a backslash at its end; the code before either of them stays, and so does what it
starts with.
-/

namespace SpiceDeck
open Text

namespace Text

theorem trimStart_ne_nil {t : Text} (h : EndsInInk t) (hne : t ≠ []) : trimStart t ≠ [] := by
  intro hnil
  have hblank : ∀ c ∈ t, isSpace c = true := List.dropWhile_eq_nil_iff.mp hnil
  have hlast := List.getLast?_eq_getLast_of_ne_nil hne
  have hink := h _ hlast
  rw [hblank _ (List.getLast_mem hne)] at hink
  cases hink

/-- The code of a line may end before this: nothing follows but blanks, or else a comment
or a backslash comes first. -/
def EndsCode (w : Text) : Prop := ∀ c ∈ (trimStart w).head?, c = '/' ∨ c = '\\'

theorem EndsCode.append {w u : Text} (hw : EndsCode w) (hu : EndsCode u) : EndsCode (w ++ u) := by
  intro c hc
  rw [trimStart, List.dropWhile_append] at hc
  split at hc
  · exact hu c hc
  · next hne =>
      apply hw c
      obtain ⟨d, r, hdr⟩ := List.exists_cons_of_ne_nil (mt List.isEmpty_iff.mpr hne)
      rw [hdr] at hc
      rw [trimStart, hdr]
      exact hc

theorem endsCode_blanks {w : Text} (h : ∀ c ∈ w, isSpace c = true) : EndsCode w := by
  intro c hc
  rw [trimStart, List.dropWhile_eq_nil_iff.mpr h] at hc
  cases hc

theorem endsCode_cons {c : Char} (hc : c = '/' ∨ c = '\\') (r : Text) : EndsCode (c :: r) := by
  intro d hd
  obtain rfl | rfl := hc
  all_goals
    cases hd
    simp

theorem EndsCode.of_cons {w r : Text} {c : Char} (h : EndsCode w) (hw : trimStart w = c :: r) :
    c = '/' ∨ c = '\\' := by
  apply h c
  rw [hw]
  rfl

/-- The character at which code ends is a blank, or starts a comment or a backslash. -/
theorem EndsCode.head? {w : Text} (h : EndsCode w) :
    ∀ c ∈ w.head?, isSpace c = true ∨ c = '/' ∨ c = '\\' := by
  intro c hc
  cases w with
  | nil => cases hc
  | cons d r =>
      cases hc
      cases hspace : isSpace c with
      | true => exact .inl rfl
      | false =>
          right
          apply h c
          simp [trimStart, hspace]

end Text

namespace Line

theorem exists_dropBackslash_append (t : Text) :
    ∃ w, t = (dropBackslash t).1 ++ w ∧ EndsCode w := by
  simp only [dropBackslash]
  split
  · next hlast =>
      obtain ⟨u, rfl⟩ := List.getLast?_eq_some_iff.mp hlast
      obtain ⟨blanks, hblanks, hu⟩ := exists_trimEnd_append u
      refine ⟨blanks ++ ['\\'], ?_, (endsCode_blanks hblanks).append (endsCode_cons (.inr rfl) [])⟩
      rw [List.dropLast_concat, ← List.append_assoc, ← hu]
  · exact ⟨[], (List.append_nil t).symm, endsCode_blanks (List.forall_mem_nil _)⟩

/-- The code that a line begins with in either form. -/
theorem exists_code (raw : Text) :
    ∃ code z w, (dropBackslash (markComment (trimEnd raw))).1 = code ++ z ∧
      trimEnd raw = code ++ w ∧ EndsInInk code ∧ (z = [] ∨ ∃ x, z = remark x) ∧ EndsCode w := by
  cases hsplit : splitComment? false (trimEnd raw) with
  | none =>
      obtain ⟨w, hw, hend⟩ := exists_dropBackslash_append (trimEnd raw)
      refine ⟨_, [], w, ?_, hw, endsInInk_dropBackslash (endsInInk_trimEnd raw), .inl rfl, hend⟩
      rw [markComment, hsplit, List.append_nil]
  | some parts =>
      obtain ⟨left, right⟩ := parts
      have hraw := (splitComment?_some hsplit).1
      have hmark := markComment_some hsplit
      rw [(endsInInk_trimEnd raw).trimEnd] at hmark
      obtain ⟨blanks, hblanks, hleft⟩ := exists_trimEnd_append left
      have hcomment : EndsCode (blanks ++ '/' :: '/' :: right) :=
        (endsCode_blanks hblanks).append (endsCode_cons (.inl rfl) _)
      have hrest : trimEnd raw = trimEnd left ++ (blanks ++ '/' :: '/' :: right) := by
        rw [hraw, ← List.append_assoc, ← hleft]
      rw [hmark]
      split
      · obtain ⟨w, hw, hend⟩ := exists_dropBackslash_append (trimEnd left)
        refine ⟨_, [], w ++ (blanks ++ '/' :: '/' :: right), (List.append_nil _).symm, ?_,
          endsInInk_dropBackslash (endsInInk_trimEnd left), .inl rfl, hend.append hcomment⟩
        rw [hrest, ← List.append_assoc (dropBackslash _).1, ← hw]
      · obtain ⟨x, hx⟩ := dropBackslash_remark_begins (trimEnd left) (trim right)
        exact ⟨_, _, _, hx, hrest, endsInInk_trimEnd left, .inr ⟨x, rfl⟩, hcomment⟩

/-- Code is copied as code unless nothing is left of it, and a plus sign stays in front. -/
theorem copied_starts {raw : Text} (hs : isSilent raw = false) (hne : copied raw ≠ []) :
    isSilent (copied raw) = false ∧
      ((trimStart (copied raw)).head? == some '+') = ((trimStart raw).head? == some '+') := by
  obtain ⟨code, z, w, hcopied, hraw, hink, hz, hw⟩ := exists_code raw
  rw [← copied_code hs] at hcopied
  rw [← isSilent_trimEnd, hraw] at hs
  have hhead : (trimStart raw).head? = (trimStart (code ++ w)).head? := by
    rw [← hraw, trimStart_trimEnd]
    cases h : trimStart raw with
    | nil => rfl
    | cons c r => rw [trimEnd_cons (not_of_dropWhile_eq_cons h)]; rfl
  rw [hcopied] at hne ⊢
  rw [hhead]
  by_cases hcode : code = []
  · subst hcode
    obtain rfl | ⟨x, rfl⟩ := hz
    · exact absurd rfl hne
    · refine ⟨rfl, ?_⟩
      have hplus : (trimStart w).head? ≠ some '+' := by
        intro h
        exact absurd (hw _ h) (by decide)
      rw [List.nil_append, List.nil_append, beq_false_of_ne hplus]
      rfl
  · obtain ⟨a, r, hstart⟩ := List.exists_cons_of_ne_nil (trimStart_ne_nil hink hcode)
    have happend : ∀ u, trimStart (code ++ u) = a :: (r ++ u) := by
      intro u
      rw [trimStart, dropWhile_append_cons hstart, ← trimStart, hstart]
      rfl
    rw [happend, happend]
    refine ⟨?_, rfl⟩
    simp only [isSilent, happend] at hs ⊢
    split
    · next h => cases h
    · next h =>
        cases h
        simp at hs
    · next u h =>
        cases r with
        | nil =>
            obtain rfl | ⟨x, rfl⟩ := hz
            · cases h
            · cases h
        | cons b r =>
            cases h
            simp at hs
    · rfl

end Line

end SpiceDeck
