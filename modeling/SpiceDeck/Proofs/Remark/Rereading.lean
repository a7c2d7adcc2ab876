import SpiceDeck.Proofs.Remark.Removal

/-!
Lines that are copied once more. Main statement: a line is copied as it is exactly if it is
settled: it has no blanks and no backslash at its end and no comment behind its code, and a
comment of its own starts at the margin with a star.
-/

namespace SpiceDeck
open Text

namespace Text

theorem join_feedParts (t : Text) : join ['\n'] (feedParts t) = t := by
  have hcons : ∀ (c : Char) {w : Text} {ws : List Text},
      join ['\n'] ((c :: w) :: ws) = c :: join ['\n'] (w :: ws) := by
    intro c w ws
    cases ws <;> simp [join]
  induction t with
  | nil => rfl
  | cons c r ih =>
      obtain ⟨w, ws, hw⟩ := List.exists_cons_of_ne_nil (cut_ne_nil (· == '\n') r)
      rw [feedParts, hw] at ih
      simp only [feedParts, cut, hw]
      split
      · next hc =>
          rw [← ih, eq_of_beq hc]
          simp [join]
      · rw [hcons, ih]

end Text

namespace Line

/-- A line as it is copied. -/
def copied (raw : Text) : Text := (read 0 false raw).1.verbatim

/-- A line with no blank or backslash at its end and no comment behind its code, or a comment
that starts at the margin with a star. -/
def isSettled (raw : Text) : Bool :=
  EndsInInk raw &&
    if isSilent raw then raw.isEmpty || raw.head? == some '*'
    else (splitComment? false raw).isNone && raw.getLast? != some '\\'

theorem verbatim_read (n : Nat) (joined : Bool) (raw : Text) :
    (read n joined raw).1.verbatim = copied raw := by
  simp only [copied, read]
  split <;> rfl

theorem map_verbatim_readFrom (n : Nat) (joined : Bool) (raws : List Text) :
    (readFrom n joined raws).map verbatim = raws.map copied := by
  induction raws generalizing n joined with
  | nil => rfl
  | cons raw r ih => simp only [readFrom, List.map_cons, verbatim_read, ih]

theorem copied_code {raw : Text} (h : isSilent raw = false) :
    copied raw = (dropBackslash (markComment (trimEnd raw))).1 := by
  rw [copied, read_code h]
  rfl

/-- The text that a comment or a blank line is copied as. -/
theorem copied_silent {raw : Text} (h : isSilent raw = true) :
    (trimStart (trimEnd raw) = [] ∧ copied raw = []) ∨
      (∃ r, trimStart (trimEnd raw) = '/' :: '/' :: r ∧ copied raw = '*' :: r) ∨
      (∃ r, trimStart (trimEnd raw) = '*' :: r ∧ copied raw = '*' :: r) := by
  rw [← isSilent_trimEnd] at h
  simp only [isSilent] at h
  simp only [copied, read]
  split
  · next hx => exact .inl ⟨hx, rfl⟩
  · next r hx => exact .inr (.inl ⟨r, hx, rfl⟩)
  · next r hx => exact .inr (.inr ⟨r, hx, rfl⟩)
  · next h1 h2 hx =>
      rw [hx] at h
      split at h <;> simp_all

theorem copied_eq_self_of_silent {raw : Text} (hs : isSilent raw = true) :
    copied raw = raw ↔ EndsInInk raw ∧ (raw = [] ∨ raw.head? = some '*') := by
  have hstar : isSpace '*' = false := by decide
  have hstart : raw.head? = some '*' → trimStart raw = raw := by
    intro hhead
    cases raw with
    | nil => cases hhead
    | cons c r =>
        cases hhead
        simp [trimStart, hstar]
  constructor
  · intro h
    obtain ⟨-, hc⟩ | ⟨r, hx, hc⟩ | ⟨r, hx, hc⟩ := copied_silent hs
    · rw [← h, hc]
      exact ⟨by rintro c ⟨⟩, .inl rfl⟩
    · rw [h] at hc
      have hraw := hstart (by rw [hc]; rfl)
      rw [trimStart_trimEnd, hraw, hc, trimEnd_cons hstar] at hx
      cases hx
    · rw [h] at hc
      have hraw := hstart (by rw [hc]; rfl)
      refine ⟨?_, .inr (by rw [hc]; rfl)⟩
      rw [trimStart_trimEnd, hraw, ← hc] at hx
      rw [← hx]
      exact endsInInk_trimEnd raw
  · rintro ⟨hink, rfl | hhead⟩
    · rfl
    · have hraw := hstart hhead
      have htrim : trimStart (trimEnd raw) = raw := by rw [hink.trimEnd, hraw]
      obtain ⟨hx, -⟩ | ⟨r, hx, -⟩ | ⟨r, hx, hc⟩ := copied_silent hs
      · rw [htrim] at hx
        rw [hx] at hhead
        cases hhead
      · rw [htrim] at hx
        rw [hx] at hhead
        cases hhead
      · rw [hc, ← hx, htrim]

theorem endsInInk_markComment (raw : Text) : EndsInInk (markComment (trimEnd raw)) := by
  cases hsplit : splitComment? false raw with
  | none =>
      obtain ⟨x, hx⟩ := trimEnd_begins raw
      have hnone : splitComment? false (trimEnd raw) = none := by
        refine splitComment?_begins (b := x) ?_
        rw [hx, hsplit]
      simp only [markComment, hnone]
      exact endsInInk_trimEnd raw
  | some p =>
      rw [markComment_some hsplit]
      split
      · exact endsInInk_trimEnd _
      · next hne => exact (endsInInk_blank_trim (by simpa using hne)).remark _

theorem endsInInk_dropBackslash {t : Text} (h : EndsInInk t) : EndsInInk (dropBackslash t).1 := by
  simp only [dropBackslash]
  split
  · exact endsInInk_trimEnd _
  · exact h

theorem length_dropBackslash_le (t : Text) : (dropBackslash t).1.length ≤ t.length := by
  simp only [dropBackslash]
  split
  · have hlast := (trimEnd_begins t.dropLast).length_le
    rw [List.length_dropLast] at hlast
    exact hlast.trans (Nat.sub_le _ _)
  · exact Nat.le_refl _

theorem dropBackslash_eq_self_iff {t : Text} :
    (dropBackslash t).1 = t ↔ t.getLast? ≠ some '\\' := by
  simp only [dropBackslash]
  split
  · next hlast =>
      refine ⟨fun h => ?_, fun h => absurd hlast h⟩
      have hshort : trimEnd t.dropLast = t := h
      have hne : t ≠ [] := by
        rintro rfl
        cases hlast
      have hlength := (trimEnd_begins t.dropLast).length_le
      have hpos := List.length_pos_iff.mpr hne
      rw [hshort, List.length_dropLast] at hlength
      omega
  · next hlast => exact ⟨fun _ => hlast, fun _ => rfl⟩

/-- The marker of a remark stays, also if a backslash behind it goes away. -/
theorem dropBackslash_remark_begins (code x : Text) :
    ∃ y, (dropBackslash (code ++ remark (' ' :: x))).1 = code ++ remark y := by
  simp only [dropBackslash]
  split
  · have hmark : isSpace '$' = false := by decide
    have hlast : (code ++ remark (' ' :: x)).dropLast =
        (code ++ [' ']) ++ '$' :: (' ' :: x).dropLast := by
      rw [List.dropLast_append_of_ne_nil (by simp [remark])]
      simp [remark]
    refine ⟨trimEnd (' ' :: x).dropLast, ?_⟩
    rw [hlast, trimEnd_append_cons hmark]
    simp [remark]
  · exact ⟨' ' :: x, rfl⟩

/-- A comment does not look like the remark that it becomes. -/
theorem append_remark_ne {left right x : Text} :
    trimEnd left ++ remark x ≠ left ++ '/' :: '/' :: right := by
  intro h
  obtain ⟨blanks, hblanks, hleft⟩ := exists_trimEnd_append left
  have hrest : ' ' :: '$' :: x = blanks ++ '/' :: '/' :: right := by
    have happend : trimEnd left ++ remark x = trimEnd left ++ (blanks ++ '/' :: '/' :: right) := by
      rw [← List.append_assoc, ← hleft]
      exact h
    exact List.append_cancel_left happend
  cases blanks with
  | nil => cases hrest
  | cons a blanks =>
      cases blanks with
      | nil => cases hrest
      | cons b blanks =>
          have hb := hblanks b (by simp)
          cases hrest
          cases hb

theorem copied_eq_self_of_code {raw : Text} (hs : isSilent raw = false) :
    copied raw = raw ↔
      EndsInInk raw ∧ splitComment? false raw = none ∧ raw.getLast? ≠ some '\\' := by
  rw [copied_code hs]
  constructor
  · intro h
    have hink : EndsInInk raw := by
      rw [← h]
      exact endsInInk_dropBackslash (endsInInk_markComment raw)
    cases hsplit : splitComment? false raw with
    | none =>
        refine ⟨hink, rfl, dropBackslash_eq_self_iff.mp ?_⟩
        rwa [hink.trimEnd, markComment, hsplit] at h
    | some p =>
        obtain ⟨left, right⟩ := p
        exfalso
        have hraw := (splitComment?_some hsplit).1
        rw [markComment_some hsplit] at h
        split at h
        · have hlength := (length_dropBackslash_le (trimEnd left)).trans
            (trimEnd_begins left).length_le
          rw [h, hraw, List.length_append, List.length_cons] at hlength
          omega
        · obtain ⟨y, hy⟩ := dropBackslash_remark_begins (trimEnd left) (trim right)
          exact append_remark_ne (hy.symm.trans (h.trans hraw))
  · rintro ⟨hink, hnone, hlast⟩
    rw [hink.trimEnd, markComment, hnone]
    exact dropBackslash_eq_self_iff.mpr hlast

theorem copied_eq_self_iff (raw : Text) : copied raw = raw ↔ isSettled raw = true := by
  cases hs : isSilent raw with
  | true =>
      rw [copied_eq_self_of_silent hs]
      simp [isSettled, hs]
  | false =>
      rw [copied_eq_self_of_code hs]
      simp [isSettled, hs]

theorem feed_not_mem_markComment {raw : Text} (h : '\n' ∉ raw) :
    '\n' ∉ markComment (trimEnd raw) := by
  have htrim : '\n' ∉ trimEnd raw := fun hmem => h ((trimEnd_begins raw).subset hmem)
  cases hsplit : splitComment? false (trimEnd raw) with
  | none =>
      simp only [markComment, hsplit]
      exact htrim
  | some p =>
      obtain ⟨left, right⟩ := p
      rw [(splitComment?_some hsplit).1] at htrim
      have hleft : '\n' ∉ trimEnd left := fun hmem =>
        htrim (List.mem_append_left _ ((trimEnd_begins left).subset hmem))
      have hright : '\n' ∉ trim right := by
        intro hmem
        have hr := (List.dropWhile_suffix isSpace).subset ((trimEnd_begins _).subset hmem)
        exact htrim (List.mem_append_right _ (List.mem_cons_of_mem _ (List.mem_cons_of_mem _ hr)))
      simp only [markComment, hsplit]
      split
      · exact hleft
      · simp [hleft, hright]

theorem feed_not_mem_copied {raw : Text} (h : '\n' ∉ raw) : '\n' ∉ copied raw := by
  have hstart : '\n' ∉ trimStart (trimEnd raw) := fun hmem =>
    h ((trimEnd_begins raw).subset ((List.dropWhile_suffix isSpace).subset hmem))
  cases hs : isSilent raw with
  | true =>
      obtain ⟨-, hc⟩ | ⟨r, hx, hc⟩ | ⟨r, hx, hc⟩ := copied_silent hs
      · rw [hc]
        exact List.not_mem_nil
      · rw [hx] at hstart
        rw [hc]
        simp_all
      · rw [hc, ← hx]
        exact hstart
  | false =>
      have hmark := feed_not_mem_markComment h
      rw [copied_code hs]
      simp only [dropBackslash]
      split
      · exact fun hmem => hmark (List.mem_of_mem_dropLast ((trimEnd_begins _).subset hmem))
      · exact hmark

end Line

namespace Item

/-- The lines of a deck come back from its items. -/
theorem flatMap_lines_groupAfter (s : Statement) (pending ls : List Line) :
    (groupAfter s pending ls).flatMap lines = s.lines ++ pending ++ ls := by
  have hpending : ∀ ls : List Line, (ls.map Item.line).flatMap lines = ls := by
    intro ls
    rw [List.flatMap_map]
    exact List.flatMap_singleton' ls
  induction ls generalizing s pending with
  | nil => simp [groupAfter, lines, hpending]
  | cons l r ih =>
      simp only [groupAfter]
      split
      · rw [ih]
        simp
      · split
        · rw [ih]
          simp [Statement.lines]
        · rw [List.cons_append, List.flatMap_cons, List.flatMap_append, hpending, ih]
          simp [lines, Statement.lines]

theorem flatMap_lines_group (ls : List Line) : (group ls).flatMap lines = ls := by
  induction ls with
  | nil => rfl
  | cons l r ih =>
      simp only [group]
      split
      · rw [flatMap_lines_groupAfter]
        rfl
      · rw [List.flatMap_cons, ih]
        rfl

end Item

namespace Deck

/-- The text of a deck is empty or has a line feed behind it. -/
theorem content_cases (ls : List Text) :
    content ls = [] ∨ ∃ v, v ≠ [] ∧ content ls = v ++ ['\n'] := by
  simp only [content]
  split
  · next h => exact .inl (List.isEmpty_iff.mp h)
  · next h => exact .inr ⟨_, by simpa using h, rfl⟩

theorem content_eq_iff {ls : List Text} (hne : ls ≠ []) (hfeed : ∀ l ∈ ls, '\n' ∉ l) {v : Text}
    (hv : v ≠ []) : content ls = v ++ ['\n'] ↔ ls = feedParts v := by
  constructor
  · intro h
    simp only [content] at h
    split at h
    · next hempty =>
        rw [List.isEmpty_iff.mp hempty] at h
        simp at h
    · rw [← List.append_cancel_right h, feedParts_join hne hfeed]
  · intro h
    have hempty : v.isEmpty = false := by simpa using hv
    simp only [content, h, join_feedParts, hempty, Bool.false_eq_true, if_false]

end Deck

end SpiceDeck
