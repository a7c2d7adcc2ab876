import SpiceDeck.Proofs.Param.Written

/-!
Cuts of a text and the words between separators. A cut at the end of a class does not look beyond
the place where it stops. Words are what is left between the characters of a class once the empty
parts go, so a separator cuts them in two lists and blanks around a text do not matter.
-/

namespace SpiceDeck
namespace Text

section Cuts
variable {p : Char → Bool} {t u r : Text} {c : Char}

theorem mem_dropWhile (h : c ∈ t) (hc : p c = false) : c ∈ t.dropWhile p := by
  rw [← List.takeWhile_append_dropWhile (p := p) (l := t)] at h
  obtain h | h := List.mem_append.mp h
  · rw [List.mem_takeWhile_imp h] at hc
    cases hc
  · exact h

/-- A cut that stops in a text stops there with more text behind it. -/
theorem dropWhile_append_cons (h : t.dropWhile p = c :: r) (u : Text) :
    (t ++ u).dropWhile p = t.dropWhile p ++ u := by
  rw [List.dropWhile_append, h]
  rfl

theorem dropWhile_append_of_mem (h : c ∈ t) (hc : p c = false) (u : Text) :
    (t ++ u).dropWhile p = t.dropWhile p ++ u := by
  obtain ⟨a, r, hr⟩ := List.exists_cons_of_ne_nil (List.ne_nil_of_mem (mem_dropWhile h hc))
  exact dropWhile_append_cons hr u

theorem takeWhile_append_of_mem (h : c ∈ t) (hc : p c = false) (u : Text) :
    (t ++ u).takeWhile p = t.takeWhile p := by
  have hall := List.takeWhile_append_dropWhile (p := p) (l := t ++ u)
  rw [dropWhile_append_of_mem h hc, ← List.append_assoc] at hall
  have hfirst : (t ++ u).takeWhile p ++ t.dropWhile p = t := List.append_cancel_right hall
  exact List.append_cancel_right (hfirst.trans List.takeWhile_append_dropWhile.symm)

/-- A cut stops at the latest where a text stops it that is put behind. -/
theorem takeWhile_append_stop (h : ∀ c ∈ u.head?, p c = false) (t : Text) :
    (t ++ u).takeWhile p = t.takeWhile p := by
  rw [List.takeWhile_append]
  split
  · next hall =>
      have hu : u.takeWhile p = [] := by
        cases u with
        | nil => rfl
        | cons c r => simp [h c rfl]
      rw [hu, List.append_nil]
      exact ((List.takeWhile_prefix p).eq_of_length hall).symm
  · rfl

theorem dropWhile_append_stop (h : ∀ c ∈ u.head?, p c = false) (t : Text) :
    (t ++ u).dropWhile p = t.dropWhile p ++ u := by
  have hall : t.takeWhile p ++ (t ++ u).dropWhile p = t.takeWhile p ++ (t.dropWhile p ++ u) := by
    rw [← List.append_assoc, List.takeWhile_append_dropWhile, ← takeWhile_append_stop h,
      List.takeWhile_append_dropWhile]
  exact List.append_cancel_left hall

theorem dropWhile_eq_nil_of_not_mem (h : c ∉ t) : t.dropWhile (· != c) = [] := by
  rw [List.dropWhile_eq_nil_iff]
  intro a ha
  rw [bne_iff_ne]
  rintro rfl
  exact h ha

theorem after?_append_some {lit t r : Text} (h : after? lit t = some r) (u : Text) :
    after? lit (t ++ u) = some (r ++ u) := by
  induction lit generalizing t with
  | nil =>
      cases h
      rfl
  | cons l ls ih =>
      cases t with
      | nil => cases h
      | cons c t =>
          simp only [List.cons_append, after?] at h ⊢
          split at h
          · next hc => rw [if_pos hc, ih h]
          · cases h

theorem trimStart_trimStart_append (t u : Text) :
    trimStart (trimStart t ++ u) = trimStart (t ++ u) := by
  have hidem : List.dropWhile isSpace (List.dropWhile isSpace t) = List.dropWhile isSpace t :=
    trimStart_trimStart t
  simp only [trimStart, List.dropWhile_append, hidem]

end Cuts

/-- The maximal runs of characters outside of the class. -/
def runs (p : Char → Bool) (t : Text) : List Text := (cut p t).filter (!·.isEmpty)

section Runs
variable {p : Char → Bool} {t w : Text} {c : Char}

theorem runs_append_sep (hc : p c = true) (a b : Text) :
    runs p (a ++ c :: b) = runs p a ++ runs p b := by
  rw [runs, cut_append_sep hc, List.filter_append]
  rfl

theorem runs_sep (hc : p c = true) (t : Text) : runs p (c :: t) = runs p t :=
  runs_append_sep hc [] t

theorem runs_word (hne : w ≠ []) (h : ∀ c ∈ w, p c = false) : runs p w = [w] := by
  rw [runs, cut_of_all_not h]
  simp [hne]

theorem runs_append_word (hne : w ≠ []) (h : ∀ c ∈ w, p c = false)
    (ht : ∀ c ∈ t.head?, p c = true) : runs p (w ++ t) = w :: runs p t := by
  cases t with
  | nil =>
      rw [List.append_nil, runs_word hne h]
      rfl
  | cons c r =>
      have hc : p c = true := ht c rfl
      rw [runs_append_sep hc, runs_word hne h, runs_sep hc]
      rfl

/-- Induction over a text that takes a separator or a whole word at a time. -/
theorem runs_induction (p : Char → Bool) {motive : Text → Prop} (nil : motive [])
    (sep : ∀ c r, p c = true → motive r → motive (c :: r))
    (word : ∀ w r, w ≠ [] → (∀ c ∈ w, p c = false) → (∀ c ∈ r.head?, p c = true) → motive r →
      motive (w ++ r)) (t : Text) : motive t := by
  induction hn : t.length using Nat.strong_induction_on generalizing t with
  | _ n ih =>
      cases t with
      | nil => exact nil
      | cons c r =>
          cases hc : p c with
          | true => exact sep c r hc (ih r.length (by simp [← hn]) r rfl)
          | false =>
              rw [← List.takeWhile_append_dropWhile (p := fun c => !p c) (l := c :: r)]
              refine word _ _ (by simp [hc]) ?_ ?_ (ih _ ?_ _ rfl)
              · intro a ha
                simpa using List.mem_takeWhile_imp ha
              · intro a ha
                have hstop := List.head?_dropWhile_not (fun c => !p c) (c :: r)
                rw [Option.mem_def.mp ha] at hstop
                simpa using hstop
              · rw [← hn, List.dropWhile_cons, hc]
                exact Nat.lt_succ_of_le (length_dropWhile_le _ r)

theorem infix_of_mem_runs (hw : w ∈ runs p t) : w <:+: t := by
  induction t using runs_induction p with
  | nil => cases hw
  | sep d r hd ih =>
      rw [runs_sep hd] at hw
      exact (ih hw).trans (List.suffix_cons d r).isInfix
  | word v r hne hv hr ih =>
      rw [runs_append_word hne hv hr] at hw
      obtain rfl | hw := List.mem_cons.mp hw
      · exact (List.prefix_append w r).isInfix
      · exact (ih hw).trans (List.suffix_append v r).isInfix

end Runs

/-- A word: no blank, and at least one character. -/
def IsInk (w : Text) : Prop := w ≠ [] ∧ ∀ c ∈ w, isSpace c = false

theorem isInk_iff (w : Text) : IsInk w ↔ (!w.isEmpty && w.all (!isSpace ·)) = true := by
  simp [IsInk]

theorem words_eq_runs (t : Text) : words t = runs isSpace t := rfl

theorem exists_mem_words {t : Text} {c : Char} (hc : c ∈ t) (hink : isSpace c = false) :
    ∃ w ∈ words t, c ∈ w := by
  induction t using runs_induction isSpace with
  | nil => cases hc
  | sep d r hd ih =>
      rw [words_eq_runs, runs_sep hd, ← words_eq_runs]
      obtain rfl | hc := List.mem_cons.mp hc
      · rw [hd] at hink
        cases hink
      · exact ih hc
  | word w r hne hw hr ih =>
      rw [words_eq_runs, runs_append_word hne hw hr, ← words_eq_runs]
      obtain hc | hc := List.mem_append.mp hc
      · exact ⟨w, List.mem_cons_self, hc⟩
      · obtain ⟨v, hv, hcv⟩ := ih hc
        exact ⟨v, List.mem_cons_of_mem w hv, hcv⟩

theorem ink_of_mem_words {t w : Text} (hw : w ∈ words t) : IsInk w := by
  obtain ⟨hcut, hne⟩ := List.mem_filter.mp hw
  exact ⟨by simpa using hne, not_of_mem_cut hcut⟩

theorem words_append_blank (a b : Text) : words (a ++ ' ' :: b) = words a ++ words b :=
  runs_append_sep rfl a b

theorem words_trimStart (t : Text) : words (trimStart t) = words t := by
  induction t with
  | nil => rfl
  | cons c r ih =>
      cases hc : isSpace c with
      | false => simp [trimStart, hc]
      | true =>
          rw [words_eq_runs (c :: r), runs_sep hc, ← words_eq_runs, ← ih]
          simp [trimStart, hc]

theorem words_trimEnd (t : Text) : words (trimEnd t) = words t := by
  obtain ⟨blanks, hblanks, heq⟩ := exists_trimEnd_append t
  have hnone : ∀ u : Text, (∀ c ∈ u, isSpace c = true) → words u = [] := by
    intro u hu
    induction u with
    | nil => rfl
    | cons c r ih =>
        obtain ⟨hc, hr⟩ := List.forall_mem_cons.mp hu
        exact (runs_sep hc r).trans (ih hr)
  conv_rhs => rw [heq]
  cases blanks with
  | nil => rw [List.append_nil]
  | cons c r =>
      obtain ⟨hc, hr⟩ := List.forall_mem_cons.mp hblanks
      rw [words_eq_runs (_ ++ c :: r), runs_append_sep hc, ← words_eq_runs, ← words_eq_runs,
        hnone r hr, List.append_nil]

theorem words_trim (t : Text) : words (trim t) = words t := by
  rw [trim, words_trimEnd, words_trimStart]

theorem words_spaced (ws : List Text) : words (spaced ws) = ws.flatMap words := by
  induction ws with
  | nil => rfl
  | cons w ws ih =>
      cases ws with
      | nil => rw [spaced_singleton, List.flatMap_singleton]
      | cons v ws =>
          rw [spaced_cons_cons, words_append_blank, ih]
          rfl

end Text
end SpiceDeck
