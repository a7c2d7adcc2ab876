import SpiceDeck.Text.Replace
import Mathlib.Data.List.TakeWhile
import Mathlib.Tactic.Common

/-!
Replacement word by word. The occurrences of a word pattern start with a word and end
outside of words, so a text is replaced in steps: a character between words, a word that
starts no occurrence, an occurrence as a whole. Main statements: two patterns that leave each
other's occurrences alone commute, and neither makes an occurrence of the other.
-/

namespace SpiceDeck
namespace Text

theorem inRanges_some {n : Nat} {ranges : List (Nat × Nat)} (h : inRanges n ranges = true) :
    ∃ p ∈ ranges, p.1 ≤ n ∧ n ≤ p.2 := by
  induction ranges with
  | nil => cases h
  | cons p r ih =>
      simp only [inRanges] at h
      split at h
      · cases h
      · simp only [Bool.or_eq_true, decide_eq_true_eq] at h
        obtain h | h := h
        · exact ⟨p, List.mem_cons_self, by omega, h⟩
        · obtain ⟨q, hq, hbounds⟩ := ih h
          exact ⟨q, List.mem_cons_of_mem p hq, hbounds⟩

theorem not_isWord_of_isSpace {c : Char} (h : isSpace c = true) : isWord c = false := by
  rw [Bool.eq_false_iff]
  intro hword
  obtain ⟨p, hp, hlo, hhi⟩ := inRanges_some hword
  obtain ⟨q, hq, hlo', hhi'⟩ := inRanges_some h
  have hdisjoint : ∀ q ∈ spaceRanges, ∀ p ∈ wordRanges, p.2 < q.1 ∨ q.2 < p.1 := by
    decide +kernel
  have := hdisjoint q hq p hp
  omega

theorem not_isSpace_of_isWord {c : Char} (h : isWord c = true) : isSpace c = false := by
  rw [Bool.eq_false_iff]
  intro hspace
  rw [not_isWord_of_isSpace hspace] at h
  cases h

/-- The characters of a word. -/
def IsRun (w : Text) : Prop := ∀ c ∈ w, isWord c = true

section Words
variable {t r w x : Text} {c : Char}

theorem atWordEnd_cons : atWordEnd (c :: r) = !isWord c := by simp [atWordEnd]

theorem takeWhile_run (hw : IsRun w) (hr : atWordEnd r = true) :
    (w ++ r).takeWhile isWord = w := by
  rw [List.takeWhile_append_of_pos hw]
  cases r with
  | nil => simp
  | cons c r =>
      rw [atWordEnd_cons, Bool.not_eq_true'] at hr
      simp [hr]

theorem dropWhile_run (hw : IsRun w) (hr : atWordEnd r = true) :
    (w ++ r).dropWhile isWord = r := by
  rw [List.dropWhile_append_of_pos hw]
  cases r with
  | nil => rfl
  | cons c r =>
      rw [atWordEnd_cons, Bool.not_eq_true'] at hr
      simp [hr]

/-- A text that starts with a word character starts with a word. -/
theorem exists_run (h : isWord c = true) :
    ∃ w r', c :: r = w ++ r' ∧ w ≠ [] ∧ IsRun w ∧ atWordEnd r' = true := by
  refine ⟨(c :: r).takeWhile isWord, (c :: r).dropWhile isWord,
    List.takeWhile_append_dropWhile.symm, by simp [h], fun x hx => List.mem_takeWhile_imp hx, ?_⟩
  cases hd : (c :: r).dropWhile isWord with
  | nil => rfl
  | cons a s => rw [atWordEnd_cons, not_of_dropWhile_eq_cons hd, Bool.not_false]

theorem trimStart_blanks (h : ∀ c ∈ w, isSpace c = true) (r : Text) :
    trimStart (w ++ r) = trimStart r :=
  List.dropWhile_append_of_pos h

theorem trimStart_cons_of_not_isSpace (h : isSpace c = false) (r : Text) :
    trimStart (c :: r) = c :: r := by
  simp [trimStart, h]

/-- The first character behind the first word and the blanks that follow it. -/
def follower (t : Text) : Option Char := (trimStart (t.dropWhile isWord)).head?

theorem follower_run (hw : IsRun w) (hr : atWordEnd r = true) :
    follower (w ++ r) = (trimStart r).head? := by
  rw [follower, dropWhile_run hw hr]

end Words

theorem replaceFrom_of_not_occurs {site : Pattern} {inWord : Bool} {t : Text}
    (h : occurs site inWord t = false) : replaceFrom site inWord 0 t = t := by
  induction t generalizing inWord with
  | nil => rfl
  | cons c r ih =>
      simp only [occurs, Bool.or_eq_false_iff] at h
      have hsite : (if inWord then none else site (c :: r)) = none := by
        cases inWord with
        | true => rfl
        | false => simpa using h.1
      simp only [replaceFrom, hsite, ih h.2]

/-- What is skipped ends in a known character. -/
theorem replaceFrom_skip (site : Pattern) (inWord : Bool) (skipped : Text) (c : Char)
    (rest : Text) :
    replaceFrom site inWord (skipped.length + 1) (skipped ++ c :: rest) =
      replaceFrom site (isWord c) 0 rest := by
  induction skipped generalizing inWord with
  | nil => rfl
  | cons a skipped ih => exact ih (isWord a)

/-- A pattern whose occurrences start with a word, end outside of words and do not depend on
what follows them. The replacement starts with a word too, and the character behind this word
is the one behind the first word of the occurrence; it does not close a parenthesis. -/
structure WordPattern (site : Pattern) : Prop where
  gap : ∀ {r : Text}, atWordEnd r = true → site r = none
  whole : ∀ {t new rest : Text}, site t = some (new, rest) →
    ∃ old e, t = old ++ e :: rest ∧ isWord e = false ∧ ∀ x, site (old ++ e :: x) = some (new, x)
  fresh : ∀ {t new rest : Text}, site t = some (new, rest) →
    ∃ c n, new = c :: n ∧ isWord c = true
  follows : ∀ {t new rest : Text}, site t = some (new, rest) →
    ∀ x, follower (new ++ x) = follower t ∧ follower t ≠ some ')'

section Replacing
variable {site a b : Pattern} {t r w x new rest : Text} {c : Char} {inWord : Bool}

theorem WordPattern.gap_cons (h : WordPattern site) (hc : isWord c = false) (r : Text) :
    site (c :: r) = none :=
  h.gap (by rw [atWordEnd_cons, hc, Bool.not_false])

theorem replaceFrom_gap (h : WordPattern site) (hc : isWord c = false) (r : Text) :
    replaceFrom site inWord 0 (c :: r) = c :: replaceFrom site false 0 r := by
  have hsite : (if inWord then none else site (c :: r)) = none := by
    cases inWord with
    | true => rfl
    | false => exact h.gap_cons hc r
  simp only [replaceFrom, hsite, hc]

theorem replaceFrom_run (hw : IsRun w) (r : Text) :
    replaceFrom site true 0 (w ++ r) = w ++ replaceFrom site true 0 r := by
  induction w with
  | nil => rfl
  | cons c w ih =>
      have hc : isWord c = true := hw c List.mem_cons_self
      simp only [List.cons_append, replaceFrom, if_true, hc]
      rw [ih fun x hx => hw x (List.mem_cons_of_mem c hx)]

/-- Between words it does not matter what stood before. -/
theorem replaceFrom_atWordEnd (h : WordPattern site) (hr : atWordEnd r = true) :
    replaceFrom site inWord 0 r = replaceFrom site false 0 r := by
  cases r with
  | nil => rfl
  | cons c r =>
      rw [atWordEnd_cons, Bool.not_eq_true'] at hr
      rw [replaceFrom_gap h hr, replaceFrom_gap h hr]

/-- A word that starts no occurrence is copied. -/
theorem replaceFrom_word (h : WordPattern site) (hne : w ≠ []) (hw : IsRun w)
    (hr : atWordEnd r = true) (hsite : site (w ++ r) = none) :
    replaceFrom site false 0 (w ++ r) = w ++ replaceFrom site false 0 r := by
  obtain ⟨c, w, rfl⟩ := List.exists_cons_of_ne_nil hne
  have hc : isWord c = true := hw c List.mem_cons_self
  rw [List.cons_append] at hsite
  simp only [List.cons_append, replaceFrom, Bool.false_eq_true, if_false, hsite, hc]
  rw [replaceFrom_run fun x hx => hw x (List.mem_cons_of_mem c hx), replaceFrom_atWordEnd h hr]

theorem replaceFrom_whole (h : WordPattern site) (hsite : site t = some (new, rest)) :
    replaceFrom site false 0 t = new ++ replaceFrom site false 0 rest := by
  obtain ⟨old, e, rfl, he, -⟩ := h.whole hsite
  cases old with
  | nil =>
      rw [List.nil_append, h.gap_cons he] at hsite
      cases hsite
  | cons c old =>
      have hskip : (old ++ e :: rest).length - rest.length = old.length + 1 := by
        simp only [List.length_append, List.length_cons]
        omega
      rw [List.cons_append] at hsite
      simp only [List.cons_append, replaceFrom, Bool.false_eq_true, if_false, hsite, hskip]
      rw [replaceFrom_skip, he]

theorem occurs_gap (h : WordPattern site) (hc : isWord c = false) (r : Text) :
    occurs site inWord (c :: r) = occurs site false r := by
  simp [occurs, h.gap_cons hc, hc]

theorem occurs_atWordEnd (h : WordPattern site) (hr : atWordEnd r = true) :
    occurs site inWord r = occurs site false r := by
  cases r with
  | nil => rfl
  | cons c r =>
      rw [atWordEnd_cons, Bool.not_eq_true'] at hr
      rw [occurs_gap h hr, occurs_gap h hr]

theorem occurs_run (hw : IsRun w) (r : Text) : occurs site true (w ++ r) = occurs site true r := by
  induction w with
  | nil => rfl
  | cons c w ih =>
      have hc : isWord c = true := hw c List.mem_cons_self
      simp only [List.cons_append, occurs, Bool.not_true, Bool.false_and, Bool.false_or, hc]
      exact ih fun x hx => hw x (List.mem_cons_of_mem c hx)

theorem occurs_word (h : WordPattern site) (hne : w ≠ []) (hw : IsRun w)
    (hr : atWordEnd r = true) :
    occurs site false (w ++ r) = ((site (w ++ r)).isSome || occurs site false r) := by
  obtain ⟨c, w, rfl⟩ := List.exists_cons_of_ne_nil hne
  have hc : isWord c = true := hw c List.mem_cons_self
  simp only [List.cons_append, occurs, Bool.not_false, Bool.true_and, hc]
  rw [occurs_run fun x hx => hw x (List.mem_cons_of_mem c hx), occurs_atWordEnd h hr]

/-- Induction over a text by its words. At a word all shorter texts may be used. -/
theorem word_induction {motive : Text → Prop} (nil : motive [])
    (gap : ∀ c r, isWord c = false → motive r → motive (c :: r))
    (word : ∀ w r, w ≠ [] → IsRun w → atWordEnd r = true →
      (∀ u, u.length < (w ++ r).length → motive u) → motive (w ++ r))
    (t : Text) : motive t := by
  induction hn : t.length using Nat.strong_induction_on generalizing t with
  | _ n ih =>
      cases t with
      | nil => exact nil
      | cons c r =>
          cases hc : isWord c with
          | false => exact gap c r hc (ih r.length (by rw [← hn]; exact Nat.lt_succ_self _) r rfl)
          | true =>
              obtain ⟨w, r', heq, hne, hw, hr⟩ := exists_run (r := r) hc
              rw [heq] at hn ⊢
              exact word w r' hne hw hr fun u hu => ih u.length (hn ▸ hu) u rfl

theorem length_lt_of_run (hne : w ≠ []) (r : Text) : r.length < (w ++ r).length := by
  have := List.length_pos_iff.mpr hne
  rw [List.length_append]
  omega

theorem length_lt_of_whole (h : WordPattern site) (hsite : site t = some (new, rest)) :
    rest.length < t.length := by
  obtain ⟨old, e, rfl, -, -⟩ := h.whole hsite
  rw [List.length_append, List.length_cons]
  omega

/-- Induction over a text in the steps in which it is replaced. -/
theorem replacing_induction (h : WordPattern site) {motive : Text → Prop} (nil : motive [])
    (gap : ∀ c r, isWord c = false → motive r → motive (c :: r))
    (word : ∀ w r, w ≠ [] → IsRun w → atWordEnd r = true → site (w ++ r) = none → motive r →
      motive (w ++ r))
    (whole : ∀ t new rest, site t = some (new, rest) → motive rest → motive t)
    (t : Text) : motive t := by
  induction t using word_induction with
  | nil => exact nil
  | gap c r hc ih => exact gap c r hc ih
  | word w r hne hw hr ih =>
      cases hs : site (w ++ r) with
      | none => exact word w r hne hw hr hs (ih r (length_lt_of_run hne r))
      | some p => exact whole _ p.1 p.2 hs (ih p.2 (length_lt_of_whole h hs))

/-- Replacing starts words where words start. -/
theorem atWordEnd_replaceFrom (h : WordPattern site) (hr : atWordEnd r = true) :
    atWordEnd (replaceFrom site false 0 r) = true := by
  cases r with
  | nil => rfl
  | cons c r =>
      rw [replaceFrom_gap h (by simpa [atWordEnd_cons] using hr), atWordEnd_cons]
      rwa [atWordEnd_cons] at hr

/-- The first character is kept, unless it starts a word and is replaced by one that does. -/
theorem head?_replaceFrom (h : WordPattern site) (t : Text) :
    (replaceFrom site false 0 t).head? = t.head? ∨
      (∃ c, (replaceFrom site false 0 t).head? = some c ∧ isWord c = true) ∧
        ∃ c, t.head? = some c ∧ isWord c = true := by
  cases t with
  | nil => exact .inl rfl
  | cons c r =>
      cases hs : site (c :: r) with
      | none =>
          left
          simp [replaceFrom, hs]
      | some p =>
          obtain ⟨new, rest⟩ := p
          obtain ⟨d, n, rfl, hd⟩ := h.fresh hs
          refine .inr ⟨⟨d, by rw [replaceFrom_whole h hs]; rfl, hd⟩, c, rfl, ?_⟩
          cases hc : isWord c with
          | true => rfl
          | false =>
              rw [h.gap_cons hc] at hs
              cases hs

theorem trimStart_replaceFrom (h : WordPattern site) (t : Text) :
    trimStart (replaceFrom site false 0 t) = replaceFrom site false 0 (trimStart t) := by
  induction t with
  | nil => rfl
  | cons c r ih =>
      cases hc : isSpace c with
      | true =>
          have htrim : ∀ u : Text, trimStart (c :: u) = trimStart u := by simp [trimStart, hc]
          rw [replaceFrom_gap h (not_isWord_of_isSpace hc), htrim, htrim, ih]
      | false =>
          rw [trimStart_cons_of_not_isSpace hc]
          cases hd : replaceFrom site false 0 (c :: r) with
          | nil => rfl
          | cons d s =>
              apply trimStart_cons_of_not_isSpace
              obtain hsame | ⟨⟨e, he, hword⟩, -⟩ := head?_replaceFrom h (c :: r)
              · rw [hd] at hsame
                cases hsame
                exact hc
              · rw [hd] at he
                cases he
                exact not_isSpace_of_isWord hword

/-- A character outside of words that comes next still does after replacing. -/
theorem head?_trimStart_replaceFrom (h : WordPattern site) {e : Char} (he : isWord e = false)
    (t : Text) :
    (trimStart (replaceFrom site false 0 t)).head? = some e ↔ (trimStart t).head? = some e := by
  rw [trimStart_replaceFrom h]
  obtain hsame | ⟨⟨c, hc, hword⟩, d, hd, hword'⟩ := head?_replaceFrom h (trimStart t)
  · rw [hsame]
  · rw [hc, hd]
    constructor
    · intro heq
      cases heq
      rw [hword] at he
      cases he
    · intro heq
      cases heq
      rw [hword'] at he
      cases he

/-- The pattern neither occurs in the text, whatever follows it, nor reaches over its end. -/
def Passes (site : Pattern) (u : Text) : Prop :=
  ∀ x, replaceFrom site false 0 (u ++ x) = u ++ replaceFrom site false 0 x ∧
    occurs site false (u ++ x) = occurs site false x

theorem passes_append {u v : Text} (hu : Passes site u) (hv : Passes site v) :
    Passes site (u ++ v) := by
  intro x
  rw [List.append_assoc, (hu _).1, (hu _).2, (hv x).1, (hv x).2, List.append_assoc]
  exact ⟨rfl, rfl⟩

theorem passes_gap (h : WordPattern site) (hc : isWord c = false) : Passes site [c] := by
  intro x
  exact ⟨replaceFrom_gap h hc x, occurs_gap h hc x⟩

theorem passes_blanks (h : WordPattern site) {u : Text} (hu : ∀ c ∈ u, isSpace c = true) :
    Passes site u := by
  induction u with
  | nil => exact fun _ => ⟨rfl, rfl⟩
  | cons c u ih =>
      have hc := not_isWord_of_isSpace (hu c List.mem_cons_self)
      exact passes_append (passes_gap h hc) (ih fun x hx => hu x (List.mem_cons_of_mem c hx))

/-- A word with something behind it that keeps it from being an occurrence. -/
theorem passes_word (h : WordPattern site) {v : Text} (hne : w ≠ []) (hw : IsRun w)
    (hv : ∀ x, atWordEnd (v ++ x) = true) (hsite : ∀ x, site (w ++ (v ++ x)) = none)
    (hpass : Passes site v) : Passes site (w ++ v) := by
  intro x
  rw [List.append_assoc, replaceFrom_word h hne hw (hv x) (hsite x), occurs_word h hne hw (hv x),
    hsite x, (hpass x).1, (hpass x).2, List.append_assoc]
  exact ⟨rfl, rfl⟩

/-- The second pattern passes over what the first one replaces and over what it puts there. -/
def Spares (a b : Pattern) : Prop :=
  ∀ t new rest, a t = some (new, rest) → ∃ old, t = old ++ rest ∧
    (∀ x, a (old ++ x) = some (new, x)) ∧ Passes b old ∧ Passes b new

/-- Whether a word starts an occurrence of the first pattern does not change by replacing the
second one behind the word. -/
def Unaffected (a b : Pattern) : Prop :=
  ∀ w r, w ≠ [] → IsRun w → atWordEnd r = true →
    (a (w ++ replaceFrom b false 0 r)).isSome = (a (w ++ r)).isSome

theorem Unaffected.none (h : Unaffected a b) (hne : w ≠ []) (hw : IsRun w)
    (hr : atWordEnd r = true) (hsite : a (w ++ r) = none) :
    a (w ++ replaceFrom b false 0 r) = none := by
  rw [← Option.not_isSome_iff_eq_none, h w r hne hw hr, hsite]
  exact Bool.false_ne_true

theorem occurs_replaceFrom (ha : WordPattern a) (hb : WordPattern b) (hspares : Spares b a)
    (hsame : Unaffected a b) (t : Text) :
    occurs a false (replaceFrom b false 0 t) = occurs a false t := by
  induction t using replacing_induction hb with
  | nil => rfl
  | gap c r hc ih => rw [replaceFrom_gap hb hc, occurs_gap ha hc, occurs_gap ha hc, ih]
  | word w r hne hw hr hsite ih =>
      rw [replaceFrom_word hb hne hw hr hsite, occurs_word ha hne hw hr,
        occurs_word ha hne hw (atWordEnd_replaceFrom hb hr), hsame w r hne hw hr, ih]
  | whole t new rest hsite ih =>
      obtain ⟨old, rfl, -, hold, hnew⟩ := hspares _ _ _ hsite
      rw [replaceFrom_whole hb hsite, (hnew _).2, (hold _).2, ih]

/-- Replacing a second time changes nothing, if the replacement is left as it is. -/
theorem replaceFrom_replaceFrom (h : WordPattern site)
    (hnew : ∀ t new rest, site t = some (new, rest) → ∀ x,
      replaceFrom site false 0 (new ++ x) = new ++ replaceFrom site false 0 x)
    (hsame : Unaffected site site) (t : Text) :
    replaceFrom site false 0 (replaceFrom site false 0 t) = replaceFrom site false 0 t := by
  induction t using replacing_induction h with
  | nil => rfl
  | gap c r hc ih => rw [replaceFrom_gap h hc, replaceFrom_gap h hc, ih]
  | word w r hne hw hr hsite ih =>
      rw [replaceFrom_word h hne hw hr hsite,
        replaceFrom_word h hne hw (atWordEnd_replaceFrom h hr) (hsame.none hne hw hr hsite), ih]
  | whole t new rest hsite ih => rw [replaceFrom_whole h hsite, hnew _ _ _ hsite, ih]

theorem replaceFrom_comm (ha : WordPattern a) (hb : WordPattern b) (hab : Spares a b)
    (hba : Spares b a) (hsamea : Unaffected a b) (hsameb : Unaffected b a) (t : Text) :
    replaceFrom a false 0 (replaceFrom b false 0 t) =
      replaceFrom b false 0 (replaceFrom a false 0 t) := by
  induction t using word_induction with
  | nil => rfl
  | gap c r hc ih =>
      rw [replaceFrom_gap hb hc, replaceFrom_gap ha hc, replaceFrom_gap ha hc,
        replaceFrom_gap hb hc, ih]
  | word w r hne hw hr ih =>
      cases hsa : a (w ++ r) with
      | some p =>
          obtain ⟨old, heq, hx, hold, hnew⟩ := hab _ _ _ hsa
          have hrest := ih p.2 (length_lt_of_whole ha hsa)
          rw [replaceFrom_whole ha hsa, (hnew _).1, heq, (hold _).1, replaceFrom_whole ha (hx _),
            hrest]
      | none =>
          cases hsb : b (w ++ r) with
          | some p =>
              obtain ⟨old, heq, hx, hold, hnew⟩ := hba _ _ _ hsb
              have hrest := ih p.2 (length_lt_of_whole hb hsb)
              rw [replaceFrom_whole hb hsb, (hnew _).1, heq, (hold _).1,
                replaceFrom_whole hb (hx _), hrest]
          | none =>
              have hrest := ih r (length_lt_of_run hne r)
              have ha' := hsamea.none hne hw hr hsa
              have hb' := hsameb.none hne hw hr hsb
              rw [replaceFrom_word hb hne hw hr hsb, replaceFrom_word ha hne hw hr hsa,
                replaceFrom_word ha hne hw (atWordEnd_replaceFrom hb hr) ha',
                replaceFrom_word hb hne hw (atWordEnd_replaceFrom ha hr) hb', hrest]

end Replacing
end Text
end SpiceDeck
