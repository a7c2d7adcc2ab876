import SpiceDeck.Deck.Basic
import Mathlib.Data.List.Infix
import Mathlib.Data.List.TakeWhile
import Mathlib.Tactic.Common

/-!
Texts and their lines. The blanks at the two ends of a text can be taken off in any
order; a text that is written line by line reads back as its lines.
-/

namespace SpiceDeck

namespace Text

theorem trimEnd_append_cons {c : Char} (hc : isSpace c = false) (a r : Text) :
    trimEnd (a ++ c :: r) = a ++ c :: trimEnd r := by
  simp only [trimEnd, List.reverse_append, List.reverse_cons, List.append_assoc,
    List.dropWhile_append]
  cases h : (r.reverse.dropWhile isSpace).isEmpty with
  | true =>
      rw [List.isEmpty_iff] at h
      simp [h, hc]
  | false => simp

theorem trimEnd_cons {c : Char} (hc : isSpace c = false) (r : Text) :
    trimEnd (c :: r) = c :: trimEnd r :=
  trimEnd_append_cons hc [] r

theorem trimEnd_begins (t : Text) : trimEnd t <+: t := by
  have h := List.reverse_prefix.mpr (List.dropWhile_suffix isSpace (l := t.reverse))
  rwa [List.reverse_reverse] at h

theorem exists_trimEnd_append (t : Text) :
    ∃ blanks, (∀ c ∈ blanks, isSpace c = true) ∧ t = trimEnd t ++ blanks := by
  refine ⟨(t.reverse.takeWhile isSpace).reverse, ?_, ?_⟩
  · intro c hc
    exact List.mem_takeWhile_imp (List.mem_reverse.mp hc)
  · rw [trimEnd, ← List.reverse_append, List.takeWhile_append_dropWhile, List.reverse_reverse]

theorem trimStart_trimEnd (t : Text) : trimStart (trimEnd t) = trimEnd (trimStart t) := by
  have hsplit : t.takeWhile isSpace ++ trimStart t = t := List.takeWhile_append_dropWhile
  have hspace : ∀ c ∈ t.takeWhile isSpace, isSpace c = true := fun c hc =>
    List.mem_takeWhile_imp hc
  cases h : trimStart t with
  | nil =>
      have hall : ∀ c ∈ t.reverse, isSpace c = true := by
        rw [h, List.append_nil] at hsplit
        rw [hsplit] at hspace
        exact fun c hc => hspace c (List.mem_reverse.mp hc)
      have hnil : trimEnd t = [] := by rw [trimEnd, List.dropWhile_eq_nil_iff.mpr hall]; rfl
      rw [hnil]
      rfl
  | cons c r =>
      have hc : isSpace c = false := not_of_dropWhile_eq_cons h
      rw [h] at hsplit
      rw [← hsplit, trimEnd_append_cons hc, trimEnd_cons hc, trimStart,
        List.dropWhile_append_of_pos hspace]
      simp [hc]

/-- The parts of a text around its line feeds. -/
def feedParts (t : Text) : List Text := cut (· == '\n') t

theorem cut_append_sep {p : Char → Bool} {c : Char} (hc : p c = true) (a b : Text) :
    cut p (a ++ c :: b) = cut p a ++ cut p b := by
  induction a with
  | nil => simp [cut, hc]
  | cons x a ih =>
      simp only [List.cons_append, cut, ih]
      split
      · rfl
      · cases h : cut p a with
        | nil => exact absurd h (cut_ne_nil p a)
        | cons w ws => rfl

theorem cut_of_all_not {p : Char → Bool} {a : Text} (h : ∀ c ∈ a, p c = false) : cut p a = [a] := by
  induction a with
  | nil => rfl
  | cons x a ih =>
      have hx := h x List.mem_cons_self
      rw [cut, ih fun c hc => h c (List.mem_cons_of_mem x hc)]
      simp [hx]

theorem not_of_mem_cut {p : Char → Bool} {t w : Text} (hw : w ∈ cut p t) :
    ∀ c ∈ w, p c = false := by
  induction t generalizing w with
  | nil =>
      cases List.mem_singleton.mp hw
      simp
  | cons x t ih =>
      simp only [cut] at hw
      split at hw
      · obtain rfl | hw := List.mem_cons.mp hw
        · simp
        · exact ih hw
      · next hx =>
          cases hcut : cut p t with
          | nil => exact absurd hcut (cut_ne_nil p t)
          | cons part parts =>
              rw [hcut] at ih hw
              obtain rfl | hw := List.mem_cons.mp hw
              · intro c hc
                obtain rfl | hc := List.mem_cons.mp hc
                · simpa using hx
                · exact ih List.mem_cons_self c hc
              · exact ih (List.mem_cons_of_mem part hw)

theorem feedParts_line {l : Text} (h : '\n' ∉ l) : feedParts l = [l] := by
  refine cut_of_all_not ?_
  intro c hc
  have hne : c ≠ '\n' := fun e => h (e ▸ hc)
  simpa using hne

theorem feed_not_mem_of_mem_feedParts {t l : Text} (h : l ∈ feedParts t) : '\n' ∉ l := by
  intro hmem
  have hfalse := not_of_mem_cut h '\n' hmem
  simp at hfalse

theorem feed_not_mem_lines {t l : Text} (h : l ∈ lines t) : '\n' ∉ l := by
  have hparts : ∀ p ∈ feedParts t, '\n' ∉ p := fun p hp => feed_not_mem_of_mem_feedParts hp
  obtain h | h := List.mem_append.mp h
  · obtain ⟨p, hp, rfl⟩ := List.mem_map.mp h
    have hfeed := hparts p (List.mem_of_mem_dropLast hp)
    simp only [dropReturn]
    split
    · exact fun hmem => hfeed (List.mem_of_mem_dropLast hmem)
    · exact hfeed
  · cases hlast : (feedParts t).getLast? with
    | none => exact absurd (List.getLast?_eq_none_iff.mp hlast) (cut_ne_nil _ t)
    | some p =>
        have hcut : (cut (· == '\n') t).getLast?.getD [] = p := by
          have hl : (cut (· == '\n') t).getLast? = some p := hlast
          rw [hl]
          rfl
        rw [hcut] at h
        split at h
        · cases h
        · rw [List.mem_singleton.mp h]
          exact hparts p (List.mem_of_getLast? hlast)

theorem lines_append_feed (a b : Text) :
    lines (a ++ '\n' :: b) = (feedParts a).map dropReturn ++ lines b := by
  have hcut : cut (· == '\n') (a ++ '\n' :: b) = feedParts a ++ cut (· == '\n') b :=
    cut_append_sep rfl a b
  have hlast : (feedParts a ++ cut (· == '\n') b).getLast? = (cut (· == '\n') b).getLast? := by
    rw [List.getLast?_append]
    cases h : (cut (· == '\n') b).getLast? with
    | none => exact absurd (List.getLast?_eq_none_iff.mp h) (cut_ne_nil _ b)
    | some l => rfl
  simp only [lines, hcut, hlast, List.dropLast_append_of_ne_nil (cut_ne_nil _ b), List.map_append,
    List.append_assoc]

/-- The lines of a text that is written line by line, with the rest that has no end. -/
theorem lines_flatMap (ls : List Text) (rest : Text) :
    lines (ls.flatMap (· ++ ['\n']) ++ rest) =
      (ls.flatMap feedParts).map dropReturn ++ lines rest := by
  induction ls with
  | nil => rfl
  | cons l r ih =>
      have hcons : (l :: r).flatMap (· ++ ['\n']) ++ rest =
          l ++ '\n' :: (r.flatMap (· ++ ['\n']) ++ rest) := by simp
      rw [hcons, lines_append_feed, ih, List.flatMap_cons, List.map_append, List.append_assoc]

theorem lines_last {l : Text} (h : '\n' ∉ l) : lines l = if l.isEmpty then [] else [l] := by
  have hl : cut (· == '\n') l = [l] := feedParts_line h
  simp [lines, hl]

theorem join_append_sep (sep : Text) {ls : List Text} (h : ls ≠ []) :
    join sep ls ++ sep = ls.flatMap (· ++ sep) := by
  induction ls with
  | nil => exact absurd rfl h
  | cons l r ih =>
      cases r with
      | nil => simp [join]
      | cons m r =>
          have hcons : join sep (l :: m :: r) = l ++ sep ++ join sep (m :: r) := by simp [join]
          have htail : (l :: m :: r).flatMap (· ++ sep) =
              l ++ sep ++ (m :: r).flatMap (· ++ sep) := rfl
          rw [hcons, List.append_assoc, ih (List.cons_ne_nil m r), htail]

theorem ofNat_injective : Function.Injective ofNat := by
  intro a b h
  have hdigits := congrArg (fun t => Nat.ofDigitChars 10 t 0) h
  simpa only [ofNat, Nat.ofDigitChars_ten_toDigits] using hdigits

end Text

namespace Deck
open Text

/-- The lines of the text of a deck, but for empty ones. -/
theorem filter_lines_content {p : Text → Bool} (hp : p [] = false) (ls : List Text) :
    (Text.lines (content ls)).filter p = ((ls.flatMap feedParts).map dropReturn).filter p := by
  cases hls : ls with
  | nil => rfl
  | cons l r =>
      have hjoin := join_append_sep ['\n'] (List.cons_ne_nil l r)
      simp only [content]
      split
      · next hempty =>
          have hnil : join ['\n'] (l :: r) = [] := List.isEmpty_iff.mp hempty
          rw [hnil] at hjoin
          have hl : l = [] ∧ r = [] := by
            cases l with
            | nil =>
                cases r with
                | nil => exact ⟨rfl, rfl⟩
                | cons m r => simp at hjoin
            | cons c l => cases l <;> simp at hjoin
          rw [hnil, hl.1, hl.2]
          simp [feedParts, cut, Text.lines, dropReturn, hp]
      · have hlines := lines_flatMap (l :: r) []
        rw [List.append_nil] at hlines
        rw [hjoin, hlines]
        simp [Text.lines, cut]

end Deck

end SpiceDeck
