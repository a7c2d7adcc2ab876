import SpiceDeck.Proofs.Param.Composed
import SpiceDeck.Proofs.Text.Words

/-!
Calls over several lines. A call with its pins in parentheses may be broken between any two of
its words, and comments may stand between its lines. Main statement: it is read as the call that
stands on one line, and the lines that it has not used up hold the rest of the parameters.
-/

namespace SpiceDeck
open Text

namespace Line

theorem startsInInk_content (l : Line) : StartsInInk l.content := by
  simp only [content]
  split
  · split
    · exact Param.head?_trimStart
    · exact Param.head?_trim
  · exact Param.head?_trim

theorem endsInInk_content (l : Line) : EndsInInk l.content := by
  have htrim := endsInInk_trim l.text
  simp only [content]
  split
  · split
    · next r heq =>
        rw [heq] at htrim
        exact endsInInk_trimStart (htrim.suffix (List.suffix_cons _ r))
    · exact htrim
  · exact htrim

theorem content_ne_nil {l : Line} (h : isBlank l.content = false) : l.content ≠ [] := by
  intro hnil
  rw [hnil] at h
  cases h

end Line

namespace Statement
variable {s : Statement} {k n : Nat}

/-- The contents of the code lines on one line. -/
def oneLine (s : Statement) : Statement :=
  { head := { number := s.number, body := .code (s.joined s.codeLines.length) false } }

/-- A statement whose code lines all say something. -/
structure Inked (s : Statement) : Prop where
  head : s.head.isCode = true
  lines : ∀ l ∈ s.codeLines, isBlank l.content = false

theorem codeLines_eq (h : s.head.isCode = true) :
    s.codeLines = s.head :: s.tail.filter Line.isCode := by
  rw [codeLines, lines, List.filter_cons, if_pos h]

theorem joined_add_one (h : s.head.isCode = true) (n : Nat) :
    s.joined (n + 1) =
      s.head.content ++ apart (((s.tail.filter Line.isCode).take n).map Line.content) := by
  rw [joined, codeLines_eq h, List.take_succ_cons, List.map_cons, spaced_cons]

theorem joined_append (h : s.head.isCode = true) (n : Nat) :
    s.joined s.codeLines.length =
      s.joined (n + 1) ++ apart ((s.codeLines.drop (n + 1)).map Line.content) := by
  rw [joined_add_one h, joined, List.take_length, codeLines_eq h, List.map_cons, spaced_cons,
    List.drop_succ_cons, List.append_assoc, apart, apart, apart, ← List.flatMap_append,
    ← List.map_append, List.take_append_drop]

theorem joined_next (h : s.head.isCode = true) {l : Line}
    (hl : s.codeLines[n + 1]? = some l) :
    s.joined (n + 2) = s.joined (n + 1) ++ apart [l.content] := by
  rw [codeLines_eq h, List.getElem?_cons_succ] at hl
  rw [joined_add_one h, joined_add_one h, List.take_add_one, hl, List.map_append, apart,
    List.flatMap_append, ← List.append_assoc]
  rfl

/-- A character that occurs once does not come again behind the first lines. -/
theorem not_mem_rest (h : s.head.isCode = true) {c : Char}
    (hcount : (s.joined s.codeLines.length).count c = 1) (hmem : c ∈ s.joined (n + 1)) :
    c ∉ apart ((s.codeLines.drop (n + 1)).map Line.content) := by
  rw [joined_append h n, List.count_append] at hcount
  have hpos := List.count_pos_iff.mpr hmem
  rw [← List.count_eq_zero]
  omega

namespace Inked

theorem contents (h : s.Inked) {ls : List Line} (hls : ls ⊆ s.codeLines) :
    EndsInInk (apart (ls.map Line.content)) := by
  apply Param.endsInInk_apart
  intro w hw
  obtain ⟨l, hl, rfl⟩ := List.mem_map.mp hw
  exact ⟨Line.content_ne_nil (h.lines l (hls hl)), l.endsInInk_content⟩

theorem endsInInk_joined (h : s.Inked) (n : Nat) : EndsInInk (s.joined n) := by
  apply Param.endsInInk_spaced
  exact h.contents (List.take_subset n _)

theorem startsInInk_joined (h : s.Inked) (n : Nat) : StartsInInk (s.joined (n + 1)) := by
  have hhead : s.head ∈ s.codeLines := by
    rw [codeLines_eq h.head]
    exact List.mem_cons_self
  rw [joined_add_one h.head]
  exact s.head.startsInInk_content.append (Line.content_ne_nil (h.lines _ hhead)) _

theorem content_oneLine (h : s.Inked) :
    s.oneLine.head.content = s.joined s.codeLines.length := by
  have hstart : StartsInInk (s.joined s.codeLines.length) := by
    rw [codeLines_eq h.head]
    exact h.startsInInk_joined _
  exact hstart.trim (h.endsInInk_joined _)

end Inked
end Statement

namespace Head
variable {s : Statement} {t y : Text} {n : Nat}

/-- Lines behind the closing parenthesis go to the text after it. -/
theorem parenParts?_append {ws : List Text} (hopen : '(' ∈ t) (hclose : ')' ∉ apart ws) :
    parenParts? (t ++ apart ws) =
      (parenParts? t).map fun parts => (parts.1, parts.2.1, trimStart (parts.2.2 ++ apart ws)) := by
  have hhead : (t ++ apart ws).head? = t.head? := by
    rw [List.head?_append_of_ne_nil _ (List.ne_nil_of_mem hopen)]
  simp only [parenParts?, hhead]
  split
  · have hmem := mem_dropWhile (p := fun c => !(isSpace c || c == '(')) hopen rfl
    have hmem' : '(' ∈ trimStart (t.dropWhile fun c => !(isSpace c || c == '(')) :=
      mem_dropWhile hmem rfl
    have htrim : trimStart ((t.dropWhile fun c => !(isSpace c || c == '(')) ++ apart ws) =
        trimStart (t.dropWhile fun c => !(isSpace c || c == '(')) ++ apart ws :=
      dropWhile_append_of_mem hmem rfl _
    rw [dropWhile_append_of_mem hopen rfl, takeWhile_append_of_mem hopen rfl, htrim]
    obtain ⟨d, q, hq⟩ := List.exists_cons_of_ne_nil (List.ne_nil_of_mem hmem')
    rw [hq, List.cons_append]
    by_cases hd : d = '('
    · subst hd
      by_cases hmem : ')' ∈ q
      · obtain ⟨e, rest, hrest⟩ := List.exists_cons_of_ne_nil
          (List.ne_nil_of_mem (mem_dropWhile (p := (· != ')')) hmem rfl))
        have hdrop := dropWhile_append_of_mem (p := (· != ')')) hmem rfl (apart ws)
        have htake := takeWhile_append_of_mem (p := (· != ')')) hmem rfl (apart ws)
        rw [hrest, List.cons_append] at hdrop
        simp only [hdrop, htake, hrest, Option.map_some, trimStart_trimStart_append]
      · have hall : ')' ∉ q ++ apart ws := by
          rw [List.mem_append, not_or]
          exact ⟨hmem, hclose⟩
        simp only [dropWhile_eq_nil_of_not_mem hmem, dropWhile_eq_nil_of_not_mem hall,
          Option.map_none]
    · simp [hd]
  · rfl

theorem parenParts?_after {name pins after : Text} (h : parenParts? t = some (name, pins, after)) :
    after <:+ t ∧ StartsInInk after := by
  simp only [parenParts?] at h
  split at h
  · split at h
    · next r hr =>
        split at h
        · next a rest hrest =>
            cases h
            refine ⟨?_, Param.head?_trimStart⟩
            have h1 : rest <:+ r :=
              (List.suffix_cons a rest).trans (hrest ▸ List.dropWhile_suffix _)
            have h2 : '(' :: r <:+ t :=
              hr ▸ (List.dropWhile_suffix _).trans (List.dropWhile_suffix _)
            exact (List.dropWhile_suffix _).trans (h1.trans ((List.suffix_cons _ r).trans h2))
        · cases h
    · cases h
  · cases h

/-- The call that the parts give, if there is a reference behind the pins. -/
def opening? (consumed : Nat) (parts : Text × Text × Text) : Option CallOpening :=
  let after := trim parts.2.2
  if (token after).isEmpty || (token after).contains '=' then none
  else some
    { name := parts.1, pins := words parts.2.1, reference := token after
      params := trim (afterToken after), consumed }

theorem linesUntil?_some {pass : Text → Bool} {k m : Nat}
    (h : linesUntil? s pass k n = some m) : k ≤ m ∧ m < k + n ∧ pass (s.joined m) = true := by
  induction n generalizing k with
  | zero => cases h
  | succ n ih =>
      simp only [linesUntil?] at h
      split at h
      · next hpass =>
          cases h
          exact ⟨Nat.le_refl _, by omega, hpass⟩
      · obtain ⟨h1, h2, h3⟩ := ih h
        exact ⟨by omega, by omega, h3⟩

theorem isSome_linesUntil? {pass : Text → Bool} {k m : Nat} (hk : k ≤ m) (hm : m < k + n)
    (h : pass (s.joined m) = true) : (linesUntil? s pass k n).isSome = true := by
  induction n generalizing k with
  | zero => omega
  | succ n ih =>
      simp only [linesUntil?]
      split
      · rfl
      · next hpass =>
          have hne : k ≠ m := by
            rintro rfl
            exact hpass h
          exact ih (by omega) (by omega)

/-- Two readings of one call. They agree on the device; the parameters of the first one go on with
the code lines that it has not used up, and those of the second one are all there. -/
structure SameCall (s : Statement) (a b : CallOpening) : Prop where
  name : a.name = b.name
  pins : a.pins = b.pins
  reference : a.reference = b.reference
  params : words (spaced (a.params :: (s.codeLines.drop a.consumed).map Line.content)) =
    words b.params

/-- Where the pins end on the line `k`, the call is read up to the line after it if nothing follows
them on theirs. -/
theorem parenCall?_eq {k : Nat} (hword : parenAfterWord s.head.content = true)
    (hk : linesUntil? s isBalanced 1 s.codeLines.length = some k) {parts : Text × Text × Text}
    (hparts : parenParts? (s.joined k) = some parts) {n : Nat}
    (hn : (if parts.2.2.isEmpty && k < s.codeLines.length then k + 1 else k) = n) :
    parenCall? s = (parenParts? (s.joined n)).bind (opening? n) := by
  simp only [parenCall?, hword, if_true, hk, hparts, hn]
  cases parenParts? (s.joined n) with
  | none => rfl
  | some parts => rfl

theorem parenCall?_oneLine_eq (h : s.Inked)
    (hbalanced : isBalanced (s.joined s.codeLines.length) = true)
    (hword : parenAfterWord (s.joined s.codeLines.length) = true) :
    parenCall? s.oneLine = (parenParts? (s.joined s.codeLines.length)).bind (opening? 1) := by
  have hjoined : s.oneLine.joined 1 = s.joined s.codeLines.length :=
    (spaced_singleton _).trans h.content_oneLine
  have huntil : linesUntil? s.oneLine isBalanced 1 s.oneLine.codeLines.length = some 1 := by
    change (if isBalanced (s.oneLine.joined 1) then some 1 else none) = some 1
    rw [hjoined, if_pos hbalanced]
  rw [← h.content_oneLine] at hword
  cases hparts : parenParts? (s.joined s.codeLines.length) with
  | none => simp only [parenCall?, hword, if_true, huntil, hjoined, hparts, Option.bind_none]
  | some parts =>
      rw [← hjoined] at hparts
      have hlength : s.oneLine.codeLines.length = 1 := rfl
      rw [parenCall?_eq hword huntil hparts (n := 1) (by simp [hlength]), hparts]

/-- A call over several lines is read off its first lines. They hold the closing parenthesis and,
unless they are all lines, something behind it. -/
theorem exists_parenCall?_eq (h : s.Inked) (hword : parenAfterWord s.head.content = true)
    (hfirst : '(' ∈ s.head.content)
    (hbalanced : isBalanced (s.joined s.codeLines.length) = true)
    (hclose : (s.joined s.codeLines.length).count ')' = 1) :
    ∃ n, ')' ∈ s.joined (n + 1) ∧
      parenCall? s = (parenParts? (s.joined (n + 1))).bind (opening? (n + 1)) ∧
      ∀ parts, parenParts? (s.joined (n + 1)) = some parts → parts.2.2 = [] →
        s.codeLines.length ≤ n + 1 := by
  have hlength : 1 ≤ s.codeLines.length := by
    rw [Statement.codeLines_eq h.head]
    exact Nat.succ_pos _
  obtain ⟨k, hk⟩ := Option.isSome_iff_exists.mp
    (isSome_linesUntil? (n := s.codeLines.length) hlength (by omega) hbalanced)
  obtain ⟨hpos, -, hpass⟩ := linesUntil?_some hk
  obtain ⟨n, rfl⟩ := Nat.exists_eq_add_one.mpr hpos
  have hmem : '(' ∈ s.joined (n + 1) := by
    rw [Statement.joined_add_one h.head]
    exact List.mem_append_left _ hfirst
  have hmem' : ')' ∈ s.joined (n + 1) := by
    rw [← List.count_pos_iff]
    exact Nat.lt_of_lt_of_le (List.count_pos_iff.mpr hmem) (of_decide_eq_true hpass)
  cases hparts : parenParts? (s.joined (n + 1)) with
  | none =>
      refine ⟨n, hmem', ?_, ?_⟩
      · simp only [parenCall?, hword, if_true, hk, hparts, Option.bind_none]
      · intro parts hsome
        rw [hparts] at hsome
        cases hsome
  | some parts =>
      by_cases hnext : parts.2.2 = [] ∧ n + 1 < s.codeLines.length
      · obtain ⟨hnil, hlt⟩ := hnext
        have hline := List.getElem?_eq_getElem hlt
        have hrest := Statement.not_mem_rest h.head hclose hmem'
        rw [List.drop_eq_getElem_cons hlt, List.map_cons] at hrest
        have hrest' : ')' ∉ apart [s.codeLines[n + 1].content] := by
          intro hc
          apply hrest
          rw [apart, List.mem_flatMap] at hc ⊢
          obtain ⟨w, hw, hc⟩ := hc
          exact ⟨w, List.mem_cons.mpr (.inl (List.mem_singleton.mp hw)), hc⟩
        have hn : (if parts.2.2.isEmpty && n + 1 < s.codeLines.length then n + 1 + 1 else n + 1) =
            n + 2 := by simp [hnil, hlt]
        have hjoined := Statement.joined_next h.head hline
        refine ⟨n + 1, ?_, parenCall?_eq hword hk hparts hn, ?_⟩
        · rw [hjoined]
          exact List.mem_append_left _ hmem'
        · intro parts' hparts' hnil'
          rw [hjoined, parenParts?_append hmem hrest', hparts, Option.map_some] at hparts'
          cases hparts'
          have hink : StartsInInk (spaced [s.codeLines[n + 1].content]) := by
            rw [spaced_singleton]
            exact Line.startsInInk_content _
          have hcontent := h.lines _ (List.getElem_mem hlt)
          rw [hnil, List.nil_append, Param.trimStart_apart hink, spaced_singleton] at hnil'
          exact absurd hnil' (Line.content_ne_nil hcontent)
      · have hn : (if parts.2.2.isEmpty && n + 1 < s.codeLines.length then n + 1 + 1 else n + 1) =
            n + 1 := by
          rw [if_neg]
          simpa using hnext
        refine ⟨n, hmem', parenCall?_eq hword hk hparts hn, ?_⟩
        intro parts' hparts' hnil
        cases hparts.symm.trans hparts'
        exact Nat.le_of_not_lt fun hlt => hnext ⟨hnil, hlt⟩

theorem parenAfterWord_append (h : '(' ∈ t) (u : Text) :
    parenAfterWord (t ++ u) = parenAfterWord t := by
  have hmem : (t ++ u).contains '(' = t.contains '(' := by
    rw [List.contains_iff_mem.mpr h, List.contains_iff_mem.mpr (List.mem_append_left u h)]
  rw [parenAfterWord, parenAfterWord, hmem, takeWhile_append_of_mem h rfl]

theorem token_append_apart (t : Text) (ws : List Text) : token (t ++ apart ws) = token t := by
  cases ws with
  | nil => rw [apart, List.flatMap_nil, List.append_nil]
  | cons w ws => exact takeWhile_append_blank rfl t _

theorem words_afterToken_append (t : Text) (ws : List Text) :
    words (afterToken (t ++ apart ws)) = words (afterToken t) ++ ws.flatMap words := by
  cases ws with
  | nil => rw [apart, List.flatMap_nil, List.append_nil, List.flatMap_nil, List.append_nil]
  | cons w ws =>
      have hcut : afterToken (t ++ apart (w :: ws)) = afterToken t ++ ' ' :: (w ++ apart ws) :=
        dropWhile_append_blank rfl t _
      rw [hcut, words_append_blank, ← spaced_cons, words_spaced]

/-- More lines behind a call go to its parameters alone, if something stands behind the pins. -/
theorem sameCall_opening? {parts : Text × Text × Text} {ws : List Text}
    (hstart : StartsInInk parts.2.2) (hend : EndsInInk parts.2.2) (hne : parts.2.2 = [] → ws = [])
    (hws : EndsInInk (apart ws)) (hrest : (s.codeLines.drop n).map Line.content = ws) :
    Option.Rel (SameCall s) (opening? n parts)
      (opening? 1 (parts.1, parts.2.1, trimStart (parts.2.2 ++ apart ws))) := by
  obtain ⟨name, pins, after⟩ := parts
  have hink : StartsInInk (after ++ apart ws) ∧ EndsInInk (after ++ apart ws) := by
    by_cases hnil : after = []
    · subst hnil
      rw [hne rfl]
      exact ⟨nofun, nofun⟩
    · refine ⟨hstart.append hnil _, ?_⟩
      by_cases hws' : apart ws = []
      · rw [hws', List.append_nil]
        exact hend
      · exact hws.append hws' after
  simp only [opening?, hstart.trim hend, hink.1.trimStart, hink.1.trim hink.2, token_append_apart]
  split
  · exact .none
  · refine .some ⟨rfl, rfl, rfl, ?_⟩
    change words (spaced (trim (afterToken after) :: _)) = words (trim (afterToken _))
    rw [words_spaced, List.flatMap_cons, hrest, words_trim, words_trim,
      words_afterToken_append]

/-- A call with one pair of parentheses is read the same on one line. -/
theorem parenCall?_oneLine (s : Statement) (hhead : s.head.isCode = true)
    (hink : ∀ l ∈ s.codeLines, isBlank l.content = false) (hfirst : '(' ∈ s.head.content)
    (hopen : (s.joined s.codeLines.length).count '(' = 1)
    (hclose : (s.joined s.codeLines.length).count ')' = 1) :
    Option.Rel (SameCall s) (parenCall? s) (parenCall? s.oneLine) := by
  have h : s.Inked := ⟨hhead, hink⟩
  have hbalanced : isBalanced (s.joined s.codeLines.length) = true := by
    rw [isBalanced, hopen, hclose]
    rfl
  have hwords : parenAfterWord (s.joined s.codeLines.length) = parenAfterWord s.head.content := by
    rw [Statement.joined_append hhead 0, Statement.joined_add_one hhead, List.append_assoc]
    exact parenAfterWord_append hfirst _
  cases hword : parenAfterWord s.head.content with
  | false =>
      rw [hword, ← h.content_oneLine] at hwords
      simp only [parenCall?, hword, hwords]
      exact .none
  | true =>
      rw [parenCall?_oneLine_eq h hbalanced (hwords.trans hword)]
      obtain ⟨n, hmem, heq, hall⟩ := exists_parenCall?_eq h hword hfirst hbalanced hclose
      have hmem' : '(' ∈ s.joined (n + 1) := by
        rw [Statement.joined_add_one hhead]
        exact List.mem_append_left _ hfirst
      rw [heq, Statement.joined_append hhead n,
        parenParts?_append hmem' (Statement.not_mem_rest hhead hclose hmem)]
      cases hparts : parenParts? (s.joined (n + 1)) with
      | none => exact .none
      | some parts =>
          obtain ⟨hsuffix, hstart⟩ := parenParts?_after hparts
          refine sameCall_opening? hstart ((h.endsInInk_joined _).suffix hsuffix) ?_
            (h.contents (List.drop_subset _ _)) rfl
          intro hnil
          rw [List.drop_eq_nil_of_le (hall parts hparts hnil), List.map_nil]

/-- A call whose pins, reference and parameters stand on lines of their own, with a comment and a
blank line between. -/
def brokenCall : Statement :=
  { head := ⟨1, .code "m1 (d g".toList false⟩
    tail :=
      [ ⟨2, .comment "* sense (".toList⟩, ⟨3, .code "+ s b)".toList true⟩, ⟨4, .blank⟩,
        ⟨5, .code "+ nch w=1u".toList true⟩, ⟨6, .code "+ l=2".toList true⟩ ] }

theorem parenCall?_oneLine_brokenCall :
    Item.ofText "m1 (d g\n* sense (\n+ s b)\n\n+ nch w=1u\n+ l=2\n".toList =
        [.statement brokenCall] ∧
      (∀ l ∈ brokenCall.codeLines, isBlank l.content = false) ∧
      brokenCall.joined 4 = "m1 (d g s b) nch w=1u l=2".toList ∧
      (parenCall? brokenCall).map CallOpening.consumed = some 3 ∧
      Option.Rel (SameCall brokenCall) (parenCall? brokenCall) (parenCall? brokenCall.oneLine) :=
  have hink : ∀ l ∈ brokenCall.codeLines, isBlank l.content = false := by decide +kernel
  ⟨by decide +kernel, hink, by decide +kernel, by decide +kernel,
    parenCall?_oneLine brokenCall rfl hink (by decide +kernel) (by decide +kernel)
      (by decide +kernel)⟩

end Head
end SpiceDeck
