import SpiceDeck.Proofs.Param.Spelling
import SpiceDeck.Proofs.Remark.Writing

/-!
Parameter lines as they are written. Values stand behind their names without blanks, the
words of a line stand one blank apart, and remarks come last. Such a line reads back word
for word. A value in braces is the only one that a second reading may shorten, which it
does if the braces hold a product with the multiplicity variable.
-/

namespace SpiceDeck
namespace Text

/-- The words, each behind a blank. -/
def apart (ws : List Text) : Text := ws.flatMap (' ' :: ·)

theorem apart_cons (w : Text) (ws : List Text) : apart (w :: ws) = ' ' :: (w ++ apart ws) := rfl

theorem spaced_singleton (w : Text) : spaced [w] = w := by simp [spaced, join]

theorem spaced_cons (w : Text) (ws : List Text) : spaced (w :: ws) = w ++ apart ws := by
  induction ws generalizing w with
  | nil => simp [spaced, join, apart]
  | cons v ws ih => rw [spaced_cons_cons, ih, apart_cons]

theorem isDigit_bounds {c : Char} (h : isDigit c = true) :
    0x30 ≤ c.toNat ∧ (c.toNat ≤ 0x39 ∨ 0x660 ≤ c.toNat) := by
  obtain ⟨p, hp, hlo, hhi⟩ := inRanges_some h
  have hall : ∀ p ∈ digitRanges, 0x30 ≤ p.1 ∧ (p.2 ≤ 0x39 ∨ 0x660 ≤ p.1) := by decide
  obtain ⟨h1, h2⟩ := hall p hp
  omega

theorem not_isSpace_of_isDigit {c : Char} (h : isDigit c = true) : isSpace c = false := by
  rw [Bool.eq_false_iff]
  intro hspace
  obtain ⟨p, hp, hlo, hhi⟩ := inRanges_some h
  obtain ⟨q, hq, hlo', hhi'⟩ := inRanges_some hspace
  have hdisjoint : ∀ p ∈ digitRanges, ∀ q ∈ spaceRanges, p.2 < q.1 ∨ q.2 < p.1 := by decide
  have := hdisjoint p hp q hq
  omega

theorem isNameStart_bounds {c : Char} (h : isNameStart c = true) :
    0x41 ≤ c.toNat ∧ c.toNat ≤ 0x7A := by
  simp only [isNameStart] at h
  delta Char.isAlpha Char.isUpper Char.isLower at h
  simp only [Bool.or_eq_true, Bool.and_eq_true, decide_eq_true_eq, beq_iff_eq,
    UInt32.le_iff_toNat_le] at h
  obtain (h | h) | rfl := h
  · simp at h; omega
  · simp at h; omega
  · decide

end Text

namespace Param
open Text

variable {o : Options} {name w w' y rest t : Text} {c : Carry}

/-- The first characters that written values have. -/
def isValueStart (c : Char) : Bool := isDigit c || "+-.\x7b\x22\x27".toList.contains c

theorem isValueStart_ne {a : Char} (h : isValueStart a = true) :
    isSpace a = false ∧ isNameStart a = false ∧ a ≠ '=' ∧ a ≠ '$' := by
  simp only [isValueStart, Bool.or_eq_true] at h
  obtain h | h := h
  · have hb := isDigit_bounds h
    refine ⟨not_isSpace_of_isDigit h, ?_, ?_, ?_⟩
    · rw [Bool.eq_false_iff]
      intro hname
      have := isNameStart_bounds hname
      omega
    · rintro rfl
      revert hb
      decide
    · rintro rfl
      revert hb
      decide
  · have hall : ("+-.\x7b\x22\x27".toList.all fun a =>
        !isSpace a && !isNameStart a && a != '=' && a != '$') = true := by decide
    have ha := List.all_eq_true.mp hall a (by simpa using h)
    simpa [and_assoc] using ha

theorem head_isNumeric {a : Char} {r : Text} (h : isNumeric (a :: r) = true) :
    isDigit a = true ∨ a = '+' ∨ a = '-' ∨ a = '.' := by
  by_cases hplus : a = '+'
  · exact .inr (.inl hplus)
  · by_cases hminus : a = '-'
    · exact .inr (.inr (.inl hminus))
    · by_cases hdot : a = '.'
      · exact .inr (.inr (.inr hdot))
      · left
        by_contra hdigit
        simp [isNumeric, afterMantissa?, hplus, hminus, hdot, hdigit] at h

theorem isNumeric_cons (h : isNumeric w = true) :
    ∃ a r, w = a :: r ∧ (isDigit a = true ∨ a = '+' ∨ a = '-' ∨ a = '.') := by
  cases w with
  | nil => cases h
  | cons a r => exact ⟨a, r, rfl, head_isNumeric h⟩

theorem not_isSpace_of_isNumeric (h : isNumeric w = true) : ∀ a ∈ w, isSpace a = false := by
  intro a ha
  have hchar := List.all_eq_true.mp (all_isNumberChar_of_isNumeric h) a ha
  simp only [isNumberChar, Bool.or_eq_true, beq_iff_eq] at hchar
  obtain (((hd | hl) | rfl) | rfl) | rfl := hchar
  · exact not_isSpace_of_isDigit hd
  · apply Head.isSpace_of_isAsciiWord
    simp [Head.isAsciiWord, Char.isAlphanum, hl]
  · rfl
  · rfl
  · rfl

theorem not_mem_of_isNumeric (h : isNumeric w = true) {a : Char} (ha : isNumberChar a = false) :
    a ∉ w := by
  intro hmem
  rw [List.all_eq_true.mp (all_isNumberChar_of_isNumeric h) a hmem] at ha
  cases ha

theorem not_occurs_of_not_mem {inWord : Bool} (h : '(' ∉ t) :
    occurs roundCall inWord t = false := by
  induction t generalizing inWord with
  | nil => rfl
  | cons a r ih =>
      have hcall : roundCall (a :: r) = none := by
        by_contra hcall
        obtain ⟨⟨new, rest⟩, hcall⟩ := Option.ne_none_iff_exists'.mp hcall
        obtain ⟨-, blanks, -, heq⟩ := roundCall_eq hcall
        exact h (by simp [heq])
      rw [occurs, hcall, ih fun hr => h (List.mem_cons_of_mem a hr), Option.isSome_none,
        Bool.and_false, Bool.or_false]

theorem sameName_of_head {a l : Char} (ha : a.toLower ≠ l) (hl : l.toLower = l) (r ls : Text) :
    sameName (a :: r) (l :: ls) = false := by
  simp [sameName, lower, hl, ha]

theorem switchNumber?_of_isNumeric (o : Options) (name : Text) (h : isNumeric w = true) :
    switchNumber? o name w = none := by
  obtain ⟨a, r, rfl, ha⟩ := isNumeric_cons h
  have hlower : a.toLower ≠ 'y' ∧ a.toLower ≠ 'n' := by
    obtain hd | rfl | rfl | rfl := ha
    · have hb := isDigit_bounds hd
      have hsame : a.toLower = a := by
        delta Char.toLower
        rw [dif_neg]
        rintro ⟨h1, h2⟩
        simp only [UInt32.le_iff_toNat_le, ge_iff_le] at h1 h2
        change 65 ≤ a.toNat at h1
        change a.toNat ≤ 90 at h2
        omega
      rw [hsame]
      constructor <;> rintro rfl <;> revert hb <;> decide
    · decide
    · decide
    · decide
  have hyes : sameName (a :: r) "yes".toList = false := sameName_of_head hlower.1 rfl r _
  have hno : sameName (a :: r) "no".toList = false := sameName_of_head hlower.2 rfl r _
  rw [switchNumber?, hyes, hno]
  split
  · rfl
  · rfl

/-- Where the value before it ends: at the end of the line, at a remark or at the next
assignment. -/
def Stops (rest : Text) : Prop :=
  rest = [] ∨ ∃ next, rest = ' ' :: next ∧
    (startsWith next ['$'] = true ∨ startsAssignment next = true)

theorem exists_cons_of_startsWith {a : Char} (h : startsWith t [a] = true) :
    ∃ r, t = a :: r := by
  cases t with
  | nil => cases h
  | cons d r =>
      by_cases hd : a = d
      · exact ⟨r, by rw [hd]⟩
      · simp [startsWith, after?, hd] at h

theorem exists_cons_of_startsAssignment (h : startsAssignment t = true) :
    ∃ a r, t = a :: r ∧ isNameStart a = true := by
  cases t with
  | nil => cases h
  | cons a r =>
      refine ⟨a, r, rfl, ?_⟩
      by_contra ha
      simp [startsAssignment, assignment?, ha] at h

theorem not_isSpace_of_isNameStart {a : Char} (h : isNameStart a = true) : isSpace a = false := by
  apply Head.isSpace_of_isAsciiWord
  simp only [isNameStart, Bool.or_eq_true] at h
  simp only [Head.isAsciiWord, Char.isAlphanum, Bool.or_eq_true]
  tauto

theorem extendExpression_nil (text : Text) : extendExpression text [] = (text, []) := by
  rw [extendExpression]
  split
  · rfl
  · next h => cases h

theorem extendExpression_of_stops (text : Text) (h : Stops rest) :
    extendExpression text rest = (text, rest) := by
  obtain rfl | ⟨next, rfl, hnext⟩ := h
  · exact extendExpression_nil text
  · obtain hnext | hnext := hnext
    · obtain ⟨r, rfl⟩ := exists_cons_of_startsWith hnext
      rw [extendExpression_cons (c := '$') (r := r) rfl]
      rfl
    · obtain ⟨a, r, rfl, ha⟩ := exists_cons_of_startsAssignment hnext
      have htrim : trimStart (' ' :: a :: r) = a :: r := by
        have hblank : isSpace ' ' = true := rfl
        simp [trimStart, hblank, not_isSpace_of_isNameStart ha]
      rw [extendExpression_cons htrim, hnext, Bool.or_true, if_pos rfl]

theorem Stops.head (h : Stops rest) : rest = [] ∨ ∃ next, rest = ' ' :: next := by
  obtain h | ⟨next, h, -⟩ := h
  · exact .inl h
  · exact .inr ⟨next, h⟩

theorem Stops.token (h : Stops rest) (hw : ∀ a ∈ w, isSpace a = false) :
    token (w ++ rest) = w ∧ afterToken (w ++ rest) = rest := by
  have hnot : ∀ a ∈ w, (!isSpace a) = true := by simpa using hw
  rw [Text.token, Text.afterToken, List.takeWhile_append_of_pos hnot,
    List.dropWhile_append_of_pos hnot]
  obtain rfl | ⟨next, rfl⟩ := h.head
  · simp
  · have hblank : isSpace ' ' = true := rfl
    simp [hblank]

theorem Stops.startsWithOperator (h : Stops rest) : startsWithOperator rest = false := by
  obtain rfl | ⟨next, rfl⟩ := h.head
  · rfl
  · rfl

/-- The text starts as written values do. -/
def StartsValue (t : Text) : Prop := ∃ a r, t = a :: r ∧ isValueStart a = true

/-- Written behind a name, the value text `w` is read up to its end, leaves the given value
open and is written as `w'`. -/
structure Reads (o : Options) (name w : Text) (c : Carry) (w' : Text) : Prop where
  starts : StartsValue w
  ends : EndsInInk w
  read : ∀ rest, Stops rest → (c.isOpen = true → rest = []) →
    ∃ v, readValue o name (w ++ rest) = ⟨v, c, rest⟩ ∧ v.render = w' ∧ StartsValue v.text

theorem startsValue_of_isNumeric (h : isNumeric w = true) : StartsValue w := by
  obtain ⟨a, r, rfl, ha⟩ := isNumeric_cons h
  refine ⟨a, r, rfl, ?_⟩
  obtain hd | rfl | rfl | rfl := ha
  · simp [isValueStart, hd]
  · rfl
  · rfl
  · rfl

theorem reads_numeric (o : Options) (name : Text) (h : isNumeric w = true) :
    Reads o name w .closed w := by
  have hink := not_isSpace_of_isNumeric h
  have hstarts := startsValue_of_isNumeric h
  obtain ⟨a, r, rfl, ha⟩ := isNumeric_cons h
  refine ⟨hstarts, endsInInk_of_all hink, ?_⟩
  · intro rest hrest _
    have hne : ∀ x, isNumberChar x = false → a ≠ x := by
      rintro x hx rfl
      exact not_mem_of_isNumeric h hx List.mem_cons_self
    have hquote : (a = '"' || a = '\x27') = false := by
      simp [hne '"' (by decide), hne '\x27' (by decide)]
    have hspell : spellRound (a :: r) = a :: r :=
      spellRound_of_not_occurs (not_occurs_of_not_mem (not_mem_of_isNumeric h (by decide)))
    obtain ⟨htoken, hafter⟩ := hrest.token hink
    refine ⟨.numeric (a :: r), ?_, rfl, hstarts⟩
    rw [List.cons_append, readValue, if_neg (hne '{' (by decide)), hquote, if_neg (by simp),
      ← List.cons_append]
    simp only [readFresh, readExpression, htoken, hafter, List.nil_append,
      extendExpression_of_stops _ hrest, freshValue, hspell, switchNumber?_of_isNumeric o name h, h,
      if_true]

theorem braceDepth_singleton (a : Char) : -1 ≤ braceDepth [a] ∧ (a ≠ '}' → 0 ≤ braceDepth [a]) := by
  by_cases hopen : a = '{'
  · subst hopen
    decide
  · by_cases hclose : a = '}'
    · subst hclose
      decide
    · simp [braceDepth, hopen, hclose]

/-- A text inside open braces is passed over, and the braces are counted. -/
theorem splitBraced_staysOpen {d e : Nat} {u : Text} (h : StaysOpen d u)
    (hd : d + braceDepth u = e) (y : Text) :
    splitBraced d (u ++ y) =
      (splitBraced e y).map fun (inside, rest) => (u ++ inside, rest) := by
  induction u generalizing d with
  | nil =>
      simp only [braceDepth_nil, Int.add_zero, Int.natCast_inj] at hd
      subst hd
      rw [List.nil_append]
      cases splitBraced d y <;> rfl
  | cons a u ih =>
      obtain ⟨hpos, hrest⟩ := h
      have hpos' : 0 < d := Int.natCast_pos.mp hpos
      have hclose : a = '}' → 1 < d := by
        rintro rfl
        have := hrest.pos
        have hone : braceDepth ['}'] = -1 := rfl
        omega
      obtain ⟨d', heq, -, hd'⟩ := depth_step hpos' hclose
      have hstay : (decide (a = '}') && decide (d ≤ 1)) = false := by
        by_cases ha : a = '}'
        · have := hclose ha
          simp only [Bool.and_eq_false_iff, decide_eq_false_iff_not]
          omega
        · simp [ha]
      rw [braceDepth_cons] at hd
      rw [← hd'] at hrest
      simp only [List.cons_append, splitBraced, hstay, Bool.false_eq_true, if_false, heq]
      rw [ih hrest (by omega)]
      cases splitBraced e y <;> rfl

theorem StaysOpen.depth_pos {d : Int} {u : Text} (h : StaysOpen d u) : 0 < d + braceDepth u := by
  rw [← List.append_nil u] at h
  exact (staysOpen_append.mp h).2.pos

theorem staysOpen_of_prefixes {d : Nat} (hd : 0 < d) (hzero : d + braceDepth t = 0)
    (h : ∀ p, p <+: t → d + braceDepth p = 0 → p = t) :
    ∃ u, t = u ++ ['}'] ∧ StaysOpen d u ∧ d + braceDepth u = 1 := by
  induction t generalizing d with
  | nil =>
      simp only [braceDepth_nil] at hzero
      omega
  | cons a r ih =>
      obtain ⟨hlow, hopen⟩ := braceDepth_singleton a
      by_cases hnow : d + braceDepth [a] = 0
      · have hnil := h [a] ⟨r, rfl⟩ hnow
        obtain ⟨-, rfl⟩ := List.cons.inj hnil
        have ha : a = '}' := by
          by_contra hne
          have := hopen hne
          omega
        refine ⟨[], by rw [ha]; rfl, Int.natCast_pos.mpr hd, ?_⟩
        rw [braceDepth_nil]
        omega
      · obtain ⟨d', hd'⟩ : ∃ d' : Nat, (d' : Int) = d + braceDepth [a] :=
          ⟨(d + braceDepth [a]).toNat, by omega⟩
        rw [braceDepth_cons] at hzero
        obtain ⟨u, rfl, hu, hone⟩ := ih (d := d') (by omega) (by omega) (by
          intro p hp hz
          have hcons := h (a :: p) (List.cons_prefix_cons.mpr ⟨rfl, hp⟩) (by
            rw [braceDepth_cons]
            omega)
          exact (List.cons.inj hcons).2)
        refine ⟨a :: u, rfl, ⟨Int.natCast_pos.mpr hd, by rwa [← hd']⟩, ?_⟩
        rw [braceDepth_cons]
        omega

theorem IsBraced.exists_inside (h : IsBraced w) :
    ∃ u, w = '{' :: (u ++ ['}']) ∧ StaysOpen 1 u ∧ braceDepth u = 0 := by
  obtain ⟨hhead, hbegins⟩ := h
  cases w with
  | nil => cases hhead
  | cons a s =>
      cases hhead
      have hone : braceDepth ['{'] = 1 := rfl
      have hdepth : ∀ p, braceDepth ('{' :: p) = 1 + braceDepth p := by
        intro p
        rw [braceDepth_cons, hone]
      have hzero := (hbegins _ (List.prefix_refl _) (by simp)).mpr rfl
      rw [hdepth] at hzero
      obtain ⟨u, rfl, hu, hu1⟩ := staysOpen_of_prefixes (d := 1) Nat.one_pos hzero (by
        intro p hp hz
        have hall := (hbegins ('{' :: p) (List.cons_prefix_cons.mpr ⟨rfl, hp⟩) (by simp)).mp (by
          rw [hdepth]
          exact hz)
        exact (List.cons.inj hall).2)
      exact ⟨u, rfl, hu, by omega⟩

/-- The text as a second reading writes it: a product in braces is folded. -/
def refold (o : Options) (w : Text) : Text :=
  if w.head? = some '{' then
    (multiple? o.multiplicityVar (trim w.tail.dropLast)).getD w
  else w

/-- No call of `round` is left in braces. -/
def IsSpelt (w : Text) : Prop := w.head? = some '{' → occurs roundCall false w = false

theorem reads_braced (o : Options) (name : Text) (h : IsBraced w) (hs : IsSpelt w) :
    Reads o name w .closed (refold o w) := by
  have hspell : spellRound w = w := spellRound_of_not_occurs (hs h.1)
  obtain ⟨u, rfl, hu, hzero⟩ := h.exists_inside
  refine ⟨⟨'{', _, rfl, rfl⟩, ?_, ?_⟩
  · exact endsInInk_concat rfl ('{' :: u)
  · intro rest hrest _
    have hsplit : splitBraced 1 (u ++ '}' :: rest) = .ok (u ++ ['}'], rest) := by
      rw [splitBraced_staysOpen (d := 1) (e := 1) hu (by simp [hzero])]
      rfl
    refine ⟨bracedValue o ('{' :: (u ++ ['}'])), ?_, ?_, ?_⟩
    · have happend : '{' :: (u ++ ['}']) ++ rest = '{' :: (u ++ '}' :: rest) := by simp
      rw [happend, readValue, if_pos rfl, splitBraced_open, hsplit]
      simp only [Except.map, hrest.startsWithOperator, Bool.false_eq_true, if_false]
    · simp only [bracedValue, refold, List.head?_cons, if_true]
      cases multiple? o.multiplicityVar (trim ('{' :: (u ++ ['}'])).tail.dropLast) with
      | some n => rfl
      | none => exact hspell
    · simp only [bracedValue]
      cases hm : multiple? o.multiplicityVar (trim ('{' :: (u ++ ['}'])).tail.dropLast) with
      | some n => exact startsValue_of_isNumeric (isNumeric_of_multiple? hm)
      | none => exact ⟨'{', _, hspell, rfl⟩

theorem splitAfter?_of_not_mem {mark : Char} {u : Text} (h : mark ∉ u) (y : Text) :
    splitAfter? mark (u ++ y) =
      (splitAfter? mark y).map fun (inside, rest) => (u ++ inside, rest) := by
  induction u with
  | nil =>
      rw [List.nil_append]
      cases splitAfter? mark y <;> rfl
  | cons a u ih =>
      simp only [List.mem_cons, not_or] at h
      simp only [List.cons_append, splitAfter?, if_neg (Ne.symm h.1), ih h.2, Option.map_map]
      rfl

theorem isValueStart_quote {mark : Char} (h : mark = '"' ∨ mark = '\x27') :
    isValueStart mark = true ∧ isSpace mark = false ∧ mark ≠ '{' ∧
      (decide (mark = '"') || decide (mark = '\x27')) = true := by
  obtain rfl | rfl := h <;> decide

theorem reads_quoted (o : Options) (name : Text) (h : IsQuoted w) : Reads o name w .closed w := by
  obtain ⟨mark, inside, hmark, rfl, hin⟩ := h
  obtain ⟨hstart, hink, hbrace, hquote⟩ := isValueStart_quote hmark
  refine ⟨⟨mark, _, rfl, hstart⟩, ?_, ?_⟩
  · exact endsInInk_concat hink (mark :: inside)
  · intro rest hrest _
    have hsplit : splitAfter? mark (inside ++ mark :: rest) = some (inside ++ [mark], rest) := by
      rw [splitAfter?_of_not_mem hin]
      simp [splitAfter?]
    have happend : mark :: inside ++ [mark] ++ rest = mark :: (inside ++ mark :: rest) := by simp
    refine ⟨.delimited (mark :: (inside ++ [mark])) false false, ?_, rfl, mark, _, rfl, hstart⟩
    rw [happend, readValue, if_neg hbrace, hquote, if_pos rfl, readQuoted, hsplit]

/-- Whatever is delimited is read up to its end. -/
theorem reads_delimited (o : Options) (name : Text) (h : IsDelimited w) (hs : IsSpelt w) :
    Reads o name w .closed (refold o w) := by
  have hplain : w.head? ≠ some '{' → refold o w = w := fun hne => if_neg hne
  obtain h | h | h := h
  · rw [hplain]
    · exact reads_numeric o name h
    · intro hhead
      exact not_mem_of_isNumeric h (a := '{') (by decide) (List.mem_of_head? hhead)
  · rw [hplain]
    · exact reads_quoted o name h
    · obtain ⟨mark, inside, hmark, rfl, -⟩ := h
      obtain rfl | rfl := hmark <;> simp
  · exact reads_braced o name h hs

/-- A value that is open in braces or quotes stays open. -/
theorem reads_open (o : Options) (name : Text) (h : Holds c w) (hc : c.isGreedy = true)
    (hs : IsSpelt w) (hink : EndsInInk w) : Reads o name w c w := by
  cases c with
  | closed | bare d => cases hc
  | brace d =>
      obtain ⟨u, rfl, hu, hd⟩ := h
      have hspell : spellRound ('{' :: u) = '{' :: u := spellRound_of_not_occurs (hs rfl)
      refine ⟨⟨'{', u, rfl, rfl⟩, hink, ?_⟩
      intro rest _ hrest
      cases hrest rfl
      have hsplit : splitBraced 1 u = .error d := by
        have hopen := splitBraced_staysOpen hu hd []
        rw [List.append_nil] at hopen
        exact hopen
      refine ⟨.delimited ('{' :: u) false true, ?_, rfl, '{', u, rfl, rfl⟩
      rw [List.append_nil, readValue, if_pos rfl, splitBraced_open, hsplit]
      simp only [Except.map, hspell]
  | quote mark =>
      obtain ⟨hmark, u, rfl, hu⟩ := h
      obtain ⟨hstart, -, hbrace, hquote⟩ := isValueStart_quote hmark
      refine ⟨⟨mark, u, rfl, hstart⟩, hink, ?_⟩
      intro rest _ hrest
      cases hrest rfl
      have hsplit : splitAfter? mark u = none := by
        have hopen := splitAfter?_of_not_mem hu []
        rw [List.append_nil] at hopen
        exact hopen
      refine ⟨.delimited (mark :: u) false true, ?_, rfl, mark, u, rfl, hstart⟩
      rw [List.append_nil, readValue, if_neg hbrace, hquote, if_pos rfl, readQuoted, hsplit]

end Param
end SpiceDeck
