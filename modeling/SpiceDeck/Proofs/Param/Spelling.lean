import SpiceDeck.Proofs.Remark.Statements
import SpiceDeck.Proofs.Text.Replace

/-!
Spelling is final. Once every call of `round` is spelled as a call of `floor`, no call is
left, none arises from the brackets that close an expression, and spelling again changes
nothing. A product with the multiplicity variable has no bracket in it, so spelling does
not make one either.
-/

namespace SpiceDeck
namespace Text

variable {t u : Text}

/-- The text does not start with a blank. -/
def StartsInInk (t : Text) : Prop := ∀ c ∈ t.head?, isSpace c = false

theorem StartsInInk.trimStart (h : StartsInInk t) : trimStart t = t := by
  cases t with
  | nil => rfl
  | cons c r => simp [Text.trimStart, h c rfl]

theorem StartsInInk.trim (h : StartsInInk t) (ht : EndsInInk t) : trim t = t := by
  rw [ht.trim, h.trimStart]

theorem StartsInInk.append (h : StartsInInk t) (ht : t ≠ []) (u : Text) :
    StartsInInk (t ++ u) := by
  cases t with
  | nil => exact absurd rfl ht
  | cons c r => exact h

theorem StartsInInk.of_append (h : StartsInInk (t ++ u)) : StartsInInk t := by
  cases t with
  | nil => exact nofun
  | cons c r => exact h

theorem EndsInInk.append (h : EndsInInk u) (hu : u ≠ []) (t : Text) : EndsInInk (t ++ u) := by
  intro c hc
  rw [List.getLast?_append_of_ne_nil _ hu] at hc
  exact h c hc

theorem startsInInk_cons {c : Char} (h : isSpace c = false) (r : Text) : StartsInInk (c :: r) := by
  intro a ha
  cases ha
  exact h

theorem endsInInk_concat {c : Char} (h : isSpace c = false) (t : Text) : EndsInInk (t ++ [c]) := by
  intro a ha
  rw [List.getLast?_concat] at ha
  cases ha
  exact h

theorem endsInInk_of_all (h : ∀ c ∈ t, isSpace c = false) : EndsInInk t := by
  intro c hc
  exact h c (List.mem_of_getLast? hc)

end Text

namespace Param
open Text

variable {t y new rest : Text}

theorem roundCall_eq (h : roundCall t = some (new, rest)) :
    new = "floor(0.5+".toList ∧
      ∃ blanks, (∀ c ∈ blanks, isSpace c = true) ∧
        t = 'r' :: (("ound".toList ++ blanks) ++ '(' :: rest) := by
  simp only [roundCall] at h
  split at h
  · cases h
  · rename_i r hr
    split at h
    · rename_i s hs
      cases h
      refine ⟨rfl, r.takeWhile isSpace, fun _ hc => List.mem_takeWhile_imp hc, ?_⟩
      have ht : r = r.takeWhile isSpace ++ '(' :: rest := by
        rw [← hs]
        exact List.takeWhile_append_dropWhile.symm
      rw [after?_append hr, List.append_assoc, ← ht]
      rfl
    · cases h

theorem replaceFrom_roundCall {c : Char} {r : Text} (h : roundCall (c :: r) = some (new, rest)) :
    replaceFrom roundCall false 0 (c :: r) =
      "floor(0.5+".toList ++ replaceFrom roundCall false 0 rest := by
  obtain ⟨rfl, blanks, -, heq⟩ := roundCall_eq h
  obtain ⟨-, rfl⟩ := List.cons.inj heq
  have hskip : (("ound".toList ++ blanks) ++ '(' :: rest).length - rest.length =
      ("ound".toList ++ blanks).length + 1 := by
    simp only [List.length_append, List.length_cons]
    omega
  simp only [replaceFrom, Bool.false_eq_true, if_false, h, hskip]
  rw [replaceFrom_skip]
  rfl

theorem replaceFrom_copies {inWord : Bool} {c : Char} {r : Text}
    (h : inWord = true ∨ roundCall (c :: r) = none) :
    replaceFrom roundCall inWord 0 (c :: r) = c :: replaceFrom roundCall (isWord c) 0 r := by
  have hsite : (if inWord then none else roundCall (c :: r)) = none := by
    cases inWord with
    | true => rfl
    | false => simpa using h
  simp only [replaceFrom, hsite]

/-- Induction over a text as spelling reads it: a call is one step. -/
theorem spelling_induction {motive : Bool → Text → Prop} (nil : ∀ inWord, motive inWord [])
    (call : ∀ c r new rest, roundCall (c :: r) = some (new, rest) → motive false rest →
      motive false (c :: r))
    (copy : ∀ inWord c r, inWord = true ∨ roundCall (c :: r) = none → motive (isWord c) r →
      motive inWord (c :: r))
    (inWord : Bool) (t : Text) : motive inWord t := by
  induction hn : t.length using Nat.strong_induction_on generalizing inWord t with
  | _ n ih =>
      cases t with
      | nil => exact nil inWord
      | cons c r =>
          have hr : r.length < n := by
            rw [← hn]
            exact Nat.lt_succ_self _
          cases inWord with
          | true => exact copy true c r (.inl rfl) (ih _ hr _ r rfl)
          | false =>
              cases hs : roundCall (c :: r) with
              | none => exact copy false c r (.inr hs) (ih _ hr _ r rfl)
              | some p =>
                  obtain ⟨new, rest⟩ := p
                  obtain ⟨-, blanks, -, heq⟩ := roundCall_eq hs
                  have hrest : rest.length < n := by
                    rw [← hn, heq]
                    simp only [List.length_append, List.length_cons]
                    omega
                  exact call c r new rest hs (ih _ hrest false rest rfl)

/-- A parenthesis that is first after blanks has been first before. -/
theorem trimStart_replaceFrom {inWord : Bool} {t s : Text}
    (h : trimStart (replaceFrom roundCall inWord 0 t) = '(' :: s) :
    ∃ r, trimStart t = '(' :: r := by
  induction inWord, t using spelling_induction with
  | nil => cases h
  | call c r new rest hs =>
      rw [replaceFrom_roundCall hs] at h
      cases h
  | copy inWord c r hs ih =>
      rw [replaceFrom_copies hs] at h
      by_cases hc : isSpace c = true
      · simp only [trimStart, List.dropWhile_cons, hc, if_true] at h ⊢
        exact ih h
      · simp only [trimStart, List.dropWhile_cons, hc] at h ⊢
        cases h
        exact ⟨r, rfl⟩

theorem after?_replaceFrom {lit t s : Text} (hlit : ∀ c ∈ lit, isWord c = true)
    (h : after? lit (replaceFrom roundCall true 0 t) = some s) :
    ∃ r, after? lit t = some r ∧ s = replaceFrom roundCall true 0 r := by
  induction lit generalizing t with
  | nil =>
      cases h
      exact ⟨t, rfl, rfl⟩
  | cons l ls ih =>
      cases t with
      | nil => cases h
      | cons c r =>
          rw [replaceFrom_copies (.inl rfl)] at h
          simp only [after?] at h ⊢
          split at h
          · rename_i hc
            subst hc
            rw [hlit l List.mem_cons_self] at h
            rw [if_pos rfl]
            exact ih (fun x hx => hlit x (List.mem_cons_of_mem l hx)) h
          · cases h

theorem roundCall_eq_none_iff :
    roundCall t = none ↔ ∀ r s, after? "round".toList t = some r → trimStart r ≠ '(' :: s := by
  simp only [roundCall]
  split
  · rename_i hr
    simp only [hr, reduceCtorEq, false_implies, implies_true]
  · rename_i r hr
    split
    · rename_i s hs
      refine iff_of_false (by simp) ?_
      intro h
      exact h r s hr hs
    · rename_i hs
      refine iff_of_true rfl ?_
      intro r' s h
      cases hr.symm.trans h
      exact hs s

/-- Copying the first letter of a word makes no call of it. -/
theorem roundCall_replaceFrom {c : Char} {r : Text} (h : roundCall (c :: r) = none) :
    roundCall (c :: replaceFrom roundCall (isWord c) 0 r) = none := by
  have hround : ∀ x, after? "round".toList (c :: x) =
      if 'r' = c then after? "ound".toList x else none := fun _ => rfl
  rw [roundCall_eq_none_iff] at h ⊢
  intro x s hx hs
  rw [hround] at hx
  split at hx
  · rename_i hc
    subst hc
    obtain ⟨y, hy, rfl⟩ := after?_replaceFrom (List.all_eq_true.mp rfl) hx
    obtain ⟨s', hs'⟩ := trimStart_replaceFrom hs
    refine h y s' ?_ hs'
    rw [hround, if_pos rfl, hy]
  · cases hx

/-- Spelling leaves no call behind. -/
theorem occurs_replaceFrom (inWord : Bool) (t : Text) :
    occurs roundCall inWord (replaceFrom roundCall inWord 0 t) = false := by
  induction inWord, t using spelling_induction with
  | nil => rfl
  | call c r new rest hs ih =>
      rw [replaceFrom_roundCall hs]
      exact ih
  | copy inWord c r hs ih =>
      rw [replaceFrom_copies hs, occurs, ih, Bool.or_false]
      cases inWord with
      | true => rfl
      | false =>
          have hnone : roundCall (c :: r) = none := by simpa using hs
          rw [roundCall_replaceFrom hnone]
          rfl

theorem occurs_spellRound (t : Text) : occurs roundCall false (spellRound t) = false :=
  occurs_replaceFrom false t

theorem spellRound_of_not_occurs (h : occurs roundCall false t = false) : spellRound t = t :=
  replaceFrom_of_not_occurs h

/-- What closes an expression, a parenthesis or a brace. -/
def isCloser (c : Char) : Bool := c == ')' || c == '}'

theorem after?_append_of_not_mem {lit t s : Text} (hy : ∀ c ∈ y, c ∉ lit)
    (h : after? lit (t ++ y) = some s) : ∃ r, after? lit t = some r ∧ s = r ++ y := by
  induction lit generalizing t with
  | nil =>
      cases h
      exact ⟨t, rfl, rfl⟩
  | cons l ls ih =>
      cases t with
      | nil =>
          cases y with
          | nil => cases h
          | cons c r =>
              have hne : l ≠ c := fun hc => hy c List.mem_cons_self (hc ▸ List.mem_cons_self)
              simp [after?, hne] at h
      | cons c r =>
          simp only [List.cons_append, after?] at h ⊢
          split at h
          · rename_i hc
            rw [if_pos hc]
            exact ih (fun c hc hmem => hy c hc (List.mem_cons_of_mem l hmem)) h
          · cases h

theorem not_isSpace_of_isCloser {c : Char} (h : isCloser c = true) : isSpace c = false := by
  simp only [isCloser, Bool.or_eq_true, beq_iff_eq] at h
  obtain rfl | rfl := h <;> rfl

/-- No call reaches into what closes an expression. -/
theorem roundCall_append (h : roundCall t = none) (hy : ∀ c ∈ y, isCloser c = true) :
    roundCall (t ++ y) = none := by
  rw [roundCall_eq_none_iff] at h ⊢
  intro x s hx hs
  have hlit : ∀ c ∈ y, c ∉ "round".toList := by
    intro c hc hmem
    have hcloser := hy c hc
    simp only [isCloser, Bool.or_eq_true, beq_iff_eq] at hcloser
    obtain rfl | rfl := hcloser <;> revert hmem <;> decide
  obtain ⟨r, hr, rfl⟩ := after?_append_of_not_mem hlit hx
  cases htrim : trimStart r with
  | nil =>
      have hblank : trimStart (r ++ y) = trimStart y := by
        rw [trimStart, List.dropWhile_append, show r.dropWhile isSpace = [] from htrim]
        rfl
      rw [hblank] at hs
      cases y with
      | nil => cases hs
      | cons c y =>
          have hcloser := hy c List.mem_cons_self
          simp only [trimStart, List.dropWhile_cons, not_isSpace_of_isCloser hcloser] at hs
          cases hs
          cases hcloser
  | cons c r' =>
      have hcons : trimStart (r ++ y) = c :: (r' ++ y) := by
        rw [trimStart, List.dropWhile_append, show r.dropWhile isSpace = c :: r' from htrim]
        rfl
      rw [hcons] at hs
      obtain ⟨rfl, -⟩ := List.cons.inj hs
      exact h r r' hr htrim

theorem occurs_append {inWord : Bool} (h : occurs roundCall inWord t = false)
    (hy : ∀ c ∈ y, isCloser c = true) : occurs roundCall inWord (t ++ y) = false := by
  induction t generalizing inWord with
  | nil =>
      induction y generalizing inWord with
      | nil => rfl
      | cons c y ih =>
          have hcall : roundCall (c :: y) = none := roundCall_append (t := []) rfl hy
          rw [List.nil_append, occurs, hcall, Option.isSome_none, Bool.and_false, Bool.false_or]
          exact ih (fun x hx => hy x (List.mem_cons_of_mem c hx)) rfl
  | cons c r ih =>
      simp only [occurs, Bool.or_eq_false_iff, Bool.and_eq_false_iff] at h
      rw [List.cons_append, occurs, ih h.2, Bool.or_false]
      obtain hword | hcall := h.1
      · rw [hword, Bool.false_and]
      · have hnone : roundCall (c :: r) = none := by simpa using hcall
        rw [← List.cons_append, roundCall_append hnone hy, Option.isSome_none, Bool.and_false]

theorem paren_mem_replaceFrom {inWord : Bool} (h : occurs roundCall inWord t = true) :
    '(' ∈ replaceFrom roundCall inWord 0 t := by
  induction inWord, t using spelling_induction with
  | nil => cases h
  | call c r new rest hs =>
      rw [replaceFrom_roundCall hs]
      exact List.mem_append_left _ (by decide)
  | copy inWord c r hs ih =>
      have hcall : (!inWord && (roundCall (c :: r)).isSome) = false := by
        obtain hs | hs := hs <;> simp [hs]
      rw [occurs, hcall, Bool.false_or] at h
      rw [replaceFrom_copies hs]
      exact List.mem_cons_of_mem c (ih h)

/-- Where spelling changes a text, it leaves a parenthesis. -/
theorem spellRound_eq_or (t : Text) : spellRound t = t ∨ '(' ∈ spellRound t := by
  cases h : occurs roundCall false t with
  | false => exact .inl (spellRound_of_not_occurs h)
  | true => exact .inr (paren_mem_replaceFrom h)

theorem startsInInk_spellRound (h : StartsInInk t) : StartsInInk (spellRound t) := by
  cases t with
  | nil => exact h
  | cons c r =>
      cases hs : roundCall (c :: r) with
      | none =>
          rw [spellRound, replaceAll, replaceFrom_copies (.inr hs)]
          exact h
      | some p =>
          rw [spellRound, replaceAll, replaceFrom_roundCall hs]
          exact startsInInk_cons rfl _

theorem endsInInk_replaceFrom {inWord : Bool} (h : EndsInInk t) :
    EndsInInk (replaceFrom roundCall inWord 0 t) := by
  induction inWord, t using spelling_induction with
  | nil => exact h
  | call c r new rest hs ih =>
      obtain ⟨-, blanks, -, heq⟩ := roundCall_eq hs
      have hsuffix : rest <:+ c :: r :=
        ⟨'r' :: (("ound".toList ++ blanks) ++ ['(']), by simp [heq]⟩
      rw [replaceFrom_roundCall hs]
      by_cases hnil : replaceFrom roundCall false 0 rest = []
      · rw [hnil]
        exact endsInInk_concat rfl "floor(0.5".toList
      · exact (ih (h.suffix hsuffix)).append hnil _
  | copy inWord c r hs ih =>
      rw [replaceFrom_copies hs]
      cases r with
      | nil => exact h
      | cons a r =>
          have hne : replaceFrom roundCall (isWord c) 0 (a :: r) ≠ [] := by
            obtain ⟨b, -, hb, -, -⟩ := getLast?_replaceFrom (isWord c) 0 (a :: r) (by simp)
            intro hnil
            rw [hnil] at hb
            cases hb
          exact (ih (h.suffix (List.suffix_cons c _))).append hne [c]

theorem endsInInk_spellRound (h : EndsInInk t) : EndsInInk (spellRound t) :=
  endsInInk_replaceFrom h

theorem mem_trimStart_or {c : Char} (h : c ∈ t) : c ∈ trimStart t ∨ isSpace c = true := by
  rw [← List.takeWhile_append_dropWhile (p := isSpace) (l := t)] at h
  obtain h | h := List.mem_append.mp h
  · exact .inr (List.mem_takeWhile_imp h)
  · exact .inl h

theorem mem_trimEnd_or {c : Char} (h : c ∈ t) : c ∈ trimEnd t ∨ isSpace c = true := by
  obtain h | h := mem_trimStart_or (List.mem_reverse.mpr h)
  · exact .inl (List.mem_reverse.mpr h)
  · exact .inr h

theorem mem_trim_or {c : Char} (h : c ∈ t) : c ∈ trim t ∨ isSpace c = true := by
  obtain h | h := mem_trimStart_or h
  · exact mem_trimEnd_or h
  · exact .inr h

/-- The characters of a product with the multiplicity variable. -/
def isProductChar (c : Char) : Bool :=
  isDigit c || isNameStart c || isWord c || isSpace c || c == '*'

theorem all_isProductChar_of_factors? {a b : Text} (h : factors? t = some (a, b))
    (ha : a.all isProductChar = true) (hb : b.all isProductChar = true) :
    t.all isProductChar = true := by
  have hspace : ∀ c, isSpace c = true → isProductChar c = true := by
    intro c hc
    simp [isProductChar, hc]
  simp only [factors?] at h
  split at h
  · rename_i star r hr
    cases h
    have hstar : star = '*' := by simpa using not_of_dropWhile_eq_cons hr
    rw [← List.takeWhile_append_dropWhile (p := (· != '*')) (l := t), hr, hstar, List.all_eq_true]
    rw [List.all_eq_true] at ha hb
    intro c hc
    obtain hc | hc := List.mem_append.mp hc
    · obtain hc | hc := mem_trimEnd_or hc
      · exact ha c hc
      · exact hspace c hc
    · obtain rfl | hc := List.mem_cons.mp hc
      · rfl
      · obtain hc | hc := mem_trimStart_or hc
        · exact hb c hc
        · exact hspace c hc
  · cases h

theorem all_isProductChar_of_isFactor (h : isFactor t = true) : t.all isProductChar = true := by
  simp only [isFactor, Bool.and_eq_true, List.all_eq_true] at h
  rw [List.all_eq_true]
  intro c hc
  simp [isProductChar, h.2 c hc]

theorem all_isProductChar_of_isName (h : isName t = true) : t.all isProductChar = true := by
  cases t with
  | nil => rfl
  | cons c r =>
      simp only [isName, Bool.and_eq_true, List.all_eq_true] at h
      rw [List.all_eq_true]
      intro x hx
      obtain rfl | hx := List.mem_cons.mp hx
      · simp [isProductChar, h.1]
      · simp [isProductChar, h.2 x hx]

theorem all_isProductChar_of_multiple? {var n : Text} (h : multiple? var t = some n) :
    t.all isProductChar = true := by
  simp only [multiple?] at h
  split at h
  · cases h
  · rename_i a b hab
    apply all_isProductChar_of_factors? hab
    · split at h
      · rename_i hf
        simp only [Bool.and_eq_true] at hf
        exact all_isProductChar_of_isFactor hf.1.1
      · split at h
        · rename_i hf
          simp only [Bool.and_eq_true] at hf
          exact all_isProductChar_of_isName hf.1.1
        · cases h
    · split at h
      · rename_i hf
        simp only [Bool.and_eq_true] at hf
        exact all_isProductChar_of_isName hf.1.2
      · split at h
        · rename_i hf
          simp only [Bool.and_eq_true] at hf
          exact all_isProductChar_of_isFactor hf.1.2
        · cases h

/-- A text with a bracket in it is no product. -/
theorem multiple?_of_mem (var : Text) {c : Char} (hc : c ∈ t) (h : isProductChar c = false) :
    multiple? var (trim t) = none := by
  cases hm : multiple? var (trim t) with
  | none => rfl
  | some n =>
      have hall := List.all_eq_true.mp (all_isProductChar_of_multiple? hm)
      obtain hmem | hspace := mem_trim_or hc
      · rw [hall c hmem] at h
        cases h
      · simp [isProductChar, hspace] at h

end Param
end SpiceDeck
