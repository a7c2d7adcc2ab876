import SpiceDeck.Param.Read
import Mathlib.Data.List.TakeWhile
import Mathlib.Tactic.Common

/-!
The three forms in which a value may be written: a number, a quoted text, a text in
braces. The forms are stated on the characters alone. `Carry.Holds` says what is
known of the part written so far while a value is still open.
-/

namespace SpiceDeck
namespace Param
open Text

/-- Opening braces less closing ones. -/
def braceDepth (t : Text) : Int := t.count '{' - t.count '}'

def isBrace (c : Char) : Bool := c == '{' || c == '}'

/-- The braces opened first are closed by the last character and not before. -/
def IsBraced (t : Text) : Prop :=
  t.head? = some '{' ∧ ∀ p, p <+: t → p ≠ [] → (braceDepth p = 0 ↔ p = t)

/-- The same quote at both ends and nowhere between. -/
def IsQuoted (t : Text) : Prop :=
  ∃ mark inside, (mark = '"' ∨ mark = '\x27') ∧ t = mark :: inside ++ [mark] ∧ mark ∉ inside

def IsDelimited (t : Text) : Prop := isNumeric t = true ∨ IsQuoted t ∨ IsBraced t

/-- Read from a depth, the text never gets down to zero. -/
def StaysOpen (depth : Int) : Text → Prop
  | [] => 0 < depth
  | c :: r => 0 < depth ∧ StaysOpen (depth + braceDepth [c]) r

@[simp] theorem braceDepth_nil : braceDepth [] = 0 := rfl

theorem braceDepth_append (a b : Text) : braceDepth (a ++ b) = braceDepth a + braceDepth b := by
  simp only [braceDepth, List.count_append]
  omega

theorem braceDepth_cons (c : Char) (t : Text) :
    braceDepth (c :: t) = braceDepth [c] + braceDepth t :=
  braceDepth_append [c] t

theorem braceDepth_singleton_of_not_isBrace {c : Char} (h : isBrace c = false) :
    braceDepth [c] = 0 := by
  simp only [isBrace, Bool.or_eq_false_iff, beq_eq_false_iff_ne] at h
  simp [braceDepth, h.1, h.2]

theorem braceDepth_filter (t : Text) : braceDepth (t.filter isBrace) = braceDepth t := by
  simp [braceDepth, List.count_filter, isBrace]

theorem StaysOpen.pos {d : Int} {t : Text} (h : StaysOpen d t) : 0 < d := by
  cases t with
  | nil => exact h
  | cons c r => exact h.1

theorem staysOpen_append {d : Int} {a b : Text} :
    StaysOpen d (a ++ b) ↔ StaysOpen d a ∧ StaysOpen (d + braceDepth a) b := by
  induction a generalizing d with
  | nil =>
      simp only [List.nil_append, braceDepth_nil, Int.add_zero]
      exact ⟨fun h => ⟨h.pos, h⟩, fun h => h.2⟩
  | cons c r ih =>
      simp only [List.cons_append, StaysOpen, ih, braceDepth_cons c r, and_assoc, Int.add_assoc]

/-- Only the braces of a text count. -/
theorem staysOpen_filter {d : Int} {t : Text} : StaysOpen d (t.filter isBrace) ↔ StaysOpen d t := by
  induction t generalizing d with
  | nil => rfl
  | cons c r ih =>
      cases hc : isBrace c with
      | true => simp only [List.filter_cons, hc, if_true, StaysOpen, ih]
      | false =>
          have h0 := braceDepth_singleton_of_not_isBrace hc
          rw [List.filter_cons_of_neg (by simp [hc]), ih]
          simp only [StaysOpen, h0, Int.add_zero]
          exact ⟨fun h => ⟨h.pos, h⟩, fun h => h.2⟩

theorem staysOpen_congr {d : Int} {a b : Text} (h : a.filter isBrace = b.filter isBrace) :
    StaysOpen d a ↔ StaysOpen d b := by
  rw [← staysOpen_filter, h, staysOpen_filter]

theorem braceDepth_congr {a b : Text} (h : a.filter isBrace = b.filter isBrace) :
    braceDepth a = braceDepth b := by
  rw [← braceDepth_filter, h, braceDepth_filter]

theorem staysOpen_of_no_brace {d : Int} {t : Text} (hd : 0 < d)
    (h : ∀ c ∈ t, isBrace c = false) : StaysOpen d t ∧ braceDepth t = 0 := by
  have hf : t.filter isBrace = ([] : Text).filter isBrace := by
    simpa using fun c hc => h c hc
  exact ⟨(staysOpen_congr hf).mpr hd, braceDepth_congr hf⟩

/-- A depth that stays positive up to the last brace makes a text in braces. -/
theorem isBraced_of_staysOpen {u : Text} (h : StaysOpen 1 u) (h0 : braceDepth u = 0) :
    IsBraced ('{' :: u ++ ['}']) := by
  refine ⟨rfl, ?_⟩
  intro p hp hne
  obtain rfl | hp := List.prefix_concat_iff.mp hp
  · rw [braceDepth_append, braceDepth_cons, h0]
    simp [braceDepth]
  · obtain ⟨s, hs⟩ := hp
    cases p with
    | nil => exact absurd rfl hne
    | cons c q =>
        obtain ⟨rfl, rfl⟩ := List.cons.inj hs
        have hq : 0 < 1 + braceDepth q := (staysOpen_append.mp h).2.pos
        have hc : braceDepth ['{'] = 1 := rfl
        constructor
        · intro hz
          rw [braceDepth_cons, hc] at hz
          omega
        · intro heq
          have := congrArg List.length heq
          simp at this

theorem isBraced_of_no_brace {u : Text} (h : ∀ c ∈ u, isBrace c = false) :
    IsBraced ('{' :: u ++ ['}']) :=
  have hu := staysOpen_of_no_brace Int.one_pos h
  isBraced_of_staysOpen hu.1 hu.2

/-- One character inside open braces moves the depth by its own. -/
theorem depth_step {depth : Nat} {c : Char} (hd : 0 < depth) (hc : c = '}' → 1 < depth) :
    ∃ d : Nat, (if c = '{' then depth + 1 else if c = '}' then depth - 1 else depth) = d ∧
      0 < d ∧ (d : Int) = depth + braceDepth [c] := by
  refine ⟨_, rfl, ?_⟩
  by_cases h1 : c = '{'
  · subst h1
    simp [braceDepth]
  · by_cases h2 : c = '}'
    · have := hc h2
      subst h2
      simp [braceDepth]
      omega
    · simp [braceDepth, h1, h2, hd]

theorem splitBraced_ok {depth : Nat} {t inside rest : Text} (hd : 0 < depth)
    (h : splitBraced depth t = .ok (inside, rest)) :
    ∃ u, inside = u ++ ['}'] ∧ StaysOpen depth u ∧ depth + braceDepth u = 1 := by
  induction t generalizing depth inside with
  | nil => cases h
  | cons c r ih =>
      simp only [splitBraced] at h
      split at h <;> rename_i hc <;>
        simp only [Bool.and_eq_true, decide_eq_true_eq, not_and, Nat.not_le] at hc
      · cases h
        refine ⟨[], by rw [hc.1]; rfl, Int.natCast_pos.mpr hd, ?_⟩
        simp only [braceDepth_nil]
        omega
      · obtain ⟨d, heq, hpos, hstep⟩ := depth_step hd hc
        rw [heq] at h
        cases hs : splitBraced d r with
        | error e => rw [hs] at h; cases h
        | ok p =>
            rw [hs] at h
            cases h
            obtain ⟨u, hu, ho, hz⟩ := ih hpos hs
            refine ⟨c :: u, by rw [hu]; rfl, ⟨Int.natCast_pos.mpr hd, ?_⟩, ?_⟩
            · rwa [← hstep]
            · rw [braceDepth_cons]
              omega

theorem splitBraced_error {depth left : Nat} {t : Text} (hd : 0 < depth)
    (h : splitBraced depth t = .error left) :
    StaysOpen depth t ∧ depth + braceDepth t = left := by
  induction t generalizing depth with
  | nil =>
      cases h
      exact ⟨Int.natCast_pos.mpr hd, Int.add_zero _⟩
  | cons c r ih =>
      simp only [splitBraced] at h
      split at h <;> rename_i hc <;>
        simp only [Bool.and_eq_true, decide_eq_true_eq, not_and, Nat.not_le] at hc
      · cases h
      · obtain ⟨d, heq, hpos, hstep⟩ := depth_step hd hc
        rw [heq] at h
        cases hs : splitBraced d r with
        | ok p => rw [hs] at h; cases h
        | error e =>
            rw [hs] at h
            cases h
            obtain ⟨ho, hz⟩ := ih hpos hs
            refine ⟨⟨Int.natCast_pos.mpr hd, ?_⟩, ?_⟩
            · rwa [← hstep]
            · rw [braceDepth_cons]
              omega

theorem splitAfter?_some {mark : Char} {t inside rest : Text}
    (h : splitAfter? mark t = some (inside, rest)) :
    ∃ u, inside = u ++ [mark] ∧ mark ∉ u := by
  induction t generalizing inside with
  | nil => cases h
  | cons c r ih =>
      simp only [splitAfter?] at h
      split at h
      · rename_i hc
        cases h
        exact ⟨[], by rw [hc]; rfl, List.not_mem_nil⟩
      · rename_i hc
        obtain ⟨⟨a, b⟩, hab, heq⟩ := Option.map_eq_some_iff.mp h
        cases heq
        obtain ⟨u, rfl, hu⟩ := ih hab
        refine ⟨c :: u, rfl, ?_⟩
        simp only [List.mem_cons, not_or]
        exact ⟨Ne.symm hc, hu⟩

theorem splitAfter?_none {mark : Char} {t : Text} (h : splitAfter? mark t = none) :
    mark ∉ t := by
  induction t with
  | nil => exact List.not_mem_nil
  | cons c r ih =>
      simp only [splitAfter?] at h
      split at h
      · cases h
      · rename_i hc
        simp only [List.mem_cons, not_or]
        exact ⟨Ne.symm hc, ih (Option.map_eq_none_iff.mp h)⟩

theorem after?_append {lit t r : Text} (h : after? lit t = some r) : t = lit ++ r := by
  induction lit generalizing t with
  | nil => cases h; rfl
  | cons l ls ih =>
      cases t with
      | nil => cases h
      | cons c t =>
          simp only [after?] at h
          split at h
          · rename_i hc
            rw [hc, ih h]
            rfl
          · cases h

/-- No brace belongs to a call of `round`. -/
theorem roundCall_some {t new rest : Text} (h : roundCall t = some (new, rest)) :
    (∃ call, call ≠ [] ∧ t = call ++ rest ∧ ∀ c ∈ call, isBrace c = false) ∧
      new.filter isBrace = [] := by
  simp only [roundCall] at h
  split at h
  · cases h
  · rename_i r hr
    split at h
    · rename_i s hs
      cases h
      have ht : r = r.takeWhile isSpace ++ '(' :: rest := by
        rw [← hs]
        exact List.takeWhile_append_dropWhile.symm
      refine ⟨⟨"round".toList ++ (r.takeWhile isSpace ++ ['(']), by simp, ?_, ?_⟩, by decide⟩
      · rw [after?_append hr]
        conv => lhs; rw [ht]
        simp
      · intro c hc
        simp only [List.mem_append] at hc
        obtain hc | hc | hc := hc
        · have hround : ("round".toList.any isBrace) = false := by decide
          simpa using List.any_eq_false.mp hround c hc
        · have hsp : isSpace c = true := List.mem_takeWhile_imp hc
          cases hb : isBrace c with
          | false => rfl
          | true =>
              simp only [isBrace, Bool.or_eq_true, beq_iff_eq] at hb
              obtain rfl | rfl := hb <;> revert hsp <;> decide
        · rw [List.mem_singleton.mp hc]
          decide
    · cases h

/-- A replaced call takes up a first character and the characters to skip. -/
theorem roundCall_skip {inWord : Bool} {c : Char} {r new rest : Text}
    (h : (if inWord then none else roundCall (c :: r)) = some (new, rest)) :
    isBrace c = false ∧ (∀ x ∈ r.take (r.length - rest.length), isBrace x = false) ∧
      new.filter isBrace = [] := by
  cases inWord with
  | true => cases h
  | false =>
      obtain ⟨⟨call, hne, heq, hcall⟩, hnew⟩ := roundCall_some h
      cases call with
      | nil => exact absurd rfl hne
      | cons a call =>
          rw [List.cons_append] at heq
          obtain ⟨rfl, rfl⟩ := List.cons.inj heq
          refine ⟨hcall c List.mem_cons_self, ?_, hnew⟩
          intro x hx
          rw [List.length_append, Nat.add_sub_cancel, List.take_left] at hx
          exact hcall x (List.mem_cons_of_mem c hx)

theorem filter_replaceFrom_roundCall (inWord : Bool) (skip : Nat) (t : Text)
    (h : ∀ c ∈ t.take skip, isBrace c = false) :
    (replaceFrom roundCall inWord skip t).filter isBrace = t.filter isBrace := by
  induction t generalizing inWord skip with
  | nil => rfl
  | cons c r ih =>
      cases skip with
      | succ k =>
          have hc := h c List.mem_cons_self
          rw [List.filter_cons_of_neg (by simp [hc])]
          exact ih (isWord c) k fun x hx => h x (List.mem_cons_of_mem c hx)
      | zero =>
          simp only [replaceFrom]
          split
          · rename_i new rest hsite
            obtain ⟨hc, hskip, hnew⟩ := roundCall_skip hsite
            rw [List.filter_append, hnew, ih _ _ hskip, List.filter_cons_of_neg (by simp [hc])]
            rfl
          · simp only [List.filter_cons]
            rw [ih (isWord c) 0 (by simp)]

theorem getLast?_replaceFrom_roundCall (inWord : Bool) (skip : Nat) (t : Text)
    (h : ∀ c ∈ t.take skip, isBrace c = false) (hlast : t.getLast? = some '}') :
    (replaceFrom roundCall inWord skip t).getLast? = some '}' := by
  induction t generalizing inWord skip with
  | nil => cases hlast
  | cons c r ih =>
      have hrest : isBrace c = false → r.getLast? = some '}' := by
        intro hc
        cases r with
        | nil =>
            cases hlast
            exact absurd hc (by decide)
        | cons a r => simpa using hlast
      cases skip with
      | succ k =>
          have hc := h c List.mem_cons_self
          exact ih (isWord c) k (fun x hx => h x (List.mem_cons_of_mem c hx)) (hrest hc)
      | zero =>
          simp only [replaceFrom]
          split
          · rename_i new rest hsite
            obtain ⟨hc, hskip, -⟩ := roundCall_skip hsite
            rw [List.getLast?_append, ih _ _ hskip (hrest hc)]
            rfl
          · cases r with
            | nil => simpa [replaceFrom] using hlast
            | cons a r =>
                have hr : (a :: r).getLast? = some '}' := by simpa using hlast
                rw [List.getLast?_cons, ih (isWord c) 0 (by simp) hr]
                rfl

theorem spellRound_brace (t : Text) :
    spellRound ('{' :: t) = '{' :: replaceFrom roundCall false 0 t :=
  rfl

/-- Spelling `round` anew keeps the braces of a text and their order. -/
theorem staysOpen_replaceFrom {t : Text} {d : Int} (h : StaysOpen d t) :
    StaysOpen d (replaceFrom roundCall false 0 t) ∧
      braceDepth (replaceFrom roundCall false 0 t) = braceDepth t := by
  have hf := filter_replaceFrom_roundCall false 0 t (by simp)
  exact ⟨(staysOpen_congr hf).mpr h, braceDepth_congr hf⟩

theorem isBraced_spellRound {u : Text} (h : StaysOpen 1 u) (h0 : braceDepth u = 0) :
    IsBraced (spellRound ('{' :: u ++ ['}'])) := by
  have hlast := getLast?_replaceFrom_roundCall false 0 (u ++ ['}']) (by simp) (by simp)
  obtain ⟨v, hv⟩ := List.getLast?_eq_some_iff.mp hlast
  have hf := filter_replaceFrom_roundCall false 0 (u ++ ['}']) (by simp)
  rw [hv, List.filter_append, List.filter_append, List.append_cancel_right_eq] at hf
  have heq : spellRound ('{' :: u ++ ['}']) = '{' :: v ++ ['}'] := by
    rw [List.cons_append, spellRound_brace, hv]
    rfl
  rw [heq]
  exact isBraced_of_staysOpen ((staysOpen_congr hf).mpr h) (by rw [braceDepth_congr hf, h0])

theorem isNumeric_of_isFactor {t : Text} (h : isFactor t = true) : isNumeric t = true := by
  simp only [isFactor, Bool.and_eq_true, Bool.or_eq_true, decide_eq_true_eq] at h
  obtain ⟨hlen, hall⟩ := h
  have hdrop : t.dropWhile isDigit = [] := by
    rw [List.dropWhile_eq_nil_iff]
    exact List.all_eq_true.mp hall
  cases t with
  | nil => simp at hlen
  | cons c r =>
      have hc : isDigit c = true := by simp_all
      have hsign : c ≠ '+' ∧ c ≠ '-' := by
        constructor <;> rintro rfl <;> revert hc <;> decide
      simp [isNumeric, afterMantissa?, hc, hdrop, hsign.1, hsign.2]

theorem isNumeric_of_multiple? {var t n : Text} (h : multiple? var t = some n) :
    isNumeric n = true := by
  simp only [multiple?] at h
  split at h
  · cases h
  · split at h
    · rename_i hab
      cases h
      simp only [Bool.and_eq_true] at hab
      exact isNumeric_of_isFactor hab.1.1
    · split at h
      · rename_i hab
        cases h
        simp only [Bool.and_eq_true] at hab
        exact isNumeric_of_isFactor hab.1.2
      · cases h

theorem isNumeric_of_switchNumber? {o : Options} {name t n : Text}
    (h : switchNumber? o name t = some n) : isNumeric n = true := by
  simp only [switchNumber?] at h
  split at h
  · split at h
    · cases h
      decide
    · split at h
      · cases h
        decide
      · cases h
  · cases h

/-- Digits, signs, the point and letters are all a number is made of. -/
def isNumberChar (c : Char) : Bool :=
  isDigit c || c.isAlpha || c == '+' || c == '-' || c == '.'

theorem all_of_dropWhile {p q : Char → Bool} {t : Text} (hpq : ∀ c, p c = true → q c = true)
    (h : (t.dropWhile p).all q = true) : t.all q = true := by
  rw [← List.takeWhile_append_dropWhile (p := p) (l := t), List.all_append, h, Bool.and_true,
    List.all_eq_true]
  exact fun c hc => hpq c (List.mem_takeWhile_imp hc)

theorem isNumberChar_of_isDigit (c : Char) (h : isDigit c = true) : isNumberChar c = true := by
  simp [isNumberChar, h]

theorem all_of_afterMantissa? {t r : Text} (h : afterMantissa? t = some r)
    (hr : r.all isNumberChar = true) : t.all isNumberChar = true := by
  simp only [afterMantissa?] at h
  split at h
  · split at h
    · rename_i s hs
      cases h
      apply all_of_dropWhile isNumberChar_of_isDigit
      rw [hs, List.all_cons, all_of_dropWhile isNumberChar_of_isDigit hr]
      rfl
    · cases h
      exact all_of_dropWhile isNumberChar_of_isDigit hr
  · split at h
    · split at h
      · cases h
        rw [List.all_cons, all_of_dropWhile isNumberChar_of_isDigit hr]
        rfl
      · cases h
    · cases h

theorem all_of_afterExponent? {t r : Text} (h : afterExponent? t = some r)
    (hr : r.all isNumberChar = true) : t.all isNumberChar = true := by
  cases t with
  | nil => cases h
  | cons c s =>
      simp only [afterExponent?] at h
      split at h
      · rename_i hc
        have hce : isNumberChar c = true := by
          simp only [Bool.or_eq_true, beq_iff_eq] at hc
          obtain rfl | rfl := hc <;> decide
        rw [List.all_cons, hce, Bool.true_and]
        split at h <;> split at h <;> cases h <;>
          have hd := all_of_dropWhile isNumberChar_of_isDigit hr <;>
          simpa [isNumberChar] using hd
      · cases h

theorem all_isNumberChar_of_isNumeric {t : Text} (h : isNumeric t = true) :
    t.all isNumberChar = true := by
  have halpha : ∀ r : Text, r.all Char.isAlpha = true → r.all isNumberChar = true := by
    intro r hr
    rw [List.all_eq_true] at hr ⊢
    intro c hc
    simp [isNumberChar, hr c hc]
  simp only [isNumeric] at h
  split at h
  · cases h
  · rename_i r hr
    have hu : r.all isNumberChar = true := by
      rw [Bool.or_eq_true] at h
      obtain h | h := h
      · exact halpha r h
      · obtain ⟨s, hs, hall⟩ := (Option.any_eq_true _ _).mp h
        exact all_of_afterExponent? hs (halpha s hall)
    have hm := all_of_afterMantissa? hr hu
    split at hm <;> simp_all [isNumberChar]

end Param
end SpiceDeck
