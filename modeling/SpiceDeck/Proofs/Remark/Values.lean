import SpiceDeck.Proofs.Param.Remainder
import SpiceDeck.Proofs.Text.Lines

/-!
Values with a remark behind them. A remark is a `$` comment after the code of a line;
every reader of a value stops before it, except that a value in open braces or quotes
takes it up.
-/

namespace SpiceDeck
open Text

namespace Text

/-- A comment as it stands behind the code of a line. -/
def remark (x : Text) : Text := ' ' :: '$' :: x

theorem takeWhile_append_blank {p : Char → Bool} (hp : p ' ' = false) (t y : Text) :
    (t ++ ' ' :: y).takeWhile p = t.takeWhile p := by
  induction t with
  | nil => simp [hp]
  | cons c r ih =>
      simp only [List.cons_append, List.takeWhile_cons, ih]

theorem dropWhile_append_blank {p : Char → Bool} (hp : p ' ' = false) (t y : Text) :
    (t ++ ' ' :: y).dropWhile p = t.dropWhile p ++ ' ' :: y := by
  induction t with
  | nil => simp [hp]
  | cons c r ih =>
      simp only [List.cons_append, List.dropWhile_cons, ih]
      split <;> rfl

theorem token_append_remark (t x : Text) : token (t ++ remark x) = token t :=
  takeWhile_append_blank rfl t _

theorem afterToken_append_remark (t x : Text) :
    afterToken (t ++ remark x) = afterToken t ++ remark x :=
  dropWhile_append_blank rfl t _

theorem trimStart_append_remark_nil {t : Text} (h : trimStart t = []) (x : Text) :
    trimStart (t ++ remark x) = '$' :: x := by
  have h' : t.dropWhile isSpace = [] := h
  simp only [trimStart, List.dropWhile_append, h', List.isEmpty_nil, if_true]
  rfl

theorem trimStart_append_remark_cons {t r : Text} {c : Char} (h : trimStart t = c :: r)
    (x : Text) : trimStart (t ++ remark x) = c :: (r ++ remark x) := by
  have h' : t.dropWhile isSpace = c :: r := h
  simp only [trimStart, List.dropWhile_append, h', List.isEmpty_cons, Bool.false_eq_true, if_false,
    List.cons_append]

theorem trimStart_trimStart (t : Text) : trimStart (trimStart t) = trimStart t := by
  cases h : trimStart t with
  | nil => rfl
  | cons c r => simp [trimStart, not_of_dropWhile_eq_cons h]

theorem trimStart_trimStart_append_remark (t x : Text) :
    trimStart (trimStart t ++ remark x) = trimStart (t ++ remark x) := by
  cases h : trimStart t with
  | nil => rw [trimStart_append_remark_nil h]; rfl
  | cons c r =>
      have hc : trimStart (c :: r) = c :: r := by rw [← h, trimStart_trimStart]
      rw [trimStart_append_remark_cons h, trimStart_append_remark_cons hc]

theorem head?_append_remark {t : Text} (h : t ≠ []) (x : Text) :
    (t ++ remark x).head? = t.head? := by
  cases t with
  | nil => exact absurd rfl h
  | cons c r => rfl

theorem startsWith_append_remark {t : Text} (h : t ≠ []) (c : Char) (x : Text) :
    startsWith (t ++ remark x) [c] = startsWith t [c] := by
  cases t with
  | nil => exact absurd rfl h
  | cons d r => simp only [List.cons_append, startsWith, after?]; split <;> rfl

end Text

namespace Param
variable {t : Text} (x : Text)

theorem assignment?_append_remark (t x : Text) :
    assignment? (t ++ remark x) = (assignment? t).map fun (name, after) =>
      (name, trimStart (after ++ remark x)) := by
  cases t with
  | nil => rfl
  | cons c r =>
      simp only [List.cons_append, assignment?]
      split
      · have hdrop : (r ++ remark x).dropWhile isTargetChar =
            r.dropWhile isTargetChar ++ remark x :=
          dropWhile_append_blank rfl r _
        have htake : (r ++ remark x).takeWhile isTargetChar = r.takeWhile isTargetChar :=
          takeWhile_append_blank rfl r _
        rw [hdrop, htake]
        cases h : trimStart (r.dropWhile isTargetChar) with
        | nil => rw [trimStart_append_remark_nil h]; rfl
        | cons d s =>
            rw [trimStart_append_remark_cons h]
            by_cases hd : d = '='
            · subst hd
              have hhead : (s ++ remark x).head? = some '=' ↔ s.head? = some '=' := by
                cases s with
                | nil => simp [remark]
                | cons e s => rfl
              simp only [hhead]
              split
              · rfl
              · simp only [Option.map_some, trimStart_trimStart_append_remark]
            · simp [hd]
      · rfl

theorem startsAssignment_append_remark (t x : Text) :
    startsAssignment (t ++ remark x) = startsAssignment t := by
  rw [startsAssignment, startsAssignment, assignment?_append_remark, Option.isSome_map]

section Equations
variable {text rest r : Text} {c : Char}

theorem extendExpression_cons (h : trimStart rest = c :: r) :
    extendExpression text rest =
      if c = '$' || startsAssignment (c :: r) then (text, rest)
      else if endsInOperator text || isLeadingOperator c then
        extendExpression (text ++ token (c :: r)) (afterToken (c :: r))
      else (text, rest) := by
  rw [extendExpression]
  split
  · simp_all
  · next h' =>
      cases h.symm.trans h'
      rfl

end Equations

theorem extendExpression_append_remark (text rest x : Text) :
    extendExpression text (rest ++ remark x) =
      ((extendExpression text rest).1, (extendExpression text rest).2 ++ remark x) := by
  fun_induction extendExpression text rest with
  | case1 text rest h =>
      rw [extendExpression_cons (trimStart_append_remark_nil h x)]
      rfl
  | case2 text rest c r h hstop =>
      rw [extendExpression_cons (trimStart_append_remark_cons h x), ← List.cons_append,
        startsAssignment_append_remark, if_pos hstop]
  | case3 text rest c r h hstop hjoin ih =>
      rw [extendExpression_cons (trimStart_append_remark_cons h x), ← List.cons_append,
        startsAssignment_append_remark, if_neg hstop, if_pos hjoin, token_append_remark,
        afterToken_append_remark, ih]
  | case4 text rest c r h hstop hjoin =>
      rw [extendExpression_cons (trimStart_append_remark_cons h x), ← List.cons_append,
        startsAssignment_append_remark, if_neg hstop, if_neg hjoin]

theorem splitBraced_append (depth : Nat) (t y : Text) {inside rest : Text}
    (h : splitBraced depth t = .ok (inside, rest)) :
    splitBraced depth (t ++ y) = .ok (inside, rest ++ y) := by
  induction t generalizing depth inside with
  | nil => cases h
  | cons c r ih =>
      simp only [List.cons_append, splitBraced] at h ⊢
      split at h
      · next hc =>
          cases h
          rw [if_pos hc]
      · next hc =>
          rw [if_neg hc]
          generalize
            (if c = '{' then depth + 1 else if c = '}' then depth - 1 else depth) = d at h ⊢
          cases hs : splitBraced d r with
          | error e => rw [hs] at h; cases h
          | ok p =>
              rw [hs] at h
              cases h
              rw [ih d hs]
              rfl

theorem splitAfter?_append {mark : Char} {t inside rest : Text} (y : Text)
    (h : splitAfter? mark t = some (inside, rest)) :
    splitAfter? mark (t ++ y) = some (inside, rest ++ y) := by
  induction t generalizing inside with
  | nil => cases h
  | cons c r ih =>
      simp only [List.cons_append, splitAfter?] at h ⊢
      split at h
      · next hc =>
          cases h
          rw [if_pos hc]
      · next hc =>
          obtain ⟨⟨a, b⟩, hab, heq⟩ := Option.map_eq_some_iff.mp h
          cases heq
          rw [if_neg hc, ih hab]
          rfl

/-- The reading with more text behind it. -/
def Reading.before (y : Text) (read : Reading) : Reading := { read with rest := read.rest ++ y }

theorem readFresh_append_remark (o : Options) (name text : Text) (depth : Nat) (t x : Text) :
    readFresh o name text depth (t ++ remark x) =
      (readFresh o name text depth t).before (remark x) := by
  simp only [readFresh, readExpression, token_append_remark, afterToken_append_remark,
    extendExpression_append_remark]
  rfl

end Param

/-- A value that is open in braces or quotes takes up whatever follows it. -/
def Carry.isGreedy : Carry → Bool
  | .closed | .bare _ => false
  | .brace _ | .quote _ => true

namespace Param

theorem startsWithOperator_append_remark (t x : Text) :
    startsWithOperator (t ++ remark x) = startsWithOperator t := by
  cases t with
  | nil => rfl
  | cons c r => rfl

theorem readValue_append_remark (o : Options) (name : Text) {t : Text} (ht : t ≠ []) (x : Text)
    (h : (readValue o name t).carry.isGreedy = false) :
    readValue o name (t ++ remark x) = (readValue o name t).before (remark x) := by
  cases t with
  | nil => exact absurd rfl ht
  | cons c r =>
      simp only [List.cons_append, readValue] at h ⊢
      split at h
      · next hc =>
          rw [if_pos hc, if_pos hc]
          cases hs : splitBraced 0 (c :: r) with
          | error depth => rw [hs] at h; cases h
          | ok p =>
              rw [← List.cons_append, splitBraced_append 0 (c :: r) (remark x) hs]
              simp only [startsWithOperator_append_remark]
              split
              · exact readFresh_append_remark o name _ _ p.2 x
              · rfl
      · next hc =>
          rw [if_neg hc, if_neg hc]
          split at h
          · next hq =>
              rw [if_pos hq, if_pos hq]
              simp only [readQuoted] at h ⊢
              cases hs : splitAfter? c r with
              | none => rw [hs] at h; cases h
              | some p => rw [splitAfter?_append (remark x) hs]; rfl
          · next hq =>
              rw [if_neg hq, if_neg hq]
              exact readFresh_append_remark o name [] 0 (c :: r) x

theorem resumeValue_append_remark (carry : Carry) {t : Text} (ht : t ≠ []) (x : Text)
    (h : (resumeValue carry t).carry.isGreedy = false) :
    resumeValue carry (t ++ remark x) = (resumeValue carry t).before (remark x) := by
  cases carry with
  | closed => rfl
  | brace depth =>
      simp only [resumeValue] at h ⊢
      cases hs : splitBraced depth t with
      | error e => rw [hs] at h; cases h
      | ok p => rw [splitBraced_append depth t (remark x) hs]; rfl
  | quote mark =>
      simp only [resumeValue] at h ⊢
      cases hs : splitAfter? mark t with
      | none => rw [hs] at h; cases h
      | some p => rw [splitAfter?_append (remark x) hs]; rfl
  | bare depth =>
      have hne : (t ++ remark x).isEmpty = t.isEmpty := by
        cases t with
        | nil => exact absurd rfl ht
        | cons c r => rfl
      simp only [resumeValue, hne, startsWith_append_remark ht, startsAssignment_append_remark]
      split
      · rfl
      · simp only [readExpression, token_append_remark, afterToken_append_remark,
          extendExpression_append_remark]
        rfl

end Param

end SpiceDeck
