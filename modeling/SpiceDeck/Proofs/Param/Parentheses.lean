import SpiceDeck.Proofs.Param.Delimiting
import SpiceDeck.Proofs.Param.Spelling

/-!
Parentheses of bare expressions. A line that leaves an expression open hands on how many of its
parentheses are open, and the end of the statement pays them. A line that ends the expression
because nothing on it belongs there pays none. Main statement: every bare value of a statement
has its parentheses closed if and only if no such line meets an expression with open ones.
-/

namespace SpiceDeck
namespace Param
open Text

section ParensOpen
variable {d e : Nat}

theorem parensOpen_append (d : Nat) (a b : Text) :
    parensOpen d (a ++ b) = parensOpen (parensOpen d a) b := by
  induction a generalizing d with
  | nil => rfl
  | cons c a ih => exact ih _

theorem parensOpen_mono (h : d ≤ e) (t : Text) : parensOpen d t ≤ parensOpen e t := by
  induction t generalizing d e with
  | nil => exact h
  | cons c r ih =>
      apply ih
      split
      · omega
      · split
        · omega
        · exact h

theorem parensOpen_of_no_paren {t : Text} (h : ∀ c ∈ t, c ≠ '(' ∧ c ≠ ')') (d : Nat) :
    parensOpen d t = d := by
  induction t with
  | nil => rfl
  | cons c r ih =>
      obtain ⟨⟨hopen, hclose⟩, hrest⟩ := List.forall_mem_cons.mp h
      simp only [parensOpen, hopen, hclose, if_false]
      exact ih hrest

theorem parensOpen_replicate (d n : Nat) : parensOpen d (List.replicate n ')') = d - n := by
  induction n generalizing d with
  | zero => rfl
  | succ n ih =>
      have hstep : parensOpen d (List.replicate (n + 1) ')') =
          parensOpen (d - 1) (List.replicate n ')') := rfl
      rw [hstep, ih]
      omega

theorem parensOpen_replaceFrom_roundCall (inWord : Bool) (t : Text) (d : Nat) :
    parensOpen d (replaceFrom roundCall inWord 0 t) = parensOpen d t := by
  induction inWord, t using spelling_induction generalizing d with
  | nil => rfl
  | call c r new rest hs ih =>
      obtain ⟨-, blanks, hblanks, heq⟩ := roundCall_eq hs
      have hno : ∀ x ∈ blanks, x ≠ '(' ∧ x ≠ ')' := by
        intro x hx
        have hspace := hblanks x hx
        constructor
        · rintro rfl
          cases hspace
        · rintro rfl
          cases hspace
      have hnew : parensOpen d "floor(0.5+".toList = d + 1 := rfl
      have hold : parensOpen d ('r' :: ("ound".toList ++ blanks)) = d := by
        rw [← List.cons_append, parensOpen_append, parensOpen_of_no_paren hno]
        rfl
      rw [replaceFrom_roundCall hs, heq, parensOpen_append, hnew, ih, ← List.cons_append,
        parensOpen_append, hold]
      rfl
  | copy inWord c r hs ih =>
      rw [replaceFrom_copies hs]
      exact ih _

theorem parensOpen_spellRound (d : Nat) (t : Text) : parensOpen d (spellRound t) = parensOpen d t :=
  parensOpen_replaceFrom_roundCall false t d

end ParensOpen

/-- Take up one more piece. The values stand with the last one first, each with the form it starts
with and the text of all its parts. -/
def extendValue (values : List Value) : Piece → List Value
  | .assign _ v => v :: values
  | .fragment v =>
      match values with
      | [] => [v]
      | w :: values => { w with text := w.text ++ v.text } :: values
  | .comment _ => values

/-- The values that the pieces assign, each with its whole text. -/
def wholeValues (pieces : List Piece) : List Value := pieces.foldl extendValue []

/-- No parenthesis of a bare value is left open. -/
def Balanced (v : Value) : Prop := v.form = .bare → parensOpen 0 v.text = 0

/-- The carry owes at least the parentheses that are open in the value. -/
def Covers (v : Value) : Carry → Prop
  | .closed => Balanced v
  | .bare depth => v.form = .bare ∧ parensOpen 0 v.text ≤ depth
  | .brace _ | .quote _ => v.form = .delimited

/-- An open value is the last one, and the carry covers it. -/
def LastCovered (c : Carry) (values : List Value) : Prop :=
  c.isOpen = true → ∃ v rest, values = v :: rest ∧ Covers v c

/-- The values that nothing is added to any more. -/
def finished (c : Carry) (values : List Value) : List Value :=
  if c.isOpen then values.tail else values

section Fresh
variable {v : Value} {c : Carry} {values : List Value}

theorem balanced_of_form (h : decide (v.form = .bare) = false) : Balanced v :=
  fun hbare => absurd hbare (of_decide_eq_false h)

theorem lastCovered_closed (values : List Value) : LastCovered .closed values := by
  intro h
  cases h

theorem lastCovered_cons (h : Covers v c) (values : List Value) : LastCovered c (v :: values) :=
  fun _ => ⟨v, values, rfl, h⟩

theorem finished_cons (h : Covers v c) :
    (∀ w ∈ finished c (v :: values), Balanced w) ↔ ∀ w ∈ values, Balanced w := by
  cases c with
  | closed =>
      have hv : Balanced v := h
      simp [finished, Carry.isOpen, hv]
  | bare _ | brace _ | quote _ => rfl

/-- The first part of a bare value or a later one, with the text so far in front. -/
theorem covers_bareValue (fromPrevious : Bool) {text : Text} {depth : Nat} {w : Value}
    (hform : w.form = .bare) (h : parensOpen 0 w.text ≤ depth) :
    Covers w (bareValue fromPrevious text depth).2 := by
  simp only [bareValue]
  split
  · exact ⟨hform, h⟩
  · rename_i hends
    intro _
    have hdepth : ¬ 0 < depth := by
      intro hpos
      exact hends (by simp [hpos])
    omega

theorem covers_freshValue (o : Options) (name : Text) {text : Text} {depth : Nat}
    (h : parensOpen 0 text ≤ depth) :
    Covers (freshValue o name text depth).1 (freshValue o name text depth).2 := by
  simp only [freshValue]
  split
  · exact balanced_of_form rfl
  · split
    · exact balanced_of_form rfl
    · split
      · exact balanced_of_form rfl
      · refine covers_bareValue false rfl ?_
        change parensOpen 0 (spellRound text) ≤ depth
        rwa [parensOpen_spellRound]

/-- The parentheses of an operand in braces are counted twice, so the depth may be too large. -/
theorem covers_readFresh (o : Options) (name text : Text) (depth : Nat) (t : Text) :
    Covers (readFresh o name text depth t).value (readFresh o name text depth t).carry :=
  covers_freshValue o name (parensOpen_mono (Nat.zero_le depth) _)

theorem covers_readValue (o : Options) (name t : Text) :
    Covers (readValue o name t).value (readValue o name t).carry := by
  cases t with
  | nil => exact covers_freshValue o name (Nat.le_refl 0)
  | cons c r =>
      simp only [readValue]
      split
      · split
        · rename_i braced after hsplit
          split
          · exact covers_readFresh o name _ _ after
          · simp only [bracedValue]
            split
            · exact balanced_of_form rfl
            · exact balanced_of_form rfl
        · rfl
      · split
        · simp only [readQuoted]
          split
          · exact balanced_of_form rfl
          · rfl
        · exact covers_readFresh o name [] 0 (c :: r)

end Fresh

theorem lastCovered_readList (o : Options) (passing : Bool) (t : Text) (values : List Value) :
    LastCovered (readList o passing t).carry
        ((readList o passing t).pieces.foldl extendValue values) ∧
      ((∀ w ∈ finished (readList o passing t).carry
          ((readList o passing t).pieces.foldl extendValue values), Balanced w) ↔
        ∀ w ∈ values, Balanced w) := by
  fun_induction readList o passing t generalizing values with
  | case1 | case6 => exact ⟨lastCovered_closed values, Iff.rfl⟩
  | case2 passing t c r _ name after _ _ ih => exact ih values
  | case3 passing t c r _ name after _ _ read _ =>
      have hread := covers_readValue o name after
      exact ⟨lastCovered_cons hread values, finished_cons hread⟩
  | case4 passing t c r _ name after _ _ read hclosed ih =>
      have hread := covers_readValue o name after
      rw [eq_closed_of_not_isOpen hclosed] at hread
      obtain ⟨hlast, hall⟩ := ih (read.value :: values)
      exact ⟨hlast, hall.trans (finished_cons (c := .closed) hread)⟩
  | case5 passing t c r _ _ word _ ih =>
      have hone : Covers (.numeric ['1']) .closed := balanced_of_form rfl
      obtain ⟨hlast, hall⟩ := ih (.numeric ['1'] :: values)
      exact ⟨hlast, hall.trans (finished_cons hone)⟩

/-- The comment after the pieces adds no value. -/
theorem foldl_allPieces (l : Listing) (values : List Value) :
    l.allPieces.foldl extendValue values = l.pieces.foldl extendValue values := by
  simp only [Listing.allPieces]
  split
  · rfl
  · rw [List.foldl_append]
    rfl

/-- Nothing on a line with this text belongs to an expression of an earlier line. -/
def endsExpression (t : Text) : Bool :=
  let t := trim t
  t.isEmpty || startsWith t ['$'] || startsAssignment t

/-- The line ends an expression of an earlier line that has parentheses open. -/
def abandons (c : Carry) (values : List Value) (t : Text) : Bool :=
  match c, values with
  | .bare _, v :: _ => endsExpression t && 0 < parensOpen 0 v.text
  | _, _ => false

section Resumed
variable {v : Value} {t : Text} {d : Nat}

/-- The rest of the line goes on with the expression. -/
theorem covers_resumeBare (hform : v.form = .bare) (hdepth : parensOpen 0 v.text ≤ d)
    (hends : endsExpression t = false) :
    Covers { v with text := v.text ++ (resumeValue (.bare d) (trim t)).value.text }
      (resumeValue (.bare d) (trim t)).carry := by
  have hresume : resumeValue (.bare d) (trim t) =
      ⟨(bareValue true (spellRound (readExpression [] d (trim t)).text)
          (readExpression [] d (trim t)).depth).1,
        (bareValue true (spellRound (readExpression [] d (trim t)).text)
          (readExpression [] d (trim t)).depth).2, (readExpression [] d (trim t)).rest⟩ :=
    if_neg (Bool.eq_false_iff.mp hends)
  rw [hresume]
  refine covers_bareValue true hform ?_
  change parensOpen 0 (v.text ++ spellRound (readExpression [] d (trim t)).text) ≤ _
  rw [parensOpen_append, parensOpen_spellRound]
  exact parensOpen_mono hdepth _

/-- An expression that the line ends gets nothing more, so what it owes stays open. -/
theorem resumeValue_ended (hends : endsExpression t = true) :
    resumeValue (.bare d) (trim t) =
      ⟨{ text := [], form := .bare, fromPrevious := true }, .closed, trim t⟩ :=
  if_pos hends

theorem covers_resumeValue {c : Carry} (hv : Covers v c) (hc : c.isOpen = true)
    (rest : List Value) (t : Text) :
    abandons c (v :: rest) t = false ∧
        Covers { v with text := v.text ++ (resumeValue c (trim t)).value.text }
          (resumeValue c (trim t)).carry ∨
      abandons c (v :: rest) t = true ∧ (resumeValue c (trim t)).carry = .closed ∧
        ¬ Balanced { v with text := v.text ++ (resumeValue c (trim t)).value.text } := by
  cases c with
  | closed => cases hc
  | brace _ | quote _ =>
      refine .inl ⟨rfl, ?_⟩
      have hform : v.form = .delimited := hv
      simp only [resumeValue]
      split
      · exact balanced_of_form (by simp [hform])
      · exact hform
  | bare d =>
      obtain ⟨hform, hdepth⟩ := hv
      have habandons : abandons (.bare d) (v :: rest) t =
          (endsExpression t && decide (0 < parensOpen 0 v.text)) := rfl
      rw [habandons]
      cases hends : endsExpression t with
      | false => exact .inl ⟨rfl, covers_resumeBare hform hdepth hends⟩
      | true =>
          rw [resumeValue_ended hends, List.append_nil, Bool.true_and]
          by_cases hopen : 0 < parensOpen 0 v.text
          · refine .inr ⟨decide_eq_true hopen, rfl, ?_⟩
            intro hbalanced
            exact absurd (hbalanced hform) (Nat.ne_of_gt hopen)
          · refine .inl ⟨decide_eq_false hopen, ?_⟩
            intro _
            exact Nat.eq_zero_of_not_pos hopen

end Resumed

/-- A line keeps the last value covered. It leaves a value unbalanced exactly if it abandons it. -/
theorem lastCovered_readAssignments (o : Options) (t : Text) (place : Placement) {c : Carry}
    {values : List Value} (h : LastCovered c values) :
    LastCovered (readAssignments o t place c).carry
        ((readAssignments o t place c).pieces.foldl extendValue values) ∧
      ((∀ w ∈ finished (readAssignments o t place c).carry
          ((readAssignments o t place c).pieces.foldl extendValue values), Balanced w) ↔
        (∀ w ∈ finished c values, Balanced w) ∧ abandons c values t = false) := by
  simp only [readAssignments]
  cases hc : c.isOpen with
  | false =>
      rw [eq_closed_of_not_isOpen (Bool.eq_false_iff.mp hc)]
      simp only [Bool.false_eq_true, if_false, foldl_allPieces]
      obtain ⟨hlast, hall⟩ := lastCovered_readList o (place = .subcircuitLocal) (trim t) values
      exact ⟨hlast, hall.trans (and_iff_left rfl).symm⟩
  | true =>
      obtain ⟨v, rest, rfl, hv⟩ := h hc
      have hfinished : finished c (v :: rest) = rest := if_pos hc
      rw [hfinished]
      simp only [if_true]
      obtain ⟨hlast, hall⟩ := lastCovered_readList o (place = .subcircuitLocal)
        (resumeValue c (trim t)).rest
        ({ v with text := v.text ++ (resumeValue c (trim t)).value.text } :: rest)
      obtain ⟨hkept, hcovers⟩ | ⟨hlost, hclosed, hnot⟩ := covers_resumeValue hv hc rest t
      · have htrue (p : Prop) : p ∧ abandons c (v :: rest) t = false ↔ p := and_iff_left hkept
        rw [htrue]
        split
        · exact ⟨lastCovered_cons hcovers rest, finished_cons hcovers⟩
        · rename_i hopen
          rw [eq_closed_of_not_isOpen hopen] at hcovers
          rw [foldl_allPieces]
          exact ⟨hlast, hall.trans (finished_cons (c := .closed) hcovers)⟩
      · have hopen : ¬ (resumeValue c (trim t)).carry.isOpen = true := by
          rw [hclosed]
          exact Bool.false_ne_true
        rw [hlost, if_neg hopen, foldl_allPieces]
        refine ⟨hlast, hall.trans (iff_of_false ?_ fun h => Bool.noConfusion h.2)⟩
        intro hbalanced
        exact hnot (hbalanced _ List.mem_cons_self)

namespace Source

/-- The text of a line that is read as an assignment list. -/
def body (s : Source) : Text :=
  match s.form with
  | .statement => ((afterDotMarker? (trim s.text)).or (afterWordMarker? (trim s.text))).getD []
  | .continuation =>
      let t := trim s.text
      match t with
      | '+' :: r => r
      | _ => t
  | .assignments => s.text

/-- Where that list stands: a dotted statement is read at top level. -/
def bodyPlace (s : Source) : Placement :=
  match s.form with
  | .statement => if (afterDotMarker? (trim s.text)).isSome then .topLevel else s.place
  | .continuation | .assignments => s.place

theorem read?_body {o : Options} {c : Carry} {s : Source} {line : ParamLine}
    (h : s.read? o c = some line) :
    line.pieces = (readAssignments o s.body s.bodyPlace c).pieces ∧
      line.carry = (readAssignments o s.body s.bodyPlace c).carry := by
  obtain ⟨form, text, place⟩ := s
  cases form with
  | statement =>
      simp only [read?, readStatement?] at h
      simp only [body, bodyPlace]
      split at h
      · rename_i r hr
        cases h
        rw [hr]
        exact ⟨rfl, rfl⟩
      · rename_i hr
        split at h
        · rename_i r hr'
          cases h
          rw [hr, hr']
          exact ⟨rfl, rfl⟩
        · cases h
  | continuation | assignments =>
      cases h
      exact ⟨rfl, rfl⟩

/-- No line abandons an expression with open parentheses. -/
def paysBack (o : Options) (values : List Value) (c : Carry) : List Source → Bool
  | [] => true
  | s :: r =>
      match s.read? o c with
      | none => paysBack o values c r
      | some line =>
          !abandons c values s.body &&
            paysBack o (line.pieces.foldl extendValue values) line.carry r

theorem lastCovered_readAll (o : Options) {c : Carry} (lines : List Source) {values : List Value}
    (h : LastCovered c values) :
    LastCovered (lastCarry c (readAll o c lines))
        (((readAll o c lines).flatMap ParamLine.pieces).foldl extendValue values) ∧
      ((∀ w ∈ finished (lastCarry c (readAll o c lines))
          (((readAll o c lines).flatMap ParamLine.pieces).foldl extendValue values), Balanced w) ↔
        (∀ w ∈ finished c values, Balanced w) ∧ paysBack o values c lines = true) := by
  induction lines generalizing c values with
  | nil => exact ⟨h, (and_iff_left rfl).symm⟩
  | cons s r ih =>
      cases hs : s.read? o c with
      | none =>
          simp only [readAll, paysBack, hs]
          exact ih h
      | some line =>
          obtain ⟨hp, hc⟩ := read?_body hs
          obtain ⟨hlast, hline⟩ := lastCovered_readAssignments o s.body s.bodyPlace h
          rw [← hp, ← hc] at hlast hline
          simp only [readAll, paysBack, hs]
          rw [lastCarry_cons, List.flatMap_cons, List.foldl_append]
          obtain ⟨hlast', hall⟩ := ih hlast
          refine ⟨hlast', hall.trans ?_⟩
          rw [hline, Bool.and_eq_true, Bool.not_eq_true', and_assoc]

end Source

/-- What the carry owes closes all parentheses. -/
theorem balanced_owed {v w : Value} {c : Carry} (h : Covers v c) (hc : c.isOpen = true)
    (hform : w.form = v.form) (htext : w.text = v.text ++ c.owed) : Balanced w := by
  intro hbare
  rw [hform] at hbare
  cases c with
  | closed => cases hc
  | bare d =>
      rw [htext, Carry.owed, parensOpen_append, parensOpen_replicate]
      exact Nat.sub_eq_zero_of_le h.2
  | brace _ | quote _ =>
      rw [show v.form = .delimited from h] at hbare
      cases hbare

/-- Closing the last piece pays for the value that is open. -/
theorem balanced_close {values : List Value} {p : Piece} {v : Value} {c : Carry}
    (h : LastCovered c (extendValue values p)) (hc : c.isOpen = true) (hp : value? p = some v) :
    (∀ w ∈ extendValue values (p.close c), Balanced w) ↔
      ∀ w ∈ finished c (extendValue values p), Balanced w := by
  obtain ⟨last, rest, heq, hcovers⟩ := h hc
  have hfinished : finished c (extendValue values p) = rest := by
    rw [heq]
    exact if_pos hc
  have hclosed : extendValue values (p.close c) = rest ∨
      ∃ w, extendValue values (p.close c) = w :: rest ∧ Balanced w := by
    cases p with
    | comment t => cases hp
    | assign name u =>
        obtain ⟨rfl, rfl⟩ := List.cons.inj heq
        simp only [Piece.close]
        split
        · exact .inl rfl
        · exact .inr ⟨_, rfl, balanced_owed hcovers hc rfl rfl⟩
    | fragment u =>
        cases values with
        | nil =>
            obtain ⟨rfl, rfl⟩ := List.cons.inj heq
            exact .inr ⟨_, rfl, balanced_owed hcovers hc rfl rfl⟩
        | cons x r =>
            obtain ⟨rfl, rfl⟩ := List.cons.inj heq
            exact .inr ⟨_, rfl, balanced_owed hcovers hc rfl (List.append_assoc _ _ _).symm⟩
  rw [hfinished]
  obtain hsame | ⟨w, hcons, hw⟩ := hclosed
  · rw [hsame]
  · rw [hcons, List.forall_mem_cons]
    exact and_iff_right hw

namespace Source

theorem balanced_statementLines {o : Options} {lines : List Source} {before : List ParamLine}
    {l : ParamLine} (h : readAll o .closed lines = before ++ [l]) :
    (∀ w ∈ wholeValues ((before ++ [l.close]).flatMap ParamLine.pieces), Balanced w) ↔
      paysBack o [] .closed lines = true := by
  obtain ⟨hlast, hall⟩ := lastCovered_readAll o lines (lastCovered_closed [])
  have hnil : ∀ w ∈ finished .closed ([] : List Value), Balanced w := List.forall_mem_nil _
  rw [and_iff_right hnil] at hall
  rw [← hall]
  simp only [h, lastCarry, List.getLast?_concat, Option.map_some, Option.getD_some,
    List.flatMap_append, List.flatMap_singleton] at hlast ⊢
  have hends := endsOpen_of_readAll (h ▸ List.mem_concat_self : l ∈ readAll o .closed lines)
  obtain ⟨heq, hc⟩ | ⟨pieces, p, v, hp, hclose, hv, -, hc⟩ := close_pieces hends
  · rw [heq, hc]
    rfl
  · rw [hp, ← List.append_assoc, List.foldl_append] at hlast ⊢
    rw [hclose, ← List.append_assoc, wholeValues, List.foldl_append]
    exact balanced_close hlast hc hv

/-- The parentheses of all bare values of a statement are closed if and only if no line of it
ends an expression of an earlier line that has some open. -/
theorem parensOpen_statementLines_iff (o : Options) (lines : List Source) :
    (∀ v ∈ wholeValues ((statementLines o lines).flatMap ParamLine.pieces),
      v.form = .bare → parensOpen 0 v.text = 0) ↔ paysBack o [] .closed lines = true := by
  obtain hnil | ⟨before, l, hlines⟩ := List.eq_nil_or_concat (readAll o .closed lines)
  · obtain ⟨-, hall⟩ := lastCovered_readAll o lines (lastCovered_closed [])
    have hempty : statementLines o lines = [] := by
      rw [statementLines, hnil]
      rfl
    rw [hnil] at hall
    rw [hempty]
    refine iff_of_true (List.forall_mem_nil _) ?_
    exact (hall.mp (List.forall_mem_nil _)).2
  · rw [List.concat_eq_append] at hlines
    rw [statementLines_concat hlines]
    exact balanced_statementLines hlines

/-- An assignment on the second line ends an expression that has a parenthesis open. -/
example : wholeValues ((statementLines {}
      [⟨.statement, "parameters a=(1+".toList, .topLevel⟩,
        ⟨.continuation, "+ b=2".toList, .topLevel⟩]).flatMap ParamLine.pieces) =
    [.numeric "2".toList, { text := "(1+".toList, form := .bare, onNext := true }] := by
  decide +kernel

end Source

end Param
end SpiceDeck
