import SpiceDeck.Proofs.Param.Writing

/-!
Whole statements. Lines are read in order, each taking up what the one before it
left open, and the last one is closed. Main statement: the parts of every assigned
value, written one after the other, make a number, a quoted text or a text in
braces, and nothing that is written in braces on its own is a number.
-/

namespace SpiceDeck
namespace Param
open Text

/-- How a line of parameters is read. -/
inductive LineForm where
  | statement
  | continuation
  | assignments
  deriving DecidableEq, Repr

/-- A physical line with the way in which it is read. -/
structure Source where
  form : LineForm
  text : Text
  place : Placement
  deriving DecidableEq, Repr

namespace Source

/-- A statement without a marker is no parameter line. -/
def read? (o : Options) (carry : Carry) (s : Source) : Option ParamLine :=
  match s.form with
  | .statement => readStatement? o s.text s.place carry
  | .continuation => some (readContinuation o s.text s.place carry)
  | .assignments => some (readAssignments o s.text s.place carry)

/-- Read the lines in order, each with the carry of the line before it. -/
def readAll (o : Options) (carry : Carry) : List Source → List ParamLine
  | [] => []
  | s :: r =>
      match s.read? o carry with
      | some line => line :: readAll o line.carry r
      | none => readAll o carry r

/-- The parameter lines of a statement, with the value closed that the last one leaves
open. -/
def statementLines (o : Options) (lines : List Source) : List ParamLine :=
  (Continuation.close ((readAll o .closed lines).map .params)).filterMap Continuation.params?

end Source

/-- The value that a piece holds, in whole or in part. -/
def value? : Piece → Option Value
  | .assign _ v | .fragment v => some v
  | .comment _ => none

/-- Take up one more piece. The values stand with the last one first: an assignment
starts a value, a fragment goes on with the last one. -/
def extend (values : List Text) : Piece → List Text
  | .assign _ v => v.render :: values
  | .fragment v =>
      match values with
      | [] => [v.render]
      | t :: values => (t ++ v.render) :: values
  | .comment _ => values

/-- The values that the pieces assign, each with all its fragments. -/
def written (pieces : List Piece) : List Text := pieces.foldl extend []

/-- All values are delimited except for the last one, of which the carry tells. -/
def Settled (c : Carry) : List Text → Prop
  | [] => c = .closed
  | t :: values => Holds c t ∧ ∀ x ∈ values, IsDelimited x

/-- No bare expression has a brace in it. -/
def AllBraceFree (pieces : List Piece) : Prop := ∀ p ∈ pieces, ∀ v ∈ value? p, BraceFree v

theorem allBraceFree_iff (pieces : List Piece) :
    ((pieces.filterMap value?).all fun v => decide (BraceFree v)) = true ↔ AllBraceFree pieces := by
  simp only [AllBraceFree, List.all_eq_true, List.mem_filterMap, decide_eq_true_eq]
  exact ⟨fun h p hp v hv => h v ⟨p, hp, hv⟩, fun h v ⟨p, hp, hv⟩ => h p hp v hv⟩

instance (pieces : List Piece) : Decidable (AllBraceFree pieces) :=
  decidable_of_iff _ (allBraceFree_iff pieces)

theorem settled_closed_iff {values : List Text} :
    Settled .closed values ↔ ∀ x ∈ values, IsDelimited x := by
  cases values with
  | nil => simp [Settled]
  | cons t values => simp [Settled, Holds]

theorem eq_closed_of_not_isOpen {c : Carry} (h : ¬c.isOpen = true) : c = .closed := by
  cases c with
  | closed => rfl
  | bare _ | brace _ | quote _ => exact absurd rfl h

theorem settled_assign {values : List Text} (h : Settled .closed values) {v : Value} {c : Carry}
    (hs : Started v c) (hfree : BraceFree v) (name : Text) :
    Settled c (extend values (.assign name v)) :=
  ⟨hs.holds hfree, settled_closed_iff.mp h⟩

theorem settled_resumeValue {values : List Text} {c : Carry} (h : Settled c values)
    (hc : c.isOpen = true) (s : Text) (hfree : BraceFree (resumeValue c s).value) :
    Settled (resumeValue c s).carry (extend values (.fragment (resumeValue c s).value)) := by
  cases values with
  | nil =>
      cases h
      cases hc
  | cons t values => exact ⟨holds_resumeValue h.1 hc s hfree, h.2⟩

theorem settled_readList (o : Options) (passing : Bool) (t : Text) (values : List Text)
    (h : Settled .closed values) (hfree : AllBraceFree (readList o passing t).pieces) :
    Settled (readList o passing t).carry ((readList o passing t).pieces.foldl extend values) := by
  fun_induction readList o passing t generalizing values with
  | case1 => exact h
  | case2 passing t c r _ name after _ _ ih => exact ih values h hfree
  | case3 passing t c r _ name after _ _ read _ =>
      exact settled_assign h (started_readValue o name after)
            (hfree _ List.mem_cons_self _ rfl) name
  | case4 passing t c r _ name after _ _ read hclosed ih =>
      have hv := settled_assign h (started_readValue o name after)
        (hfree _ List.mem_cons_self _ rfl) name
      rw [eq_closed_of_not_isOpen hclosed] at hv
      exact ih _ hv fun p hp => hfree p (List.mem_cons_of_mem _ hp)
  | case5 passing t c r _ _ word _ ih =>
      have hone : Started (.numeric ['1']) .closed := started_numeric (by decide)
      have hv := settled_assign h hone (hfree _ List.mem_cons_self _ rfl) word
      exact ih _ hv fun p hp => hfree p (List.mem_cons_of_mem _ hp)
  | case6 passing t c r _ _ word _ => exact h

theorem settled_allPieces {l : Listing} {values : List Text}
    (h : Settled l.carry (l.pieces.foldl extend values)) :
    Settled l.carry (l.allPieces.foldl extend values) := by
  simp only [Listing.allPieces]
  split
  · exact h
  · rw [List.foldl_append]
    exact h

theorem mem_allPieces {l : Listing} {p : Piece} (h : p ∈ l.pieces) : p ∈ l.allPieces := by
  simp only [Listing.allPieces]
  split
  · exact h
  · exact List.mem_append_left _ h

theorem settled_readAssignments (o : Options) (t : Text) (place : Placement) {c : Carry}
    {values : List Text} (h : Settled c values)
    (hfree : AllBraceFree (readAssignments o t place c).pieces) :
    Settled (readAssignments o t place c).carry
      ((readAssignments o t place c).pieces.foldl extend values) := by
  simp only [readAssignments] at hfree ⊢
  split at hfree
  · rename_i hc
    simp only [hc, if_true]
    split at hfree
    · rename_i hopen
      simp only [hopen, if_true]
      exact settled_resumeValue h hc _ (hfree _ List.mem_cons_self _ rfl)
    · rename_i hclosed
      simp only [hclosed]
      refine settled_allPieces (l := (readList o _ _).cons _) ?_
      have hv := settled_resumeValue h hc (trim t)
        (hfree _ (mem_allPieces List.mem_cons_self) _ rfl)
      rw [eq_closed_of_not_isOpen hclosed] at hv
      exact settled_readList o _ _ _ hv
        fun p hp => hfree p (mem_allPieces (List.mem_cons_of_mem _ hp))
  · rename_i hc
    simp only [hc]
    rw [eq_closed_of_not_isOpen hc] at h
    exact settled_allPieces
      (settled_readList o _ _ _ h fun p hp => hfree p (mem_allPieces hp))

/-- While a value is open, the last piece is the one that holds it. -/
def EndsOpen (pieces : List Piece) (c : Carry) : Prop :=
  c.isOpen = true → ∃ before p v, pieces = before ++ [p] ∧ value? p = some v ∧ Leaves v c

theorem EndsOpen.cons {pieces : List Piece} {c : Carry} (h : EndsOpen pieces c) (p : Piece) :
    EndsOpen (p :: pieces) c := by
  intro hc
  obtain ⟨before, q, v, rfl, hv, hl⟩ := h hc
  exact ⟨p :: before, q, v, rfl, hv, hl⟩

theorem endsOpen_readList (o : Options) (passing : Bool) (t : Text) :
    EndsOpen (readList o passing t).pieces (readList o passing t).carry := by
  fun_induction readList o passing t with
  | case1 | case6 => intro h; cases h
  | case2 passing t c r _ name after _ _ ih => exact ih
  | case3 passing t c r _ name after _ _ read _ =>
      exact fun _ => ⟨[], _, _, rfl, rfl, (started_readValue o name after).leaves⟩
  | case4 passing t c r _ name after _ _ read _ ih => exact ih.cons _
  | case5 passing t c r _ _ word _ ih => exact ih.cons _

theorem endsOpen_allPieces {l : Listing} (h : EndsOpen l.pieces l.carry) :
    EndsOpen l.allPieces l.carry := by
  intro hc
  have heq : l.allPieces = l.pieces := by simp [Listing.allPieces, hc]
  rw [heq]
  exact h hc

theorem endsOpen_readAssignments (o : Options) (t : Text) (place : Placement) (c : Carry) :
    EndsOpen (readAssignments o t place c).pieces (readAssignments o t place c).carry := by
  simp only [readAssignments]
  split
  · split
    · exact fun _ => ⟨[], _, _, rfl, rfl, leaves_resumeValue c _⟩
    · exact endsOpen_allPieces ((endsOpen_readList o _ _).cons _)
  · exact endsOpen_allPieces (endsOpen_readList o _ _)

namespace Source

/-- However a line is read, its pieces and its carry are those of an assignment list. -/
theorem read?_some {o : Options} {c : Carry} {s : Source} {line : ParamLine}
    (h : s.read? o c = some line) : ∃ t place,
      line.pieces = (readAssignments o t place c).pieces ∧
        line.carry = (readAssignments o t place c).carry := by
  simp only [read?] at h
  split at h
  · simp only [readStatement?] at h
    split at h
    · cases h
      exact ⟨_, _, rfl, rfl⟩
    · split at h
      · cases h
        exact ⟨_, _, rfl, rfl⟩
      · cases h
  · cases h
    exact ⟨_, _, rfl, rfl⟩
  · cases h
    exact ⟨_, _, rfl, rfl⟩

/-- What the lines leave open, if they start from the given carry. -/
def lastCarry (c : Carry) (lines : List ParamLine) : Carry :=
  (lines.getLast?.map ParamLine.carry).getD c

theorem lastCarry_cons (c : Carry) (line : ParamLine) (lines : List ParamLine) :
    lastCarry c (line :: lines) = lastCarry line.carry lines := by
  cases lines with
  | nil => rfl
  | cons l r => simp [lastCarry, List.getLast?_cons]

theorem settled_readAll (o : Options) (c : Carry) (lines : List Source) (values : List Text)
    (h : Settled c values)
    (hfree : AllBraceFree ((readAll o c lines).flatMap ParamLine.pieces)) :
    Settled (lastCarry c (readAll o c lines))
      (((readAll o c lines).flatMap ParamLine.pieces).foldl extend values) := by
  induction lines generalizing c values with
  | nil => exact h
  | cons s r ih =>
      cases hs : s.read? o c with
      | none =>
          simp only [readAll, hs] at hfree ⊢
          exact ih c values h hfree
      | some line =>
          simp only [readAll, hs] at hfree ⊢
          rw [lastCarry_cons, List.flatMap_cons, List.foldl_append]
          rw [List.flatMap_cons] at hfree
          obtain ⟨t, place, hp, hc⟩ := read?_some hs
          refine ih line.carry _ ?_ fun p hp => hfree p (List.mem_append_right _ hp)
          have hline := settled_readAssignments o t place h
          rw [← hp, ← hc] at hline
          exact hline fun p hp => hfree p (List.mem_append_left _ hp)

theorem mem_readAll {o : Options} {c : Carry} {lines : List Source} {line : ParamLine}
    (h : line ∈ readAll o c lines) : ∃ t place c',
      line.pieces = (readAssignments o t place c').pieces ∧
        line.carry = (readAssignments o t place c').carry := by
  induction lines generalizing c with
  | nil => cases h
  | cons s r ih =>
      cases hs : s.read? o c with
      | none =>
          simp only [readAll, hs] at h
          exact ih h
      | some l =>
          simp only [readAll, hs] at h
          obtain rfl | h := List.mem_cons.mp h
          · obtain ⟨t, place, hp, hc⟩ := read?_some hs
            exact ⟨t, place, c, hp, hc⟩
          · exact ih h

end Source

/-- An assigned expression that is written in braces is no number. -/
def BareIsNoNumber (p : Piece) : Prop :=
  ∀ name v, p = .assign name v → v.form = .bare → isNumeric v.text = false

theorem bareIsNoNumber_readList (o : Options) (passing : Bool) (t : Text) :
    ∀ p ∈ (readList o passing t).pieces, BareIsNoNumber p := by
  fun_induction readList o passing t with
  | case1 => simp
  | case2 passing t c r _ name after _ _ ih => exact ih
  | case3 passing t c r _ name after _ _ read _ =>
      rintro p hp n v rfl hform
      cases List.mem_singleton.mp hp
      exact (started_readValue o name after).notNumeric hform
  | case4 passing t c r _ name after _ _ read _ ih =>
      rintro p hp n v rfl hform
      obtain heq | hp := List.mem_cons.mp hp
      · cases heq
        exact (started_readValue o name after).notNumeric hform
      · exact ih _ hp n v rfl hform
  | case5 passing t c r _ _ word _ ih =>
      rintro p hp n v rfl hform
      obtain heq | hp := List.mem_cons.mp hp
      · cases heq
        cases hform
      · exact ih _ hp n v rfl hform
  | case6 passing t c r _ _ word _ =>
      rintro p hp n v rfl
      cases List.mem_singleton.mp hp

theorem bareIsNoNumber_allPieces {l : Listing} (h : ∀ p ∈ l.pieces, BareIsNoNumber p) :
    ∀ p ∈ l.allPieces, BareIsNoNumber p := by
  simp only [Listing.allPieces]
  split
  · exact h
  · rintro p hp n v rfl
    obtain hp | hp := List.mem_append.mp hp
    · exact h _ hp n v rfl
    · cases List.mem_singleton.mp hp

theorem bareIsNoNumber_readAssignments (o : Options) (t : Text) (place : Placement) (c : Carry) :
    ∀ p ∈ (readAssignments o t place c).pieces, BareIsNoNumber p := by
  simp only [readAssignments]
  split
  · split
    · rintro p hp n v rfl
      cases List.mem_singleton.mp hp
    · apply bareIsNoNumber_allPieces
      rintro p hp n v rfl
      obtain heq | hp := List.mem_cons.mp hp
      · cases heq
      · exact bareIsNoNumber_readList o _ _ _ hp n v rfl
  · exact bareIsNoNumber_allPieces (bareIsNoNumber_readList o _ _)

/-- A number has no parenthesis, so closing one does not make a number. -/
theorem isNumeric_append_owed {t : Text} {c : Carry} (h : isNumeric t = false) :
    (∀ d, c = .bare d → isNumeric (t ++ c.owed) = false) := by
  rintro (_ | d) rfl
  · simpa [Carry.owed] using h
  · rw [Bool.eq_false_iff]
    intro hn
    have hall := List.all_eq_true.mp (all_isNumberChar_of_isNumeric hn) ')' (by
      simp [Carry.owed, List.replicate_succ])
    revert hall
    decide

theorem bareIsNoNumber_close {p : Piece} {v : Value} {c : Carry} (h : BareIsNoNumber p)
    (hv : value? p = some v) (hl : Leaves v c) : BareIsNoNumber (p.close c) := by
  rintro n w heq hform
  cases p with
  | assign name u =>
      cases hv
      simp only [Piece.close] at heq
      split at heq
      · cases heq
      · cases heq
        have hv : v.form = .bare := hform
        have hn := h n v rfl hv
        cases c with
        | closed => simpa [Value.close, Carry.owed] using hn
        | bare d => exact isNumeric_append_owed hn d rfl
        | brace d | quote q =>
            rw [show v.form = .delimited from hl] at hv
            cases hv
  | fragment u | comment u => cases heq

/-- Closing the last piece supplies what its value owes. -/
theorem settled_close {values : List Text} {p : Piece} {v : Value} {c : Carry}
    (h : Settled c (extend values p)) (hc : c.isOpen = true) (hv : value? p = some v)
    (hl : Leaves v c) : ∀ x ∈ extend values (p.close c), IsDelimited x := by
  have hcons : ∀ (t : Text) (r : List Text), Holds c t → (∀ x ∈ r, IsDelimited x) →
      ∀ x ∈ (t ++ completion c) :: r, IsDelimited x := by
    rintro t r ht hr x hx
    obtain rfl | hx := List.mem_cons.mp hx
    · exact isDelimited_completion ht hc
    · exact hr x hx
  cases p with
  | comment t => cases hv
  | assign name u =>
      cases hv
      simp only [Piece.close]
      split
      · exact h.2
      · simp only [extend, render_close hl hc]
        exact hcons _ _ h.1 h.2
  | fragment u =>
      cases hv
      cases values with
      | nil =>
          simp only [Piece.close, extend, render_close hl hc]
          exact hcons _ _ h.1 h.2
      | cons t r =>
          simp only [Piece.close, extend, render_close hl hc, ← List.append_assoc]
          exact hcons _ _ h.1 h.2

theorem close_append {pieces : List Piece} {p : Piece} {v : Value} {l : ParamLine}
    (hp : l.pieces = pieces ++ [p]) (hv : value? p = some v) (hc : l.carry.isOpen = true) :
    l.close.pieces = pieces ++ [p.close l.carry] := by
  have hfirst : Piece.closeFirst l.carry (p :: pieces.reverse) =
          p.close l.carry :: pieces.reverse := by
    cases p with
    | comment t => cases hv
    | assign _ _ | fragment _ => rfl
  simp [ParamLine.close, ParamLine.isOpen, hc, hp, hfirst]

/-- What is known of a closed line from its pieces before closing. -/
theorem close_pieces {l : ParamLine} (h : EndsOpen l.pieces l.carry) :
    l.close.pieces = l.pieces ∧ l.carry = .closed ∨
      ∃ pieces p v, l.pieces = pieces ++ [p] ∧ l.close.pieces = pieces ++ [p.close l.carry] ∧
        value? p = some v ∧ Leaves v l.carry ∧ l.carry.isOpen = true := by
  cases hc : l.carry.isOpen with
  | true =>
      obtain ⟨pieces, p, v, hp, hv, hl⟩ := h hc
      exact .inr ⟨pieces, p, v, hp, close_append hp hv hc, hv, hl, rfl⟩
  | false =>
      refine .inl ⟨?_, eq_closed_of_not_isOpen (by simp [hc])⟩
      simp [ParamLine.close, ParamLine.isOpen, hc]

theorem braceFree_of_close {p : Piece} {c : Carry}
    (h : ∀ v, value? (p.close c) = some v → BraceFree v) :
    ∀ v, value? p = some v → BraceFree v := by
  intro v hv hform x hx
  cases p with
  | comment t => cases hv
  | assign name u =>
      cases hv
      simp only [Piece.close] at h
      split at h
      · rename_i hvoid
        simp only [Value.isVoid, Bool.and_eq_true, List.isEmpty_iff] at hvoid
        rw [hvoid.1.2] at hx
        cases hx
      · exact h _ rfl hform x (List.mem_append_left _ hx)
  | fragment u =>
      cases hv
      exact h _ rfl hform x (List.mem_append_left _ hx)

namespace Source

theorem statementLines_concat {o : Options} {lines : List Source} {before : List ParamLine}
    {l : ParamLine} (h : readAll o .closed lines = before ++ [l]) :
    statementLines o lines = before ++ [l.close] := by
  have hid : Continuation.params? ∘ Continuation.params = some := rfl
  simp [statementLines, h, Continuation.close, Continuation.modifyLast, Continuation.modifyFirst,
    List.filterMap_map, hid, Continuation.params?]

theorem endsOpen_of_readAll {o : Options} {lines : List Source} {l : ParamLine}
    (h : l ∈ readAll o .closed lines) : EndsOpen l.pieces l.carry := by
  obtain ⟨t, place, c, hp, hc⟩ := mem_readAll h
  rw [hp, hc]
  exact endsOpen_readAssignments o t place c

theorem isDelimited_close {o : Options} {lines : List Source} {before : List ParamLine}
    {l : ParamLine} (h : readAll o .closed lines = before ++ [l])
    (hfree : AllBraceFree ((before ++ [l.close]).flatMap ParamLine.pieces)) :
    ∀ t ∈ written ((before ++ [l.close]).flatMap ParamLine.pieces), IsDelimited t := by
  have hset := settled_readAll o .closed lines [] rfl
  simp only [h, lastCarry, List.getLast?_concat, Option.map_some, Option.getD_some,
    List.flatMap_append, List.flatMap_singleton] at hset
  simp only [List.flatMap_append, List.flatMap_singleton] at hfree ⊢
  have hends := endsOpen_of_readAll (h ▸ List.mem_concat_self : l ∈ readAll o .closed lines)
  obtain ⟨heq, hc⟩ | ⟨pieces, p, v, hp, hclose, hv, hl, hc⟩ := close_pieces hends
  · rw [heq] at hfree ⊢
    rw [hc] at hset
    exact settled_closed_iff.mp (hset hfree)
  · rw [hclose, ← List.append_assoc] at hfree ⊢
    rw [hp, ← List.append_assoc, List.foldl_append] at hset
    rw [written, List.foldl_append]
    refine settled_close (hset ?_) hc hv hl
    intro q hq w hw
    obtain hq | hq := List.mem_append.mp hq
    · exact hfree q (List.mem_append_left _ hq) w hw
    · cases List.mem_singleton.mp hq
      exact braceFree_of_close (hfree _ List.mem_concat_self) w hw

theorem bareIsNoNumber_of_close {o : Options} {lines : List Source} {before : List ParamLine}
    {l : ParamLine} (h : readAll o .closed lines = before ++ [l]) :
    ∀ line ∈ before ++ [l.close], ∀ p ∈ line.pieces, BareIsNoNumber p := by
  have hread : ∀ line ∈ before ++ [l], ∀ p ∈ line.pieces, BareIsNoNumber p := by
    intro line hline p hp
    obtain ⟨t, place, c, hpieces, -⟩ := mem_readAll (h ▸ hline)
    exact bareIsNoNumber_readAssignments o t place c p (hpieces ▸ hp)
  intro line hline p hp
  obtain hline | hline := List.mem_append.mp hline
  · exact hread line (List.mem_append_left _ hline) p hp
  · cases List.mem_singleton.mp hline
    have hl := hread l List.mem_concat_self
    have hends := endsOpen_of_readAll (h ▸ List.mem_concat_self : l ∈ readAll o .closed lines)
    obtain ⟨heq, -⟩ | ⟨pieces, q, v, hq, hclose, hv, hleaves, -⟩ := close_pieces hends
    · exact hl p (heq ▸ hp)
    · rw [hclose] at hp
      rw [hq] at hl
      obtain hp | hp := List.mem_append.mp hp
      · exact hl p (List.mem_append_left _ hp)
      · cases List.mem_singleton.mp hp
        exact bareIsNoNumber_close (hl q List.mem_concat_self) hv hleaves

/-- Every assigned value of a statement is delimited once the statement is closed,
provided that no brace stands in a bare expression; and no bare expression that an
assignment starts is a number. -/
theorem isDelimited_statementLines (o : Options) (lines : List Source) :
    (AllBraceFree ((statementLines o lines).flatMap ParamLine.pieces) →
      ∀ t ∈ written ((statementLines o lines).flatMap ParamLine.pieces), IsDelimited t) ∧
    ∀ line ∈ statementLines o lines, ∀ name v, .assign name v ∈ line.pieces →
      v.form = .bare → isNumeric v.text = false := by
  obtain hnil | ⟨before, l, hlines⟩ := List.eq_nil_or_concat (readAll o .closed lines)
  · have hempty : statementLines o lines = [] := by
      rw [statementLines, hnil]
      rfl
    simp [hempty, written]
  · rw [List.concat_eq_append] at hlines
    rw [statementLines_concat hlines]
    refine ⟨isDelimited_close hlines, ?_⟩
    intro line hline name v hmem
    exact bareIsNoNumber_of_close hlines line hline _ hmem name v rfl

/-- Values that run on to the next line as an expression, in braces and in quotes, and
one that nothing closes. -/
def spreadLines : List Source :=
  [ ⟨.statement, "parameters a=2*x +".toList, .topLevel⟩,
    ⟨.continuation, "+ 3*y b=\x7bp".toList, .topLevel⟩,
    ⟨.continuation, "+ q\x7d f='u".toList, .topLevel⟩,
    ⟨.assignments, "v' g=max(h,".toList, .topLevel⟩ ]

theorem isDelimited_spreadLines :
    AllBraceFree ((statementLines {} spreadLines).flatMap ParamLine.pieces) ∧
    written ((statementLines {} spreadLines).flatMap ParamLine.pieces) =
      ["{max(h,)}".toList, "'uv'".toList, "{pq}".toList, "{2*x+3*y}".toList] ∧
    ∀ t ∈ written ((statementLines {} spreadLines).flatMap ParamLine.pieces), IsDelimited t :=
  have hfree : AllBraceFree ((statementLines {} spreadLines).flatMap ParamLine.pieces) := by
    decide +kernel
  ⟨hfree, by decide +kernel, (isDelimited_statementLines {} spreadLines).1 hfree⟩

end Source

end Param
end SpiceDeck
