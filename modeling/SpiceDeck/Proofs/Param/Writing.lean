import SpiceDeck.Proofs.Param.Delimited

/-!
Values over several lines. Every reader leaves the value it reads delimited, or
leaves it open in a way that the carry tells; the next line takes it up from there,
and closing a statement supplies what the carry still owes. So the parts of a value,
written one after the other, make a number, a quoted text or a text in braces.
-/

namespace SpiceDeck
namespace Param
open Text

/-- What is known of the part of a value written so far. -/
def Holds : Carry → Text → Prop
  | .closed, t => IsDelimited t
  | .bare _, t => ∃ u, t = '{' :: u ∧ ∀ c ∈ u, isBrace c = false
  | .brace depth, t => ∃ u, t = '{' :: u ∧ StaysOpen 1 u ∧ 1 + braceDepth u = depth
  | .quote mark, t => (mark = '"' ∨ mark = '\x27') ∧ ∃ u, t = mark :: u ∧ mark ∉ u

/-- The value is the one that the carry speaks of. -/
def Leaves (v : Value) : Carry → Prop
  | .closed => True
  | .bare _ => v.form = .bare ∧ v.onNext = true
  | .brace _ | .quote _ => v.form = .delimited

def BraceFree (v : Value) : Prop := v.form = .bare → ∀ c ∈ v.text, isBrace c = false

theorem braceFree_iff (v : Value) :
    (v.form == .bare && v.text.any isBrace) = false ↔ BraceFree v := by
  simp [BraceFree]

instance (v : Value) : Decidable (BraceFree v) := decidable_of_iff _ (braceFree_iff v)

/-- What closing writes after the text that is there. -/
def completion : Carry → Text
  | .bare depth => List.replicate depth ')' ++ ['}']
  | carry => carry.owed

theorem render_close {v : Value} {c : Carry} (h : Leaves v c) (hc : c.isOpen = true) :
    (v.close c).render = v.render ++ completion c := by
  cases c with
  | closed => cases hc
  | bare d =>
      obtain ⟨hform, hnext⟩ := h
      simp [Value.render, Value.close, completion, Carry.owed, hform, hnext]
  | brace d | quote q =>
      have hform : v.form = .delimited := h
      simp [Value.render, Value.close, completion, hform]

theorem braceDepth_replicate (n : Nat) : braceDepth (List.replicate n '}') = -n := by
  simp [braceDepth, List.count_replicate]

theorem staysOpen_replicate (n : Nat) : StaysOpen (n + 1) (List.replicate n '}') := by
  induction n with
  | zero => exact Int.one_pos
  | succ n ih =>
      have hc : braceDepth ['}'] = -1 := rfl
      have hstep : ((n + 1 : Nat) : Int) + 1 + braceDepth ['}'] = n + 1 := by omega
      refine ⟨by omega, ?_⟩
      rw [hstep]
      exact ih

theorem isDelimited_completion {c : Carry} {t : Text} (h : Holds c t) (hc : c.isOpen = true) :
    IsDelimited (t ++ completion c) := by
  cases c with
  | closed => cases hc
  | bare d =>
      obtain ⟨u, rfl, hu⟩ := h
      right; right
      have hfree : ∀ c ∈ u ++ List.replicate d ')', isBrace c = false := by
        intro c hc
        obtain hc | hc := List.mem_append.mp hc
        · exact hu c hc
        · rw [List.eq_of_mem_replicate hc]
          rfl
      simpa [completion] using isBraced_of_no_brace hfree
  | brace d =>
      obtain ⟨u, rfl, ho, hd⟩ := h
      right; right
      cases d with
      | zero =>
          have := (staysOpen_append (b := []).mp (by simpa using ho)).2.pos
          omega
      | succ n =>
          have hu : StaysOpen 1 (u ++ List.replicate n '}') := by
            rw [staysOpen_append, hd]
            exact ⟨ho, staysOpen_replicate n⟩
          have h0 : braceDepth (u ++ List.replicate n '}') = 0 := by
            rw [braceDepth_append, braceDepth_replicate]
            omega
          have hb := isBraced_of_staysOpen hu h0
          have hrep : List.replicate (n + 1) '}' = List.replicate n '}' ++ ['}'] :=
            List.replicate_succ'
          simpa [completion, Carry.owed, hrep] using hb
  | quote q =>
      obtain ⟨hq, u, rfl, hu⟩ := h
      right; left
      exact ⟨q, u, hq, rfl, hu⟩

/-- A bare expression goes on in braces that are open already. -/
theorem holds_append_bareValue {u text : Text} (hu : ∀ c ∈ u, isBrace c = false) (depth : Nat)
    (h : ∀ c ∈ text, isBrace c = false) :
    Holds (bareValue true text depth).2 ('{' :: u ++ (bareValue true text depth).1.render) := by
  have hfree : ∀ c ∈ u ++ text, isBrace c = false := by
    intro c hc
    obtain hc | hc := List.mem_append.mp hc
    · exact hu c hc
    · exact h c hc
  simp only [bareValue, Value.render]
  by_cases hc : (text.isEmpty || decide (0 < depth) || endsInOperator text) = true
  · simp only [hc, if_true]
    exact ⟨u ++ text, by simp, hfree⟩
  · simp only [hc]
    exact .inr (.inr (by simpa using isBraced_of_no_brace hfree))

theorem holds_bareValue {text : Text} (depth : Nat) (h : ∀ c ∈ text, isBrace c = false) :
    Holds (bareValue false text depth).2 (bareValue false text depth).1.render :=
  holds_append_bareValue (u := []) (by simp) depth h

theorem leaves_bareValue (fromPrevious : Bool) (text : Text) (depth : Nat) :
    Leaves (bareValue fromPrevious text depth).1 (bareValue fromPrevious text depth).2 := by
  simp only [bareValue]
  by_cases hc : (text.isEmpty || decide (0 < depth) || endsInOperator text) = true
  · simp only [hc, if_true]
    exact ⟨rfl, rfl⟩
  · simp only [hc]
    trivial

/-- What is established of every value that a reader starts. -/
structure Started (v : Value) (c : Carry) : Prop where
  holds : BraceFree v → Holds c v.render
  leaves : Leaves v c
  notNumeric : v.form = .bare → isNumeric v.text = false

theorem started_numeric {n : Text} (h : isNumeric n = true) : Started (.numeric n) .closed where
  holds := fun _ => .inl h
  leaves := trivial
  notNumeric := by intro hf; cases hf

theorem started_freshValue (o : Options) (name text : Text) (depth : Nat) :
    Started (freshValue o name text depth).1 (freshValue o name text depth).2 := by
  simp only [freshValue]
  split
  · rename_i n hn
    exact started_numeric (isNumeric_of_switchNumber? hn)
  · split
    · rename_i hn
      exact started_numeric hn
    · rename_i hnot
      split
      · rename_i n hn
        exact started_numeric (isNumeric_of_multiple? hn)
      · refine ⟨?_, leaves_bareValue false _ depth, fun _ => ?_⟩
        · intro hfree
          exact holds_bareValue depth (hfree rfl)
        · exact Bool.eq_false_iff.mpr hnot

theorem started_readQuoted {mark : Char} (hm : mark = '"' ∨ mark = '\x27') (t : Text) :
    Started (readQuoted mark t).value (readQuoted mark t).carry := by
  simp only [readQuoted]
  split
  · rename_i inside rest h
    obtain ⟨u, rfl, hu⟩ := splitAfter?_some h
    exact ⟨fun _ => .inr (.inl ⟨mark, u, hm, rfl, hu⟩), trivial, by intro hf; cases hf⟩
  · rename_i h
    exact ⟨fun _ => ⟨hm, t, rfl, splitAfter?_none h⟩, rfl, by intro hf; cases hf⟩

theorem splitBraced_open (r : Text) :
    splitBraced 0 ('{' :: r) = (splitBraced 1 r).map fun (inside, rest) => ('{' :: inside, rest) :=
  rfl

theorem started_bracedValue (o : Options) {u : Text} (h : StaysOpen 1 u) (h0 : braceDepth u = 0) :
    Started (bracedValue o ('{' :: u ++ ['}'])) .closed := by
  simp only [bracedValue]
  split
  · rename_i n hn
    exact started_numeric (isNumeric_of_multiple? hn)
  · exact ⟨fun _ => .inr (.inr (isBraced_spellRound h h0)), trivial, by intro hf; cases hf⟩

theorem started_readValue (o : Options) (name t : Text) :
    Started (readValue o name t).value (readValue o name t).carry := by
  cases t with
  | nil => exact started_freshValue o name [] 0
  | cons c r =>
      simp only [readValue]
      split
      · rename_i hc
        subst hc
        rw [splitBraced_open]
        cases hs : splitBraced 1 r with
        | ok p =>
            obtain ⟨u, hu, ho, hz⟩ := splitBraced_ok Nat.one_pos hs
            simp only [Except.map, hu]
            split
            · exact started_freshValue o name _ _
            · exact started_bracedValue o ho (by omega)
        | error d =>
            obtain ⟨ho, hz⟩ := splitBraced_error Nat.one_pos hs
            have hr := staysOpen_replaceFrom ho
            refine ⟨fun _ => ⟨replaceFrom roundCall false 0 r, rfl, hr.1, ?_⟩, rfl, ?_⟩
            · rw [hr.2]
              exact hz
            · intro hf
              cases hf
      · split
        · rename_i hq
          simp only [Bool.or_eq_true, decide_eq_true_eq] at hq
          exact started_readQuoted hq r
        · exact started_freshValue o name _ _

theorem holds_resumeValue {c : Carry} {t : Text} (h : Holds c t) (hc : c.isOpen = true) (s : Text)
    (hfree : BraceFree (resumeValue c s).value) :
    Holds (resumeValue c s).carry (t ++ (resumeValue c s).value.render) := by
  cases c with
  | closed => cases hc
  | brace d =>
      obtain ⟨u, rfl, ho, hd⟩ := h
      have hpos : 0 < d := by
        have := (staysOpen_append.mp (by simpa using ho : StaysOpen 1 (u ++ []))).2.pos
        omega
      simp only [resumeValue]
      split
      · rename_i inside rest hs
        obtain ⟨w, rfl, hw, hz⟩ := splitBraced_ok hpos hs
        have huw : StaysOpen 1 (u ++ w) := staysOpen_append.mpr ⟨ho, by rwa [hd]⟩
        have h0 : braceDepth (u ++ w) = 0 := by
          rw [braceDepth_append]
          omega
        refine .inr (.inr ?_)
        simpa [Value.render, Value.delimited] using isBraced_of_staysOpen huw h0
      · rename_i left hs
        obtain ⟨hw, hz⟩ := splitBraced_error hpos hs
        refine ⟨u ++ s, rfl, staysOpen_append.mpr ⟨ho, by rwa [hd]⟩, ?_⟩
        rw [braceDepth_append]
        omega
  | quote q =>
      obtain ⟨hq, u, rfl, hu⟩ := h
      simp only [resumeValue]
      split
      · rename_i inside rest hs
        obtain ⟨w, rfl, hw⟩ := splitAfter?_some hs
        refine .inr (.inl ⟨q, u ++ w, hq, ?_, by simp [hu, hw]⟩)
        simp [Value.render, Value.delimited]
      · rename_i hs
        exact ⟨hq, u ++ s, rfl, by simp [hu, splitAfter?_none hs]⟩
  | bare d =>
      obtain ⟨u, rfl, hu⟩ := h
      simp only [resumeValue] at hfree ⊢
      split at hfree
      · rename_i hstop
        simp only [hstop, if_true]
        exact .inr (.inr (isBraced_of_no_brace hu))
      · rename_i hstop
        simp only [hstop]
        exact holds_append_bareValue hu _ (hfree rfl)

theorem leaves_resumeValue (c : Carry) (s : Text) :
    Leaves (resumeValue c s).value (resumeValue c s).carry := by
  cases c with
  | closed => trivial
  | brace d | quote q =>
      simp only [resumeValue]
      split
      · trivial
      · rfl
  | bare d =>
      simp only [resumeValue]
      split
      · trivial
      · exact leaves_bareValue true _ _

end Param
end SpiceDeck
