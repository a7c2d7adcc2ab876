import SpiceDeck.Proofs.Param.Rereading

/-!
Values as a first reading leaves them. Every value that it starts is spelled to the end,
folded where it can be, and ends in no blank; so the value reads back as it was written. A
bare expression reads back as a value in braces: `again` gives the carry of the second
reading. Main statement: a value that is closed at the end of its statement reads back as it
was written, unless closing makes a product in braces of it.
-/

namespace SpiceDeck

/-- The carry with which a written line is read again. -/
def Carry.again : Carry → Carry
  | .bare _ => .brace 1
  | .closed => .closed
  | .brace depth => .brace depth
  | .quote mark => .quote mark

theorem Carry.isOpen_again (c : Carry) : c.again.isOpen = c.isOpen := by
  cases c <;> rfl

/-- Closing the value makes a product in braces of it, which the reading of a closed value
would have folded. -/
def Value.closesProduct (o : Options) (c : Carry) (v : Value) : Bool :=
  c = .brace 1 && (Param.multiple? o.multiplicityVar (Text.trim v.text.tail)).isSome

namespace Param
open Text

variable {o : Options} {name w t : Text} {c c₀ : Carry} {v : Value}

@[simp] theorem completion_closed : completion .closed = [] := rfl

/-- The text is spelled, ends in ink, and is folded unless its braces or quotes are open. -/
structure Tidy (o : Options) (w : Text) (c : Carry) : Prop where
  spelt : IsSpelt w
  ends : EndsInInk w
  folded : c.isGreedy = false → refold o (w ++ completion c) = w ++ completion c

theorem refold_of_head (h : w.head? ≠ some '{') : refold o w = w := if_neg h

theorem refold_of_multiple? {u : Text} (h : multiple? o.multiplicityVar (trim u) = none) :
    refold o ('{' :: (u ++ ['}'])) = '{' :: (u ++ ['}']) := by
  have hinside : ('{' :: (u ++ ['}'])).tail.dropLast = u := by simp
  rw [refold, hinside, h]
  rfl

theorem tidy_numeric (o : Options) (h : isNumeric w = true) : Tidy o w .closed := by
  have hhead : w.head? ≠ some '{' := by
    intro hhead
    exact not_mem_of_isNumeric h (a := '{') (by decide) (List.mem_of_head? hhead)
  refine ⟨fun hw => absurd hw hhead, endsInInk_of_all (not_isSpace_of_isNumeric h), fun _ => ?_⟩
  rw [completion_closed, List.append_nil, refold_of_head hhead]

theorem tidy_readQuoted {mark : Char} (hm : mark = '"' ∨ mark = '\x27') (ht : EndsInInk t) :
    Tidy o (readQuoted mark t).value.render (readQuoted mark t).carry := by
  obtain ⟨-, hink, hbrace, -⟩ := isValueStart_quote hm
  have hspelt : ∀ u, IsSpelt (mark :: u) := by
    intro u hu
    exact absurd (Option.some.inj hu) hbrace
  simp only [readQuoted]
  split
  · rename_i inside rest h
    obtain ⟨u, rfl, -⟩ := splitAfter?_some h
    refine ⟨hspelt _, endsInInk_concat hink (mark :: u), fun _ => ?_⟩
    apply refold_of_head
    intro hu
    exact hbrace (Option.some.inj hu)
  · refine ⟨hspelt _, ?_, by rintro ⟨⟩⟩
    cases t with
    | nil => exact endsInInk_concat hink []
    | cons a r => exact ht.append (by simp) [mark]

theorem tidy_bracedValue {u : Text} (h : StaysOpen 1 u) (h0 : braceDepth u = 0) :
    Tidy o (bracedValue o ('{' :: u ++ ['}'])).render .closed := by
  simp only [bracedValue]
  split
  · rename_i n hn
    exact tidy_numeric o (isNumeric_of_multiple? hn)
  · rename_i hn
    refine ⟨fun _ => occurs_spellRound _, ?_, fun _ => ?_⟩
    · exact endsInInk_spellRound (endsInInk_concat rfl _)
    · rw [completion_closed, List.append_nil]
      change refold o (spellRound ('{' :: u ++ ['}'])) = spellRound ('{' :: u ++ ['}'])
      obtain hsame | hparen := spellRound_eq_or ('{' :: u ++ ['}'])
      · rw [hsame]
        exact refold_of_multiple? (by simpa using hn)
      · obtain ⟨u', hu', -, -⟩ := (isBraced_spellRound h h0).exists_inside
        rw [hu'] at hparen ⊢
        exact refold_of_multiple? (multiple?_of_mem _ (c := '(') (by simpa using hparen) rfl)

theorem bareValue_cases (fromPrevious : Bool) (text : Text) (depth : Nat) :
    (bareValue fromPrevious text depth).2 = .closed ∧
        (bareValue fromPrevious text depth).1.render =
          (if fromPrevious then [] else ['{']) ++ text ++ ['}'] ∨
      (bareValue fromPrevious text depth).2 = .bare depth ∧
        (bareValue fromPrevious text depth).1.render =
          (if fromPrevious then [] else ['{']) ++ text := by
  by_cases hc : (text.isEmpty || decide (0 < depth) || endsInOperator text) = true
  · refine .inr ⟨if_pos hc, ?_⟩
    simp only [bareValue, Value.render, hc, if_true, List.append_nil]
  · refine .inl ⟨if_neg hc, ?_⟩
    simp only [bareValue, Value.render, hc]
    rfl

theorem tidy_bareValue {raw : Text} (depth : Nat) (hstart : StartsInInk raw)
    (hend : EndsInInk raw) (hm : multiple? o.multiplicityVar (spellRound raw) = none) :
    Tidy o (bareValue false (spellRound raw) depth).1.render
      (bareValue false (spellRound raw) depth).2 := by
  have hink := endsInInk_spellRound hend
  have htrim := (startsInInk_spellRound hstart).trim hink
  have hspelt : occurs roundCall false ('{' :: spellRound raw) = false := occurs_spellRound raw
  obtain ⟨hc, hr⟩ | ⟨hc, hr⟩ := bareValue_cases false (spellRound raw) depth
  · rw [hc, hr]
    refine ⟨fun _ => ?_, ?_, fun _ => ?_⟩
    · exact occurs_append (y := ['}']) hspelt (List.all_eq_true.mp rfl)
    · exact endsInInk_concat rfl _
    · rw [completion_closed, List.append_nil]
      exact refold_of_multiple? (htrim.symm ▸ hm)
  · rw [hc, hr]
    refine ⟨fun _ => hspelt, ?_, fun _ => ?_⟩
    · cases hs : spellRound raw with
      | nil => exact endsInInk_concat rfl []
      | cons a r => exact (hs ▸ hink).append (by simp) ['{']
    · have happend : '{' :: spellRound raw ++ completion (.bare depth) =
          '{' :: ((spellRound raw ++ List.replicate depth ')') ++ ['}']) := by
        simp [completion]
      refine happend.symm ▸ refold_of_multiple? ?_
      cases depth with
      | zero => simpa [htrim] using hm
      | succ k => exact multiple?_of_mem _ (c := ')') (by simp [List.replicate_succ]) rfl

theorem tidy_freshValue (o : Options) (name : Text) {raw : Text} (depth : Nat)
    (hstart : StartsInInk raw) (hend : EndsInInk raw) :
    Tidy o (freshValue o name raw depth).1.render (freshValue o name raw depth).2 := by
  simp only [freshValue]
  split
  · rename_i n hn
    exact tidy_numeric o (isNumeric_of_switchNumber? hn)
  · split
    · rename_i hn
      exact tidy_numeric o hn
    · split
      · rename_i n hn
        exact tidy_numeric o (isNumeric_of_multiple? hn)
      · rename_i hn
        exact tidy_bareValue depth hstart hend hn

theorem token_ink (t : Text) : ∀ a ∈ token t, isSpace a = false := by
  intro a ha
  simpa using List.mem_takeWhile_imp ha

theorem extendExpression_ink (text rest : Text) (hne : text ≠ []) (hstart : StartsInInk text)
    (hend : EndsInInk text) :
    StartsInInk (extendExpression text rest).1 ∧ EndsInInk (extendExpression text rest).1 := by
  fun_induction extendExpression text rest with
  | case1 | case2 | case4 => exact ⟨hstart, hend⟩
  | case3 text rest a r h _ _ ih =>
      have htoken := token_ne_nil (r := r) (not_of_dropWhile_eq_cons h)
      refine ih (by simp [hne]) (hstart.append hne _) ?_
      exact (endsInInk_of_all (token_ink _)).append htoken text

theorem suffix_extendExpression (text rest : Text) : (extendExpression text rest).2 <:+ rest := by
  fun_induction extendExpression text rest with
  | case1 | case2 | case4 => exact List.suffix_refl _
  | case3 text rest a r h _ _ ih =>
      refine ih.trans ((List.dropWhile_suffix _).trans ?_)
      rw [← h]
      exact List.dropWhile_suffix isSpace

theorem suffix_readExpression (text : Text) (depth : Nat) (t : Text) :
    (readExpression text depth t).rest <:+ t :=
  (suffix_extendExpression _ _).trans (List.dropWhile_suffix _)

theorem suffix_readFresh (o : Options) (name text : Text) (depth : Nat) (t : Text) :
    (readFresh o name text depth t).rest <:+ t :=
  suffix_readExpression text depth t

theorem tidy_readFresh (o : Options) (name : Text) {text t : Text} (depth : Nat)
    (hne : text ++ token t ≠ []) (hstart : StartsInInk (text ++ token t))
    (hend : EndsInInk (text ++ token t)) :
    Tidy o (readFresh o name text depth t).value.render (readFresh o name text depth t).carry := by
  obtain ⟨h1, h2⟩ := extendExpression_ink _ (afterToken t) hne hstart hend
  exact tidy_freshValue o name _ h1 h2

theorem splitBraced_eq {depth : Nat} {t inside rest : Text}
    (h : splitBraced depth t = .ok (inside, rest)) : t = inside ++ rest := by
  induction t generalizing depth inside with
  | nil => cases h
  | cons a r ih =>
      simp only [splitBraced] at h
      split at h
      · cases h
        rfl
      · generalize (if a = '{' then depth + 1 else if a = '}' then depth - 1 else depth) = d at h
        cases hs : splitBraced d r with
        | error e => rw [hs] at h; cases h
        | ok p =>
            rw [hs] at h
            cases h
            exact congrArg (a :: ·) (ih hs)

theorem splitAfter?_eq {mark : Char} {t inside rest : Text}
    (h : splitAfter? mark t = some (inside, rest)) : t = inside ++ rest := by
  induction t generalizing inside with
  | nil => cases h
  | cons a r ih =>
      simp only [splitAfter?] at h
      split at h
      · cases h
        rfl
      · obtain ⟨⟨b, s⟩, hs, heq⟩ := Option.map_eq_some_iff.mp h
        cases heq
        exact congrArg (a :: ·) (ih hs)

theorem tidy_readValue (o : Options) (name : Text) (hstart : StartsInInk t) (hend : EndsInInk t) :
    Tidy o (readValue o name t).value.render (readValue o name t).carry := by
  cases t with
  | nil => exact tidy_freshValue o name 0 nofun nofun
  | cons a r =>
      simp only [readValue]
      split
      · rename_i ha
        subst ha
        rw [splitBraced_open]
        cases hs : splitBraced 1 r with
        | ok p =>
            obtain ⟨u, hu, ho, hz⟩ := splitBraced_ok Nat.one_pos hs
            simp only [Except.map, hu]
            split
            · have hparens : ('{' :: (u ++ ['}'])).tail.dropLast = u := by simp
              rw [hparens]
              refine tidy_readFresh o name _ (by simp) ?_ ?_
              · exact startsInInk_cons rfl _
              · by_cases htoken : token p.2 = []
                · rw [htoken, List.append_nil]
                  exact endsInInk_concat rfl _
                · exact (endsInInk_of_all (token_ink _)).append htoken _
            · exact tidy_bracedValue ho (by omega)
        | error d =>
            exact ⟨fun _ => occurs_spellRound _, endsInInk_spellRound hend, by rintro ⟨⟩⟩
      · split
        · rename_i hq
          simp only [Bool.or_eq_true, decide_eq_true_eq] at hq
          exact tidy_readQuoted hq (hend.suffix (List.suffix_cons a r))
        · have hink : ∀ b ∈ token (a :: r), isSpace b = false := token_ink _
          refine tidy_readFresh o name 0 (token_ne_nil (hstart a rfl)) ?_ (endsInInk_of_all hink)
          intro b hb
          exact hink b (List.mem_of_head? hb)

theorem suffix_readValue (o : Options) (name t : Text) : (readValue o name t).rest <:+ t := by
  cases t with
  | nil => exact List.suffix_refl _
  | cons a r =>
      simp only [readValue]
      split
      · cases hs : splitBraced 0 (a :: r) with
        | ok p =>
            have hp : p.2 <:+ a :: r := ⟨p.1, (splitBraced_eq hs).symm⟩
            simp only
            split
            · exact (suffix_readFresh o name _ _ _).trans hp
            · exact hp
        | error d => exact List.nil_suffix
      · split
        · simp only [readQuoted]
          split
          · rename_i inside rest hs
            exact ⟨a :: inside, by rw [splitAfter?_eq hs]; rfl⟩
          · exact List.nil_suffix
        · exact suffix_readFresh o name _ _ _

theorem isTarget_of_assignment? {after : Text} (h : assignment? t = some (name, after)) :
    IsTarget name ∧ after <:+ t := by
  cases t with
  | nil => cases h
  | cons a r =>
      simp only [assignment?] at h
      split at h
      · rename_i ha
        split at h
        · rename_i rest hrest
          split at h
          · cases h
          · cases h
            refine ⟨⟨a, _, rfl, ha, fun x hx => List.mem_takeWhile_imp hx⟩, ?_⟩
            have h1 : '=' :: rest <:+ r.dropWhile isTargetChar := by
              rw [← hrest]
              exact List.dropWhile_suffix isSpace
            have h2 : r.dropWhile isTargetChar <:+ a :: r :=
              (List.dropWhile_suffix _).trans (List.suffix_cons a r)
            exact (List.dropWhile_suffix isSpace).trans
              ((List.suffix_cons '=' rest).trans (h1.trans h2))
        · cases h
      · cases h

/-- What is known of a value where it starts, with what it leaves open. -/
structure Begun (o : Options) (v : Value) (c : Carry) : Prop where
  holds : Holds c v.render
  leaves : Leaves v c
  tidy : Tidy o v.render c

theorem begun_readValue (o : Options) (name : Text) (hstart : StartsInInk t) (hend : EndsInInk t)
    (hfree : BraceFree (readValue o name t).value) :
    Begun o (readValue o name t).value (readValue o name t).carry :=
  have h := started_readValue o name t
  ⟨h.holds hfree, h.leaves, tidy_readValue o name hstart hend⟩

/-- An open expression is open in the one brace that it is written with. -/
theorem holds_again (h : Holds c w) : Holds c.again w := by
  cases c with
  | closed | brace _ | quote _ => exact h
  | bare d =>
      obtain ⟨u, rfl, hu⟩ := h
      obtain ⟨hopen, hdepth⟩ := staysOpen_of_no_brace Int.one_pos hu
      exact ⟨u, rfl, hopen, by rw [hdepth]; rfl⟩

theorem isGreedy_again (h : c.isOpen = true) : c.again.isGreedy = true := by
  cases c with
  | closed => cases h
  | bare _ | brace _ | quote _ => rfl

theorem Begun.reads (h : Begun o v c) (name : Text) : Reads o name v.render c.again v.render := by
  cases hc : c.isOpen with
  | true =>
      exact reads_open o name (holds_again h.holds) (isGreedy_again hc) h.tidy.spelt h.tidy.ends
  | false =>
      have hclosed : c = .closed := eq_closed_of_not_isOpen (by simp [hc])
      subst hclosed
      have hfold := h.tidy.folded rfl
      rw [completion_closed, List.append_nil] at hfold
      have hread := reads_delimited o name h.holds h.tidy.spelt
      rwa [hfold] at hread

theorem isSpelt_completion (h : Holds c w) (hs : IsSpelt w) : IsSpelt (w ++ completion c) := by
  cases c with
  | closed => simpa [completion, Carry.owed] using hs
  | bare d =>
      obtain ⟨u, rfl, -⟩ := h
      intro _
      refine occurs_append (hs rfl) ?_
      intro a ha
      obtain ha | ha := List.mem_append.mp ha
      · rw [List.eq_of_mem_replicate ha]
        rfl
      · rw [List.mem_singleton.mp ha]
        rfl
  | brace d =>
      obtain ⟨u, rfl, -⟩ := h
      intro _
      refine occurs_append (hs rfl) ?_
      intro a ha
      rw [List.eq_of_mem_replicate ha]
      rfl
  | quote mark =>
      obtain ⟨hm, u, rfl, -⟩ := h
      intro hhead
      obtain rfl | rfl := hm <;> cases hhead

/-- Closed at the end of the statement, a value reads back up to its end. -/
theorem Begun.reads_completed (h : Begun o v c) (hc : c.isOpen = true) (name : Text) :
    Reads o name (v.render ++ completion c) .closed (refold o (v.render ++ completion c)) :=
  reads_delimited o name (isDelimited_completion h.holds hc)
    (isSpelt_completion h.holds h.tidy.spelt)

theorem Begun.refold_eq_iff (h : Begun o v c) (hc : c.isOpen = true) :
    refold o (v.render ++ completion c) = v.render ++ completion c ↔
      v.closesProduct o c = false := by
  cases c with
  | closed => cases hc
  | bare d => exact iff_of_true (h.tidy.folded rfl) rfl
  | quote mark =>
      refine iff_of_true (refold_of_head ?_) rfl
      obtain ⟨hm, u, hu, -⟩ := h.holds
      rw [hu]
      obtain rfl | rfl := hm <;> simp
  | brace d =>
      obtain ⟨u, hu, hopen, hd⟩ := h.holds
      have htext : v.text = '{' :: u := by
        have hform : v.form = .delimited := h.leaves
        rw [← hu, Value.render, hform]
      rw [hu, Value.closesProduct, htext, List.tail_cons]
      cases d with
      | zero =>
          have := hopen.depth_pos
          omega
      | succ n =>
          have happend : '{' :: u ++ completion (.brace (n + 1)) =
              '{' :: ((u ++ List.replicate n '}') ++ ['}']) := by
            simp [completion, Carry.owed, List.replicate_succ']
          rw [happend]
          cases n with
          | succ n =>
              refine iff_of_true (refold_of_multiple? ?_) (by simp)
              exact multiple?_of_mem _ (c := '}') (by simp [List.replicate_succ]) rfl
          | zero =>
              rw [List.replicate_zero, List.append_nil]
              cases hm : multiple? o.multiplicityVar (trim u) with
              | none => exact iff_of_true (refold_of_multiple? hm) rfl
              | some n =>
                  refine iff_of_false ?_ (by simp)
                  -- the folded product is a number, and no number starts with a brace
                  have hfold : refold o ('{' :: (u ++ ['}'])) = n := by
                    have hinside : ('{' :: (u ++ ['}'])).tail.dropLast = u := by simp
                    rw [refold, hinside, hm]
                    rfl
                  rw [hfold]
                  rintro rfl
                  exact not_mem_of_isNumeric (isNumeric_of_multiple? hm) (a := '{') (by decide)
                    List.mem_cons_self

end Param
end SpiceDeck
