import SpiceDeck.Proofs.Param.Composed

/-!
Reformatting a parameter statement twice. The lines of a statement are read in order, the
value that the last one leaves open is closed, and the lines are written. Main statement:
the written lines, read in the same way, leave nothing open, and they are written with the
same text exactly unless closing makes a product in braces of the last value.
-/

namespace SpiceDeck
namespace Param
open Text

variable {o : Options} {t : Text} {c : Carry}

namespace Source

/-- A line of a parameter statement: a head with its marker or a continuation. -/
structure InStatement (o : Options) (s : Source) : Prop where
  place : s.place = .topLevel
  form : s.form ≠ .assignments
  reads : ∀ c, (s.read? o c).isSome = true

/-- Every line of a statement is an assignment list behind its marker. -/
theorem InStatement.read? {s : Source} (h : InStatement o s) (c : Carry) :
    ∃ t, s.read? o c = some ((readAssignments o t .topLevel c).withMarker s.form.marker) := by
  obtain ⟨form, text, place⟩ := s
  obtain ⟨rfl, hform, hreads⟩ := h
  have hread := hreads c
  simp only [Source.read?] at hread ⊢
  cases form with
  | assignments => exact absurd rfl hform
  | continuation => exact ⟨_, rfl⟩
  | statement =>
      simp only [readStatement?] at hread ⊢
      split at hread
      · exact ⟨_, rfl⟩
      · split at hread
        · exact ⟨_, rfl⟩
        · cases hread

/-- A line of a statement is composed of pieces that read back. -/
theorem InStatement.composed {s : Source} (h : InStatement o s) (hs : Sound c) {l : ParamLine}
    (hl : s.read? o c = some l) :
    l.marker = s.form.marker ∧ EndsOpen l.pieces l.carry ∧
      (AllBraceFree l.pieces → Composed o c l.pieces l.carry) := by
  obtain ⟨t, ht⟩ := h.read? c
  cases ht.symm.trans hl
  exact ⟨rfl, endsOpen_readAssignments o t .topLevel c, composed_readAssignments hs⟩

/-- A line before the last one is written again as it stands. -/
theorem InStatement.reread {s : Source} (h : InStatement o s) (hs : Sound c) {l : ParamLine}
    (hl : s.read? o c = some l) (hfree : AllBraceFree l.pieces) :
    Sound l.carry ∧ ∃ l', (rewritten s.form l).read? o c.again = some l' ∧
      l'.carry = l.carry.again ∧ l'.render = l.render := by
  obtain ⟨hmark, -, hcomp⟩ := h.composed hs hl
  refine ⟨(hcomp hfree).sound, ?_⟩
  obtain ⟨l', hread, hcarry, hsame⟩ := RereadsLine.read? h.form hmark (hcomp hfree).rereads
  exact ⟨l', hread, hcarry, hsame.mpr rfl⟩

theorem marker_close (l : ParamLine) : l.close.marker = l.marker := by
  rw [ParamLine.close]
  split
  · rfl
  · rfl

theorem closesProduct_of_closed {l : ParamLine} (h : l.carry = .closed) :
    l.closesProduct o = false := by
  rw [ParamLine.closesProduct, h]
  cases l.pieces.getLast? with
  | none => rfl
  | some p =>
      cases p with
      | assign _ _ | fragment _ | comment _ => rfl

theorem allBraceFree_of_close {l : ParamLine} (h : EndsOpen l.pieces l.carry)
    (hfree : AllBraceFree l.close.pieces) : AllBraceFree l.pieces := by
  obtain ⟨heq, -⟩ | ⟨before, p, v, hp, hclose, -, -, -⟩ := close_pieces h
  · exact heq ▸ hfree
  · rw [hclose] at hfree
    rw [hp]
    intro q hq w hw
    obtain hq | hq := List.mem_append.mp hq
    · exact hfree q (List.mem_append_left _ hq) w hw
    · cases List.mem_singleton.mp hq
      exact braceFree_of_close (hfree _ List.mem_concat_self) w hw

/-- The last line, once it is closed. -/
theorem InStatement.reread_close {s : Source} (h : InStatement o s) (hs : Sound c)
    {l : ParamLine} (hl : s.read? o c = some l) (hfree : AllBraceFree l.close.pieces) :
    ∃ l', (rewritten s.form l.close).read? o c.again = some l' ∧ l'.carry = .closed ∧
      (l'.render = l.close.render ↔ l.closesProduct o = false) := by
  obtain ⟨hmark, hends, hcomp⟩ := h.composed hs hl
  have hline := hcomp (allBraceFree_of_close hends hfree)
  rw [← marker_close] at hmark
  obtain ⟨heq, hclosed⟩ | ⟨before, p, v, hp, hclose, -, -, hopen⟩ := close_pieces hends
  · have hsame := hline.rereads
    rw [← heq, hclosed] at hsame
    obtain ⟨l', hread, hcarry, hiff⟩ := RereadsLine.read? h.form hmark hsame
    exact ⟨l', hread, hcarry, iff_of_true (hiff.mpr rfl) (closesProduct_of_closed hclosed)⟩
  · obtain ⟨u, hu, hproduct⟩ := hline.rereads_close hopen hp
    rw [← hclose] at hu hproduct
    obtain ⟨l', hread, hcarry, hiff⟩ := RereadsLine.read? h.form hmark hu
    have hlast : l.closesProduct o = p.closesProduct o l.carry := by
      rw [ParamLine.closesProduct, hp, List.getLast?_concat]
      rfl
    exact ⟨l', hread, hcarry, by rw [hiff, hproduct, hlast]⟩

/-- The lines of a statement, with the last one closed. -/
def closeLast : List ParamLine → List ParamLine
  | [] => []
  | [l] => [l.close]
  | l :: m :: r => l :: closeLast (m :: r)

theorem closeLast_concat (before : List ParamLine) (l : ParamLine) :
    closeLast (before ++ [l]) = before ++ [l.close] := by
  induction before with
  | nil => rfl
  | cons m before ih =>
      cases before with
      | nil => rfl
      | cons k before => exact congrArg (m :: ·) ih

theorem closeLast_cons (l : ParamLine) {ls : List ParamLine} (h : ls ≠ []) :
    closeLast (l :: ls) = l :: closeLast ls := by
  cases ls with
  | nil => exact absurd rfl h
  | cons m r => rfl

theorem length_closeLast (ls : List ParamLine) : (closeLast ls).length = ls.length := by
  obtain rfl | ⟨before, l, rfl⟩ := List.eq_nil_or_concat' ls
  · rfl
  · simp [closeLast_concat]

theorem closeLast_of_closed {ls : List ParamLine} (h : lastCarry .closed ls = .closed) :
    closeLast ls = ls := by
  obtain rfl | ⟨before, l, rfl⟩ := List.eq_nil_or_concat' ls
  · rfl
  · have hl : l.carry = .closed := by simpa [lastCarry] using h
    rw [closeLast_concat]
    simp [ParamLine.close, ParamLine.isOpen, hl, Carry.isOpen]

theorem statementLines_eq (o : Options) (ss : List Source) :
    statementLines o ss = closeLast (readAll o .closed ss) := by
  obtain hnil | ⟨before, l, hlines⟩ := List.eq_nil_or_concat' (readAll o .closed ss)
  · rw [statementLines, hnil]
    rfl
  · rw [statementLines_concat hlines, hlines, closeLast_concat]

/-- Closing the last line makes a product in braces of its last value. -/
def closesProduct (o : Options) (ls : List ParamLine) : Bool :=
  ls.getLast?.any (ParamLine.closesProduct o)

theorem closesProduct_cons (l : ParamLine) {ls : List ParamLine} (h : ls ≠ []) :
    closesProduct o (l :: ls) = closesProduct o ls := by
  cases ls with
  | nil => exact absurd rfl h
  | cons m r => rw [closesProduct, List.getLast?_cons_cons, closesProduct]

theorem length_readAll {ss : List Source} (h : ∀ s ∈ ss, InStatement o s) (c : Carry) :
    (readAll o c ss).length = ss.length := by
  induction ss generalizing c with
  | nil => rfl
  | cons s r ih =>
      obtain ⟨hs, hr⟩ := List.forall_mem_cons.mp h
      obtain ⟨t, ht⟩ := hs.read? c
      simp only [readAll, ht, List.length_cons, ih hr]

/-- The written lines of a statement read back line by line. -/
theorem readAll_rewritten {ss : List Source} (h : ∀ s ∈ ss, InStatement o s) (hne : ss ≠ [])
    (hc : Sound c)
    (hfree : AllBraceFree ((closeLast (readAll o c ss)).flatMap ParamLine.pieces)) :
    ∃ ms, readAll o c.again
        (List.zipWith rewritten (ss.map Source.form) (closeLast (readAll o c ss))) = ms ∧
      lastCarry c.again ms = .closed ∧
      (ms.map ParamLine.render = (closeLast (readAll o c ss)).map ParamLine.render ↔
        closesProduct o (readAll o c ss) = false) := by
  -- by the lines: all but the last are carried over with `again` between the carries
  induction ss generalizing c with
  | nil => exact absurd rfl hne
  | cons s r ih =>
      obtain ⟨hs, hr⟩ := List.forall_mem_cons.mp h
      obtain ⟨l, hl⟩ := Option.isSome_iff_exists.mp (hs.reads c)
      simp only [readAll, hl] at hfree ⊢
      cases r with
      | nil =>
          simp only [readAll, closeLast, List.flatMap_singleton] at hfree
          obtain ⟨l', hread, hcarry, hiff⟩ := hs.reread_close hc hl hfree
          refine ⟨[l'], ?_, hcarry, ?_⟩
          · simp [readAll, closeLast, hread]
          · simpa [readAll, closeLast, closesProduct] using hiff
      | cons s' r =>
          have hrest : readAll o l.carry (s' :: r) ≠ [] := by
            rw [← List.length_pos_iff, length_readAll hr]
            exact Nat.succ_pos _
          rw [closeLast_cons l hrest] at hfree ⊢
          rw [List.flatMap_cons] at hfree
          obtain ⟨hsound, l', hread, hcarry, hsame⟩ := hs.reread hc hl
            fun p hp => hfree p (List.mem_append_left _ hp)
          obtain ⟨ms, hms, hlast, hiff⟩ := ih hr (by simp) hsound
            fun p hp => hfree p (List.mem_append_right _ hp)
          refine ⟨l' :: ms, ?_, ?_, ?_⟩
          · simp only [List.map_cons, List.zipWith_cons_cons, readAll, hread, hcarry]
            rw [← hms]
            rfl
          · rw [lastCarry_cons, hcarry, hlast]
          · rw [closesProduct_cons l hrest, ← hiff, List.map_cons, List.map_cons, hsame]
            simp

/-- The lines of a statement: a head and its continuations. -/
def statement : List Text → List Source
  | [] => []
  | head :: rest =>
      ⟨.statement, head, .topLevel⟩ :: rest.map fun t => ⟨.continuation, t, .topLevel⟩

/-- The lines in which a statement is written. -/
def reformat (o : Options) (lines : List Text) : List Text :=
  (statementLines o (statement lines)).map ParamLine.render

theorem isSome_readStatement? {place : Placement} (c c' : Carry) :
    (readStatement? o t place c).isSome = (readStatement? o t place c').isSome := by
  simp only [readStatement?]
  split
  · rfl
  · split
    · rfl
    · rfl

theorem inStatement_statement {head : Text} (rest : List Text)
    (h : (readStatement? o head .topLevel .closed).isSome = true) :
    ∀ s ∈ statement (head :: rest), InStatement o s := by
  intro s hs
  obtain rfl | hs := List.mem_cons.mp hs
  · refine ⟨rfl, nofun, fun c => ?_⟩
    rw [← h]
    exact isSome_readStatement? c .closed
  · obtain ⟨t, -, rfl⟩ := List.mem_map.mp hs
    exact ⟨rfl, nofun, fun _ => rfl⟩

theorem zipWith_rewritten_continuations {texts : List Text} {ls : List ParamLine}
    (h : ls.length = texts.length) :
    List.zipWith rewritten (texts.map fun _ => LineForm.continuation) ls =
      (ls.map ParamLine.render).map fun t => ⟨.continuation, t, .topLevel⟩ := by
  induction texts generalizing ls with
  | nil =>
      rw [List.length_eq_zero_iff.mp h]
      rfl
  | cons t texts ih =>
      cases ls with
      | nil => cases h
      | cons l ls => exact congrArg (rewritten .continuation l :: ·) (ih (Nat.succ.inj h))

theorem zipWith_rewritten {head : Text} {rest : List Text} {ls : List ParamLine}
    (h : ls.length = (statement (head :: rest)).length) :
    List.zipWith rewritten ((statement (head :: rest)).map Source.form) ls =
      statement (ls.map ParamLine.render) := by
  cases ls with
  | nil => cases h
  | cons l ls =>
      have hlen : ls.length = rest.length := by simpa [statement] using h
      have hforms : (rest.map fun t => (⟨.continuation, t, .topLevel⟩ : Source)).map Source.form =
          rest.map fun _ => LineForm.continuation := by
        rw [List.map_map]
        rfl
      rw [statement, List.map_cons, hforms, List.zipWith_cons_cons,
        zipWith_rewritten_continuations hlen]
      rfl

theorem carried_params (ls : List ParamLine) :
    Continuation.carried (ls.map .params) = lastCarry .closed ls := by
  have hid : Continuation.params? ∘ Continuation.params = some := rfl
  rw [Continuation.carried, List.filterMap_map, hid, List.filterMap_some, lastCarry]
  cases ls.getLast? <;> rfl

/-- Where no bare expression has a brace in it, a reformatted statement leaves nothing open,
and reformatting it again gives the same lines exactly unless its closing made a product in
braces. -/
theorem reformat_reformat_iff (o : Options) (head : Text) (rest : List Text)
    (hmark : (readStatement? o head .topLevel .closed).isSome = true)
    (hfree : AllBraceFree ((statementLines o (statement (head :: rest))).flatMap
      ParamLine.pieces)) :
    Continuation.carried
        ((readAll o .closed (statement (reformat o (head :: rest)))).map .params) = .closed ∧
    (reformat o (reformat o (head :: rest)) = reformat o (head :: rest) ↔
      closesProduct o (readAll o .closed (statement (head :: rest))) = false) := by
  have hall := inStatement_statement rest hmark
  rw [statementLines_eq] at hfree
  obtain ⟨ms, hms, hlast, hiff⟩ := readAll_rewritten hall (by simp [statement])
    (c := .closed) trivial hfree
  have hlen : (closeLast (readAll o .closed (statement (head :: rest)))).length =
      (statement (head :: rest)).length := by
    rw [length_closeLast, length_readAll hall]
  rw [zipWith_rewritten hlen, ← statementLines_eq] at hms
  have hagain : readAll o .closed (statement (reformat o (head :: rest))) = ms := hms
  refine ⟨?_, ?_⟩
  · rw [hagain, carried_params]
    exact hlast
  · rw [← hiff, reformat, statementLines_eq, hagain, closeLast_of_closed hlast, reformat,
      statementLines_eq]

/-- A name without value and a remark. -/
def remarkedHead : Text := "parameters a=round(x /2) b=3*m c= $ per finger".toList

/-- An expression, a value in braces and one in quotes that run on, and a parenthesis that
nothing closes. -/
def runningOn : List Text :=
  [ "+ d=2*y +".toList, "+ z e=\x7bround(r) +".toList, "+ s\x7d f='u  v".toList,
    "w' g=max(h,".toList ]

theorem reformat_reformat_runningOn :
    (readStatement? {} remarkedHead .topLevel .closed).isSome = true ∧
    AllBraceFree ((statementLines {} (statement (remarkedHead :: runningOn))).flatMap
      ParamLine.pieces) ∧
    reformat {} (remarkedHead :: runningOn) =
      [ ".param a=\x7bfloor(0.5+x/2)\x7d b=3 $ per finger $ c=".toList, "+ d=\x7b2*y+".toList,
        "+ z\x7d e=\x7bfloor(0.5+r) +".toList, "+ s\x7d f='u  v".toList,
        "+ w' g=\x7bmax(h,)\x7d".toList ] ∧
    Continuation.carried
        ((readAll {} .closed (statement (reformat {} (remarkedHead :: runningOn)))).map .params) =
      .closed ∧
    reformat {} (reformat {} (remarkedHead :: runningOn)) =
      reformat {} (remarkedHead :: runningOn) := by
  have hmark : (readStatement? {} remarkedHead .topLevel .closed).isSome = true := by
    decide +kernel
  have hfree : AllBraceFree ((statementLines {} (statement (remarkedHead :: runningOn))).flatMap
      ParamLine.pieces) := by
    decide +kernel
  obtain ⟨hcarried, hiff⟩ := reformat_reformat_iff {} remarkedHead runningOn hmark hfree
  exact ⟨hmark, hfree, by decide +kernel, hcarried, hiff.mpr (by decide +kernel)⟩

/-- A product in braces that only the end of the statement closes is folded on the second
reading. -/
example : reformat {} [".param a=\x7b2*m".toList] = [".param a=\x7b2*m\x7d".toList] ∧
    reformat {} [".param a=\x7b2*m\x7d".toList] = [".param a=2".toList] := by
  decide +kernel

end Source

end Param
end SpiceDeck
