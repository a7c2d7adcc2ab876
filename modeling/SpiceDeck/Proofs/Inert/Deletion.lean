import SpiceDeck.Proofs.Inert.Run
import SpiceDeck.Proofs.Text.Lines

/-!
Comments and blank lines are inert: a deck without them is converted to the same
output, up to comments and blank lines, with the same warnings.
-/

namespace SpiceDeck
open Text

namespace Text

/-- A blank line, or a comment: blanks aside, it starts with `*` or `//`. -/
def isSilent (raw : Text) : Bool :=
  match trimStart raw with
  | [] => true
  | '*' :: _ => true
  | '/' :: '/' :: _ => true
  | _ => false

/-- The text without its comments and blank lines, each deleted with its end. -/
def withoutSilent (t : Text) : Text :=
  let parts := feedParts t
  let last := parts.getLast?.getD []
  (parts.dropLast.filter (!isSilent ·)).flatMap (· ++ ['\n']) ++ if isSilent last then [] else last

theorem isSilent_trimEnd (raw : Text) : isSilent (trimEnd raw) = isSilent raw := by
  simp only [isSilent, trimStart_trimEnd]
  cases h : trimStart raw with
  | nil => rfl
  | cons c r =>
      have hc : isSpace c = false := not_of_dropWhile_eq_cons h
      rw [trimEnd_cons hc]
      cases r with
      | nil => rfl
      | cons e r =>
          by_cases he : e = '/'
          · subst he
            rw [trimEnd_cons (by decide)]
            split <;> simp_all
          · obtain ⟨u, hu⟩ := trimEnd_begins (e :: r)
            have hr : ∀ x, trimEnd (e :: r) ≠ '/' :: x := by
              intro x hx
              rw [hx] at hu
              exact he (List.cons.inj hu).1.symm
            split <;> simp_all

theorem trimEnd_dropReturn (t : Text) : trimEnd (dropReturn t) = trimEnd t := by
  simp only [dropReturn]
  split
  · next h =>
      have ht : t = t.dropLast ++ ['\r'] := by
        have hne : t ≠ [] := by
          intro e
          simp [e] at h
        rw [List.getLast?_eq_some_getLast hne, Option.some.injEq] at h
        rw [← h, List.dropLast_concat_getLast]
      have hr : isSpace '\r' = true := by decide
      rw [ht]
      simp [trimEnd, hr]
  · rfl

theorem isSilent_dropReturn (raw : Text) : isSilent (dropReturn raw) = isSilent raw := by
  rw [← isSilent_trimEnd, trimEnd_dropReturn, isSilent_trimEnd]

theorem lines_withoutSilent (t : Text) :
    lines (withoutSilent t) = (lines t).filter (!isSilent ·) := by
  have hparts : ∀ l ∈ feedParts t, '\n' ∉ l := fun l hl => feed_not_mem_of_mem_feedParts hl
  have hlast : ∀ l, (feedParts t).getLast? = some l → '\n' ∉ l := fun l hl =>
    hparts l (List.mem_of_getLast? hl)
  have hkept : ((feedParts t).dropLast.filter (!isSilent ·)).flatMap feedParts =
      (feedParts t).dropLast.filter (!isSilent ·) := by
    have hone : ∀ l ∈ (feedParts t).dropLast.filter (!isSilent ·), feedParts l = [l] := fun l hl =>
      feedParts_line (hparts l (List.mem_of_mem_dropLast (List.mem_of_mem_filter hl)))
    rw [List.flatMap_congr hone]
    simp
  have hfilter : ∀ ls : List Text,
      (ls.map dropReturn).filter (!isSilent ·) = (ls.filter (!isSilent ·)).map dropReturn := by
    intro ls
    rw [List.filter_map]
    congr 2
    funext l
    simp [isSilent_dropReturn]
  have hlines : lines t = (feedParts t).dropLast.map dropReturn ++
      if ((feedParts t).getLast?.getD []).isEmpty then [] else [(feedParts t).getLast?.getD []] :=
    rfl
  simp only [withoutSilent, lines_flatMap, hkept, hlines, List.filter_append, hfilter]
  congr 1
  cases h : (feedParts t).getLast? with
  | none => rfl
  | some l =>
      have hfeed := hlast l h
      cases l with
      | nil => rfl
      | cons c l =>
          simp only [Option.getD_some, List.isEmpty_cons, Bool.false_eq_true, if_false]
          split
          · next hs => simp [hs, lines, cut]
          · next hs => simp [hs, lines_last hfeed]

end Text

namespace Line

/-- The numbers of the lines that are neither comments nor blank. -/
def keptFrom (n : Nat) : List Text → List Nat
  | [] => []
  | raw :: r => if isSilent raw then keptFrom (n + 1) r else n :: keptFrom (n + 1) r

theorem keptFrom_getElem? {raws : List Text} {n i : Nat} {raw : Text}
    (h : (raws.filter (!isSilent ·))[i]? = some raw) :
    ∃ k, (keptFrom n raws)[i]? = some (n + k) ∧ raws[k]? = some raw := by
  induction raws generalizing n i with
  | nil => simp at h
  | cons x r ih =>
      have hrest : ∀ {i : Nat}, (r.filter (!isSilent ·))[i]? = some raw →
          ∃ k, (keptFrom (n + 1) r)[i]? = some (n + k) ∧ (x :: r)[k]? = some raw := by
        intro i hi
        obtain ⟨k, hk, hraw⟩ := ih (n := n + 1) hi
        exact ⟨k + 1, by rw [hk, Nat.add_assoc, Nat.add_comm 1 k], hraw⟩
      cases hs : isSilent x with
      | true =>
          rw [List.filter_cons_of_neg (by simp [hs])] at h
          rw [keptFrom, hs]
          exact hrest h
      | false =>
          rw [List.filter_cons_of_pos (by simp [hs])] at h
          rw [keptFrom, hs]
          cases i with
          | zero => exact ⟨0, rfl, h⟩
          | succ i => exact hrest h

theorem isInert_comment {r : Text} (h : '\n' ∉ r) : isInert ('*' :: r) = true := by
  have hstar : trimStart ('*' :: r) = '*' :: r := by
    have hc : isSpace '*' = false := by decide
    simp [trimStart, hc]
  simp [isInert, Deck.isPassive, hstar, h]

theorem read_silent {raw : Text} (h : isSilent raw = true) (hfeed : '\n' ∉ raw) (n : Nat)
    (joined : Bool) :
    (read n joined raw).1.isCode = false ∧ isInert (read n joined raw).1.verbatim = true ∧
      (read n joined raw).2 = joined := by
  rw [← isSilent_trimEnd] at h
  have hmem : ∀ {x : Text}, trimStart (trimEnd raw) = x → '\n' ∉ x := by
    intro x hx hmem
    rw [← hx] at hmem
    exact hfeed ((trimEnd_begins raw).subset ((List.dropWhile_suffix isSpace).subset hmem))
  simp only [isSilent] at h
  simp only [read]
  split
  · exact ⟨rfl, rfl, rfl⟩
  · next hx =>
      refine ⟨rfl, isInert_comment fun hr => hmem hx ?_, rfl⟩
      exact List.mem_cons_of_mem _ (List.mem_cons_of_mem _ hr)
  · next hx =>
      exact ⟨rfl, isInert_comment fun hr => hmem hx (List.mem_cons_of_mem _ hr), rfl⟩
  · next h1 h2 hx =>
      rw [hx] at h
      split at h <;> simp_all

theorem isCode_read {raw : Text} (h : isSilent raw = false) (n : Nat) (joined : Bool) :
    (read n joined raw).1.isCode = true := by
  rw [← isSilent_trimEnd] at h
  simp only [isSilent] at h
  simp only [read]
  split
  · next hx => simp [hx] at h
  · next hx => simp [hx] at h
  · next hx => simp [hx] at h
  · rfl

theorem read_number (raw : Text) (n m : Nat) (joined : Bool) :
    read n joined raw = ({ (read m joined raw).1 with number := n }, (read m joined raw).2) := by
  simp only [read]
  split <;> rfl

theorem quiet_readFrom {raws : List Text} (h : ∀ raw ∈ raws, '\n' ∉ raw) (n : Nat) (joined : Bool) :
    Quiet (readFrom n joined raws) := by
  induction raws generalizing n joined with
  | nil => exact fun l hl => absurd hl List.not_mem_nil
  | cons raw r ih =>
      intro l hl hcode
      have hmem : l = (read n joined raw).1 ∨ l ∈ readFrom (n + 1) (read n joined raw).2 r :=
        List.mem_cons.mp hl
      obtain hl | hl := hmem
      · rw [hl] at hcode ⊢
        cases hs : isSilent raw with
        | true => exact (read_silent hs (h raw List.mem_cons_self) n joined).2.1
        | false =>
            rw [isCode_read hs] at hcode
            cases hcode
      · exact ih (fun x hx => h x (List.mem_cons_of_mem raw hx)) _ _ l hl hcode

/-- The code lines of a text are the lines of the text without the others, under the
numbers they had there. -/
theorem filter_isCode_readFrom {ρ : Nat → Nat} {raws : List Text} (h : ∀ raw ∈ raws, '\n' ∉ raw)
    {n m : Nat} (hρ : ∀ i k, (keptFrom n raws)[i]? = some k → ρ (m + i) = k) (joined : Bool) :
    (readFrom n joined raws).filter isCode =
      (readFrom m joined (raws.filter (!isSilent ·))).map (renumber ρ) := by
  induction raws generalizing n m joined with
  | nil => rfl
  | cons raw r ih =>
      have hr : ∀ x ∈ r, '\n' ∉ x := fun x hx => h x (List.mem_cons_of_mem raw hx)
      cases hs : isSilent raw with
      | true =>
          obtain ⟨hcode, -, hjoined⟩ := read_silent hs (h raw List.mem_cons_self) n joined
          have hkept : keptFrom n (raw :: r) = keptFrom (n + 1) r := by simp [keptFrom, hs]
          rw [hkept] at hρ
          simp only [readFrom, List.filter_cons, hcode, hs, hjoined]
          exact ih hr hρ joined
      | false =>
          have hcode := isCode_read hs n joined
          have hkept : keptFrom n (raw :: r) = n :: keptFrom (n + 1) r := by simp [keptFrom, hs]
          rw [hkept] at hρ
          have hn : ρ m = n := hρ 0 n rfl
          have hnext : ∀ i k, (keptFrom (n + 1) r)[i]? = some k → ρ (m + 1 + i) = k := by
            intro i k hk
            rw [Nat.add_right_comm]
            exact hρ (i + 1) k hk
          have hline : (read n joined raw).1 = (read m joined raw).1.renumber ρ := by
            rw [read_number raw n m, read_number raw m m]
            simp only [renumber, hn]
          have hjoined : (read n joined raw).2 = (read m joined raw).2 := by
            rw [read_number raw n m]
          simp only [readFrom, List.filter_cons, hcode, hs, Bool.not_false, if_true, List.map_cons]
          rw [ih hr hnext, hline, hjoined]

end Line

namespace Item

variable {ρ : Nat → Nat}

theorem Thinned.skipAll {lines : List Line} (hl : ∀ l ∈ lines, isInert l.verbatim = true)
    {xs ys : List Item} (h : Thinned ρ xs ys) : Thinned ρ (lines.map .line ++ xs) ys := by
  induction lines with
  | nil => exact h
  | cons l r ih =>
      exact .skip (hl l List.mem_cons_self) (ih fun x hx => hl x (List.mem_cons_of_mem l hx))

theorem alike_head {l : Line} (hl : l.isCode = true) :
    Statement.Alike ρ { head := l.renumber ρ } { head := l } :=
  ⟨rfl, ⟨hl, fun _ hx => absurd hx List.not_mem_nil⟩, ⟨hl, fun _ hx => absurd hx List.not_mem_nil⟩⟩

/-- A continuation joins both statements; the lines pending before it join one. -/
theorem alike_continue {s t : Statement} (h : s.Alike ρ t) {pending : List Line}
    (hp : ∀ l ∈ pending, l.isCode = false ∧ isInert l.verbatim = true) {l : Line}
    (hl : l.isCode = true) :
    Statement.Alike ρ { s with tail := s.tail ++ pending ++ [l.renumber ρ] }
      { t with tail := t.tail ++ [] ++ [l] } := by
  have hpending : Line.strip id pending = [] := by
    have hnone : pending.filter Line.isCode = [] :=
      List.filter_eq_nil_iff.mpr fun l hl => by simp [(hp l hl).1]
    rw [Line.strip, hnone]
    rfl
  have happend : ∀ (ρ : Nat → Nat) (a b : List Line),
      Line.strip ρ (a ++ b) = Line.strip ρ a ++ Line.strip ρ b := by
    intro ρ a b
    simp [Line.strip]
  have hquiet : ∀ {a : List Line} {x : Line}, Line.Quiet a → x.isCode = true →
      Line.Quiet (a ++ [x]) := by
    intro a x ha hx y hy hcode
    obtain hy | hy := List.mem_append.mp hy
    · exact ha y hy hcode
    · rw [List.mem_singleton.mp hy, hx] at hcode
      cases hcode
  refine ⟨?_, ⟨h.left.head, hquiet ?_ hl⟩, ⟨h.right.head, hquiet ?_ hl⟩⟩
  · have hhead : s.head.renumber id = t.head.renumber ρ := congrArg Statement.head h.strip
    have hline : Line.strip id [l.renumber ρ] = Line.strip ρ [l] := by
      rw [Line.strip_code hl, Line.strip_code (l := l.renumber ρ) hl]
      rfl
    simp only [Statement.strip, happend, hhead, h.tail.strip, hpending, hline]
    rfl
  · intro y hy hcode
    obtain hy | hy := List.mem_append.mp hy
    · exact h.left.tail y hy hcode
    · exact (hp y hy).2
  · rw [List.append_nil]
    exact h.right.tail

theorem thinned_groupAfter {xs ys : List Line} (hxs : Line.Quiet xs)
    (h : xs.filter Line.isCode = ys.map (Line.renumber ρ)) {s t : Statement} (hs : s.Alike ρ t)
    {pending : List Line} (hp : ∀ l ∈ pending, l.isCode = false ∧ isInert l.verbatim = true) :
    Thinned ρ (groupAfter s pending xs) (groupAfter t [] ys) := by
  induction xs generalizing ys s t pending with
  | nil =>
      cases ys with
      | cons y ys => cases h
      | nil =>
          have hnil : Thinned ρ (pending.map .line ++ []) [] :=
            .skipAll (fun l hl => (hp l hl).2) .nil
          rw [List.append_nil] at hnil
          exact .statement hs hnil
  | cons x xs ih =>
      cases hx : x.isCode with
      | false =>
          rw [List.filter_cons_of_neg (by simp [hx])] at h
          simp only [groupAfter, hx, Bool.not_false, if_true]
          refine ih hxs.tail h hs ?_
          intro l hl
          obtain hl | hl := List.mem_append.mp hl
          · exact hp l hl
          · rw [List.mem_singleton.mp hl]
            exact ⟨hx, hxs x List.mem_cons_self hx⟩
      | true =>
          rw [List.filter_cons_of_pos hx] at h
          cases ys with
          | nil => cases h
          | cons y ys =>
              obtain ⟨rfl, hrest⟩ := List.cons.inj h
              have hy : y.isCode = true := hx
              cases hc : y.continues with
              | true =>
                  simp only [groupAfter, hx, hy, Bool.not_true, Bool.false_eq_true, if_false,
                    Line.continues_renumber, hc, if_true]
                  exact ih hxs.tail hrest (alike_continue hs hp hy) fun l hl =>
                    absurd hl List.not_mem_nil
              | false =>
                  simp only [groupAfter, hx, hy, Bool.not_true, Bool.false_eq_true, if_false,
                    Line.continues_renumber, hc]
                  refine .statement hs (.skipAll (fun l hl => (hp l hl).2) ?_)
                  exact ih hxs.tail hrest (alike_head hy) fun l hl => absurd hl List.not_mem_nil

theorem thinned_group {xs ys : List Line} (hxs : Line.Quiet xs)
    (h : xs.filter Line.isCode = ys.map (Line.renumber ρ)) : Thinned ρ (group xs) (group ys) := by
  induction xs with
  | nil =>
      cases ys with
      | cons y ys => cases h
      | nil => exact .nil
  | cons x xs ih =>
      cases hx : x.isCode with
      | false =>
          rw [List.filter_cons_of_neg (by simp [hx])] at h
          simp only [group, hx, Bool.false_eq_true, if_false]
          exact .skip (hxs x List.mem_cons_self hx) (ih hxs.tail h)
      | true =>
          rw [List.filter_cons_of_pos hx] at h
          cases ys with
          | nil => cases h
          | cons y ys =>
              obtain ⟨rfl, hrest⟩ := List.cons.inj h
              have hy : y.isCode = true := hx
              simp only [group, hx, hy, if_true]
              exact thinned_groupAfter hxs.tail hrest (alike_head hy) fun l hl =>
                absurd hl List.not_mem_nil

end Item

namespace Symbols

theorem addLine_silent {raw : Text} (h : isSilent raw = true) (s : Symbols) :
    s.addLine raw = s := by
  have hpassive : isPassive (trim raw) = true := by
    simp only [isSilent] at h
    split at h
    · next hx => simp [isPassive, trim, hx, trimEnd]
    · next hx => simp [isPassive, trim, hx, trimEnd_cons (c := '*') (by decide), startsWith, after?]
    · next hx =>
        simp [isPassive, trim, hx, trimEnd_cons (c := '/') (by decide), startsWith, after?]
    · cases h
  simp [addLine, hpassive]

theorem scan_withoutSilent (t : Text) : scan (withoutSilent t) = scan t := by
  have hfold : ∀ (raws : List Text) (s : Symbols),
      (raws.filter (!isSilent ·)).foldl addLine s = raws.foldl addLine s := by
    intro raws
    induction raws with
    | nil => exact fun _ => rfl
    | cons raw r ih =>
        intro s
        cases h : isSilent raw with
        | true =>
            rw [List.filter_cons_of_neg (by simp [h]), List.foldl_cons, addLine_silent h]
            exact ih s
        | false =>
            rw [List.filter_cons_of_pos (by simp [h])]
            exact ih (s.addLine raw)
  rw [scan, lines_withoutSilent, hfold, scan]

end Symbols

namespace Conversion

/-- The lines of an output that are neither blank nor comments. -/
def statementLines (content : Text) : List Text := (lines content).filter (!Deck.isPassive ·)

/-- The number that a line had before the comments and blank lines were deleted. -/
def lineNumber (t : Text) (n : Nat) : Nat := ((Line.keptFrom 1 (lines t))[n - 1]?).getD 0

theorem isPassive_trimEnd (t : Text) : Deck.isPassive (trimEnd t) = Deck.isPassive t := by
  simp only [Deck.isPassive, trimStart_trimEnd]
  cases h : trimStart t with
  | nil => rfl
  | cons c r => rw [trimEnd_cons (not_of_dropWhile_eq_cons h)]

/-- Inert lines of a deck leave the statements of its text as they are. -/
theorem statementLines_active (ls : List Text) :
    statementLines (Deck.content (active ls)) = statementLines (Deck.content ls) := by
  simp only [statementLines, Deck.filter_lines_content (p := (!Deck.isPassive ·)) rfl]
  induction ls with
  | nil => rfl
  | cons l r ih =>
      cases hl : isInert l with
      | true =>
          obtain ⟨hpassive, hfeed⟩ : Deck.isPassive l = true ∧ '\n' ∉ l := by
            simpa [isInert] using hl
          have hreturn : Deck.isPassive (dropReturn l) = true := by
            rw [← isPassive_trimEnd, trimEnd_dropReturn, isPassive_trimEnd, hpassive]
          rw [active_cons_inert hl, ih, List.flatMap_cons, feedParts_line hfeed]
          simp [hreturn]
      | false =>
          have hcons : active (l :: r) = l :: active r := by simp [active, hl]
          rw [hcons, List.flatMap_cons, List.flatMap_cons, List.map_append, List.map_append,
            List.filter_append, List.filter_append, ih]

theorem thinned_ofText (t : Text) :
    Item.Thinned (lineNumber t) (Item.ofText t) (Item.ofText (withoutSilent t)) := by
  have hfeed : ∀ raw ∈ lines t, '\n' ∉ raw := fun raw hraw => feed_not_mem_lines hraw
  refine Item.thinned_group (Line.quiet_readFrom hfeed 1 false) ?_
  rw [Line.ofText, Line.ofText, lines_withoutSilent]
  refine Line.filter_isCode_readFrom hfeed ?_ false
  intro i k hk
  have hi : 1 + i - 1 = i := by omega
  rw [lineNumber, hi, hk]
  rfl

theorem assemble_withoutSilent (o : Options) (d : Dialect) (t : Text) :
    (assemble o d t).strip id = (assemble o d (withoutSilent t)).strip (lineNumber t) := by
  rw [assemble, assemble, Symbols.scan_withoutSilent]
  exact Session.run_alike _ (thinned_ofText t) ⟨rfl, .top, rfl⟩

theorem lines_lineNumber {t l : Text} {n : Nat} (h : (lines (withoutSilent t))[n]? = some l) :
    (lines t)[lineNumber t (n + 1) - 1]? = some l := by
  rw [lines_withoutSilent] at h
  obtain ⟨k, hk, hl⟩ := Line.keptFrom_getElem? (n := 1) h
  have hnumber : lineNumber t (n + 1) - 1 = k := by
    rw [lineNumber, Nat.add_sub_cancel, hk, Option.getD_some, Nat.add_sub_cancel_left]
  rw [hnumber, hl]

/-- Comments and blank lines are inert: without them a deck gives the same statements
and the same warnings, which point at the same lines. -/
theorem ofText_withoutSilent (o : Options) (hn : o.normalize = false) (d : Dialect) (t : Text) :
    statementLines (ofText o d t).content = statementLines (ofText o d (withoutSilent t)).content ∧
      (ofText o d t).warnings =
        (ofText o d (withoutSilent t)).warnings.map (Warning.renumber (lineNumber t)) ∧
      ∀ n l, (lines (withoutSilent t))[n]? = some l →
        (lines t)[lineNumber t (n + 1) - 1]? = some l := by
  have hdeck := assemble_withoutSilent o d t
  have hlines : active (assemble o d t).lines = active (assemble o d (withoutSilent t)).lines :=
    congrArg Deck.lines hdeck
  have hwarnings : (assemble o d t).warnings.map (Warning.renumber id) =
      (assemble o d (withoutSilent t)).warnings.map (Warning.renumber (lineNumber t)) :=
    congrArg Deck.warnings hdeck
  have hid : Warning.renumber id = id := by
    funext w
    simp [Warning.renumber]
  simp only [ofText, hn, Bool.false_eq_true, if_false]
  refine ⟨?_, ?_, fun n l => lines_lineNumber⟩
  · rw [← statementLines_active, hlines, statementLines_active]
  · rw [← hwarnings, hid, List.map_id]

/-- A deck with a comment and a blank line inside a statement that ends badly. -/
def commentedDeck : Text := "// vendor\nparameters a=1\n* note\n\n+ b=(2\n\n".toList

theorem ofText_commentedDeck :
    withoutSilent commentedDeck = "parameters a=1\n+ b=(2\n".toList ∧
      statementLines (ofText .raw .spectre commentedDeck).content =
        statementLines (ofText .raw .spectre (withoutSilent commentedDeck)).content ∧
      (ofText .raw .spectre commentedDeck).warnings =
        (ofText .raw .spectre (withoutSilent commentedDeck)).warnings.map
          (Warning.renumber (lineNumber commentedDeck)) :=
  have h := ofText_withoutSilent .raw rfl .spectre commentedDeck
  ⟨by decide, h.1, h.2.1⟩

end Conversion

end SpiceDeck
