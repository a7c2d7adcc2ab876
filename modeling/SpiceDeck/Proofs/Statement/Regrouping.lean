import SpiceDeck.Proofs.Statement.CodePart

/-!
Lines that are copied and read again. A copy keeps the kind of a line unless nothing is left
of its code, and it keeps a plus sign in front, but not a backslash at the end. Main
statement: the copies of the lines of a text group into the same statements exactly if each
line that continues another one is marked by a plus sign or follows a copy that is still
joined to the next line.
-/

namespace SpiceDeck
open Text

inductive LineKind where
  | code
  | comment
  | blank
  deriving DecidableEq

namespace Line

def kind (l : Line) : LineKind :=
  match l.body with
  | .code _ _ => .code
  | .comment _ => .comment
  | .blank => .blank

/-- The number and the kind of a line. -/
def mark (l : Line) : Nat × LineKind := (l.number, l.kind)

/-- The line after this one is a continuation for the copies if it is one for the lines. -/
def Rejoins (a b : Text) : Prop :=
  (trimStart b).head? = some '+' ∨ joins (copied a) = joins a

instance (a b : Text) : Decidable (Rejoins a b) := inferInstanceAs (Decidable (_ ∨ _))

theorem rejoins_iff (a b : Text) :
    Rejoins a b ↔ (joins a || (trimStart b).head? == some '+') =
      (joins (copied a) || (trimStart b).head? == some '+') := by
  by_cases hplus : (trimStart b).head? = some '+'
  · simp [Rejoins, hplus]
  · rw [beq_false_of_ne hplus, Bool.or_false, Bool.or_false, Rejoins, or_iff_right hplus, eq_comm]

theorem mark_read_code {raw : Text} (h : isSilent raw = false) (n : Nat) (joined : Bool) :
    (read n joined raw).1.mark = (n, .code) := by
  rw [read_code h]
  rfl

/-- Comments stay comments, and blank lines stay blank. -/
theorem mark_read_copied_silent {raw : Text} (h : isSilent raw = true) (n : Nat)
    (joined joined' : Bool) :
    (read n joined raw).1.mark = (read n joined' (copied raw)).1.mark := by
  have hstar : isSpace '*' = false := by decide
  have hread : ∀ r, (read n joined' ('*' :: r)).1.mark = (n, .comment) := by
    intro r
    simp only [read, trimEnd_cons hstar]
    simp [trimStart, hstar, mark, kind]
  obtain ⟨hraw, hcopied⟩ | ⟨r, hraw, hcopied⟩ | ⟨r, hraw, hcopied⟩ := copied_silent h
  · rw [hcopied]
    simp only [read, hraw]
    rfl
  · rw [hcopied, hread]
    simp only [read, hraw]
    rfl
  · rw [hcopied, hread]
    simp only [read, hraw]
    rfl

theorem isSilent_copied {raw : Text} (h : isSilent raw = true) : isSilent (copied raw) = true := by
  have hstar : isSpace '*' = false := by decide
  obtain ⟨-, hcopied⟩ | ⟨r, -, hcopied⟩ | ⟨r, -, hcopied⟩ := copied_silent h
  · rw [hcopied]
    rfl
  · rw [hcopied]
    simp [isSilent, trimStart, hstar]
  · rw [hcopied]
    simp [isSilent, trimStart, hstar]

theorem length_readFrom (n : Nat) (joined : Bool) (raws : List Text) :
    (readFrom n joined raws).length = raws.length := by
  induction raws generalizing n joined with
  | nil => rfl
  | cons raw r ih => simp only [readFrom, List.length_cons, ih]

/-- The copies of lines have the marks of the lines if and only if something is left of
each code line. -/
theorem map_mark_copied_iff {raws : List Text} (n : Nat) (joined joined' : Bool) :
    (readFrom n joined raws).map mark = (readFrom n joined' (raws.map copied)).map mark ↔
      ∀ raw ∈ raws, isSilent raw = false → copied raw ≠ [] := by
  induction raws generalizing n joined joined' with
  | nil => simp [readFrom]
  | cons raw r ih =>
      have hfirst : (read n joined raw).1.mark = (read n joined' (copied raw)).1.mark ↔
          (isSilent raw = false → copied raw ≠ []) := by
        cases hs : isSilent raw with
        | true => simp [mark_read_copied_silent hs n joined joined']
        | false =>
            rw [mark_read_code hs]
            by_cases hne : copied raw = []
            · rw [hne]
              simp [read, trimEnd, trimStart, mark, kind]
            · rw [mark_read_code (copied_starts hs hne).1]
              simp [hne]
      simp only [readFrom, List.map_cons, List.cons.injEq, hfirst, ih, List.forall_mem_cons]

end Line

namespace Item

/-- Whether the item is a statement, of which the first line is the head, and the marks of
its lines. -/
def outline : Item → Bool × List (Nat × LineKind)
  | .line l => (false, [l.mark])
  | .statement s => (true, s.lines.map Line.mark)

theorem flatMap_outline (items : List Item) :
    (items.map outline).flatMap Prod.snd = (items.flatMap lines).map Line.mark := by
  induction items with
  | nil => rfl
  | cons item r ih =>
      rw [List.map_cons, List.flatMap_cons, List.flatMap_cons, List.map_append, ih]
      cases item <;> rfl

theorem map_outline_line {ls ls' : List Line} (h : ls.map Line.mark = ls'.map Line.mark) :
    (ls.map line).map outline = (ls'.map line).map outline := by
  have hline : ∀ ls : List Line,
      (ls.map line).map outline = (ls.map Line.mark).map fun m => (false, [m]) := by
    intro ls
    rw [List.map_map, List.map_map]
    rfl
  rw [hline, hline, h]

/-- An open statement comes first, with all the lines that it has. -/
theorem exists_groupAfter_cons (s : Statement) (pending ls : List Line) :
    ∃ x more r, groupAfter s pending ls = .statement x :: r ∧ x.lines = s.lines ++ more := by
  induction ls generalizing s pending with
  | nil => exact ⟨s, [], _, rfl, (List.append_nil _).symm⟩
  | cons l r ih =>
      simp only [groupAfter]
      split
      · exact ih s _
      · split
        · obtain ⟨x, more, rest, hgroup, hx⟩ := ih { s with tail := s.tail ++ pending ++ [l] } []
          refine ⟨x, pending ++ [l] ++ more, rest, hgroup, ?_⟩
          rw [hx]
          simp [Statement.lines]
        · exact ⟨s, [], _, rfl, (List.append_nil _).symm⟩

/-- A statement that goes on is not one that has ended. -/
theorem outline_groupAfter_ne {s s' : Statement} (hs : s.lines.length = s'.lines.length)
    (pending ls : List Line) (l : Line) (rest : List (Bool × List (Nat × LineKind))) :
    (groupAfter { s with tail := s.tail ++ pending ++ [l] } [] ls).map outline ≠
      (outline (.statement s') :: rest) := by
  obtain ⟨x, more, r, hgroup, hx⟩ :=
    exists_groupAfter_cons { s with tail := s.tail ++ pending ++ [l] } [] ls
  rw [hgroup, List.map_cons]
  intro h
  have hlength := congrArg (fun o => o.2.length) (List.cons.inj h).1
  simp only [outline, hx, List.length_map, List.length_append] at hlength
  simp only [Statement.lines, List.length_cons, List.length_append] at hs hlength
  omega

/-- The lines after a statement, whose last code line is `a`, and their copies. -/
theorem outline_groupAfter_iff {raws : List Text} (hfeed : ∀ raw ∈ raws, '\n' ∉ raw)
    (hleft : ∀ raw ∈ raws, isSilent raw = false → Line.copied raw ≠ []) (a : Text)
    {s s' : Statement} (hs : s.lines.map Line.mark = s'.lines.map Line.mark)
    {pending pending' : List Line}
    (hpending : pending.map Line.mark = pending'.map Line.mark) (n : Nat) :
    (groupAfter s pending (Line.readFrom n (Line.joins a) raws)).map outline =
        (groupAfter s' pending' (Line.readFrom n (Line.joins (Line.copied a))
          (raws.map Line.copied))).map outline ↔
      (a :: raws.filter (!isSilent ·)).IsChain Line.Rejoins := by
  induction raws generalizing a s s' pending pending' n with
  | nil =>
      have hlines := map_outline_line hpending
      simp [Line.readFrom, groupAfter, outline, hs, hlines]
  | cons raw r ih =>
      obtain ⟨hfeed, hfeedr⟩ := List.forall_mem_cons.mp hfeed
      obtain ⟨hleft, hleftr⟩ := List.forall_mem_cons.mp hleft
      cases hsilent : isSilent raw with
      | true =>
          obtain ⟨hpassive, -, hjoined⟩ := Line.read_silent hsilent hfeed n (Line.joins a)
          obtain ⟨hpassive', -, hjoined'⟩ := Line.read_silent (Line.isSilent_copied hsilent)
            (Line.feed_not_mem_copied hfeed) n (Line.joins (Line.copied a))
          have hmark := Line.mark_read_copied_silent hsilent n (Line.joins a)
            (Line.joins (Line.copied a))
          simp only [Line.readFrom, List.map_cons, groupAfter, hpassive, hpassive', hjoined,
            hjoined', Bool.not_false, if_true]
          rw [List.filter_cons_of_neg (by simp [hsilent])]
          apply ih hfeedr hleftr a hs
          rw [List.map_append, List.map_append, hpending]
          exact congrArg (fun m => pending'.map Line.mark ++ [m]) hmark
      | false =>
          obtain ⟨hsilent', hplus⟩ := Line.copied_starts hsilent (hleft hsilent)
          simp only [Line.readFrom, List.map_cons, Line.read_code hsilent, Line.read_code hsilent',
            hplus, groupAfter, Line.isCode, Line.continues, Bool.not_true, Bool.false_eq_true,
            if_false]
          rw [List.filter_cons_of_pos (by simp [hsilent]), List.isChain_cons_cons,
            Line.rejoins_iff]
          have hlength : s.lines.length = s'.lines.length := by
            rw [← List.length_map Line.mark, hs, List.length_map]
          generalize (Line.joins a || (trimStart raw).head? == some '+') = continues
          generalize (Line.joins (Line.copied a) || (trimStart raw).head? == some '+') = continues'
          cases continues with
          | true =>
              cases continues' with
              | true =>
                  simp only [if_true, true_and]
                  apply ih hfeedr hleftr raw
                  · have htail := (List.cons.inj hs).2
                    simp only [Statement.lines, List.map_cons, List.map_append, List.cons.injEq]
                    exact ⟨(List.cons.inj hs).1, by rw [htail, hpending]; rfl⟩
                  · rfl
              | false =>
                  simp only [if_true, Bool.false_eq_true, if_false, List.cons_append, List.map_cons,
                    Bool.true_eq_false, false_and, iff_false]
                  exact outline_groupAfter_ne hlength _ _ _ _
          | false =>
              cases continues' with
              | true =>
                  simp only [if_true, Bool.false_eq_true, if_false, List.cons_append, List.map_cons,
                    false_and, iff_false]
                  exact (outline_groupAfter_ne hlength.symm _ _ _ _).symm
              | false =>
                  have hlines := map_outline_line hpending
                  simp only [Bool.false_eq_true, if_false, List.cons_append, List.map_cons,
                    List.map_append, true_and, outline, hs, hlines, List.cons.injEq,
                    List.append_cancel_left_eq]
                  apply ih hfeedr hleftr raw
                  · rfl
                  · rfl

theorem outline_group_iff {raws : List Text} (hfeed : ∀ raw ∈ raws, '\n' ∉ raw)
    (hleft : ∀ raw ∈ raws, isSilent raw = false → Line.copied raw ≠ []) (n : Nat) :
    (group (Line.readFrom n false raws)).map outline =
        (group (Line.readFrom n false (raws.map Line.copied))).map outline ↔
      (raws.filter (!isSilent ·)).IsChain Line.Rejoins := by
  induction raws generalizing n with
  | nil => simp [Line.readFrom, group]
  | cons raw r ih =>
      obtain ⟨hfeed, hfeedr⟩ := List.forall_mem_cons.mp hfeed
      obtain ⟨hleft, hleftr⟩ := List.forall_mem_cons.mp hleft
      cases hsilent : isSilent raw with
      | true =>
          obtain ⟨hpassive, -, hjoined⟩ := Line.read_silent hsilent hfeed n false
          obtain ⟨hpassive', -, hjoined'⟩ := Line.read_silent (Line.isSilent_copied hsilent)
            (Line.feed_not_mem_copied hfeed) n false
          have hmark := Line.mark_read_copied_silent hsilent n false false
          simp only [Line.readFrom, List.map_cons, group, hpassive, hpassive', hjoined, hjoined',
            Bool.false_eq_true, if_false, outline, hmark, List.cons.injEq, true_and]
          rw [List.filter_cons_of_neg (by simp [hsilent])]
          exact ih hfeedr hleftr (n + 1)
      | false =>
          obtain ⟨hsilent', -⟩ := Line.copied_starts hsilent (hleft hsilent)
          simp only [Line.readFrom, List.map_cons, Line.read_code hsilent, Line.read_code hsilent',
            group, Line.isCode, if_true]
          rw [List.filter_cons_of_pos (by simp [hsilent])]
          apply outline_groupAfter_iff hfeedr hleftr raw
          · rfl
          · rfl

theorem map_mark_of_outline {ls ls' : List Line}
    (h : (group ls).map outline = (group ls').map outline) :
    ls.map Line.mark = ls'.map Line.mark := by
  have hmarks := congrArg (List.flatMap Prod.snd) h
  rwa [flatMap_outline, flatMap_outline, flatMap_lines_group, flatMap_lines_group] at hmarks

end Item

namespace Text

/-- The lines of the text that are copied can be joined again as they were: something is
left of each code line, and each code line is marked as a continuation of the one before
it, or as none, as it was. -/
structure Rejoins (t : Text) : Prop where
  left : ∀ raw ∈ lines t, isSilent raw = false → Line.copied raw ≠ []
  marked : ((lines t).filter (!isSilent ·)).IsChain Line.Rejoins

theorem rejoins_iff (t : Text) :
    t.Rejoins ↔ (∀ raw ∈ lines t, isSilent raw = false → Line.copied raw ≠ []) ∧
      ((lines t).filter (!isSilent ·)).IsChain Line.Rejoins :=
  ⟨fun h => ⟨h.left, h.marked⟩, fun h => ⟨h.1, h.2⟩⟩

instance (t : Text) : Decidable t.Rejoins := decidable_of_iff _ (rejoins_iff t).symm

theorem endsInInk_star {r : Text} (h : EndsInInk r) : EndsInInk ('*' :: r) := by
  intro c hc
  rw [List.getLast?_cons] at hc
  cases hr : r.getLast? with
  | none =>
      rw [hr] at hc
      cases hc
      decide
  | some d =>
      rw [hr] at hc
      cases hc
      exact h _ hr

theorem endsInInk_copied (raw : Text) : EndsInInk (Line.copied raw) := by
  cases hs : isSilent raw with
  | false =>
      rw [Line.copied_code hs]
      exact Line.endsInInk_dropBackslash (Line.endsInInk_markComment raw)
  | true =>
      have hink : EndsInInk (trimStart (trimEnd raw)) := endsInInk_trimStart (endsInInk_trimEnd raw)
      obtain ⟨-, hcopied⟩ | ⟨r, hraw, hcopied⟩ | ⟨r, hraw, hcopied⟩ := Line.copied_silent hs
      · rw [hcopied]
        rintro c ⟨⟩
      · rw [hraw] at hink
        rw [hcopied]
        exact endsInInk_star (hink.suffix ⟨['/', '/'], rfl⟩)
      · rwa [hcopied, ← hraw]

theorem dropReturn_copied (raw : Text) : dropReturn (Line.copied raw) = Line.copied raw := by
  rw [dropReturn, if_neg]
  intro hlast
  have hspace := endsInInk_copied raw _ hlast
  cases hspace

theorem lines_join_copied {raws : List Text} (hfeed : ∀ raw ∈ raws, '\n' ∉ raw) :
    lines (join ['\n'] (raws.map Line.copied)) =
      if (raws.map Line.copied).getLast? = some [] then (raws.map Line.copied).dropLast
      else raws.map Line.copied := by
  have hreturn : ∀ p ∈ raws.map Line.copied, dropReturn p = p := by
    intro p hp
    obtain ⟨raw, -, rfl⟩ := List.mem_map.mp hp
    exact dropReturn_copied raw
  have hparts : ∀ p ∈ raws.map Line.copied, '\n' ∉ p := by
    intro p hp
    obtain ⟨raw, hraw, rfl⟩ := List.mem_map.mp hp
    exact Line.feed_not_mem_copied (hfeed raw hraw)
  generalize raws.map Line.copied = parts at hreturn hparts
  obtain rfl | ⟨init, last, rfl⟩ := List.eq_nil_or_concat' parts
  · rfl
  · have hjoin : cut (· == '\n') (join ['\n'] (init ++ [last])) = init ++ [last] :=
      feedParts_join (by simp) hparts
    have hinit : init.map dropReturn = init := by
      conv_rhs => rw [← List.map_id init]
      apply List.map_congr_left
      intro p hp
      exact hreturn p (List.mem_append_left _ hp)
    simp only [lines, hjoin, List.dropLast_concat, List.getLast?_concat, hinit, Option.getD_some]
    by_cases hlast : last = []
    · simp [hlast]
    · simp [hlast]

theorem lines_flatMap_copied {raws : List Text} (hfeed : ∀ raw ∈ raws, '\n' ∉ raw) :
    lines ((raws.map Line.copied).flatMap (· ++ ['\n'])) = raws.map Line.copied := by
  induction raws with
  | nil => rfl
  | cons raw r ih =>
      obtain ⟨hraw, hr⟩ := List.forall_mem_cons.mp hfeed
      have hcons : ((raw :: r).map Line.copied).flatMap (· ++ ['\n']) =
          Line.copied raw ++ '\n' :: (r.map Line.copied).flatMap (· ++ ['\n']) := by simp
      rw [hcons, lines_append_feed, feedParts_line (Line.feed_not_mem_copied hraw), ih hr,
        List.map_singleton, dropReturn_copied]
      rfl

end Text

namespace Item

theorem outline_copied_group_iff (t : Text) :
    (group (Line.readFrom 1 false ((Text.lines t).map Line.copied))).map outline =
        (ofText t).map outline ↔ t.Rejoins := by
  have hfeed : ∀ raw ∈ Text.lines t, '\n' ∉ raw := fun raw hraw => feed_not_mem_lines hraw
  constructor
  · intro h
    have hleft := (Line.map_mark_copied_iff 1 false false).mp (map_mark_of_outline h.symm)
    exact ⟨hleft, (outline_group_iff hfeed hleft 1).mp h.symm⟩
  · intro h
    exact ((outline_group_iff hfeed h.left 1).mpr h.marked).symm

theorem outline_dropLast_ne (t : Text) (h : Text.lines t ≠ []) :
    (group (Line.readFrom 1 false ((Text.lines t).map Line.copied).dropLast)).map outline ≠
      (ofText t).map outline := by
  intro heq
  have hlength := congrArg List.length (map_mark_of_outline heq)
  have hpos := List.length_pos_iff.mpr h
  simp only [Line.ofText, List.length_map, Line.length_readFrom, List.length_dropLast] at hlength
  omega

/-- The copies of the lines of a text, with line feeds between them, are grouped as the lines
are if and only if they rejoin and the last one is not empty; with a line feed behind each
of them, if and only if they rejoin. -/
theorem outline_copied_iff (t : Text) :
    ((ofText (join ['\n'] ((Line.ofText t).map Line.verbatim))).map outline =
        (ofText t).map outline ↔
      t.Rejoins ∧ ((Line.ofText t).map Line.verbatim).getLast? ≠ some []) ∧
    ((ofText (((Line.ofText t).map Line.verbatim).flatMap (· ++ ['\n']))).map outline =
        (ofText t).map outline ↔
      t.Rejoins) := by
  have hfeed : ∀ raw ∈ Text.lines t, '\n' ∉ raw := fun raw hraw => feed_not_mem_lines hraw
  have hcopied : (Line.ofText t).map Line.verbatim = (Text.lines t).map Line.copied :=
    Line.map_verbatim_readFrom 1 false (Text.lines t)
  rw [hcopied]
  constructor
  · rw [ofText, Line.ofText, lines_join_copied hfeed]
    split
    · next hlast =>
        have hne : Text.lines t ≠ [] := by
          intro hnil
          rw [hnil] at hlast
          cases hlast
        simp only [hlast, not_true_eq_false, and_false, iff_false, ne_eq]
        exact outline_dropLast_ne t hne
    · next hlast =>
        rw [and_iff_left hlast]
        exact outline_copied_group_iff t
  · rw [ofText, Line.ofText, lines_flatMap_copied hfeed]
    exact outline_copied_group_iff t

/-- A statement that goes on after a backslash. -/
def backslashDeck : Text := "R1 a b \\\n1k\n".toList

/-- The same statement with a plus sign. -/
def plusDeck : Text := "R1 a b // load\n* note\n+ 1k\n".toList

theorem outline_copied_iff_backslashDeck :
    (ofText (join ['\n'] ((Line.ofText backslashDeck).map Line.verbatim))).map outline ≠
        (ofText backslashDeck).map outline ∧
      (ofText (join ['\n'] ((Line.ofText plusDeck).map Line.verbatim))).map outline =
        (ofText plusDeck).map outline := by
  constructor
  · intro h
    exact absurd ((outline_copied_iff backslashDeck).1.mp h).1 (by decide +kernel)
  · exact (outline_copied_iff plusDeck).1.mpr (by decide +kernel)

end Item

end SpiceDeck
