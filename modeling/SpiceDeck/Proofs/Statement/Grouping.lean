import SpiceDeck.Proofs.Remark.Rereading

/-!
Groupings of lines into statements and lines of their own. Main statement: grouping loses no
line, attaches each comment to the statement that goes on after it and to no other, and is the
only way to do so.
-/

namespace SpiceDeck
open Text

/-- A statement of lines that belong together: its head is code, the code below the head
continues it, and the last line does. -/
structure Statement.IsJoined (s : Statement) : Prop where
  head : s.head.isCode = true
  continued : ∀ l ∈ s.tail, l.isCode = true → l.continues = true
  ends : ∀ l ∈ s.tail.getLast?, l.continues = true

namespace Item

def statement? : Item → Option Statement
  | .line _ => none
  | .statement s => some s

/-- Lines of their own are comments or blank. -/
def IsProper : Item → Prop
  | .line l => l.isCode = false
  | .statement s => s.IsJoined

/-- The items are made of the lines, in order. Only the first statement may start with a
continuation, which then has nothing to continue. -/
structure IsGrouping (ls : List Line) (items : List Item) : Prop where
  lines : items.flatMap Item.lines = ls
  proper : ∀ item ∈ items, item.IsProper
  starts : ∀ s ∈ (items.filterMap statement?).tail, s.head.continues = false

variable {s : Statement} {pending ls tail : List Line} {items : List Item}

theorem groupAfter_silent {l : Line} (h : l.isCode = false) (s : Statement)
    (pending r : List Line) :
    groupAfter s pending (l :: r) = groupAfter s (pending ++ [l]) r := by
  simp [groupAfter, h]

theorem groupAfter_continues {l : Line} (hcode : l.isCode = true) (h : l.continues = true)
    (s : Statement) (pending r : List Line) :
    groupAfter s pending (l :: r) =
      groupAfter { s with tail := s.tail ++ pending ++ [l] } [] r := by
  simp [groupAfter, hcode, h]

theorem groupAfter_starts {l : Line} (hcode : l.isCode = true) (h : l.continues = false)
    (s : Statement) (pending r : List Line) :
    groupAfter s pending (l :: r) =
      .statement s :: (pending.map .line ++ groupAfter { head := l } [] r) := by
  simp [groupAfter, hcode, h]

theorem statements_cons (s : Statement) (r : List Item) :
    (Item.statement s :: r).filterMap statement? = s :: r.filterMap statement? := rfl

theorem statements_lines (ls : List Line) : (ls.map Item.line).filterMap statement? = [] := by
  induction ls with
  | nil => rfl
  | cons l r ih => exact ih

theorem isProper_of_mem_lines (h : ∀ l ∈ pending, l.isCode = false) :
    ∀ item ∈ pending.map Item.line, item.IsProper := by
  intro item hitem
  obtain ⟨l, hl, rfl⟩ := List.mem_map.mp hitem
  exact h l hl

theorem isCode_pending_append (h : ∀ l ∈ pending, l.isCode = false) {l : Line}
    (hl : l.isCode = false) : ∀ x ∈ pending ++ [l], x.isCode = false := by
  rw [List.forall_mem_append]
  exact ⟨h, List.forall_mem_singleton.mpr hl⟩

theorem isJoined_head {l : Line} (h : l.isCode = true) : Statement.IsJoined { head := l } :=
  ⟨h, fun _ hl => absurd hl List.not_mem_nil, nofun⟩

/-- A continuation takes the lines in front of it into the statement. -/
theorem isJoined_append (hs : s.IsJoined) (hpending : ∀ l ∈ pending, l.isCode = false) {l : Line}
    (hl : l.continues = true) :
    Statement.IsJoined { s with tail := s.tail ++ pending ++ [l] } where
  head := hs.head
  continued := by
    intro x hx hcode
    simp only [List.mem_append, List.mem_singleton] at hx
    obtain (hx | hx) | rfl := hx
    · exact hs.continued x hx hcode
    · rw [hpending x hx] at hcode
      cases hcode
    · exact hl
  ends := by
    intro x hx
    rw [List.getLast?_concat] at hx
    cases hx
    exact hl

theorem isProper_groupAfter (hs : s.IsJoined) (hpending : ∀ l ∈ pending, l.isCode = false)
    (ls : List Line) : ∀ item ∈ groupAfter s pending ls, item.IsProper := by
  induction ls generalizing s pending with
  | nil => exact List.forall_mem_cons.mpr ⟨hs, isProper_of_mem_lines hpending⟩
  | cons l r ih =>
      cases hcode : l.isCode with
      | false =>
          rw [groupAfter_silent hcode]
          exact ih hs (isCode_pending_append hpending hcode)
      | true =>
          cases hcontinues : l.continues with
          | true =>
              rw [groupAfter_continues hcode hcontinues]
              exact ih (isJoined_append hs hpending hcontinues) (by simp)
          | false =>
              rw [groupAfter_starts hcode hcontinues, List.forall_mem_cons, List.forall_mem_append]
              exact ⟨hs, isProper_of_mem_lines hpending, ih (isJoined_head hcode) (by simp)⟩

/-- The open statement is the first one, and those after it start afresh. -/
theorem starts_groupAfter (s : Statement) (pending ls : List Line) :
    ∃ first later, (groupAfter s pending ls).filterMap statement? = first :: later ∧
      first.head = s.head ∧ ∀ x ∈ later, x.head.continues = false := by
  induction ls generalizing s pending with
  | nil => exact ⟨s, [], congrArg (s :: ·) (statements_lines pending), rfl, by simp⟩
  | cons l r ih =>
      cases hcode : l.isCode with
      | false =>
          rw [groupAfter_silent hcode]
          exact ih s _
      | true =>
          cases hcontinues : l.continues with
          | true =>
              rw [groupAfter_continues hcode hcontinues]
              exact ih { s with tail := s.tail ++ pending ++ [l] } []
          | false =>
              obtain ⟨first, later, heq, hfirst, hlater⟩ := ih { head := l } []
              refine ⟨s, first :: later, ?_, rfl, ?_⟩
              · rw [groupAfter_starts hcode hcontinues, statements_cons, List.filterMap_append,
                  statements_lines, heq, List.nil_append]
              · rw [List.forall_mem_cons, hfirst]
                exact ⟨hcontinues, hlater⟩

theorem isGrouping_group (ls : List Line) : IsGrouping ls (group ls) where
  lines := flatMap_lines_group ls
  proper := by
    induction ls with
    | nil => exact fun _ h => absurd h List.not_mem_nil
    | cons l r ih =>
        simp only [group]
        split
        · next hcode => exact isProper_groupAfter (isJoined_head hcode) (by simp) r
        · next hcode => exact List.forall_mem_cons.mpr ⟨Bool.eq_false_iff.mpr hcode, ih⟩
  starts := by
    induction ls with
    | nil => exact fun _ h => absurd h List.not_mem_nil
    | cons l r ih =>
        simp only [group]
        split
        · obtain ⟨first, later, heq, -, hlater⟩ := starts_groupAfter { head := l } [] r
          rw [heq]
          exact hlater
        · exact ih

/-- The lines below a head are taken into its statement up to the last continuation. -/
theorem groupAfter_tail (hpending : ∀ l ∈ pending, l.isCode = false)
    (hcontinued : ∀ l ∈ tail, l.isCode = true → l.continues = true)
    (hends : ∀ l ∈ (pending ++ tail).getLast?, l.isCode = true) (s : Statement)
    (rest : List Line) :
    groupAfter s pending (tail ++ rest) =
      groupAfter { s with tail := s.tail ++ (pending ++ tail) } [] rest := by
  induction tail generalizing s pending with
  | nil =>
      -- no continuation is left that could take pending lines in
      have hnil : pending = [] := by
        cases hlast : pending.getLast? with
        | none => exact List.getLast?_eq_none_iff.mp hlast
        | some l =>
            rw [List.append_nil] at hends
            have hcode := hends l hlast
            rw [hpending l (List.mem_of_getLast? hlast)] at hcode
            cases hcode
      rw [hnil, List.nil_append, List.nil_append, List.append_nil]
  | cons l r ih =>
      obtain ⟨hl, hr⟩ := List.forall_mem_cons.mp hcontinued
      rw [List.cons_append]
      cases hcode : l.isCode with
      | false =>
          rw [List.append_cons] at hends ⊢
          rw [groupAfter_silent hcode]
          exact ih (isCode_pending_append hpending hcode) hr hends s
      | true =>
          have hlast : ∀ x ∈ ([] ++ r).getLast?, x.isCode = true := by
            intro x hx
            have hx : r.getLast? = some x := hx
            apply hends
            rw [List.getLast?_append, List.getLast?_cons, hx]
            rfl
          rw [groupAfter_continues hcode (hl hcode), ih (by simp) hr hlast]
          simp

theorem groupAfter_joined (h : s.IsJoined) (rest : List Line) :
    groupAfter { head := s.head } [] (s.tail ++ rest) = groupAfter s [] rest := by
  refine groupAfter_tail (by simp) h.continued ?_ _ rest
  intro l hl
  have hcontinues := h.ends l hl
  cases hbody : l.body with
  | code text continues => simp only [Line.isCode, hbody]
  | comment _ | blank => simp only [Line.continues, hbody, Bool.false_eq_true] at hcontinues

/-- Items that start afresh come back after an open statement. -/
theorem groupAfter_flatMap_lines (hproper : ∀ item ∈ items, item.IsProper)
    (hstarts : ∀ s ∈ items.filterMap statement?, s.head.continues = false) (s : Statement)
    (pending : List Line) :
    groupAfter s pending (items.flatMap lines) = .statement s :: (pending.map .line ++ items) := by
  induction items generalizing s pending with
  | nil => simp [groupAfter]
  | cons item r ih =>
      obtain ⟨hitem, hr⟩ := List.forall_mem_cons.mp hproper
      rw [List.flatMap_cons]
      cases item with
      | line l =>
          have hlines : lines (.line l) ++ r.flatMap lines = l :: r.flatMap lines := rfl
          rw [hlines, groupAfter_silent hitem, ih hr hstarts]
          simp
      | statement x =>
          have hjoined : x.IsJoined := hitem
          rw [statements_cons, List.forall_mem_cons] at hstarts
          have hlines : lines (.statement x) ++ r.flatMap lines =
              x.head :: (x.tail ++ r.flatMap lines) := rfl
          rw [hlines, groupAfter_starts hjoined.head hstarts.1, groupAfter_joined hjoined,
            ih hr hstarts.2]
          rfl

/-- Items come back from their lines. -/
theorem group_flatMap_lines (hproper : ∀ item ∈ items, item.IsProper)
    (hstarts : ∀ s ∈ (items.filterMap statement?).tail, s.head.continues = false) :
    group (items.flatMap lines) = items := by
  induction items with
  | nil => rfl
  | cons item r ih =>
      obtain ⟨hitem, hr⟩ := List.forall_mem_cons.mp hproper
      cases item with
      | line l =>
          have hcode : l.isCode = false := hitem
          have hgroup : group ((Item.line l :: r).flatMap lines) =
              .line l :: group (r.flatMap lines) := by
            simp [lines, group, hcode]
          rw [hgroup, ih hr hstarts]
      | statement s =>
          have hjoined : s.IsJoined := hitem
          have hgroup : group ((Item.statement s :: r).flatMap lines) =
              groupAfter { head := s.head } [] (s.tail ++ r.flatMap lines) := by
            simp [lines, Statement.lines, group, hjoined.head]
          rw [hgroup, groupAfter_joined hjoined, groupAfter_flatMap_lines hr hstarts]
          rfl

/-- The groups of lines are a grouping of them, and there is no other. -/
theorem isGrouping_iff (ls : List Line) (items : List Item) :
    IsGrouping ls items ↔ items = group ls := by
  constructor
  · intro h
    rw [← h.lines, group_flatMap_lines h.proper h.starts]
  · rintro rfl
    exact isGrouping_group ls

end Item
end SpiceDeck
