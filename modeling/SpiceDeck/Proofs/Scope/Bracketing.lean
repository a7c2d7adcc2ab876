import SpiceDeck.Proofs.Scope.Tracks
import SpiceDeck.Proofs.Scope.Unterminated

/-!
Subcircuits are written in brackets. Each subcircuit that opens while none is open comes
out as one run of lines, from its `.subckt` line to its `.ends` line, and all that is
kept while it is open is in there. Only the end of the deck leaves one unterminated.
-/

namespace SpiceDeck
open Text

namespace Track

def entered? : Track → Option (Text × Nat)
  | .enter name line => some (name, line)
  | .keep _ | .leave => none

theorem filterMap_entered_keep (ks : List Kept) : (ks.map keep).filterMap entered? = [] := by
  induction ks with
  | nil => rfl
  | cons k r ih => exact ih

end Track

/-- The lines of a subcircuit between its first and its last, by what was kept; `render`
writes a call. -/
def Kept.lines (render : Call → List Text) (ks : List Kept) : List Text :=
  (((ks.filterMap pins?).drop 1).filter (!·.isEmpty)).map
      (fun pins => "+ ".toList ++ spaced pins) ++
    ks.filterMap header? ++ ks.filterMap line? ++ (ks.filterMap call?).flatMap render ++
    ((models ks).foldl Model.enter []).flatMap Model.render

namespace Segment

/-- The subcircuit is written from its `.subckt` line to its `.ends` line. Between them
stand the lines that were kept, in some order, and at most one empty line. -/
def Bracketed (cx : Context) (sub : Subcircuit) (name : Text) (ks : List Kept) : Prop :=
  ∃ middle gap,
    Segment.lines cx (.block sub) =
        spaced (".subckt".toList :: name :: (ks.filterMap Kept.pins?).headD []) ::
          (middle ++ [".ends ".toList ++ name]) ∧
      (gap = [] ∨ gap = [[]]) ∧
      middle.Perm (Kept.lines (fun c => c.render (resolution cx (.block sub) c)) ks ++ gap)

/-- The segments account for what was tracked: each subcircuit, from where it was
entered to where it was left, is written in brackets in one segment. -/
inductive Accounts (cx : Context) : List Segment → List Track → Prop where
  | nil : Accounts cx [] []
  | plain {r : List Segment} {ts : List Track} (lines : List Text) (h : Accounts cx r ts) :
      Accounts cx (.plain lines :: r) ts
  | call {r : List Segment} {ts : List Track} (c : Call) (h : Accounts cx r ts) :
      Accounts cx (.call c :: r) ts
  | block {r : List Segment} {ts : List Track} {sub : Subcircuit} {name : Text} {line : Nat}
      {ks : List Kept} (hs : sub.Keeps name line ks) (hb : Bracketed cx sub name ks)
      (h : Accounts cx r ts) :
      Accounts cx (.block sub :: r) (.enter name line :: ks.map .keep ++ .leave :: ts)

/-- An entry as it is written. -/
def entryLines {α : Type} (render : α → List Text) : Entry α → List Text
  | .item a => render a
  | .verbatim t => [t]

theorem perm_entryLines {α : Type} (render : α → List Text) (es : List (Entry α)) :
    (es.flatMap (entryLines render)).Perm
      (es.filterMap Entry.text? ++ (es.filterMap Entry.item?).flatMap render) := by
  induction es with
  | nil => exact .refl _
  | cons e r ih =>
      cases e with
      | verbatim t => exact .cons t ih
      | item a =>
          have hitem : (Entry.item a :: r).filterMap Entry.item? =
              a :: r.filterMap Entry.item? := rfl
          have htext : (Entry.item a :: r).filterMap Entry.text? = r.filterMap Entry.text? := rfl
          rw [List.flatMap_cons, hitem, htext, List.flatMap_cons]
          refine (List.Perm.append_left _ ih).trans ?_
          rw [← List.append_assoc, ← List.append_assoc]
          exact List.perm_append_comm.append_right _

theorem gap_cases (lines : List Text) :
    Subcircuit.gap lines = [] ∨ Subcircuit.gap lines = [[]] := by
  simp only [Subcircuit.gap]
  split
  · split
    · exact .inl rfl
    · exact .inr rfl
  · exact .inl rfl

/-- Lines that are sorted out of calls and models are still the same lines. -/
theorem perm_sorted {fixed body calls models gap loose textsC textsM itemsC itemsM : List Text}
    (hloose : (body ++ (textsC ++ textsM)).Perm loose) (hcalls : calls.Perm (textsC ++ itemsC))
    (hmodels : models.Perm (textsM ++ itemsM)) :
    (fixed ++ body ++ calls ++ gap ++ models).Perm (fixed ++ loose ++ itemsC ++ itemsM ++ gap) := by
  rw [List.perm_iff_count] at *
  intro t
  have h1 := hloose t
  have h2 := hcalls t
  have h3 := hmodels t
  simp only [List.count_append] at *
  omega

/-- A subcircuit is written with all that it keeps. -/
theorem bracketed_of_keeps (cx : Context) {sub : Subcircuit} {name : Text} {line : Nat}
    {ks : List Kept} (h : sub.Keeps name line ks) : Bracketed cx sub name ks := by
  have hcalls := perm_entryLines (fun c => c.render (resolution cx (.block sub) c)) sub.calls
  have hmodels := perm_entryLines Model.render sub.models
  have hupper : upperLines cx sub = sub.openingLines ++ sub.body ++
      sub.calls.flatMap (entryLines fun c => c.render (resolution cx (.block sub) c)) := by
    rw [upperLines]
    refine congrArg _ (List.flatMap_congr ?_)
    intro e _
    cases e <;> rfl
  have hlower : lowerLines sub = sub.models.flatMap (entryLines Model.render) := by
    refine List.flatMap_congr ?_
    intro e _
    cases e <;> rfl
  rw [h.calls] at hcalls
  rw [h.models] at hmodels
  refine ⟨_, Subcircuit.gap (upperLines cx sub), ?_, gap_cases _,
    perm_sorted h.loose hcalls hmodels⟩
  rw [← h.name, ← h.pins, ← h.header]
  rw [Segment.lines, hlower]
  generalize Subcircuit.gap (upperLines cx sub) = gap
  simp only [hupper, Subcircuit.openingLines, List.cons_append, List.append_assoc]

end Segment

theorem Segment.Accounts.append {cx : Context} {a b : List Segment} {ts us : List Track}
    (ha : Accounts cx a ts) (hb : Accounts cx b us) : Accounts cx (a ++ b) (ts ++ us) := by
  induction ha with
  | nil => exact hb
  | plain lines _ ih => exact .plain lines ih
  | call c _ ih => exact .call c ih
  | block hs hw _ ih =>
      rw [List.append_assoc]
      exact .block hs hw ih

def Segment.opening? : Segment → Option (Text × Nat)
  | .block sub => some (sub.name, sub.line)
  | .plain _ | .call _ => none

theorem Segment.Accounts.openings {cx : Context} {segments : List Segment} {ts : List Track}
    (h : Accounts cx segments ts) :
    segments.filterMap opening? = ts.filterMap Track.entered? := by
  induction h with
  | nil => rfl
  | plain _ _ ih | call _ _ ih => exact ih
  | block hs _ _ ih =>
      simp only [List.filterMap_cons, opening?, hs.name, hs.line, ih, List.cons_append,
        List.filterMap_append, Track.filterMap_entered_keep, Track.entered?, List.nil_append]

namespace Scope

variable {cx : Context} {s : Statement} {kind : Statement.Kind} {scope : Scope} {ts : List Track}

/-- A step writes the subcircuits that it completes; what else is tracked is still in
the books after it. -/
def Settles (cx : Context) (segments : List Segment) (ts : List Track) (next : Scope) : Prop :=
  ∃ complete rest, Segment.Accounts cx segments complete ∧ next.Books rest ∧ ts = complete ++ rest

theorem kept_close (cx : Context) (s : Statement) (n : Option Text) (scope : Scope) :
    scope.kept cx s (.subcircuitClose n) = [] := by
  cases scope with
  | top | pins _ | body _ => rfl
  | model parent b => cases parent <;> rfl

theorem settles_opened {name : Text} {line : Nat} {ks : List Kept} (cx : Context) (s : Statement)
    (kind : Statement.Kind) (h : scope.Holds name line ks) :
    Settles cx (scope.segments cx s kind)
      (.enter name line :: ks.map .keep ++ scope.tracks cx s kind) (scope.step cx s kind).1 := by
  obtain ⟨sub, hheld⟩ := h.held
  obtain ⟨last, hended, hlast⟩ := h.ended
  by_cases hkind : ∃ n, kind = .subcircuitClose n
  · obtain ⟨n, rfl⟩ := hkind
    have htop := (step_close cx s n hended).1
    have hsegments : scope.segments cx s (.subcircuitClose n) =
        [.block last, .plain (s.tail.map Line.verbatim)] := by
      simp only [segments, hended]
    rw [hsegments, htop]
    refine ⟨_, [], .block hlast (Segment.bracketed_of_keeps cx hlast) (.plain _ .nil),
      .closed rfl, ?_⟩
    simp [tracks, hheld, kept_close]
  · have hopen : ∀ n, kind ≠ .subcircuitClose n := fun n hn => hkind ⟨n, hn⟩
    have hsegments : scope.segments cx s kind = [] := by simp only [segments, hended]
    have htracks : scope.tracks cx s kind = (scope.kept cx s kind).map .keep := by
      simp only [tracks, hheld]
    rw [hsegments, htracks]
    refine ⟨[], _, .nil, .opened (h.step cx s hopen), ?_⟩
    simp

theorem holds_enterSubcircuit (o : Options) (head : SubcircuitOpening) (s : Statement) :
    (enterSubcircuit o head s).1.Holds head.name s.number (Header.ofHead o head s.tail).1.kept := by
  have hnew : Subcircuit.Keeps { name := head.name, line := s.number } head.name s.number [] :=
    ⟨rfl, rfl, rfl, rfl, .refl _, rfl, rfl⟩
  have hkeeps := holds_withHeader hnew (Header.ofHead o head s.tail).1 s.number
  simp only [enterSubcircuit]
  split
  · exact hkeeps
  · exact hkeeps

theorem held_stepTop (hkind : ∀ head, kind ≠ .subcircuitOpen head) :
    (stepTop cx s kind).1.held = none := by
  cases kind with
  | subcircuitOpen head => exact absurd rfl (hkind head)
  | model head =>
      simp only [stepTop, enterModel]
      split
      · exact held_readBlock_none _
      · rfl
  | simulator _ | parameters | statistics | binHeader _ _ | blockClose | subcircuitClose _
  | directive _ | deviceCall _ | other => rfl

theorem held_step_none (hheld : scope.held = none) (hkind : ∀ head, kind ≠ .subcircuitOpen head) :
    (scope.step cx s kind).1.held = none := by
  cases scope with
  | pins _ | body _ => cases hheld
  | top => exact held_stepTop hkind
  | model parent b =>
      cases hheld
      cases kind with
      | subcircuitOpen head => exact absurd rfl (hkind head)
      | blockClose => exact held_leaveModel_none b s.tail
      | subcircuitClose _ | model _ =>
          simp only [step, stepModel, interruptModel_eq, endModel_none, around]
          exact held_stepTop hkind
      | simulator _ | parameters | statistics | binHeader _ _ | directive _ | deviceCall _
      | other => exact held_readBlock_none _

theorem holds_step_open (hheld : scope.held = none) (head : SubcircuitOpening) :
    (scope.step cx s (.subcircuitOpen head)).1.Holds head.name s.number
      (Header.ofHead cx.options head s.tail).1.kept := by
  cases scope with
  | pins _ | body _ => cases hheld
  | top => exact holds_enterSubcircuit cx.options head s
  | model parent b =>
      cases hheld
      simp only [step, stepModel, interruptModel_eq, endModel_none, around]
      exact holds_enterSubcircuit cx.options head s

theorem settles_closed (cx : Context) (s : Statement) (kind : Statement.Kind)
    (hheld : scope.held = none) :
    Settles cx (scope.segments cx s kind) (scope.tracks cx s kind) (scope.step cx s kind).1 := by
  have hplain : Segment.Accounts cx (scope.segments cx s kind) [] := by
    simp only [segments, held_none_iff_ended.mp hheld]
    split
    · exact .call _ .nil
    · exact .plain _ .nil
  refine ⟨[], scope.tracks cx s kind, hplain, ?_, rfl⟩
  by_cases hkind : ∃ head, kind = .subcircuitOpen head
  · obtain ⟨head, rfl⟩ := hkind
    simp only [tracks, hheld]
    exact .opened (holds_step_open hheld head)
  · have hother : ∀ head, kind ≠ .subcircuitOpen head := fun head h => hkind ⟨head, h⟩
    have htracks : scope.tracks cx s kind = [] := by simp only [tracks, hheld]
    rw [htracks]
    exact .closed (held_step_none hheld hother)

theorem Books.step (h : scope.Books ts) (cx : Context) (s : Statement) (kind : Statement.Kind) :
    Settles cx (scope.segments cx s kind) (ts ++ scope.tracks cx s kind)
      (scope.step cx s kind).1 := by
  cases h with
  | opened h => exact settles_opened cx s kind h
  | closed h => exact settles_closed cx s kind h

theorem Books.copyAll (h : scope.Books ts) (cx : Context) (lines : List Text) :
    Settles cx (if scope.held.isSome then [] else [.plain (scope.copyAll lines).2.lines])
      (ts ++ (scope.copied lines).map .keep) (scope.copyAll lines).1 := by
  cases h with
  | opened h =>
      obtain ⟨sub, hheld⟩ := h.held
      rw [hheld]
      refine ⟨[], _, .nil, .opened (h.copyAll lines), ?_⟩
      simp
  | closed hheld =>
      rw [hheld]
      cases scope with
      | pins _ | body _ => cases hheld
      | top =>
          rw [copyAll_top]
          exact ⟨[], [], .plain _ .nil, .closed rfl, rfl⟩
      | model parent b =>
          cases hheld
          rw [copyAll_model]
          exact ⟨[], [], .plain _ .nil, .closed rfl, rfl⟩

/-- The end of the deck leaves the open subcircuit. -/
def lastTracks (scope : Scope) : List Track := if scope.held.isSome then [.leave] else []

theorem Books.finish (h : scope.Books ts) (cx : Context) :
    Segment.Accounts cx (scope.lastSegments cx) (ts ++ scope.lastTracks) := by
  cases h with
  | opened h =>
      obtain ⟨sub, hheld⟩ := h.held
      obtain ⟨last, hended, hlast⟩ := h.ended
      simp only [lastSegments, hended, lastTracks, hheld, Option.isSome_some, if_true]
      exact .block hlast (Segment.bracketed_of_keeps cx hlast) .nil
  | closed hheld =>
      simp only [lastSegments, held_none_iff_ended.mp hheld, lastTracks, hheld]
      exact .plain _ .nil

end Scope

namespace Session

/-- The lines that an item has copied instead of being handed on to its place. -/
def copied (cx : Context) (a : Session) : Item → List Text
  | .line l => [l.verbatim]
  | .statement s =>
      if 0 < a.statistics then s.lines.map commented
      else match s.kind cx.symbols cx.options a.dialect with
        | .statistics => s.lines.map commented
        | _ => []

def itemTracks (cx : Context) (a : Session) (item : Item) : List Track :=
  match a.dispatched? cx item with
  | some (s, kind) => a.scope.tracks cx s kind
  | none => (a.scope.copied (a.copied cx item)).map .keep

/-- What happens to the subcircuits in a run. -/
def tracks (cx : Context) (a : Session) : List Item → List Track
  | [] => a.scope.lastTracks
  | item :: r => a.itemTracks cx item ++ tracks cx (a.push cx item).1 r

theorem push_copied {cx : Context} {a : Session} {item : Item} (h : a.dispatched? cx item = none) :
    (a.push cx item).1.scope = (a.scope.copyAll (a.copied cx item)).1 ∧
      (a.push cx item).2 = (a.scope.copyAll (a.copied cx item)).2 := by
  cases item with
  | line l =>
      rw [copied, ← Scope.copy_eq_copyAll]
      exact ⟨rfl, rfl⟩
  | statement s =>
      by_cases hs : 0 < a.statistics
      · rw [push, pushStatement, copied, if_pos hs, if_pos hs]
        exact ⟨rfl, rfl⟩
      · rw [dispatched?, if_neg hs] at h
        rw [push, pushStatement, copied, if_neg hs, if_neg hs]
        cases hk : s.kind cx.symbols cx.options a.dialect with
        | simulator _ | statistics => exact ⟨rfl, rfl⟩
        | parameters | model _ | binHeader _ _ | blockClose | subcircuitClose _
        | subcircuitOpen _ | directive _ | deviceCall _ | other =>
            rw [hk] at h
            cases h

theorem settles_push (cx : Context) (a : Session) (item : Item) {ts : List Track}
    (h : a.scope.Books ts) :
    Scope.Settles cx (a.itemSegments cx item) (ts ++ a.itemTracks cx item)
      (a.push cx item).1.scope := by
  cases hd : a.dispatched? cx item with
  | some x =>
      obtain ⟨s, kind⟩ := x
      obtain ⟨hscope, -⟩ := push_of_dispatched hd
      simp only [itemSegments, itemTracks, hd]
      rw [hscope]
      exact h.step cx s kind
  | none =>
      obtain ⟨hscope, hdeck⟩ := push_copied hd
      simp only [itemSegments, itemTracks, hd]
      rw [hscope, hdeck]
      exact h.copyAll cx _

theorem accounts_run (cx : Context) (a : Session) (items : List Item) {ts : List Track}
    (h : a.scope.Books ts) :
    Segment.Accounts cx (a.segments cx items) (ts ++ a.tracks cx items) := by
  induction items generalizing a ts with
  | nil => exact h.finish cx
  | cons item r ih =>
      obtain ⟨complete, rest, hcomplete, hbooks, heq⟩ := settles_push cx a item h
      have htracks : ts ++ a.tracks cx (item :: r) =
          complete ++ (rest ++ (a.push cx item).1.tracks cx r) := by
        rw [tracks, ← List.append_assoc, heq, List.append_assoc]
      rw [htracks]
      exact hcomplete.append (ih (a.push cx item).1 hbooks)

/-- The subcircuit that an item opens while none is open, with the line it opens on. -/
def opening? (cx : Context) (a : Session) (item : Item) : Option (Text × Nat) :=
  match a.scope.held, a.dispatched? cx item with
  | none, some (s, .subcircuitOpen head) => some (head.name, s.number)
  | _, _ => none

def openings (cx : Context) (a : Session) : List Item → List (Text × Nat)
  | [] => []
  | item :: r => (a.opening? cx item).toList ++ openings cx (a.push cx item).1 r

theorem entered_itemTracks (cx : Context) (a : Session) (item : Item) :
    (a.itemTracks cx item).filterMap Track.entered? = (a.opening? cx item).toList := by
  cases hd : a.dispatched? cx item with
  | none =>
      simp only [itemTracks, opening?, hd, Track.filterMap_entered_keep]
      cases a.scope.held <;> rfl
  | some x =>
      obtain ⟨s, kind⟩ := x
      simp only [itemTracks, opening?, hd, Scope.tracks]
      cases a.scope.held with
      | some sub => cases kind <;> simp [Track.entered?]
      | none => cases kind <;> simp [Track.entered?]

theorem entered_tracks (cx : Context) (a : Session) (items : List Item) :
    (a.tracks cx items).filterMap Track.entered? = a.openings cx items := by
  induction items generalizing a with
  | nil =>
      simp only [tracks, Scope.lastTracks]
      split <;> rfl
  | cons item r ih => rw [tracks, List.filterMap_append, entered_itemTracks, ih, openings]

/-- The output is a sequence of segments, among them one block for each subcircuit that
opens while none is open. The blocks stand in the order of their openings; each runs from
the `.subckt` line to the `.ends` line of its subcircuit and holds what was kept while that
was open, less the models that later ones of the same name replace. A subcircuit is
reported as unterminated if and only if it is open at the end. -/
theorem run_brackets (cx : Context) (d : Dialect) (items : List Item) :
    (run cx { dialect := d } items).lines =
        (segments cx { dialect := d } items).flatMap (Segment.lines cx) ∧
      Segment.Accounts cx (segments cx { dialect := d } items) (tracks cx { dialect := d } items) ∧
      (segments cx { dialect := d } items).filterMap Segment.opening? =
        openings cx { dialect := d } items ∧
      (run cx { dialect := d } items).openReports =
        ((last cx { dialect := d } items).scope.held.map Scope.openReport).toList := by
  have hlines := (run_segments cx { dialect := d } items Scope.pending_top).1
  have haccounts : Segment.Accounts cx (segments cx { dialect := d } items)
      (tracks cx { dialect := d } items) :=
    accounts_run cx { dialect := d } items (.closed rfl)
  refine ⟨hlines, haccounts, ?_, openReports_run cx _ items⟩
  rw [haccounts.openings, entered_tracks]

/-- A subcircuit is opened in another one and the close names neither; the second one
is never closed. -/
def looseEnds : Text := "subckt a (x y)\nsubckt b (p)\nends c\nsubckt d (q)\n".toList

theorem run_brackets_looseEnds :
    openings ⟨{}, {}⟩ { dialect := .spectre } (Item.ofText looseEnds) =
        [("a".toList, 1), ("d".toList, 4)] ∧
      (segments ⟨{}, {}⟩ { dialect := .spectre } (Item.ofText looseEnds)).filterMap
          Segment.opening? = [("a".toList, 1), ("d".toList, 4)] ∧
      (run ⟨{}, {}⟩ { dialect := .spectre } (Item.ofText looseEnds)).openReports =
        [Cause.at (.unterminated "subcircuit".toList "d".toList "end of input".toList) 4] := by
  obtain ⟨-, -, hblocks, hreports⟩ := run_brackets ⟨{}, {}⟩ .spectre (Item.ofText looseEnds)
  have hopenings : openings ⟨{}, {}⟩ { dialect := .spectre } (Item.ofText looseEnds) =
      [("a".toList, 1), ("d".toList, 4)] := by
    decide +kernel
  refine ⟨hopenings, hblocks.trans hopenings, hreports.trans ?_⟩
  decide +kernel

end Session

end SpiceDeck
