import SpiceDeck.Proofs.Scope.Given

/-!
No call is lost and none is written twice. The calls that a run reads, and the models
it reads in subcircuits, are those of its segments; each call starts with the letter
that its reference stands for once the subcircuit has all its models.
-/

namespace SpiceDeck
open Text

namespace Scope

/-- The open subcircuit, without a model block that is open in it. -/
def held : Scope → Option Subcircuit
  | .top => none
  | .pins sub | .body sub => some sub
  | .model parent _ => parent

/-- What the end of an open subcircuit still gives to it. -/
def lastGiven : Scope → List Given
  | .model (some _) b => Given.ofBlock b
  | .model none _ | .top | .pins _ | .body _ => []

/-- What a statement gives to a body. -/
def bodyGiven (cx : Context) (s : Statement) : Statement.Kind → List Given
  | .deviceCall head => [.call (Call.ofHead cx.options head s).close]
  | .model head => Given.ofModel cx.options head s
  | _ => []

/-- What a statement gives to a subcircuit with an open model block. A statement that
cannot stand in the block closes it first. -/
def blockGiven (cx : Context) (b : Model.Block) (s : Statement) : Statement.Kind → List Given
  | .blockClose => Given.ofBlock b
  | .subcircuitOpen head => Given.ofBlock b ++ bodyGiven cx s (.subcircuitOpen head)
  | .subcircuitClose name => Given.ofBlock b ++ bodyGiven cx s (.subcircuitClose name)
  | .model head => Given.ofBlock b ++ bodyGiven cx s (.model head)
  | _ => Given.ofLines (b.readLines cx.options s.lines)

def given (cx : Context) (s : Statement) (kind : Statement.Kind) : Scope → List Given
  | .body _ => bodyGiven cx s kind
  | .model (some _) b => blockGiven cx b s kind
  | .model none _ | .top | .pins _ => []

def marks (cx : Context) (s : Statement) (kind : Statement.Kind) (scope : Scope) : List Mark :=
  match scope.held with
  | some _ =>
      (scope.given cx s kind).map .given ++ match kind with
        | .subcircuitClose _ => [.leave]
        | _ => []
  | none =>
      match kind, scope with
      | .deviceCall head, .top => [.given (.call (Call.ofHead cx.options head s).close)]
      | .subcircuitOpen head, _ => [.enter head.name s.number]
      | _, _ => []

def lastMarks (scope : Scope) : List Mark :=
  match scope.held with
  | some _ => scope.lastGiven.map .given ++ [.leave]
  | none => []

/-- The marks since the open subcircuit was entered. -/
inductive Pending (scope : Scope) : List Mark → Prop where
  | closed (h : scope.held = none) : Pending scope []
  | opened {sub : Subcircuit} {name : Text} {line : Nat} {gs : List Given}
      (h : scope.held = some sub) (hs : sub.Holds name line gs) :
      Pending scope (.enter name line :: gs.map .given)

/-- A step that writes nothing and leaves a subcircuit open that holds what is given. -/
structure Keeps (name : Text) (line : Nat) (gs : List Given) (x : Scope × Deck) : Prop where
  held : ∃ sub, x.1.held = some sub ∧ sub.Holds name line gs
  lines : x.2.lines = []

variable {cx : Context} {s : Statement} {kind : Statement.Kind} {scope : Scope} {sub : Subcircuit}
  {name : Text} {line : Nat} {gs : List Given}

theorem keeps_leaveModel (h : sub.Holds name line gs) (b : Model.Block) (rest : List Line) :
    Keeps name line (gs ++ Given.ofBlock b) (leaveModel (some sub) b rest) := by
  rw [leaveModel_some]
  exact ⟨⟨_, rfl, (h.addModels b.closeValue.models).copyLines _⟩, (endModel_some sub b).2⟩

theorem keeps_readBlock (h : sub.Holds name line gs) (x : Model.Block × Option (List Line)) :
    Keeps name line (gs ++ Given.ofLines x)
      (match x with
        | (block, none) => (.model (some sub) block, {})
        | (block, some rest) => leaveModel (some sub) block rest) := by
  obtain ⟨b, rest⟩ := x
  cases rest with
  | none =>
      rw [Given.ofLines, List.append_nil]
      exact ⟨⟨sub, rfl, h⟩, rfl⟩
  | some rest => exact keeps_leaveModel h b rest

theorem keeps_enterModel (h : sub.Holds name line gs) (o : Options) (head : ModelOpening)
    (s : Statement) :
    Keeps name line (gs ++ Given.ofModel o head s) (enterModel o (some sub) head s) := by
  simp only [enterModel, Given.ofModel]
  split
  · exact keeps_readBlock h _
  · exact ⟨⟨_, rfl, h.addModel _⟩, lines_warnIf _ _ _⟩

theorem lines_parameterLines (o : Options) (s : Statement) (place : Param.Placement) :
    (parameterLines o s place).2.2.lines = [] := by
  simp only [parameterLines]
  split
  · rfl
  · exact lines_warnIf _ _ _

theorem keeps_stepBody (h : sub.Holds name line gs) (hkind : ∀ n, kind ≠ .subcircuitClose n) :
    Keeps name line (gs ++ bodyGiven cx s kind) (stepBody cx sub s kind) := by
  have hnil : gs ++ [] = gs := List.append_nil gs
  cases kind with
  | subcircuitClose n => exact absurd rfl (hkind n)
  | deviceCall head => exact ⟨⟨_, rfl, h.addCall _⟩, lines_warnIf _ _ _⟩
  | model head => exact keeps_enterModel h cx.options head s
  | parameters =>
      simp only [stepBody, bodyGiven, hnil]
      split
      · exact ⟨⟨_, rfl, h.name, h.line, h.calls, h.models⟩, lines_parameterLines _ _ _⟩
      · exact ⟨⟨_, rfl, h.name, h.line, h.calls, h.models⟩, lines_parameterLines _ _ _⟩
  | subcircuitOpen head | directive text =>
      simp only [stepBody, bodyGiven, hnil]
      exact ⟨⟨_, rfl, h.name, h.line, h.calls, h.models⟩, rfl⟩
  | binHeader _ _ | blockClose =>
      simp only [stepBody, Subcircuit.foldl_copyLine, bodyGiven, hnil]
      exact ⟨⟨_, rfl, h.copyLines _⟩, rfl⟩
  | other | simulator _ | statistics =>
      simp only [stepBody, Subcircuit.foldl_copyLine, bodyGiven, hnil]
      exact ⟨⟨_, rfl, h.copyLines _⟩, lines_warnIf _ _ _⟩

theorem keeps_stepPins (h : sub.Holds name line gs) (hkind : ∀ n, kind ≠ .subcircuitClose n) :
    Keeps name line gs (stepPins cx sub s kind) := by
  cases kind with
  | subcircuitClose n => exact absurd rfl (hkind n)
  | simulator _ | parameters | statistics | model _ | binHeader _ _ | blockClose
  | subcircuitOpen _ | directive _ | deviceCall _ | other =>
      simp only [stepPins]
      split
      · exact ⟨⟨_, rfl, h.name, h.line, h.calls, h.models⟩, lines_warnIf _ _ _⟩
      · exact ⟨⟨_, rfl, h.name, h.line, h.calls, h.models⟩, lines_warnIf _ _ _⟩

theorem keeps_interruptModel (h : sub.Holds name line gs) (b : Model.Block)
    (hkind : ∀ n, kind ≠ .subcircuitClose n) :
    Keeps name line (gs ++ (Given.ofBlock b ++ bodyGiven cx s kind))
      (interruptModel cx (some sub) b s kind) := by
  have hstep : Keeps name line (gs ++ Given.ofBlock b ++ bodyGiven cx s kind)
      (stepBody cx (b.closeValue.models.foldl Subcircuit.addModel sub) s kind) :=
    keeps_stepBody (h.addModels b.closeValue.models) hkind
  rw [← List.append_assoc, interruptModel_eq, (endModel_some sub b).1]
  refine ⟨hstep.held, ?_⟩
  simp only [Deck.lines_append, (endModel_some sub b).2]
  exact hstep.lines

theorem keeps_stepModel (h : sub.Holds name line gs) (b : Model.Block)
    (hkind : ∀ n, kind ≠ .subcircuitClose n) :
    Keeps name line (gs ++ blockGiven cx b s kind) (stepModel cx (some sub) b s kind) := by
  cases kind with
  | subcircuitClose n => exact absurd rfl (hkind n)
  | blockClose => exact keeps_leaveModel h b s.tail
  | subcircuitOpen _ | model _ => exact keeps_interruptModel h b hkind
  | simulator _ | parameters | statistics | binHeader _ _ | directive _ | deviceCall _ | other =>
      exact keeps_readBlock h _

/-- While a subcircuit is open and not closed, nothing is written and all is kept. -/
theorem keeps_step (cx : Context) (s : Statement) (hheld : scope.held = some sub)
    (h : sub.Holds name line gs) (hkind : ∀ n, kind ≠ .subcircuitClose n) :
    Keeps name line (gs ++ scope.given cx s kind) (scope.step cx s kind) := by
  cases scope with
  | top => cases hheld
  | pins _ =>
      cases hheld
      rw [given, List.append_nil]
      exact keeps_stepPins h hkind
  | body _ =>
      cases hheld
      exact keeps_stepBody h hkind
  | model parent b =>
      cases hheld
      exact keeps_stepModel h b hkind

/-- What closes a subcircuit finds in it all that it was given. -/
theorem holds_ended (hheld : scope.held = some sub) (h : sub.Holds name line gs) :
    ∃ last, scope.ended = some last ∧ last.Holds name line (gs ++ scope.lastGiven) := by
  cases scope with
  | top => cases hheld
  | pins _ | body _ =>
      cases hheld
      rw [lastGiven, List.append_nil]
      exact ⟨sub, rfl, h⟩
  | model parent b =>
      cases hheld
      exact ⟨_, rfl, h.addModels b.closeValue.models⟩

/-- A close writes the subcircuit, then the lines that follow in its statement. -/
theorem stepBody_close (cx : Context) (sub : Subcircuit) (s : Statement) (n : Option Text) :
    (stepBody cx sub s (.subcircuitClose n)).1 = .top ∧
      (stepBody cx sub s (.subcircuitClose n)).2.lines =
        Segment.lines cx (.block sub) ++ s.tail.map Line.verbatim := by
  refine ⟨rfl, ?_⟩
  rw [Segment.lines_block, ← Subcircuit.lines_close cx.symbols cx.options sub n s.number]
  rfl

theorem step_close (cx : Context) (s : Statement) (n : Option Text) (h : scope.ended = some sub) :
    (scope.step cx s (.subcircuitClose n)).1 = .top ∧
      (scope.step cx s (.subcircuitClose n)).2.lines =
        Segment.lines cx (.block sub) ++ s.tail.map Line.verbatim ∧
      scope.given cx s (.subcircuitClose n) = scope.lastGiven := by
  obtain ⟨htop, hlines⟩ := stepBody_close cx sub s n
  cases scope with
  | top => cases h
  | pins _ | body _ =>
      cases h
      exact ⟨htop, hlines, rfl⟩
  | model parent b =>
      cases parent with
      | none => cases h
      | some outer =>
          have hsub : (endModel (some outer) b).1 = some sub := h
          have hstep : step cx s (.subcircuitClose n) (.model (some outer) b) =
              interruptModel cx (some outer) b s (.subcircuitClose n) := rfl
          rw [hstep, interruptModel_eq, hsub]
          refine ⟨htop, ?_, List.append_nil _⟩
          simp only [Deck.lines_append, (endModel_some outer b).2]
          exact hlines

theorem pending_top : Pending .top [] := .closed rfl

theorem pending_entered (h : scope.held = some sub) (hs : sub.Holds name line []) :
    Pending scope [.enter name line] :=
  .opened h hs

theorem held_leaveModel_none (b : Model.Block) (rest : List Line) :
    (leaveModel none b rest).1.held = none := by
  simp only [leaveModel, endModel_none, around, copyAll_top, held]

theorem held_readBlock_none (x : Model.Block × Option (List Line)) :
    (match x with
      | (block, none) => ((.model none block, {}) : Scope × Deck)
      | (block, some rest) => leaveModel none block rest).1.held = none := by
  obtain ⟨b, rest⟩ := x
  cases rest with
  | none => rfl
  | some rest => exact held_leaveModel_none b rest

theorem pending_stepTop (cx : Context) (s : Statement) (kind : Statement.Kind)
    (hkind : ∀ head, kind ≠ .deviceCall head) :
    Pending (stepTop cx s kind).1 (marks cx s kind .top) := by
  cases kind with
  | deviceCall head => exact absurd rfl (hkind head)
  | model head =>
      refine .closed ?_
      simp only [stepTop, enterModel]
      split
      · exact held_readBlock_none _
      · rfl
  | subcircuitOpen head =>
      simp only [stepTop, enterSubcircuit]
      split
      · exact pending_entered rfl ⟨rfl, rfl, rfl, rfl⟩
      · exact pending_entered rfl ⟨rfl, rfl, rfl, rfl⟩
  | simulator _ | parameters | statistics | binHeader _ _ | blockClose | subcircuitClose _
  | directive _ | other => exact pending_top

theorem pending_stepModel_none (b : Model.Block) :
    Pending (stepModel cx none b s kind).1 (marks cx s kind (.model none b)) := by
  cases kind with
  | blockClose => exact .closed (held_leaveModel_none b s.tail)
  | subcircuitOpen head =>
      rw [stepModel, interruptModel_eq]
      exact pending_stepTop cx s (.subcircuitOpen head) (by simp)
  | subcircuitClose n =>
      rw [stepModel, interruptModel_eq]
      exact pending_stepTop cx s (.subcircuitClose n) (by simp)
  | model head =>
      rw [stepModel, interruptModel_eq]
      exact pending_stepTop cx s (.model head) (by simp)
  | simulator _ | parameters | statistics | binHeader _ _ | directive _ | deviceCall _ | other =>
      exact .closed (held_readBlock_none _)

/-- A step writes the segments, which were read for the marks that are complete after
it; the others are pending. -/
structure Writes (cx : Context) (segments : List Segment) (ms : List Mark) (x : Scope × Deck) :
    Prop where
  lines : x.2.lines = segments.flatMap (Segment.lines cx)
  read : ∃ complete rest,
    Segment.AllRead segments complete ∧ x.1.Pending rest ∧ ms = complete ++ rest

theorem writes_close (cx : Context) (s : Statement) (n : Option Text)
    (hheld : scope.held = some sub) (h : sub.Holds name line gs) :
    Writes cx (scope.segments cx s (.subcircuitClose n))
      (.enter name line :: gs.map .given ++ scope.marks cx s (.subcircuitClose n))
      (scope.step cx s (.subcircuitClose n)) := by
  obtain ⟨last, hended, hlast⟩ := holds_ended hheld h
  obtain ⟨htop, hlines, hgiven⟩ := step_close cx s n hended
  have hmarks : scope.marks cx s (.subcircuitClose n) = scope.lastGiven.map .given ++ [.leave] := by
    simp only [marks, hheld, hgiven]
  have hsegments : scope.segments cx s (.subcircuitClose n) =
      [.block last, .plain (s.tail.map Line.verbatim)] := by
    simp only [segments, hended]
  rw [hsegments, hmarks]
  constructor
  · rw [hlines]
    simp [Segment.lines]
  · refine ⟨_, [], .cons (.block hlast) (.plain _), ?_, ?_⟩
    · rw [htop]
      exact pending_top
    · simp

theorem writes_kept (cx : Context) (s : Statement) (hheld : scope.held = some sub)
    (h : sub.Holds name line gs) (hkind : ∀ n, kind ≠ .subcircuitClose n) :
    Writes cx (scope.segments cx s kind)
      (.enter name line :: gs.map .given ++ scope.marks cx s kind) (scope.step cx s kind) := by
  obtain ⟨last, hended, -⟩ := holds_ended hheld h
  have hkeeps := keeps_step cx s hheld h hkind
  obtain ⟨next, hnext, hholds⟩ := hkeeps.held
  have hmarks : scope.marks cx s kind = (scope.given cx s kind).map .given := by
    simp only [marks, hheld, List.append_nil]
  have hsegments : scope.segments cx s kind = [] := by simp only [segments, hended]
  rw [hsegments, hmarks]
  refine ⟨hkeeps.lines, [], _, .nil, .opened hnext hholds, ?_⟩
  simp

theorem writes_stepTop (cx : Context) (s : Statement) (kind : Statement.Kind) :
    Writes cx (segments cx s kind .top) (marks cx s kind .top) (stepTop cx s kind) := by
  cases kind with
  | deviceCall head =>
      have hclose := Call.close_name_reference (Call.ofHead cx.options head s)
      refine ⟨?_, _, [], .cons (.call _) .nil, pending_top, rfl⟩
      simp only [segments, ended, stepTop, List.flatMap_cons, List.flatMap_nil, List.append_nil,
        Segment.lines, Segment.resolution, hclose]
  | simulator _ | parameters | statistics | model _ | binHeader _ _ | blockClose
  | subcircuitClose _ | subcircuitOpen _ | directive _ | other =>
      exact ⟨(List.append_nil _).symm, [], _, .plain _, pending_stepTop cx s _ (by simp), rfl⟩

/-- Every statement writes what it completes. -/
theorem writes_step (cx : Context) (s : Statement) (kind : Statement.Kind) {ms : List Mark}
    (h : Pending scope ms) :
    Writes cx (scope.segments cx s kind) (ms ++ scope.marks cx s kind) (scope.step cx s kind) := by
  cases h with
  | opened hheld hs =>
      by_cases hkind : ∃ n, kind = .subcircuitClose n
      · obtain ⟨n, rfl⟩ := hkind
        exact writes_close cx s n hheld hs
      · exact writes_kept cx s hheld hs fun n hn => hkind ⟨n, hn⟩
  | closed hheld =>
      cases scope with
      | pins _ | body _ => cases hheld
      | top => exact writes_stepTop cx s kind
      | model parent b =>
          cases hheld
          have hsegments : segments cx s kind (.model none b) =
              [.plain (stepModel cx none b s kind).2.lines] := by
            cases kind <;> rfl
          rw [hsegments]
          exact ⟨(List.append_nil _).symm, [], _, .plain _, pending_stepModel_none b, rfl⟩

theorem held_none_iff_ended : scope.held = none ↔ scope.ended = none := by
  cases scope with
  | top | pins _ | body _ => exact Iff.rfl
  | model parent b =>
      cases parent with
      | none => exact Iff.rfl
      | some sub => exact ⟨nofun, nofun⟩

/-- Copied lines are kept where a subcircuit is open, and written elsewhere. -/
theorem writes_copyAll (cx : Context) (lines : List Text) {ms : List Mark} (h : Pending scope ms) :
    Writes cx (if scope.held.isSome then [] else [.plain (scope.copyAll lines).2.lines]) ms
      (scope.copyAll lines) := by
  cases h with
  | opened hheld hs =>
      rw [hheld]
      refine ⟨?_, [], _, .nil, ?_, rfl⟩
      · cases scope with
        | top => cases hheld
        | pins _ => rw [copyAll_pins]; rfl
        | body _ => rw [copyAll_body]; rfl
        | model _ _ => rw [copyAll_model]; rfl
      · cases scope with
        | top => cases hheld
        | pins _ =>
            cases hheld
            rw [copyAll_pins]
            exact .opened rfl ⟨hs.name, hs.line, hs.calls, hs.models⟩
        | body _ =>
            cases hheld
            rw [copyAll_body]
            exact .opened rfl (hs.copyLines lines)
        | model parent b =>
            cases hheld
            rw [copyAll_model]
            exact .opened rfl hs
  | closed hheld =>
      rw [hheld]
      refine ⟨(List.append_nil _).symm, [], [], .plain _, .closed ?_, rfl⟩
      cases scope with
      | pins _ | body _ => cases hheld
      | top => rw [copyAll_top]; rfl
      | model parent b =>
          cases hheld
          rw [copyAll_model]
          rfl

/-- The end of the deck writes an open subcircuit with all that it holds. -/
theorem finish_segments (cx : Context) {ms : List Mark} (h : Pending scope ms) :
    (scope.finish cx).lines = (scope.lastSegments cx).flatMap (Segment.lines cx) ∧
      Segment.AllRead (scope.lastSegments cx) (ms ++ scope.lastMarks) := by
  have hsub : ∀ sub, (finishSubcircuit cx sub).lines = Segment.lines cx (.block sub) := by
    intro sub
    rw [Segment.lines_block, ← Subcircuit.lines_close cx.symbols cx.options sub none 0]
    rfl
  cases h with
  | closed hheld =>
      have hended : scope.ended = none := held_none_iff_ended.mp hheld
      simp only [lastSegments, lastMarks, hheld, hended]
      exact ⟨(List.append_nil _).symm, .plain _⟩
  | @opened _ name line gs hheld hs =>
      obtain ⟨last, hended, hlast⟩ := holds_ended hheld hs
      simp only [lastSegments, lastMarks, hheld, hended]
      constructor
      · have hlines : (scope.finish cx).lines = (finishSubcircuit cx last).lines := by
          cases scope with
          | top => cases hheld
          | pins _ | body _ =>
              cases hended
              rfl
          | model parent b =>
              cases hheld
              have hend : (endModel (some _) b).1 = some last := hended
              rw [finish_model, hend]
              simp only [Deck.lines_append, (endModel_some _ b).2]
              rfl
        rw [hlines, hsub]
        exact (List.append_nil _).symm
      · have hblock : Segment.AllRead [.block last]
            (.enter name line :: (gs ++ scope.lastGiven).map .given ++ [.leave] ++ []) :=
          .cons (.block hlast) .nil
        simpa using hblock

end Scope

namespace Session

/-- The statement that an item hands on to its place, with its kind. -/
def dispatched? (cx : Context) (a : Session) : Item → Option (Statement × Statement.Kind)
  | .line _ => none
  | .statement s =>
      if 0 < a.statistics then none
      else match s.kind cx.symbols cx.options a.dialect with
        | .simulator _ | .statistics => none
        | kind => some (s, kind)

def itemMarks (cx : Context) (a : Session) (item : Item) : List Mark :=
  match a.dispatched? cx item with
  | some (s, kind) => a.scope.marks cx s kind
  | none => []

def itemSegments (cx : Context) (a : Session) (item : Item) : List Segment :=
  match a.dispatched? cx item with
  | some (s, kind) => a.scope.segments cx s kind
  | none => if a.scope.held.isSome then [] else [.plain (a.push cx item).2.lines]

def marks (cx : Context) (a : Session) : List Item → List Mark
  | [] => a.scope.lastMarks
  | item :: r => a.itemMarks cx item ++ marks cx (a.push cx item).1 r

def segments (cx : Context) (a : Session) : List Item → List Segment
  | [] => a.scope.lastSegments cx
  | item :: r => a.itemSegments cx item ++ segments cx (a.push cx item).1 r

theorem push_of_dispatched {cx : Context} {a : Session} {item : Item} {s : Statement}
    {kind : Statement.Kind} (h : a.dispatched? cx item = some (s, kind)) :
    (a.push cx item).1.scope = (a.scope.step cx s kind).1 ∧
      (a.push cx item).2 = (a.scope.step cx s kind).2 := by
  cases item with
  | line l => cases h
  | statement t =>
      by_cases hs : 0 < a.statistics
      · rw [dispatched?, if_pos hs] at h
        cases h
      · rw [dispatched?, if_neg hs] at h
        rw [push, pushStatement, if_neg hs]
        cases hk : t.kind cx.symbols cx.options a.dialect with
        | simulator _ | statistics =>
            rw [hk] at h
            cases h
        | parameters | model _ | binHeader _ _ | blockClose | subcircuitClose _
        | subcircuitOpen _ | directive _ | deviceCall _ | other =>
            rw [hk] at h
            cases h
            exact ⟨rfl, rfl⟩

/-- An item that is not handed on is copied. -/
theorem push_of_not_dispatched {cx : Context} {a : Session} {item : Item}
    (h : a.dispatched? cx item = none) :
    ∃ lines, (a.push cx item).1.scope = (a.scope.copyAll lines).1 ∧
      (a.push cx item).2 = (a.scope.copyAll lines).2 := by
  cases item with
  | line l =>
      refine ⟨[l.verbatim], ?_⟩
      rw [← Scope.copy_eq_copyAll]
      exact ⟨rfl, rfl⟩
  | statement s =>
      by_cases hs : 0 < a.statistics
      · rw [push, pushStatement, if_pos hs]
        exact ⟨s.lines.map commented, rfl, rfl⟩
      · rw [dispatched?, if_neg hs] at h
        rw [push, pushStatement, if_neg hs]
        cases hk : s.kind cx.symbols cx.options a.dialect with
        | simulator _ => exact ⟨[], rfl, rfl⟩
        | statistics => exact ⟨s.lines.map commented, rfl, rfl⟩
        | parameters | model _ | binHeader _ _ | blockClose | subcircuitClose _
        | subcircuitOpen _ | directive _ | deviceCall _ | other =>
            rw [hk] at h
            cases h

theorem writes_push (cx : Context) (a : Session) (item : Item) {ms : List Mark}
    (h : a.scope.Pending ms) :
    Scope.Writes cx (a.itemSegments cx item) (ms ++ a.itemMarks cx item)
      ((a.push cx item).1.scope, (a.push cx item).2) := by
  cases hd : a.dispatched? cx item with
  | some x =>
      obtain ⟨s, kind⟩ := x
      obtain ⟨hscope, hdeck⟩ := push_of_dispatched hd
      simp only [itemSegments, itemMarks, hd]
      rw [hscope, hdeck]
      exact Scope.writes_step cx s kind h
  | none =>
      obtain ⟨lines, hscope, hdeck⟩ := push_of_not_dispatched hd
      simp only [itemSegments, itemMarks, hd, List.append_nil]
      rw [hscope, hdeck]
      exact Scope.writes_copyAll cx lines h

theorem run_segments (cx : Context) (a : Session) (items : List Item) {ms : List Mark}
    (h : a.scope.Pending ms) :
    (a.run cx items).lines = (a.segments cx items).flatMap (Segment.lines cx) ∧
      Segment.AllRead (a.segments cx items) (ms ++ a.marks cx items) := by
  induction items generalizing a ms with
  | nil => exact Scope.finish_segments cx h
  | cons item r ih =>
      obtain ⟨hlines, complete, rest, hread, hpending, hms⟩ := writes_push cx a item h
      obtain ⟨hrun, hall⟩ := ih (a.push cx item).1 hpending
      constructor
      · simp only [run, segments, Deck.lines_append, List.flatMap_append, hrun, ← hlines]
      · have hmarks : ms ++ a.marks cx (item :: r) =
            complete ++ (rest ++ (a.push cx item).1.marks cx r) := by
          rw [marks, ← List.append_assoc, hms, List.append_assoc]
        rw [hmarks]
        exact hread.append hall

/-- No call is lost or written twice, and each has the letter of what it refers to.
The output consists of the segments of the run. For these, one after the other, the
items were read: a subcircuit is written with the calls and models it was given while
it was open, the calls in that order. A call starts with the letter that its reference
stands for given all models of the subcircuit it is written with. -/
theorem run_calls (cx : Context) (d : Dialect) (items : List Item) :
    (run cx { dialect := d } items).lines =
        (segments cx { dialect := d } items).flatMap (Segment.lines cx) ∧
      Segment.AllRead (segments cx { dialect := d } items) (marks cx { dialect := d } items) ∧
      ∀ segment ∈ segments cx { dialect := d } items, ∀ c ∈ segment.calls,
        (c.head (segment.resolution cx c)).head?.map Char.toLower =
          some (segment.resolution cx c).letter.toLower := by
  obtain ⟨hlines, hread⟩ := run_segments cx { dialect := d } items Scope.pending_top
  exact ⟨hlines, hread, fun _ _ c _ => c.head_letter _⟩

/-- A call before its model; neither the model block nor the subcircuit is closed. -/
def unfinishedDeck : Text := "subckt a (x y)\nt1 (x y) dd\nmodel dd diode \x7b\nis=1\n".toList

theorem run_calls_unfinishedDeck :
    (segments ⟨{}, {}⟩ { dialect := .spectre } (Item.ofText unfinishedDeck)).flatMap
        (Segment.lines ⟨{}, {}⟩) =
      [ ".subckt a x y".toList, "dt1 x y dd".toList, [], ".model dd d".toList, "+ is=1".toList,
        ".ends a".toList ] ∧
      ∃ segment ∈ segments ⟨{}, {}⟩ { dialect := .spectre } (Item.ofText unfinishedDeck),
        ∃ c ∈ segment.calls, c.name = "t1".toList ∧ (segment.resolution ⟨{}, {}⟩ c).letter = 'd' ∧
          (c.head (segment.resolution ⟨{}, {}⟩ c)).head?.map Char.toLower =
            some (segment.resolution ⟨{}, {}⟩ c).letter.toLower := by
  obtain ⟨hlines, -, hletter⟩ := run_calls ⟨{}, {}⟩ .spectre (Item.ofText unfinishedDeck)
  constructor
  · rw [← hlines]
    decide +kernel
  · have hcall : ((segments ⟨{}, {}⟩ { dialect := .spectre } (Item.ofText unfinishedDeck)).any
        fun segment => segment.calls.any fun c =>
          c.name == "t1".toList && (segment.resolution ⟨{}, {}⟩ c).letter == 'd') = true := by
      decide +kernel
    obtain ⟨segment, hsegment, hany⟩ := List.any_eq_true.mp hcall
    obtain ⟨c, hc, hfacts⟩ := List.any_eq_true.mp hany
    simp only [Bool.and_eq_true, beq_iff_eq] at hfacts
    exact ⟨segment, hsegment, c, hc, hfacts.1, hfacts.2, hletter segment hsegment c hc⟩

end Session

end SpiceDeck
