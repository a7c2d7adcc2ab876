import SpiceDeck.Proofs.Model.Parts
import SpiceDeck.Proofs.Scope.BlockEnd

/-!
The model blocks that a run opens and closes. A block is closed by one of its own lines, by a
statement that cannot stand in it, or by the end of the deck. Main statements: the run closes the
blocks that it opens, each once and in order, and reports what closing each of them reports.
-/

namespace SpiceDeck
open Text

namespace Model.Block

def origin (b : Model.Block) : Text × Nat := (b.name, b.common.line)

theorem origin_modifyCurrent {f : Model → Model}
    (hf : ∀ m, (f m).base = m.base ∧ (f m).line = m.line) (b : Model.Block) :
    (b.modifyCurrent f).origin = b.origin := by
  cases hc : b.current with
  | some index => rw [modifyCurrent_bin hc]; rfl
  | none =>
      obtain ⟨hbase, hline⟩ := hf b.common
      rw [modifyCurrent_common hc, origin, name, hbase, hline]
      rfl

theorem origin_add (b : Model.Block) (p : Part) : (b.add p).origin = b.origin := by
  cases p with
  | bin index l line => rfl
  | line l =>
      refine origin_modifyCurrent (f := (·.add l)) ?_ b
      intro m
      cases l with
      | verbatim t => exact ⟨rfl, rfl⟩
      | params l =>
          simp only [Model.add, addParams, absorb]
          split
          · exact ⟨rfl, rfl⟩
          · exact ⟨rfl, rfl⟩

theorem origin_foldl_add (b : Model.Block) (ps : List Part) :
    (ps.foldl add b).origin = b.origin := by
  induction ps generalizing b with
  | nil => rfl
  | cons p r ih => rw [List.foldl_cons, ih, origin_add]

theorem origin_readLines (o : Options) (b : Model.Block) (lines : List Line) :
    (b.readLines o lines).1.origin = b.origin := by
  rw [readLines_eq_foldl_add]
  exact origin_foldl_add b _

theorem origin_ofHead (o : Options) (head : ModelOpening) (s : Statement) :
    (ofHead o head s).1.origin = (head.name, s.number) := by
  rw [ofHead_eq_foldl_add]
  exact origin_foldl_add _ _

end Model.Block

namespace Scope

/-- The block that is open, with the place where it stands. -/
def openBlock : Scope → List (Option Subcircuit × Model.Block)
  | .model parent b => [(parent, b)]
  | .top | .pins _ | .body _ => []

/-- The open block, if the statement is not read into it. -/
def interrupted (kind : Statement.Kind) (scope : Scope) : List (Option Subcircuit × Model.Block) :=
  match kind with
  | .blockClose | .model _ | .subcircuitOpen _ | .subcircuitClose _ => scope.openBlock
  | .simulator _ | .parameters | .statistics | .binHeader _ _ | .directive _ | .deviceCall _
  | .other => []

/-- The block that lines were read into, if one of them closed it. -/
def closedBlock :
    Option (Option Subcircuit × Model.Block × Option (List Line)) →
      List (Option Subcircuit × Model.Block)
  | some (parent, b, some _) => [(parent, b)]
  | some (_, _, none) | none => []

def closings (o : Options) (s : Statement) (kind : Statement.Kind) (scope : Scope) :
    List (Option Subcircuit × Model.Block) :=
  scope.interrupted kind ++ closedBlock (readsInto? o s kind scope)

def closingWarnings (blocks : List (Option Subcircuit × Model.Block)) : List Warning :=
  blocks.flatMap fun c => (endModel c.1 c.2).2.warnings

section Reports
variable (cx : Context) (s : Statement)

theorem closingWarnings_leaveModel (parent : Option Subcircuit) (b : Model.Block)
    (rest : List Line) :
    (closingWarnings [(parent, b)]).Sublist (leaveModel parent b rest).2.warnings := by
  rw [closingWarnings, List.flatMap_singleton]
  exact List.sublist_append_left _ _

theorem closingWarnings_enterModel (o : Options) (parent : Option Subcircuit)
    (head : ModelOpening) :
    (closingWarnings (closedBlock (opened? o parent head s))).Sublist
      (enterModel o parent head s).2.warnings := by
  unfold opened? enterModel
  split
  · cases Model.Block.ofHead o head s with
    | mk b behind =>
        cases behind with
        | none => exact List.nil_sublist _
        | some rest => exact closingWarnings_leaveModel parent b rest
  · exact List.nil_sublist _

theorem closingWarnings_around (parent : Option Subcircuit) (kind : Statement.Kind) :
    (closingWarnings (closedBlock (readsInto? cx.options s kind (around parent)))).Sublist
      ((around parent).step cx s kind).2.warnings := by
  rw [readsInto?_around]
  cases kind with
  | model head =>
      cases parent with
      | none => exact closingWarnings_enterModel s cx.options none head
      | some sub => exact closingWarnings_enterModel s cx.options (some sub) head
  | simulator _ | parameters | statistics | binHeader _ _ | blockClose | subcircuitClose _
  | subcircuitOpen _ | directive _ | deviceCall _ | other => exact List.nil_sublist _

theorem closingWarnings_interruptModel (parent : Option Subcircuit) (b : Model.Block)
    (kind : Statement.Kind) :
    (closingWarnings ((parent, b) ::
        closedBlock (readsInto? cx.options s kind (around (endModel parent b).1)))).Sublist
      (interruptModel cx parent b s kind).2.warnings := by
  rw [interruptModel_eq, closingWarnings, List.flatMap_cons]
  exact (List.sublist_append_right _ _).append (closingWarnings_around cx s _ kind)

/-- A statement reports what closing its blocks reports. -/
theorem closingWarnings_step (kind : Statement.Kind) (scope : Scope) :
    (closingWarnings (scope.closings cx.options s kind)).Sublist
      (scope.step cx s kind).2.warnings := by
  cases scope with
  | top =>
      have htop := closingWarnings_around cx s none kind
      cases kind <;> exact htop
  | body sub =>
      have hbody := closingWarnings_around cx s (some sub) kind
      cases kind <;> exact hbody
  | pins sub => cases kind <;> exact List.nil_sublist _
  | model parent b =>
      have hinterrupt := closingWarnings_interruptModel cx s parent b kind
      rw [readsInto?_around] at hinterrupt
      cases kind with
      | blockClose => exact closingWarnings_leaveModel parent b s.tail
      | model _ | subcircuitOpen _ | subcircuitClose _ => exact hinterrupt
      | simulator _ | parameters | statistics | binHeader _ _ | directive _ | deviceCall _
      | other =>
          unfold closings readsInto? step stepModel
          dsimp only
          cases b.readLines cx.options s.lines with
          | mk b behind =>
              cases behind with
              | none => exact List.nil_sublist _
              | some rest => exact closingWarnings_leaveModel parent b rest

theorem closingWarnings_finish (scope : Scope) :
    (closingWarnings scope.openBlock).Sublist (scope.finish cx).warnings := by
  cases scope with
  | top | pins _ | body _ => exact List.nil_sublist _
  | model parent b =>
      rw [finish_model, openBlock, closingWarnings, List.flatMap_singleton]
      exact (List.sublist_append_right _ _).trans (List.sublist_append_left _ _)

end Reports

/-- The block that a statement opens, by its name and line. -/
def blockOpenings (s : Statement) (kind : Statement.Kind) : Scope → List (Text × Nat)
  | .pins _ => []
  | .top | .body _ | .model _ _ =>
      match kind with
      | .model head => if head.braced then [(head.name, s.number)] else []
      | _ => []

def origins (blocks : List (Option Subcircuit × Model.Block)) : List (Text × Nat) :=
  blocks.map fun c => c.2.origin

theorem origins_append (a b : List (Option Subcircuit × Model.Block)) :
    origins (a ++ b) = origins a ++ origins b :=
  List.map_append

/-- The block that lines were read into is closed or open behind them. -/
theorem Leaves.origins_eq {read : Option (Option Subcircuit × Model.Block × Option (List Line))}
    (h : Leaves read scope) :
    origins (closedBlock read) ++ origins scope.openBlock =
      (read.map fun read => read.2.1.origin).toList := by
  have hnone : scope.isModel = false → origins scope.openBlock = [] := by
    intro hscope
    cases scope with
    | top | pins _ | body _ => rfl
    | model parent b => cases hscope
  match read, h with
  | some (p, b, none), h =>
      rw [show scope = .model p b from h]
      rfl
  | some (p, b, some rest), h => rw [hnone h]; rfl
  | none, h => rw [hnone h]; rfl

theorem origin_opened? (o : Options) (parent : Option Subcircuit) (head : ModelOpening)
    (s : Statement) :
    ((opened? o parent head s).map fun read => read.2.1.origin).toList =
      if head.braced then [(head.name, s.number)] else [] := by
  unfold opened?
  split
  · rw [Option.map_some, Model.Block.origin_ofHead]
    rfl
  · rfl

theorem origins_readsInto? (o : Options) (s : Statement) (kind : Statement.Kind) (scope : Scope) :
    origins scope.openBlock ++ scope.blockOpenings s kind =
      origins (scope.interrupted kind) ++
        ((readsInto? o s kind scope).map fun read => read.2.1.origin).toList := by
  cases scope with
  | pins sub => cases kind <;> rfl
  | top | body _ =>
      cases kind with
      | model head => exact (origin_opened? o _ head s).symm
      | simulator _ | parameters | statistics | binHeader _ _ | blockClose | subcircuitClose _
      | subcircuitOpen _ | directive _ | deviceCall _ | other => rfl
  | model parent b =>
      cases kind with
      | model head => exact congrArg (b.origin :: ·) (origin_opened? o _ head s).symm
      | blockClose | subcircuitClose _ | subcircuitOpen _ => rfl
      | simulator _ | parameters | statistics | binHeader _ _ | directive _ | deviceCall _
      | other => exact congrArg ([·]) (Model.Block.origin_readLines o b s.lines).symm

/-- Over a statement no block gets lost: what was open or is opened is closed or stays open. -/
theorem origins_step (cx : Context) (s : Statement) (kind : Statement.Kind) (scope : Scope) :
    origins scope.openBlock ++ scope.blockOpenings s kind =
      origins (scope.closings cx.options s kind) ++
        origins (scope.step cx s kind).1.openBlock := by
  rw [closings, origins_append, List.append_assoc, (leaves_step cx s scope kind).origins_eq]
  exact origins_readsInto? cx.options s kind scope

theorem origins_copyAll (lines : List Text) (scope : Scope) :
    origins (scope.copyAll lines).1.openBlock = origins scope.openBlock := by
  cases scope with
  | top => rw [copyAll_top]
  | pins sub => rw [copyAll_pins]; rfl
  | body sub => rw [copyAll_body]; rfl
  | model parent b =>
      have horigin := Model.Block.origin_modifyCurrent (f := (·.addTexts lines))
        (fun m => ⟨rfl, rfl⟩) b
      rw [copyAll_model]
      exact congrArg ([·]) horigin

end Scope

namespace Session
variable (cx : Context)

def itemClosings (a : Session) (item : Item) : List (Option Subcircuit × Model.Block) :=
  match a.dispatched? cx item with
  | some (s, kind) => a.scope.closings cx.options s kind
  | none => []

def closings (a : Session) : List Item → List (Option Subcircuit × Model.Block)
  | [] => a.scope.openBlock
  | item :: r => a.itemClosings cx item ++ closings (a.push cx item).1 r

def blockOpenings (a : Session) : List Item → List (Text × Nat)
  | [] => []
  | item :: r =>
      (match a.dispatched? cx item with
        | some (s, kind) => a.scope.blockOpenings s kind
        | none => []) ++ blockOpenings (a.push cx item).1 r

/-- A run closes the block that is open and those that it opens, each once and in order. -/
theorem origins_closings (a : Session) (items : List Item) :
    Scope.origins (a.closings cx items) =
      Scope.origins a.scope.openBlock ++ a.blockOpenings cx items := by
  induction items generalizing a with
  | nil => exact (List.append_nil _).symm
  | cons item r ih =>
      rw [closings, blockOpenings, Scope.origins_append, ih, ← List.append_assoc,
        ← List.append_assoc, itemClosings]
      congr 1
      cases hd : a.dispatched? cx item with
      | some x =>
          rw [(push_of_dispatched hd).1]
          exact (Scope.origins_step cx x.1 x.2 a.scope).symm
      | none =>
          obtain ⟨lines, hscope, -⟩ := push_of_not_dispatched hd
          rw [hscope, Scope.origins_copyAll]
          exact (List.append_nil _).symm

theorem closingWarnings_push (a : Session) (item : Item) :
    (Scope.closingWarnings (a.itemClosings cx item)).Sublist (a.push cx item).2.warnings := by
  unfold itemClosings
  cases hd : a.dispatched? cx item with
  | some x =>
      rw [(push_of_dispatched hd).2]
      exact Scope.closingWarnings_step cx x.1 x.2 a.scope
  | none => exact List.nil_sublist _

theorem closingWarnings_run (a : Session) (items : List Item) :
    (Scope.closingWarnings (a.closings cx items)).Sublist (a.run cx items).warnings := by
  induction items generalizing a with
  | nil => exact Scope.closingWarnings_finish cx a.scope
  | cons item r ih =>
      rw [closings, Scope.closingWarnings, List.flatMap_append]
      exact (closingWarnings_push cx a item).append (ih _)

end Session
end SpiceDeck
