import SpiceDeck.Proofs.Scope.Calls

/-!
Only the end of a deck reports a subcircuit that is not closed, and it does so exactly
if one is open there.
-/

namespace SpiceDeck
open Text

/-- The report of a subcircuit that something else than its own end had to close. -/
def Warning.isOpenSubcircuit (w : Warning) : Bool :=
  match w.cause with
  | .unterminated what _ _ => what = "subcircuit".toList
  | _ => false

namespace Deck

/-- What the deck reports of subcircuits that are not closed. -/
def openReports (d : Deck) : List Warning := d.warnings.filter Warning.isOpenSubcircuit

variable {a b : Deck}

@[simp] theorem openReports_append (a b : Deck) :
    (a ++ b).openReports = a.openReports ++ b.openReports :=
  List.filter_append _ _

@[simp] theorem openReports_ofLines (lines : List Text) : (ofLines lines).openReports = [] := rfl

@[simp] theorem openReports_empty : ({} : Deck).openReports = [] := rfl

theorem openReports_warnIf {c : Cause} (n : Nat) (hc : (c.at n).isOpenSubcircuit = false)
    (b : Bool) : (warnIf b c n).openReports = [] := by
  cases b with
  | false => rfl
  | true => simp [warnIf, warn, openReports, hc]

@[simp] theorem openReports_unclosedValue (b : Bool) (n : Nat) :
    (warnIf b .unclosedValue n).openReports = [] :=
  openReports_warnIf n rfl b

theorem openReports_concat {α : Type} {f : α → Deck} (h : ∀ a, (f a).openReports = [])
    (l : List α) : (concat (l.map f)).openReports = [] := by
  induction l with
  | nil => rfl
  | cons a r ih => simp only [List.map_cons, concat, openReports_append, h, ih, List.append_nil]

/-- A reference that nothing declares is reported as such. -/
theorem openReports_resolution (symbols : Symbols) (o : Options) (name reference : Text)
    (family : Option Family) (n : Nat) :
    ((Resolution.find symbols o name reference family).warning.map (·.at n)).toList.filter
      Warning.isOpenSubcircuit = [] := by
  simp only [Resolution.find]
  split
  · rfl
  · split
    · rfl
    · split
      · rfl
      · split <;> rfl

end Deck

open Deck

namespace Subcircuit

theorem openReports_renderCall (symbols : Symbols) (o : Options) (s : Subcircuit) (e : Entry Call) :
    (renderCall symbols o s e).openReports = [] := by
  cases e with
  | verbatim t => rfl
  | item c => exact openReports_resolution symbols o c.name c.reference _ c.line

theorem openReports_renderModel (e : Entry Model) : (renderModel e).openReports = [] := by
  cases e with
  | verbatim t => rfl
  | item m =>
      simp only [renderModel, openReports, Model.warning?]
      split <;> rfl

theorem openReports_close (symbols : Symbols) (o : Options) (s : Subcircuit) (name : Option Text)
    (n : Nat) : (s.close symbols o name n).openReports = [] := by
  have hrender : (s.render symbols o).openReports = [] := by
    simp only [render, openReports_append, openReports_ofLines,
      openReports_concat (openReports_renderCall symbols o s),
      openReports_concat openReports_renderModel, List.append_nil]
  cases name with
  | none => exact hrender
  | some name =>
      rw [close, openReports_append, hrender, openReports_warnIf n rfl]
      rfl

end Subcircuit

namespace Scope

variable (cx : Context) (s : Statement)

theorem openReports_copyAll (lines : List Text) (scope : Scope) :
    (scope.copyAll lines).2.openReports = [] := by
  cases scope with
  | top => rw [copyAll_top]; rfl
  | pins sub => rw [copyAll_pins]; rfl
  | body sub => rw [copyAll_body]; rfl
  | model parent b => rw [copyAll_model]; rfl

theorem openReports_endModel (parent : Option Subcircuit) (b : Model.Block) :
    (endModel parent b).2.openReports = [] := by
  cases parent with
  | some sub => exact openReports_unclosedValue _ _
  | none =>
      simp only [endModel, openReports_append, openReports_unclosedValue]
      exact openReports_concat (fun m => Subcircuit.openReports_renderModel (.item m)) _

theorem openReports_leaveModel (parent : Option Subcircuit) (b : Model.Block) (rest : List Line) :
    (leaveModel parent b rest).2.openReports = [] := by
  simp only [leaveModel, openReports_append, openReports_endModel, openReports_copyAll,
    List.append_nil]

theorem openReports_readBlock (parent : Option Subcircuit) (x : Model.Block × Option (List Line)) :
    (match x with
      | (block, none) => ((.model parent block, {}) : Scope × Deck)
      | (block, some rest) => leaveModel parent block rest).2.openReports = [] := by
  obtain ⟨b, rest⟩ := x
  cases rest with
  | none => rfl
  | some rest => exact openReports_leaveModel parent b rest

theorem openReports_enterModel (o : Options) (parent : Option Subcircuit) (head : ModelOpening) :
    (enterModel o parent head s).2.openReports = [] := by
  simp only [enterModel]
  split
  · exact openReports_readBlock parent _
  · cases parent with
    | some sub => exact openReports_unclosedValue _ _
    | none =>
        rw [openReports_append, openReports_unclosedValue]
        exact Subcircuit.openReports_renderModel _

theorem openReports_parameterLines (o : Options) (place : Param.Placement) :
    (parameterLines o s place).2.2.openReports = [] := by
  simp only [parameterLines]
  split
  · rfl
  · exact openReports_unclosedValue _ _

theorem openReports_oddStatement : (oddStatement s).openReports = [] :=
  openReports_warnIf s.number rfl _

theorem openReports_enterSubcircuit (o : Options) (head : SubcircuitOpening) :
    (enterSubcircuit o head s).2.openReports = [] :=
  openReports_unclosedValue _ _

theorem openReports_stepTop (kind : Statement.Kind) : (stepTop cx s kind).2.openReports = [] := by
  cases kind with
  | parameters =>
      simp only [stepTop, openReports_append, openReports_ofLines]
      exact openReports_parameterLines s cx.options .topLevel
  | model head => exact openReports_enterModel s cx.options none head
  | subcircuitOpen head => exact openReports_enterSubcircuit s cx.options head
  | deviceCall head =>
      have hvalue := openReports_unclosedValue (Call.ofHead cx.options head s).isOpen s.number
      rw [openReports] at hvalue
      simp only [stepTop, openReports, List.filter_append, hvalue, openReports_resolution,
        List.append_nil]
  | subcircuitClose _ | binHeader _ _ | blockClose | directive _ => rfl
  | other | simulator _ | statistics =>
      simp only [stepTop, openReports_append, openReports_ofLines, openReports_oddStatement,
        List.append_nil]

theorem openReports_stepBody (sub : Subcircuit) (kind : Statement.Kind) :
    (stepBody cx sub s kind).2.openReports = [] := by
  cases kind with
  | parameters =>
      simp only [stepBody]
      split
      · exact openReports_parameterLines s cx.options .subcircuitLocal
      · exact openReports_parameterLines s cx.options .subcircuitLocal
  | model head => exact openReports_enterModel s cx.options (some sub) head
  | subcircuitClose name =>
      simp only [stepBody, openReports_append, openReports_ofLines, Subcircuit.openReports_close,
        List.append_nil]
  | deviceCall head => exact openReports_unclosedValue _ _
  | other | simulator _ | statistics => exact openReports_oddStatement s
  | subcircuitOpen _ | binHeader _ _ | blockClose | directive _ => rfl

theorem openReports_stepPins (sub : Subcircuit) (kind : Statement.Kind) :
    (stepPins cx sub s kind).2.openReports = [] := by
  cases kind with
  | subcircuitClose name => exact openReports_stepBody cx s sub (.subcircuitClose name)
  | simulator _ | parameters | statistics | model _ | binHeader _ _ | blockClose
  | subcircuitOpen _ | directive _ | deviceCall _ | other => exact openReports_unclosedValue _ _

theorem openReports_interruptModel (parent : Option Subcircuit) (b : Model.Block)
    (kind : Statement.Kind) : (interruptModel cx parent b s kind).2.openReports = [] := by
  have haround : ((around (endModel parent b).1).step cx s kind).2.openReports = [] := by
    cases (endModel parent b).1 with
    | none => exact openReports_stepTop cx s kind
    | some sub => exact openReports_stepBody cx s sub kind
  rw [interruptModel_eq, openReports_append, openReports_append, haround, openReports_endModel]
  rfl

/-- No statement reports an open subcircuit, whatever it closes. -/
theorem openReports_step (kind : Statement.Kind) (scope : Scope) :
    (scope.step cx s kind).2.openReports = [] := by
  cases scope with
  | top => exact openReports_stepTop cx s kind
  | pins sub => exact openReports_stepPins cx s sub kind
  | body sub => exact openReports_stepBody cx s sub kind
  | model parent b =>
      cases kind with
      | blockClose => exact openReports_leaveModel parent b s.tail
      | subcircuitOpen _ | subcircuitClose _ | model _ =>
          exact openReports_interruptModel cx s parent b _
      | simulator _ | parameters | statistics | binHeader _ _ | directive _ | deviceCall _
      | other => exact openReports_readBlock parent _

/-- The report of a subcircuit that the end of the deck closes. -/
def openReport (sub : Subcircuit) : Warning :=
  Cause.at (.unterminated "subcircuit".toList sub.name "end of input".toList) sub.line

theorem openReports_finishSubcircuit (sub : Subcircuit) :
    (finishSubcircuit cx sub).openReports = [openReport sub] := by
  rw [finishSubcircuit, openReports_append, Subcircuit.openReports_close, List.append_nil]
  rfl

/-- A model block that is closed does not change what is reported of the subcircuit. -/
theorem openReport_endModel (sub : Subcircuit) (b : Model.Block) :
    (endModel (some sub) b).1.map openReport = some (openReport sub) := by
  have hmodels : ∀ (ms : List Model) (sub : Subcircuit),
      openReport (ms.foldl Subcircuit.addModel sub) = openReport sub := by
    intro ms
    induction ms with
    | nil => exact fun _ => rfl
    | cons m r ih => exact fun sub => ih (sub.addModel m)
  rw [(endModel_some sub b).1, Option.map_some, hmodels]

/-- The end of the deck reports the subcircuit that is open there. -/
theorem openReports_finish (scope : Scope) :
    (scope.finish cx).openReports = (scope.held.map openReport).toList := by
  cases scope with
  | top => rfl
  | pins sub | body sub => exact openReports_finishSubcircuit cx sub
  | model parent b =>
      rw [finish_model, openReports_append, openReports_append, openReports_endModel]
      cases parent with
      | none => rfl
      | some sub =>
          obtain ⟨last, hlast, hreport⟩ := Option.map_eq_some_iff.mp (openReport_endModel sub b)
          rw [hlast, around, finish, openReports_finishSubcircuit, hreport]
          rfl

end Scope

namespace Session

/-- Where a conversion stands after all items. -/
def last (cx : Context) (a : Session) : List Item → Session
  | [] => a
  | item :: r => last cx (a.push cx item).1 r

theorem openReports_push (cx : Context) (a : Session) (item : Item) :
    (a.push cx item).2.openReports = [] := by
  cases hd : a.dispatched? cx item with
  | some x =>
      rw [(push_of_dispatched hd).2]
      exact Scope.openReports_step cx x.1 x.2 a.scope
  | none =>
      obtain ⟨lines, -, hdeck⟩ := push_of_not_dispatched hd
      rw [hdeck]
      exact Scope.openReports_copyAll lines a.scope

theorem openReports_run (cx : Context) (a : Session) (items : List Item) :
    (a.run cx items).openReports = ((a.last cx items).scope.held.map Scope.openReport).toList := by
  induction items generalizing a with
  | nil => exact Scope.openReports_finish cx a.scope
  | cons item r ih => rw [run, openReports_append, openReports_push, ih]; rfl

end Session

end SpiceDeck
