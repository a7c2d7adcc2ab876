import SpiceDeck.Conversion
import SpiceDeck.Proofs.Scope.Equations

/-!
The output of a run in segments: lines and calls that are written outside of
subcircuits, and subcircuits as a whole. While a subcircuit is open nothing is
written; a statement that closes it, or the end of the deck, writes all of it.
-/

namespace SpiceDeck
open Text

inductive Segment where
  | plain (lines : List Text)
  | call (c : Call)
  | block (sub : Subcircuit)

namespace Segment

/-- What the reference of a call turns out to be. In a subcircuit the models that it
has when it closes come first. -/
def resolution (cx : Context) (segment : Segment) (c : Call) : Resolution :=
  let family := match segment with
    | .block sub => sub.modelFamily? c.reference
    | .plain _ | .call _ => none
  Resolution.find cx.symbols cx.options c.name c.reference family

def calls : Segment → List Call
  | .plain _ => []
  | .call c => [c]
  | .block sub => sub.calls.filterMap Entry.item?

/-- The lines of a subcircuit down to its calls. -/
def upperLines (cx : Context) (sub : Subcircuit) : List Text :=
  sub.openingLines ++ sub.body ++ sub.calls.flatMap fun
    | .item c => c.render (resolution cx (.block sub) c)
    | .verbatim t => [t]

/-- The lines of the models of a subcircuit. -/
def lowerLines (sub : Subcircuit) : List Text :=
  sub.models.flatMap fun
    | .item m => m.render
    | .verbatim t => [t]

def lines (cx : Context) : Segment → List Text
  | .plain lines => lines
  | .call c => c.render (resolution cx (.call c) c)
  | .block sub =>
      upperLines cx sub ++ Subcircuit.gap (upperLines cx sub) ++ lowerLines sub ++
        [".ends ".toList ++ sub.name]

theorem lines_concat_map {α : Type} {f : α → Deck} {g : α → List Text} (h : ∀ a, (f a).lines = g a)
    (l : List α) : (Deck.concat (l.map f)).lines = l.flatMap g := by
  induction l with
  | nil => rfl
  | cons a r ih =>
      simp only [List.map_cons, Deck.concat, Deck.lines_append, List.flatMap_cons, h, ih]

theorem lines_block (cx : Context) (sub : Subcircuit) :
    lines cx (.block sub) = (sub.render cx.symbols cx.options).lines := by
  have hcalls : ∀ e, (Subcircuit.renderCall cx.symbols cx.options sub e).lines = (match e with
      | .item c => c.render (resolution cx (.block sub) c)
      | .verbatim t => [t]) := by
    intro e
    cases e <;> rfl
  have hmodels : ∀ e, (Subcircuit.renderModel e).lines = (match e with
      | .item m => m.render
      | .verbatim t => [t]) := by
    intro e
    cases e <;> rfl
  have hof : ∀ ls : List Text, (Deck.ofLines ls).lines = ls := fun _ => rfl
  simp only [lines, Subcircuit.render, Deck.lines_append, hof, lines_concat_map hcalls,
    lines_concat_map hmodels]
  rfl

end Segment

theorem Subcircuit.lines_close (symbols : Symbols) (o : Options) (s : Subcircuit)
    (name : Option Text) (n : Nat) :
    (s.close symbols o name n).lines = (s.render symbols o).lines := by
  cases name with
  | none => rfl
  | some name =>
      simp only [close, Deck.warnIf]
      split <;> rfl

namespace Scope

/-- The open subcircuit as it is when it closes at this place. -/
def ended : Scope → Option Subcircuit
  | .top => none
  | .pins sub | .body sub => some sub
  | .model parent block => (endModel parent block).1

/-- What a statement writes. -/
def segments (cx : Context) (s : Statement) (kind : Statement.Kind) (scope : Scope) :
    List Segment :=
  match scope.ended with
  | some sub =>
      match kind with
      | .subcircuitClose _ => [.block sub, .plain (s.tail.map Line.verbatim)]
      | _ => []
  | none =>
      match kind, scope with
      | .deviceCall head, .top => [.call (Call.ofHead cx.options head s).close]
      | kind, scope => [.plain (scope.step cx s kind).2.lines]

/-- What the end of the deck writes. -/
def lastSegments (cx : Context) (scope : Scope) : List Segment :=
  match scope.ended with
  | some sub => [.block sub]
  | none => [.plain (scope.finish cx).lines]

@[simp] theorem lines_warnIf (b : Bool) (c : Cause) (n : Nat) : (Deck.warnIf b c n).lines = [] := by
  cases b <;> rfl

theorem endModel_none (b : Model.Block) : (endModel none b).1 = none := rfl

theorem endModel_some (sub : Subcircuit) (b : Model.Block) :
    (endModel (some sub) b).1 = some (b.closeValue.models.foldl Subcircuit.addModel sub) ∧
      (endModel (some sub) b).2.lines = [] :=
  ⟨rfl, lines_warnIf _ _ _⟩

theorem leaveModel_some (sub : Subcircuit) (b : Model.Block) (rest : List Line) :
    leaveModel (some sub) b rest =
      (.body ((b.closeValue.models.foldl Subcircuit.addModel sub).copyLines
          (rest.map Line.verbatim)),
        (endModel (some sub) b).2) := by
  simp only [leaveModel, (endModel_some sub b).1, around, copyAll_body, Deck.append_empty]

end Scope

end SpiceDeck
