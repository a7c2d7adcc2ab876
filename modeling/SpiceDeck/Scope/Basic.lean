import SpiceDeck.Model.Read
import SpiceDeck.Subcircuit.Header

/-!
The place at which a statement of a deck stands, with everything that is open there.
Outside of subcircuits and model blocks lines are written at once; inside they are
kept by what is open.
-/

namespace SpiceDeck
open Text

inductive Scope where
  | top
  /-- In a header whose pin list is not complete. -/
  | pins (sub : Subcircuit)
  | body (sub : Subcircuit)
  /-- In a model block, which may stand in a subcircuit. -/
  | model (parent : Option Subcircuit) (block : Model.Block)
  deriving DecidableEq, Repr

namespace Scope

def around : Option Subcircuit → Scope
  | none => .top
  | some sub => .body sub

def copy (t : Text) : Scope → Scope × Deck
  | .top => (.top, .ofLines [t])
  | .pins sub => (.pins { sub with header := sub.header ++ [t] }, {})
  | .body sub => (.body (sub.copyLine t), {})
  | .model parent block => (.model parent (block.modifyCurrent (·.addText t)), {})

def copyAll : List Text → Scope → Scope × Deck
  | [], scope => (scope, {})
  | t :: r, scope =>
      let (scope, d) := scope.copy t
      let (scope, ds) := copyAll r scope
      (scope, d ++ ds)

/-- Close a model block: its models go into the subcircuit around it, or are written. -/
def endModel (parent : Option Subcircuit) (block : Model.Block) : Option Subcircuit × Deck :=
  let warning := Deck.warnIf block.isOpen .unclosedValue block.currentModel.line
  let models := block.closeValue.models
  match parent with
  | some sub => (some (models.foldl Subcircuit.addModel sub), warning)
  | none => (none, warning ++ Deck.concat (models.map fun m => Subcircuit.renderModel (.item m)))

end Scope
end SpiceDeck
