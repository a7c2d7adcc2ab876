import SpiceDeck.Options
import SpiceDeck.Statement

/-!
What a statement can be, with the parts of its head that matter for each kind.
-/

namespace SpiceDeck
open Text

inductive HeaderForm where
  /-- `subckt name (pins...)`, where the pin list may span lines. -/
  | paren
  /-- `subckt name pins...`. -/
  | bare
  /-- `.subckt name pins... params...`. -/
  | dotted
  deriving DecidableEq, Repr

structure SubcircuitOpening where
  name : Text
  /-- The head line after the name. -/
  rest : Text
  form : HeaderForm
  deriving DecidableEq, Repr

structure ModelOpening where
  name : Text
  keyword : Text
  /-- The head line after the type and an opening delimiter. -/
  rest : Text
  /-- `model ... {` opens a block. -/
  braced : Bool := false
  /-- `.model name type (` opens a parameter list. -/
  parenthesized : Bool := false
  deriving DecidableEq, Repr

structure CallOpening where
  name : Text
  pins : List Text
  reference : Text
  /-- The text after the reference. -/
  params : Text
  /-- How many code lines of the statement the head takes up. -/
  consumed : Nat
  deriving DecidableEq, Repr

inductive Statement.Kind where
  /-- A `simulator` statement, with the dialect if it sets one. -/
  | simulator (dialect : Option Dialect)
  | parameters
  | statistics
  | model (head : ModelOpening)
  | binHeader (index : Nat) (rest : Text)
  /-- A brace that closes a block. -/
  | blockClose
  | subcircuitClose (name : Option Text)
  | subcircuitOpen (head : SubcircuitOpening)
  /-- A statement about the structure of files, as it is written in the output. -/
  | directive (text : Text)
  | deviceCall (head : CallOpening)
  | other
  deriving DecidableEq, Repr

def Statement.Kind.name : Statement.Kind → Text
  | .simulator _ => "simulator".toList
  | .parameters => "parameters".toList
  | .statistics => "statistics".toList
  | .model _ => "model".toList
  | .binHeader _ _ => "bin header".toList
  | .blockClose => "block close".toList
  | .subcircuitClose _ => "subcircuit close".toList
  | .subcircuitOpen _ => "subcircuit open".toList
  | .directive _ => "directive".toList
  | .deviceCall _ => "device call".toList
  | .other => "other".toList

end SpiceDeck
