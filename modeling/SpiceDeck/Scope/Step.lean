import SpiceDeck.Device.Read
import SpiceDeck.Scope.Basic
import SpiceDeck.Statement.Recognise

/-!
What a statement does at the place where it stands. Each step gives the scope after
the statement and the lines and warnings it adds.
-/

namespace SpiceDeck
open Text

structure Context where
  symbols : Symbols
  options : Options

namespace Scope

/-- The lines of a parameter statement with the word in front of the first. -/
def parameterLines (o : Options) (s : Statement) (place : Param.Placement) :
    Marker × List Text × Deck :=
  match Param.readStatement? o s.head.content place .closed with
  | none => (.none, s.verbatim, {})
  | some head =>
      let place := if head.marker = .param then .topLevel else place
      let lines := .params head :: Param.tail o place head.carry s.tail
      (head.marker, (Continuation.close lines).map Continuation.render,
        .warnIf (Continuation.carried lines).isOpen .unclosedValue s.number)

/-- A statement that is passed through is reported unless it starts like a name or a
dotted command. -/
def oddStatement (s : Statement) : Deck :=
  let t := s.head.content
  .warnIf (!t.head?.any fun c => c.isAlpha || c == '.' || c == '_')
    (.malformed t "unrecognised statement".toList) s.number

def strayBlockPart (s : Statement) : Deck :=
  .warn (.malformed s.head.content "outside a model block".toList) s.number

def enterSubcircuit (o : Options) (head : SubcircuitOpening) (s : Statement) : Scope × Deck :=
  let (h, complete) := Header.ofHead o head s.tail
  let (sub, d) := Subcircuit.withHeader { name := head.name, line := s.number } h s.number
  (if complete then .body sub else .pins sub, d)

/-- Close a block and copy the lines that follow its end in the same statement. -/
def leaveModel (parent : Option Subcircuit) (block : Model.Block) (rest : List Line) :
    Scope × Deck :=
  let (parent, d) := endModel parent block
  let (scope, ds) := (around parent).copyAll (rest.map Line.verbatim)
  (scope, d ++ ds)

def enterModel (o : Options) (parent : Option Subcircuit) (head : ModelOpening) (s : Statement) :
    Scope × Deck :=
  if head.braced then
    match Model.Block.ofHead o head s with
    | (block, none) => (.model parent block, {})
    | (block, some rest) => leaveModel parent block rest
  else
    let m := Model.ofHead o head s
    let warning := Deck.warnIf m.isOpen .unclosedValue s.number
    match parent with
    | some sub => (.body (sub.addModel m.close), warning)
    | none => (.top, warning ++ Subcircuit.renderModel (.item m.close))

def stepTop (cx : Context) (s : Statement) : Statement.Kind → Scope × Deck
  | .parameters =>
      let (_, lines, d) := parameterLines cx.options s .topLevel
      (.top, .ofLines lines ++ d)
  | .model head => enterModel cx.options none head s
  | .subcircuitOpen head => enterSubcircuit cx.options head s
  | .subcircuitClose name => (.top, .warn (.unmatchedClose name) s.number ++ .ofLines s.verbatim)
  | .binHeader _ _ | .blockClose => (.top, strayBlockPart s ++ .ofLines s.verbatim)
  | .directive text => (.top, .ofLines (text :: s.tail.map Line.verbatim))
  | .deviceCall head =>
      let call := Call.ofHead cx.options head s
      let r := Resolution.find cx.symbols cx.options call.name call.reference none
      (.top,
        { lines := call.close.render r
          warnings := (Deck.warnIf call.isOpen .unclosedValue s.number).warnings ++
            (r.warning.map (·.at call.line)).toList })
  | .other | .simulator _ | .statistics => (.top, oddStatement s ++ .ofLines s.verbatim)

def stepBody (cx : Context) (sub : Subcircuit) (s : Statement) : Statement.Kind → Scope × Deck
  | .parameters =>
      let (marker, lines, d) := parameterLines cx.options s .subcircuitLocal
      if marker = .param then (.body { sub with body := sub.body ++ lines }, d)
      else (.body { sub with header := sub.header ++ lines }, d)
  | .model head => enterModel cx.options (some sub) head s
  | .subcircuitClose name =>
      (.top, sub.close cx.symbols cx.options name s.number ++ .ofLines (s.tail.map Line.verbatim))
  | .subcircuitOpen head =>
      (.body { sub with body := sub.body ++ s.verbatim },
        .warn (.nestedSubcircuit head.name sub.name) s.number)
  | .binHeader _ _ | .blockClose =>
      (.body (s.verbatim.foldl Subcircuit.copyLine sub), strayBlockPart s)
  | .directive text =>
      (.body { sub with body := sub.body ++ text :: s.tail.map Line.verbatim }, {})
  | .deviceCall head =>
      let call := Call.ofHead cx.options head s
      (.body (sub.addCall call.close), .warnIf call.isOpen .unclosedValue s.number)
  | .other | .simulator _ | .statistics =>
      (.body (s.verbatim.foldl Subcircuit.copyLine sub), oddStatement s)

/-- Only a close is more than a further line of pins. -/
def stepPins (cx : Context) (sub : Subcircuit) (s : Statement) : Statement.Kind → Scope × Deck
  | .subcircuitClose name => stepBody cx sub s (.subcircuitClose name)
  | _ =>
      let (h, complete) := Header.readLines cx.options { pins := sub.pins } false s.lines
      let (sub, d) := sub.withHeader h s.number
      (if complete then .body sub else .pins sub, d)

/-- A statement that cannot stand in a model block closes it first. -/
def interruptModel (cx : Context) (parent : Option Subcircuit) (block : Model.Block)
    (s : Statement) (kind : Statement.Kind) : Scope × Deck :=
  let warning := Deck.warn (.unterminated "model block".toList block.name kind.name) s.number
  let (parent, d) := endModel parent block
  let (scope, ds) := match parent with
    | none => stepTop cx s kind
    | some sub => stepBody cx sub s kind
  (scope, warning ++ d ++ ds)

def stepModel (cx : Context) (parent : Option Subcircuit) (block : Model.Block) (s : Statement) :
    Statement.Kind → Scope × Deck
  | .blockClose => leaveModel parent block s.tail
  | .subcircuitOpen head => interruptModel cx parent block s (.subcircuitOpen head)
  | .subcircuitClose name => interruptModel cx parent block s (.subcircuitClose name)
  | .model head => interruptModel cx parent block s (.model head)
  | .simulator _ | .parameters | .statistics | .binHeader _ _ | .directive _ | .deviceCall _
  | .other =>
      match block.readLines cx.options s.lines with
      | (block, none) => (.model parent block, {})
      | (block, some rest) => leaveModel parent block rest

def step (cx : Context) (s : Statement) (kind : Statement.Kind) : Scope → Scope × Deck
  | .top => stepTop cx s kind
  | .pins sub => stepPins cx sub s kind
  | .body sub => stepBody cx sub s kind
  | .model parent block => stepModel cx parent block s kind

def finishSubcircuit (cx : Context) (sub : Subcircuit) : Deck :=
  .warn (.unterminated "subcircuit".toList sub.name "end of input".toList) sub.line ++
    sub.close cx.symbols cx.options none 0

def finish (cx : Context) : Scope → Deck
  | .top => {}
  | .pins sub | .body sub => finishSubcircuit cx sub
  | .model parent block =>
      let warning := Deck.warn (.unterminated "model block".toList block.name
        "end of input".toList) block.common.line
      let (parent, d) := endModel parent block
      warning ++ d ++ match parent with
        | none => {}
        | some sub => finishSubcircuit cx sub

end Scope
end SpiceDeck
