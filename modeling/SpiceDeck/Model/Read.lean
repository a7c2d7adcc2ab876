import SpiceDeck.Model.Block
import SpiceDeck.Param.Read
import SpiceDeck.Statement.Head

/-!
Models as they are read: block bodies line by line up to the closing brace, and
`.model` statements, whose parameters may stand in parentheses.
-/

namespace SpiceDeck
open Text

namespace Model.Block

/-- A body line without the brace that closes the block, and whether it has one.
A last brace closes the block if the line and its carry have too few opening ones. -/
def splitClose (carry : Carry) (t : Text) : Text × Bool :=
  let trimmed := trimEnd t
  let carried := match carry with
    | .brace depth => depth
    | .closed | .bare _ | .quote _ => 0
  if trimmed.getLast? = some '}' && carried + trimmed.count '{' < trimmed.count '}' then
    (trimmed.dropLast, true)
  else (t, false)

/-- Read the text of a body line, which starts a bin or holds parameters. -/
def readText (o : Options) (b : Model.Block) (t : Text) (line : Nat) : Model.Block :=
  match if b.carry.isOpen then none else Head.bin? t with
  | some (index, rest) =>
      let params := Param.readAssignments o rest .modelBody .closed
      { b.openBin index params line with carry := params.carry }
  | none =>
      let params := Param.readContinuation o t .modelBody b.carry
      { b.modifyCurrent (·.addParams params) with carry := params.carry }

/-- Read a body line; the answer tells whether it closes the block. -/
def readLine (o : Options) (b : Model.Block) (t : Text) (line : Nat) : Model.Block × Bool :=
  let (t, closes) := splitClose b.carry t
  let t := trim t
  (if t.isEmpty then b else b.readText o t line, closes)

/-- Read lines up to the one that closes the block. The lines after it are returned,
or nothing if the block stays open. -/
def readLines (o : Options) (b : Model.Block) : List Line → Model.Block × Option (List Line)
  | [] => (b, none)
  | l :: r =>
      if l.isCode then
        let (b, closed) := b.readLine o l.content l.number
        if closed then (b, some r) else readLines o b r
      else readLines o (b.modifyCurrent (·.addText l.verbatim)) r

/-- Read a block from its head and the lines that continue it. -/
def ofHead (o : Options) (h : ModelOpening) (s : Statement) : Model.Block × Option (List Line) :=
  let (b, closed) := (new h.name h.keyword s.number).readLine o h.rest s.number
  if closed then (b, some s.tail) else b.readLines o s.tail

end Model.Block

namespace Model

/-- A line of a model statement: text to read, or text to copy. -/
inductive Part where
  | code (text : Text)
  | passive (text : Text)
  deriving DecidableEq, Repr

def Part.ofLine (l : Line) : Part := if l.isCode then .code l.content else .passive l.verbatim

def Part.countAll (c : Char) : List Part → Nat
  | [] => 0
  | .passive _ :: r => countAll c r
  | .code t :: r => t.count c + countAll c r

/-- Take a closing parenthesis off the first part that ends in one. -/
def Part.dropParen : List Part → List Part
  | [] => []
  | .passive t :: r => .passive t :: dropParen r
  | .code t :: r =>
      if (trimEnd t).getLast? = some ')' then .code (trimEnd (trimEnd t).dropLast) :: r
      else .code t :: dropParen r

/-- Take the parenthesis off that closes the parameter list, which is the last one
if more are closed than opened. -/
def Part.closeList (ps : List Part) : List Part :=
  if countAll '(' ps < countAll ')' ps then (dropParen ps.reverse).reverse else ps

def readParts (o : Options) (m : Model) (carry : Carry) : List Part → Model
  | [] => m
  | .code t :: r =>
      let params := Param.readContinuation o t .modelBody carry
      readParts o (m.addParams params) params.carry r
  | .passive t :: r => readParts o (m.addText t) carry r

/-- Read a model that is no block. A value it leaves open is not yet ended. -/
def ofHead (o : Options) (h : ModelOpening) (s : Statement) : Model :=
  let parts := .code h.rest :: s.tail.map Part.ofLine
  let m := new h.name h.keyword s.number
  match if h.parenthesized then Part.closeList parts else parts with
  | .code t :: r =>
      let params := Param.readAssignments o t .modelBody .closed
      readParts o (m.withParams params) params.carry r
  | parts => readParts o m .closed parts

end Model
end SpiceDeck
