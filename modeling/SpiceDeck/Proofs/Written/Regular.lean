import SpiceDeck.Proofs.Written.Blocks
import SpiceDeck.Proofs.Written.Sections

/-!
Decks whose parts are written as they will be read. The conditions are about the first of two
conversions: what its statements read, and the words and symbols that it writes. Each is checked
where a part is read or closed.
-/

namespace SpiceDeck
open Text

/-- A conversion and the conversion of its output: the options of both, the symbols of the deck
and of the deck as it is written, and the dialect in which both start. -/
structure Rerun where
  options : Options
  symbols : Symbols
  written : Symbols
  dialect : Dialect

namespace Rerun

def first (p : Rerun) : Context := ⟨p.symbols, p.options⟩

def second (p : Rerun) : Context := ⟨p.written, p.options⟩

@[simp] theorem options_first (p : Rerun) : p.first.options = p.options := rfl

end Rerun

/-- What may follow the end of a block or of a subcircuit in the same statement. -/
def Line.AllSilent (ls : List Line) : Prop := ∀ l ∈ ls, l.isCode = false

instance (ls : List Line) : Decidable (Line.AllSilent ls) := inferInstanceAs (Decidable (∀ _, _))

/-- The block can end here. -/
def Model.Block.EndRepeats (o : Options) (b : Model.Block) (rest : List Line) : Prop :=
  b.Repeats o ∧ Line.AllSilent rest

instance (o : Options) (b : Model.Block) (rest : List Line) : Decidable (b.EndRepeats o rest) :=
  inferInstanceAs (Decidable (_ ∧ _))

/-- No bare value of the header has braces, and closing it makes no product in braces. -/
def Header.Repeats (o : Options) (h : Header) : Prop :=
  Param.Repeatable o (h.tail.filterMap Continuation.params?)

instance (o : Options) (h : Header) : Decidable (h.Repeats o) :=
  inferInstanceAs (Decidable (Param.Repeatable _ _))

namespace Statement
variable (p : Rerun) (s : Statement)

/-- The statement can be read from its own lines: none of them is joined to it by a backslash. -/
def KeepsLines (s : Statement) : Prop :=
  IsStatement s.head.verbatim (s.tail.map Line.verbatim) ∧
    s.ReadsAs s.head.verbatim (s.tail.map Line.verbatim)

instance (s : Statement) : Decidable s.KeepsLines := inferInstanceAs (Decidable (_ ∧ _))

/-- With the symbols of the written deck the statement is copied as well. -/
def StaysCopied : Prop :=
  s.KeepsLines ∧ (s.kind p.written p.options p.dialect).isCopied = true

instance : Decidable (s.StaysCopied p) := inferInstanceAs (Decidable (_ ∧ _))

/-- With the symbols of the written deck the statement is of the same kind. -/
def StaysAs (kind : Kind) : Prop :=
  s.KeepsLines ∧ s.kind p.written p.options p.dialect = kind

instance (kind : Kind) : Decidable (s.StaysAs p kind) := inferInstanceAs (Decidable (_ ∧ _))

def ParametersRepeat (place : Param.Placement) : Prop :=
  ∃ head ∈ Param.readStatement? p.options s.head.content place .closed,
    Param.Repeatable p.options
      (head :: (Scope.parameterTail p.options s place head).filterMap Continuation.params?)

instance (place : Param.Placement) : Decidable (s.ParametersRepeat p place) :=
  inferInstanceAs (Decidable (∃ _ ∈ _, _))

/-- What is written for a directive is still one statement, or it is all comments. -/
def DirectiveRepeats (text : Text) : Prop :=
  IsStatement text (s.tail.map Line.verbatim) ∨ isSilent text = true ∧ Line.AllSilent s.tail

instance (text : Text) : Decidable (s.DirectiveRepeats text) :=
  inferInstanceAs (Decidable (_ ∨ _))

/-- A block is read plainly, and where it ends on its lines it can. -/
def BracedRepeats (head : ModelOpening) : Prop :=
  (∀ part ∈ (Model.Block.partsOfHead p.options head s).1, part.IsPlain) ∧
    ∀ rest ∈ (Model.Block.ofHead p.options head s).2,
      (Model.Block.ofHead p.options head s).1.EndRepeats p.options rest

instance (head : ModelOpening) : Decidable (s.BracedRepeats p head) :=
  inferInstanceAs (Decidable (_ ∧ _))

def ModelRepeats (head : ModelOpening) : Prop :=
  Param.Repeatable p.options (Model.linesRead p.options head s) ∧
    (Model.ofHead p.options head s).close.Repeats

instance (head : ModelOpening) : Decidable (s.ModelRepeats p head) :=
  inferInstanceAs (Decidable (_ ∧ _))

/-- A call outside of subcircuits, which is written at once. -/
def CallRepeats (head : CallOpening) : Prop :=
  let call := Call.ofHead p.options head s
  Param.Repeatable p.options call.paramLines ∧
    call.close.Repeats p.second p.dialect (fun _ => none)
      (Resolution.find p.symbols p.options call.name call.reference none)

instance (head : CallOpening) : Decidable (s.CallRepeats p head) :=
  inferInstanceAs (Decidable (_ ∧ _))

end Statement

namespace Scope
variable (p : Rerun) (s : Statement)

def TopRepeats : Statement.Kind → Prop
  | .parameters => s.ParametersRepeat p .topLevel
  | .model head => if head.braced then s.BracedRepeats p head else s.ModelRepeats p head
  | .subcircuitOpen head => (Header.ofHead p.options head s.tail).1.Repeats p.options
  | .subcircuitClose name => s.StaysAs p (.subcircuitClose name)
  | .directive text => s.DirectiveRepeats text
  | .deviceCall head => s.CallRepeats p head
  | .binHeader _ _ | .blockClose | .other | .simulator _ | .statistics => s.StaysCopied p

instance : (kind : Statement.Kind) → Decidable (TopRepeats p s kind)
  | .parameters => inferInstanceAs (Decidable (s.ParametersRepeat p .topLevel))
  | .model head =>
      inferInstanceAs
        (Decidable (if head.braced then s.BracedRepeats p head else s.ModelRepeats p head))
  | .subcircuitOpen head =>
      inferInstanceAs (Decidable ((Header.ofHead p.options head s.tail).1.Repeats p.options))
  | .subcircuitClose name => inferInstanceAs (Decidable (s.StaysAs p (.subcircuitClose name)))
  | .directive text => inferInstanceAs (Decidable (s.DirectiveRepeats text))
  | .deviceCall head => inferInstanceAs (Decidable (s.CallRepeats p head))
  | .binHeader _ _ | .blockClose | .other | .simulator _ | .statistics =>
      inferInstanceAs (Decidable (s.StaysCopied p))

def BodyRepeats (sub : Subcircuit) : Statement.Kind → Prop
  | .parameters => s.ParametersRepeat p .subcircuitLocal
  | .model head => if head.braced then s.BracedRepeats p head else s.ModelRepeats p head
  | .subcircuitOpen head => s.StaysAs p (.subcircuitOpen head)
  | .subcircuitClose _ => sub.Repeats p.first p.second p.dialect ∧ Line.AllSilent s.tail
  | .directive text => s.DirectiveRepeats text
  | .deviceCall head => Param.Repeatable p.options (Call.ofHead p.options head s).paramLines
  | .binHeader _ _ | .blockClose | .other | .simulator _ | .statistics => s.StaysCopied p

instance (sub : Subcircuit) : (kind : Statement.Kind) → Decidable (BodyRepeats p s sub kind)
  | .parameters => inferInstanceAs (Decidable (s.ParametersRepeat p .subcircuitLocal))
  | .model head =>
      inferInstanceAs
        (Decidable (if head.braced then s.BracedRepeats p head else s.ModelRepeats p head))
  | .subcircuitOpen head => inferInstanceAs (Decidable (s.StaysAs p (.subcircuitOpen head)))
  | .subcircuitClose _ => inferInstanceAs (Decidable (_ ∧ _))
  | .directive text => inferInstanceAs (Decidable (s.DirectiveRepeats text))
  | .deviceCall head =>
      inferInstanceAs (Decidable (Param.Repeatable p.options
        (Call.ofHead p.options head s).paramLines))
  | .binHeader _ _ | .blockClose | .other | .simulator _ | .statistics =>
      inferInstanceAs (Decidable (s.StaysCopied p))

/-- In a header any statement but a close is a further line of pins. -/
def PinsRepeat (sub : Subcircuit) : Statement.Kind → Prop
  | .subcircuitClose _ => sub.Repeats p.first p.second p.dialect ∧ Line.AllSilent s.tail
  | _ => (Header.readLines p.options { pins := sub.pins } false s.lines).1.Repeats p.options

instance (sub : Subcircuit) : (kind : Statement.Kind) → Decidable (PinsRepeat p s sub kind)
  | .subcircuitClose _ => inferInstanceAs (Decidable (_ ∧ _))
  | .parameters | .model _ | .subcircuitOpen _ | .directive _ | .deviceCall _ | .binHeader _ _
  | .blockClose | .other | .simulator _ | .statistics =>
      inferInstanceAs (Decidable (Header.Repeats p.options _))

/-- A statement that closes a block is read where the block stands. -/
def AroundRepeats : Option Subcircuit → Statement.Kind → Prop
  | none, kind => TopRepeats p s kind
  | some sub, kind => BodyRepeats p s sub kind

instance : (parent : Option Subcircuit) → (kind : Statement.Kind) →
    Decidable (AroundRepeats p s parent kind)
  | none, kind => inferInstanceAs (Decidable (TopRepeats p s kind))
  | some sub, kind => inferInstanceAs (Decidable (BodyRepeats p s sub kind))

/-- A statement that stands in a block is read as lines of it. -/
def LinesRepeat (block : Model.Block) : Prop :=
  (∀ part ∈ (Model.Block.partsOf p.options block.carry s.lines).1, part.IsPlain) ∧
    ∀ rest ∈ (block.readLines p.options s.lines).2,
      (block.readLines p.options s.lines).1.EndRepeats p.options rest

instance (block : Model.Block) : Decidable (LinesRepeat p s block) :=
  inferInstanceAs (Decidable (_ ∧ _))

def InterruptRepeats (parent : Option Subcircuit) (block : Model.Block) (kind : Statement.Kind) :
    Prop :=
  block.Repeats p.options ∧ AroundRepeats p s (endModel parent block).1 kind

instance (parent : Option Subcircuit) (block : Model.Block) (kind : Statement.Kind) :
    Decidable (InterruptRepeats p s parent block kind) := inferInstanceAs (Decidable (_ ∧ _))

def BlockRepeats (parent : Option Subcircuit) (block : Model.Block) : Statement.Kind → Prop
  | .blockClose => block.EndRepeats p.options s.tail
  | .subcircuitOpen head => InterruptRepeats p s parent block (.subcircuitOpen head)
  | .subcircuitClose name => InterruptRepeats p s parent block (.subcircuitClose name)
  | .model head => InterruptRepeats p s parent block (.model head)
  | _ => LinesRepeat p s block

instance (parent : Option Subcircuit) (block : Model.Block) :
    (kind : Statement.Kind) → Decidable (BlockRepeats p s parent block kind)
  | .blockClose => inferInstanceAs (Decidable (block.EndRepeats p.options s.tail))
  | .subcircuitOpen head =>
      inferInstanceAs (Decidable (InterruptRepeats p s parent block (.subcircuitOpen head)))
  | .subcircuitClose name =>
      inferInstanceAs (Decidable (InterruptRepeats p s parent block (.subcircuitClose name)))
  | .model head => inferInstanceAs (Decidable (InterruptRepeats p s parent block (.model head)))
  | .parameters | .directive _ | .deviceCall _ | .binHeader _ _ | .other | .simulator _
  | .statistics => inferInstanceAs (Decidable (LinesRepeat p s block))

/-- What a statement adds at its place is written as it will be read. -/
def StepRepeats (kind : Statement.Kind) (scope : Scope) : Prop :=
  match scope with
  | .top => TopRepeats p s kind
  | .pins sub => PinsRepeat p s sub kind
  | .body sub => BodyRepeats p s sub kind
  | .model parent block => BlockRepeats p s parent block kind

instance (kind : Statement.Kind) : (scope : Scope) → Decidable (StepRepeats p s kind scope)
  | .top => inferInstanceAs (Decidable (TopRepeats p s kind))
  | .pins sub => inferInstanceAs (Decidable (PinsRepeat p s sub kind))
  | .body sub => inferInstanceAs (Decidable (BodyRepeats p s sub kind))
  | .model parent block => inferInstanceAs (Decidable (BlockRepeats p s parent block kind))

/-- What is still open at the end of the deck is written as it will be read. -/
def EndRepeats : Scope → Prop
  | .top => True
  | .pins sub | .body sub => sub.Repeats p.first p.second p.dialect
  | .model parent block =>
      block.Repeats p.options ∧
        ∀ sub ∈ (endModel parent block).1, sub.Repeats p.first p.second p.dialect

instance : (scope : Scope) → Decidable (EndRepeats p scope)
  | .top => inferInstanceAs (Decidable True)
  | .pins sub | .body sub => inferInstanceAs (Decidable (sub.Repeats p.first p.second p.dialect))
  | .model _ _ => inferInstanceAs (Decidable (_ ∧ _))

end Scope

namespace Session
variable (p : Rerun)

/-- What is commented out as a whole or sets the dialect only needs no condition. -/
def PushRepeats (a : Session) : Item → Prop
  | .line _ => True
  | .statement s =>
      a.statistics = 0 → reachesScope (s.kind p.symbols p.options a.dialect) = true →
        a.scope.StepRepeats p s (s.kind p.symbols p.options a.dialect)

instance (a : Session) : (item : Item) → Decidable (a.PushRepeats p item)
  | .line _ => inferInstanceAs (Decidable True)
  | .statement _ => inferInstanceAs (Decidable (_ → _ → _))

/-- All items of the deck are written as they will be read. -/
def Repeats (a : Session) : List Item → Prop
  | [] => a.scope.EndRepeats p
  | item :: r => a.PushRepeats p item ∧ Repeats (a.push p.first item).1 r

instance decidableRepeats : (items : List Item) → (a : Session) → Decidable (a.Repeats p items)
  | [], a => inferInstanceAs (Decidable (a.scope.EndRepeats p))
  | item :: r, a =>
      have := decidableRepeats r (a.push p.first item).1
      inferInstanceAs (Decidable (a.PushRepeats p item ∧ Repeats p (a.push p.first item).1 r))

end Session
end SpiceDeck
