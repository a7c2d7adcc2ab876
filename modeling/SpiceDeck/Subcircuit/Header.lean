import SpiceDeck.Param.Tail
import SpiceDeck.Statement.Kind
import SpiceDeck.Subcircuit.Basic

/-!
Subcircuit headers. With parentheses, pins run up to the closing one, possibly over
several statements; without, they run up to the first assignment. Parameters of the
header are written on continuation lines.
-/

namespace SpiceDeck
open Text

structure Header where
  pins : List (List Text)
  tail : List Continuation := []
  deriving DecidableEq, Repr

namespace Header

def push (h : Header) (l : Continuation) : Header := { h with tail := h.tail ++ [l] }

def pushPins (h : Header) (pins : List Text) : Header := { h with pins := h.pins ++ [pins] }

/-- Take the pins of a line in parentheses; the answer tells whether the closing one
is on it. -/
def readPins (o : Options) (h : Header) (t : Text) : Header × Bool :=
  let isGap (c : Char) : Bool := isSpace c || c == '('
  let h := h.pushPins ((cut isGap (t.takeWhile (· != ')'))).filter (!·.isEmpty))
  match t.dropWhile (· != ')') with
  | [] => (h, false)
  | _ :: r =>
      let residue := trim r
      if residue.isEmpty then (h, true)
      else
        let params := Param.readAssignments o residue .subcircuitLocal .closed
        (h.push (.params (params.withMarker .plus)), true)

/-- Read the lines of a header in parentheses; `closed` tells whether the closing one
has been read. -/
def readLines (o : Options) (h : Header) (closed : Bool) : List Line → Header × Bool
  | [] => (h, closed)
  | l :: r =>
      if !l.isCode then readLines o (h.push (.verbatim l.verbatim)) closed r
      else if closed then
        let params := Param.readContinuation o l.text .subcircuitLocal (Continuation.carried h.tail)
        readLines o (h.push (.params params)) closed r
      else
        let (h, closed) := h.readPins o l.content
        readLines o h closed r

/-- A pin of a header without parentheses. Slashes in front and the words that mark
parameters are no part of it. -/
def pin? (t : Text) : Option Text :=
  let t := t.dropWhile (· == '/')
  if t.isEmpty || sameName t "params:".toList || sameName t "param:".toList then none else some t

/-- Read a line of a header without parentheses. `inParams` tells whether the pins
have ended. -/
def readBare (o : Options) (h : Header) (inParams : Bool) (t : Text) : Header × Bool :=
  let carry := Continuation.carried h.tail
  let (pins, params) :=
    if inParams || carry.isOpen then ([], t) else (Param.cutAtAssignment? t).getD (t, [])
  let pins := (words pins).filterMap pin?
  let h := if pins.isEmpty && !h.pins.isEmpty then h else h.pushPins pins
  if isBlank params then (h, inParams)
  else
    let line := Param.readAssignments o params .subcircuitLocal carry
    (h.push (.params (line.withMarker .plus)), true)

def readBareLines (o : Options) (h : Header) (inParams : Bool) : List Line → Header
  | [] => h
  | l :: r =>
      if l.isCode then
        let (h, inParams) := h.readBare o inParams l.content
        readBareLines o h inParams r
      else readBareLines o (h.push (.verbatim l.verbatim)) inParams r

/-- Read a header from its head; the answer tells whether its pins are complete. -/
def ofHead (o : Options) (head : SubcircuitOpening) (tail : List Line) : Header × Bool :=
  let h : Header := { pins := [] }
  match head.form with
  | .paren =>
      let (h, closed) := h.readPins o head.rest
      h.readLines o closed tail
  | .bare | .dotted =>
      let (h, inParams) := h.readBare o false head.rest
      (h.readBareLines o inParams tail, true)

end Header

/-- Take up what a statement gives to the header, ending a value it leaves open. -/
def Subcircuit.withHeader (s : Subcircuit) (h : Header) (line : Nat) : Subcircuit × Deck :=
  ({ s with
      pins := h.pins
      header := s.header ++ (Continuation.close h.tail).map Continuation.render },
    .warnIf (Continuation.carried h.tail).isOpen .unclosedValue line)

end SpiceDeck
