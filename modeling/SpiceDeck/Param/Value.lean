import SpiceDeck.Text.Basic

/-!
Parameter values and the lines they stand on. A value may run over several lines:
each line then holds its part of the text, and `Carry` records what the parts
so far still owe. Bare expressions are written in braces, so their first part opens
a brace and their last part closes it.
-/

namespace SpiceDeck
open Text

/-- The state in which a line leaves its last value. -/
inductive Carry where
  | closed
  /-- A bare expression that goes on, with this many parentheses open. -/
  | bare (depth : Nat)
  /-- A value in braces, with this many braces open. -/
  | brace (depth : Nat)
  /-- A quoted value that waits for this quote. -/
  | quote (mark : Char)
  deriving DecidableEq, Repr

namespace Carry

def isOpen : Carry → Bool
  | .closed => false
  | .bare _ | .brace _ | .quote _ => true

def owed : Carry → Text
  | .closed => []
  | .bare depth => List.replicate depth ')'
  | .brace depth => List.replicate depth '}'
  | .quote mark => [mark]

end Carry

inductive ValueForm where
  | numeric
  /-- In braces or quotes already. -/
  | delimited
  | bare
  deriving DecidableEq, Repr

/-- A value, or the part of a value that stands on one line. -/
structure Value where
  text : Text
  form : ValueForm
  fromPrevious : Bool := false
  onNext : Bool := false
  deriving DecidableEq, Repr

namespace Value

def numeric (text : Text) : Value := { text, form := .numeric }

def delimited (text : Text) (fromPrevious onNext : Bool) : Value :=
  { text, form := .delimited, fromPrevious, onNext }

/-- A bare value to which no text has been given on any line. -/
def isVoid (v : Value) : Bool := v.form = .bare && v.text.isEmpty && !v.fromPrevious

/-- Supply what is owed, so that the value goes on no further. -/
def close (v : Value) (carry : Carry) : Value :=
  { v with text := v.text ++ carry.owed, onNext := false }

def render (v : Value) : Text :=
  match v.form with
  | .numeric | .delimited => v.text
  | .bare =>
      (if v.fromPrevious then [] else ['{']) ++ v.text ++ (if v.onNext then [] else ['}'])

end Value

inductive Piece where
  | assign (name : Text) (value : Value)
  /-- The rest of a value that started on an earlier line. -/
  | fragment (value : Value)
  /-- An inline comment, which starts with `$`. -/
  | comment (text : Text)
  deriving DecidableEq, Repr

namespace Piece

def assigns (name : Text) : Piece → Bool
  | .assign n _ => sameName n name
  | .fragment _ | .comment _ => false

/-- End the piece's value. An assignment that never got a value is commented out. -/
def close (carry : Carry) : Piece → Piece
  | .assign name value =>
      if value.isVoid then .comment ("$ ".toList ++ name ++ ['='])
      else .assign name (value.close carry)
  | .fragment value => .fragment (value.close carry)
  | .comment text => .comment text

/-- `close` for the first piece that is no comment. -/
def closeFirst (carry : Carry) : List Piece → List Piece
  | [] => []
  | .comment text :: r => .comment text :: closeFirst carry r
  | p :: r => p.close carry :: r

def render : Piece → Text
  | .assign name value => name ++ '=' :: value.render
  | .fragment value => value.render
  | .comment text => text

end Piece

inductive Marker where
  | param
  | plus
  | none
  deriving DecidableEq, Repr

def Marker.render : Marker → Text
  | .param => ".param".toList
  | .plus => ['+']
  | .none => []

/-- A line of parameters; `carry` is what the next line has to take up. -/
structure ParamLine where
  marker : Marker := .none
  pieces : List Piece := []
  carry : Carry := .closed
  deriving DecidableEq, Repr

namespace ParamLine

def isEmpty (l : ParamLine) : Bool := l.pieces.isEmpty

def isOpen (l : ParamLine) : Bool := l.carry.isOpen

def withMarker (l : ParamLine) (marker : Marker) : ParamLine := { l with marker }

def declares (l : ParamLine) (name : Text) : Bool := l.pieces.any (·.assigns name)

def value? (l : ParamLine) (name : Text) : Option Value :=
  l.pieces.findSome? fun
    | .assign n v => if sameName n name then some v else none
    | .fragment _ | .comment _ => none

def erase (l : ParamLine) (name : Text) : ParamLine :=
  { l with pieces := l.pieces.eraseP (·.assigns name) }

/-- End the value that the line leaves open. -/
def close (l : ParamLine) : ParamLine :=
  if l.isOpen then
    { l with pieces := (Piece.closeFirst l.carry l.pieces.reverse).reverse, carry := .closed }
  else l

def render (l : ParamLine) : Text :=
  let body := spaced (l.pieces.map Piece.render)
  match l.marker with
  | .none => body
  | marker => if body.isEmpty then marker.render else marker.render ++ ' ' :: body

end ParamLine

/-- A line after a statement's head: parameters, or text that is copied. -/
inductive Continuation where
  | params (line : ParamLine)
  | verbatim (text : Text)
  deriving DecidableEq, Repr

namespace Continuation

def render : Continuation → Text
  | .params line => line.render
  | .verbatim text => text

def params? : Continuation → Option ParamLine
  | .params line => some line
  | .verbatim _ => none

/-- What the last parameter line leaves open. -/
def carried (lines : List Continuation) : Carry :=
  match (lines.filterMap params?).getLast? with
  | some line => line.carry
  | none => .closed

def modifyFirst (f : ParamLine → ParamLine) : List Continuation → List Continuation
  | [] => []
  | .params line :: r => .params (f line) :: r
  | .verbatim text :: r => .verbatim text :: modifyFirst f r

def modifyLast (f : ParamLine → ParamLine) (lines : List Continuation) : List Continuation :=
  (modifyFirst f lines.reverse).reverse

/-- End the value that the last parameter line leaves open. -/
def close (lines : List Continuation) : List Continuation := modifyLast ParamLine.close lines

end Continuation
end SpiceDeck
