import SpiceDeck.Text.Basic

/-!
The subcircuits and models that a deck declares anywhere. A call may stand before
the declaration it refers to, so they are collected from the physical lines in a
pass of their own. Names are kept in lower case.
-/

namespace SpiceDeck
open Text

structure Symbols where
  /-- Each name once. -/
  subcircuits : List Text := []
  /-- Names with their types; the first entry of a name is in force. -/
  models : List (Text × Text) := []
  deriving DecidableEq, Repr

namespace Symbols

def isSubcircuit (s : Symbols) (name : Text) : Bool := s.subcircuits.contains (lower name)

def modelType? (s : Symbols) (name : Text) : Option Text := s.models.lookup (lower name)

def isKnown (s : Symbols) (name : Text) : Bool := s.isSubcircuit name || (s.modelType? name).isSome

def isEmpty (s : Symbols) : Bool := s.subcircuits.isEmpty && s.models.isEmpty

/-- The word at the front, up to a blank or one of the given characters, if there
is at least one character of it. -/
def wordBefore? (stops : List Char) (t : Text) : Option Text :=
  match t.takeWhile fun c => !(isSpace c || stops.contains c) with
  | [] => none
  | w => some w

def subcircuitDeclared? (line : Text) : Option Text :=
  let start := match (after? "inline".toList line).bind afterSpaces? with
    | some r => r
    | none => line
  let keyword := (after? "subckt".toList start).or (afterFolded? ".subckt".toList line)
  (keyword.bind afterSpaces?).bind (wordBefore? ['('])

def modelDeclared? (line : Text) : Option (Text × Text) :=
  let keyword := (after? "model".toList line).or (afterFolded? ".model".toList line)
  (keyword.bind afterSpaces?).bind fun r =>
    match wordBefore? [] r, (afterSpaces? (afterToken r)).bind (wordBefore? ['{', '(']) with
    | some name, some type => some (name, type)
    | _, _ => none

/-- The name that a model shares with its other bins: `base` in `base.3`. -/
def binBase? (name : Text) : Option Text :=
  let digits := name.reverse.takeWhile isDigit
  match name.reverse.dropWhile isDigit with
  | '.' :: base => if digits.isEmpty || base.isEmpty then none else some base.reverse
  | _ => none

def addSubcircuit (s : Symbols) (name : Text) : Symbols :=
  { s with subcircuits := s.subcircuits.insert (lower name) }

/-- Record a model. A bin also stands for its base name, unless that has a type. -/
def addModel (s : Symbols) (name type : Text) : Symbols :=
  let name := lower name
  let type := lower type
  let models := match binBase? name with
    | some base => if (s.models.lookup base).isSome then s.models else (base, type) :: s.models
    | none => s.models
  { s with models := (name, type) :: models }

/-- Lines that declare nothing: blank lines, comments and continuations. -/
def isPassive (line : Text) : Bool :=
  line.isEmpty || startsWith line ['*'] || startsWith line "//".toList || startsWith line ['+']

def addLine (s : Symbols) (raw : Text) : Symbols :=
  let line := trim raw
  if isPassive line then s
  else match subcircuitDeclared? line with
    | some name => s.addSubcircuit name
    | none =>
        match modelDeclared? line with
        | some (name, type) => s.addModel name type
        | none => s

def scan (t : Text) : Symbols := (lines t).foldl addLine {}

end Symbols
end SpiceDeck
