import SpiceDeck.Line

/-!
Statements: a head line with the lines that continue it. Comment and blank lines
between a statement and its continuation belong to the statement; those after its
last continuation stand alone.
-/

namespace SpiceDeck
open Text

structure Statement where
  head : Line
  tail : List Line := []
  deriving DecidableEq, Repr

namespace Statement

def number (s : Statement) : Nat := s.head.number

def lines (s : Statement) : List Line := s.head :: s.tail

def verbatim (s : Statement) : List Text := s.lines.map Line.verbatim

def codeLines (s : Statement) : List Line := s.lines.filter Line.isCode

/-- The contents of the first `n` code lines, one blank between them. -/
def joined (s : Statement) (n : Nat) : Text :=
  spaced ((s.codeLines.take n).map Line.content)

end Statement

inductive Item where
  | line (l : Line)
  | statement (s : Statement)
  deriving DecidableEq, Repr

namespace Item

def lines : Item → List Line
  | .line l => [l]
  | .statement s => s.lines

/-- Group the lines after an open statement. `pending` are the comment and blank
lines since its last code line: they join it only if a continuation follows. -/
def groupAfter (s : Statement) (pending : List Line) : List Line → List Item
  | [] => .statement s :: pending.map .line
  | l :: r =>
      if !l.isCode then groupAfter s (pending ++ [l]) r
      else if l.continues then groupAfter { s with tail := s.tail ++ pending ++ [l] } [] r
      else .statement s :: pending.map .line ++ groupAfter { head := l } [] r

/-- Group lines into statements and lines of their own. A continuation with no
statement before it starts one. -/
def group : List Line → List Item
  | [] => []
  | l :: r => if l.isCode then groupAfter { head := l } [] r else .line l :: group r

def ofText (t : Text) : List Item := group (Line.ofText t)

end Item
end SpiceDeck
