import SpiceDeck.Statement.Call
import SpiceDeck.Statement.Head

/-!
The kind of a statement. The forms overlap, so the readers are asked in a fixed
order and the first one that answers decides.
-/

namespace SpiceDeck
open Text

def Statement.Kind.firstOf : List (Option Statement.Kind) → Statement.Kind
  | [] => .other
  | some kind :: _ => kind
  | none :: r => firstOf r

def Statement.kind (symbols : Symbols) (o : Options) (d : Dialect) (s : Statement) :
    Statement.Kind :=
  let head := s.head.content
  let spectre : Bool := d = .spectre
  Statement.Kind.firstOf
    [ (Head.simulator? head).map .simulator,
      if Head.isParameters spectre head then some .parameters else none,
      if spectre && Head.isStatistics head then some .statistics else none,
      (Head.model? spectre head).map .model,
      if spectre then (Head.bin? head).map fun (index, rest) => .binHeader index rest else none,
      if spectre && head = ['}'] then some .blockClose else none,
      (Head.close? spectre head).map .subcircuitClose,
      (Head.subcircuit? spectre head).map .subcircuitOpen,
      if spectre then (Head.directive? head).map .directive else none,
      if spectre then (Head.parenCall? s).map .deviceCall else none,
      (Head.bareCall? symbols o spectre s).map .deviceCall ]

end SpiceDeck
