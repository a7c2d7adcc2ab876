import SpiceDeck.Line
import SpiceDeck.Param.Read

/-!
Parameters over the lines of a statement. Each code line takes up what the one
before it left open; comments and blank lines between them are copied.
-/

namespace SpiceDeck
namespace Param
open Text

/-- The lines that continue a parameter line with the given carry. -/
def tail (o : Options) (place : Placement) (carry : Carry) : List Line → List Continuation
  | [] => []
  | l :: r =>
      if l.isCode then
        let line := readContinuation o l.text place carry
        .params line :: tail o place line.carry r
      else .verbatim l.verbatim :: tail o place carry r

def dropCode (n : Nat) : List Line → List Line
  | [] => []
  | l :: r =>
      if l.isCode then
        match n with
        | n + 1 => dropCode n r
        | 0 => l :: r
      else l :: dropCode n r

end Param
end SpiceDeck
