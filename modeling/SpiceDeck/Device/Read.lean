import SpiceDeck.Device.Call
import SpiceDeck.Param.Tail
import SpiceDeck.Statement.Kind

/-!
Calls as they are read: the head gives the device and its first parameters, the code
lines that the head has not used up give the others.
-/

namespace SpiceDeck

/-- Read a call. A value it leaves open is not yet ended. -/
def Call.ofHead (o : Options) (h : CallOpening) (s : Statement) : Call :=
  let params := Param.readAssignments o h.params .deviceCall .closed
  { name := h.name, pins := h.pins, reference := h.reference, params
    tail := Param.tail o .deviceCall params.carry (Param.dropCode h.consumed s.lines)
    line := s.number }

end SpiceDeck
