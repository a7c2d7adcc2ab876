import SpiceDeck.Toml.Datetime
import SpiceDeck.Toml.Quoted

/-!
Values without parts other than strings: numbers, dates, times and truth values.
-/

namespace SpiceDeck
namespace Toml
open Text

/-- The text that a rest leaves of the whole. -/
def consumed (t rest : Text) : Text := t.take (t.length - rest.length)

def number? : Reader Value := fun t =>
  match afterDatetime? t, afterFloat? t with
  | some rest, _ => some (.datetime (consumed t rest), rest)
  | none, some rest => some (.float (consumed t rest), rest)
  | none, none => integer? t

def boolean? : Reader Value := fun t =>
  ((after? "true".toList t).map fun r => (.boolean true, r)).or
    ((after? "false".toList t).map fun r => (.boolean false, r))

end Toml
end SpiceDeck
