import SpiceDeck.Device.Family
import SpiceDeck.Options
import SpiceDeck.Param.Value
import SpiceDeck.Symbols
import SpiceDeck.Warning

/-!
Device calls. A call is rendered once its letter is known, which depends on what its
reference turns out to be.
-/

namespace SpiceDeck
open Text

structure Resolution where
  letter : Char
  /-- The simulator knows the device, so the reference is not written. -/
  dropReference : Bool := false
  warning : Option Cause := none
  deriving DecidableEq, Repr

def Resolution.ofFamily (f : Family) : Resolution := { letter := f.letter }

/-- Look a reference up: among the models of the open subcircuit, then among the
subcircuits and models of the deck, then among the raw keywords. -/
def Resolution.find (symbols : Symbols) (o : Options) (name reference : Text)
    (localFamily : Option Family) : Resolution :=
  match localFamily with
  | some family => ofFamily family
  | none =>
      if symbols.isSubcircuit reference then ofFamily .subcircuit
      else match symbols.modelType? reference with
        | some type => ofFamily (.ofKeyword type)
        | none =>
            match o.rawKeyword? reference with
            | some k => { letter := k.letter.toLower, dropReference := k.primitive }
            | none =>
                { letter := Family.subcircuit.letter
                  warning := some (.unresolvedDevice name reference) }

/-- The instance name with the letter in front, unless it starts with it already. -/
def withLetter (letter : Char) (name : Text) : Text :=
  if name.head?.any fun c => c.toLower == letter.toLower then name else letter :: name

structure Call where
  name : Text
  pins : List Text
  reference : Text
  /-- Parameters on the head line. -/
  params : ParamLine
  tail : List Continuation := []
  line : Nat
  deriving DecidableEq, Repr

namespace Call

def head (c : Call) (r : Resolution) : Text :=
  let params := c.params.render
  spaced (withLetter r.letter c.name :: c.pins ++
    (if r.dropReference then [] else [c.reference]) ++ if params.isEmpty then [] else [params])

def render (c : Call) (r : Resolution) : List Text :=
  c.head r :: c.tail.map Continuation.render

def paramLines (c : Call) : List ParamLine := c.params :: c.tail.filterMap Continuation.params?

def isOpen (c : Call) : Bool := c.paramLines.getLast?.any ParamLine.isOpen

def close (c : Call) : Call :=
  if (c.tail.filterMap Continuation.params?).isEmpty then { c with params := c.params.close }
  else { c with tail := Continuation.close c.tail }

end Call
end SpiceDeck
