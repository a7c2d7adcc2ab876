import SpiceDeck.Device.Family
import SpiceDeck.Param.Value
import SpiceDeck.Warning

/-!
Models. A transistor model may come with a type that does not fix its polarity and
get the polarity from a `type` parameter, which is then taken out of the parameters.
-/

namespace SpiceDeck
open Text

inductive Polarity where
  | nmos
  | pmos
  | npn
  | pnp
  deriving DecidableEq, Repr

namespace Polarity

def keyword : Polarity → Text
  | .nmos => "nmos".toList
  | .pmos => "pmos".toList
  | .npn => "npn".toList
  | .pnp => "pnp".toList

/-- The polarity that the value of a `type` parameter names. -/
def ofText? (t : Text) : Option Polarity :=
  let t := lower (trim t)
  if t = "n".toList || t = "nmos".toList then some .nmos
  else if t = "p".toList || t = "pmos".toList then some .pmos
  else if t = "npn".toList then some .npn
  else if t = "pnp".toList then some .pnp
  else none

/-- The first polarity that an assignment to `type` names on the line. -/
def onLine? (l : ParamLine) : Option Polarity :=
  l.pieces.findSome? fun
    | .assign name value => if sameName name "type".toList then ofText? value.text else none
    | .fragment _ | .comment _ => none

end Polarity

inductive ModelType where
  | known (keyword : Text)
  /-- The polarity is to come from a parameter. -/
  | deferred (placeholder : Text) (polarity : Option Polarity)
  deriving DecidableEq, Repr

namespace ModelType

def ofKeyword (keyword : Text) : ModelType :=
  if lacksPolarity keyword then .deferred keyword none else .known (writtenType keyword)

def family : ModelType → Family
  | .known keyword | .deferred keyword _ => .ofKeyword keyword

def isResolved : ModelType → Bool
  | .known _ | .deferred _ (some _) => true
  | .deferred _ none => false

def emitted : ModelType → Text
  | .known keyword => keyword
  | .deferred _ (some polarity) => polarity.keyword
  | .deferred placeholder none => placeholder

def resolve (p : Polarity) : ModelType → ModelType
  | .known keyword => .known keyword
  | .deferred placeholder _ => .deferred placeholder (some p)

end ModelType

structure Model where
  base : Text
  bin : Option Nat := none
  type : ModelType
  params : Option ParamLine := none
  tail : List Continuation := []
  line : Nat
  deriving DecidableEq, Repr

namespace Model

def new (base keyword : Text) (line : Nat) : Model :=
  { base, type := .ofKeyword keyword, line }

/-- The name of the model: `base`, or `base.n` for a bin. -/
def name (m : Model) : Text :=
  match m.bin with
  | some n => m.base ++ '.' :: ofNat n
  | none => m.base

def family (m : Model) : Family := m.type.family

/-- Take the polarity that a line gives into the type. -/
def absorb (m : Model) (l : ParamLine) : Model :=
  match Polarity.onLine? l with
  | some p => { m with type := m.type.resolve p }
  | none => m

/-- The line without the assignment that `absorb` has taken up. -/
def remainder (l : ParamLine) : ParamLine :=
  match Polarity.onLine? l with
  | some _ => l.erase "type".toList
  | none => l

def withParams (m : Model) (l : ParamLine) : Model :=
  { m.absorb l with params := some (remainder l) }

def addParams (m : Model) (l : ParamLine) : Model :=
  { m.absorb l with tail := m.tail ++ [.params (remainder l)] }

def addText (m : Model) (t : Text) : Model := { m with tail := m.tail ++ [.verbatim t] }

def paramLines (m : Model) : List ParamLine :=
  m.params.toList ++ m.tail.filterMap Continuation.params?

def isOpen (m : Model) : Bool := m.paramLines.getLast?.any ParamLine.isOpen

def close (m : Model) : Model :=
  if (m.tail.filterMap Continuation.params?).isEmpty then
    { m with params := m.params.map ParamLine.close }
  else { m with tail := Continuation.close m.tail }

/-- Parameter lines from which everything was taken are left out. -/
def render (m : Model) : List Text :=
  let head := ".model ".toList ++ m.name ++ ' ' :: m.type.emitted
  let head := match m.params with
    | some l => if l.isEmpty then head else head ++ ' ' :: l.render
    | none => head
  head :: m.tail.filterMap fun
    | .params l => if l.isEmpty then none else some l.render
    | .verbatim t => some t

/-- A polarity that never came. -/
def warning? (m : Model) : Option Warning :=
  match m.type with
  | .deferred placeholder none => some (Cause.at (.unresolvedPolarity m.name placeholder) m.line)
  | .deferred _ (some _) | .known _ => none

end Model
end SpiceDeck
