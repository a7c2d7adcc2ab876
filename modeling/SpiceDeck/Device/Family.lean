import SpiceDeck.Text.Basic

/-!
Device families. The first letter of an instance name tells a simulator of which
family the device is; a model tells it by the keyword of its type.
-/

namespace SpiceDeck
open Text

inductive Family where
  | mos
  | resistor
  | capacitor
  | inductor
  | diode
  | bipolar
  | subcircuit
  deriving DecidableEq, Repr

namespace Family

def letter : Family → Char
  | .mos => 'm'
  | .resistor => 'r'
  | .capacitor => 'c'
  | .inductor => 'l'
  | .diode => 'd'
  | .bipolar => 'q'
  | .subcircuit => 'x'

/-- Beginnings of type keywords. A beginning stands after those that extend it. -/
def stems : List (Text × Family) :=
  [ ("mextram".toList, .bipolar), ("juncap".toList, .diode), ("hisim".toList, .mos),
    ("hicum".toList, .bipolar), ("nmos".toList, .mos), ("pmos".toList, .mos),
    ("bsim".toList, .mos), ("vbic".toList, .bipolar), ("psp".toList, .mos),
    ("mos".toList, .mos), ("ekv".toList, .mos), ("res".toList, .resistor),
    ("cap".toList, .capacitor), ("ind".toList, .inductor), ("dio".toList, .diode),
    ("npn".toList, .bipolar), ("pnp".toList, .bipolar), ("bjt".toList, .bipolar),
    ("r".toList, .resistor), ("c".toList, .capacitor), ("d".toList, .diode) ]

/-- The family of a type keyword. What no stem begins is a subcircuit. -/
def ofKeyword (keyword : Text) : Family :=
  match stems.find? fun (stem, _) => startsWith (lower keyword) stem with
  | some (_, family) => family
  | none => .subcircuit

end Family

/-- A transistor type that leaves open whether it is of type n or p. -/
def lacksPolarity (keyword : Text) : Bool :=
  let keyword := lower keyword
  match Family.ofKeyword keyword with
  | .mos => keyword != "nmos".toList && keyword != "pmos".toList
  | .bipolar => keyword != "npn".toList && keyword != "pnp".toList
  | .resistor | .capacitor | .inductor | .diode | .subcircuit => false

def shortTypes : List (Text × Text) :=
  [ ("resistor".toList, ['r']), ("res".toList, ['r']), ("capacitor".toList, ['c']),
    ("cap".toList, ['c']), ("diode".toList, ['d']), ("dio".toList, ['d']),
    ("inductor".toList, ['l']), ("ind".toList, ['l']) ]

def writtenType (keyword : Text) : Text := (shortTypes.lookup (lower keyword)).getD keyword

end SpiceDeck
