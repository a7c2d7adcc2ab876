import SpiceDeck.Text.Basic

/-!
What a conversion can be told: the dialect to start in, the letters of references
that no declaration explains, switches, the multiplicity variable, the file
extensions that are no decks. Names are looked up without regard to ASCII case.
-/

namespace SpiceDeck
open Text

inductive Dialect where
  /-- `subckt`, `parameters`, `model ... {`. -/
  | spectre
  /-- `.subckt`, `.param`, `.model`. -/
  | spice
  deriving DecidableEq, Repr

namespace Dialect

def ofLang? (lang : Text) : Option Dialect :=
  let lang := lower lang
  if lang = "spectre".toList then some .spectre
  else if lang = "spice".toList then some .spice
  else none

def ofExtension? (extension : Text) : Option Dialect :=
  let extension := lower extension
  if ["cdl", "sp", "spi", "spice", "cir", "ckt"].any (·.toList = extension) then some .spice
  else if ["scs", "spectre"].any (·.toList = extension) then some .spectre
  else none

end Dialect

/-- A device reference that the deck need not declare. -/
structure RawKeyword where
  name : Text
  /-- The letter that instances of the device start with. -/
  letter : Char
  /-- The simulator knows the device, so calls leave the reference out. -/
  primitive : Bool := false
  deriving DecidableEq, Repr

structure Options where
  /-- The dialect to start in; without one the file extension decides. -/
  dialect : Option Dialect := none
  rawKeywords : List RawKeyword :=
    [ ⟨"resistor".toList, 'r', true⟩, ⟨"capacitor".toList, 'c', true⟩,
      ⟨"inductor".toList, 'l', true⟩, ⟨"resbody".toList, 'r', false⟩,
      ⟨"n".toList, 'm', false⟩, ⟨"p".toList, 'm', false⟩ ]
  /-- Parameters whose values `yes` and `no` are written `1` and `0`. -/
  yesNoSwitches : List Text := ["sw_stat_global".toList, "sw_stat_mismatch".toList]
  multiplicityVar : Text := "m".toList
  /-- Extensions of files that a directory conversion passes over. -/
  skipExtensions : List Text := ["v".toList, "va".toList, "vams".toList, "sv".toList]
  normalize : Bool := true
  deriving DecidableEq, Repr

namespace Options

/-- The defaults without the closing normalisation of the deck. -/
def raw : Options := { normalize := false }

def withDialect (o : Options) (d : Dialect) : Options := { o with dialect := some d }

/-- A keyword spelled alike is preferred to one that differs in case. -/
def rawKeyword? (o : Options) (reference : Text) : Option RawKeyword :=
  (o.rawKeywords.find? fun k => k.name = reference).or
    (o.rawKeywords.find? fun k => sameName k.name reference)

def isYesNoSwitch (o : Options) (name : Text) : Bool :=
  o.yesNoSwitches.any (sameName · name)

def skipsExtension (o : Options) (extension : Text) : Bool :=
  o.skipExtensions.any (sameName · extension)

def initialDialect (o : Options) (extension : Option Text) : Dialect :=
  (o.dialect.or (extension.bind Dialect.ofExtension?)).getD .spectre

inductive Fault where
  | multiplicityVar (name : Text)
  | keywordLetter (letter : Char) (keyword : Text)
  deriving DecidableEq, Repr

def Fault.message : Fault → Text
  | .multiplicityVar name =>
      "multiplicity_var ".toList ++ quoted name ++ " is not an identifier".toList
  | .keywordLetter letter keyword =>
      "prefix ".toList ++ quoted [letter] ++ " for raw keyword ".toList ++ quoted keyword ++
        " is not a letter".toList

def isIdentifier (t : Text) : Bool :=
  match t with
  | [] => false
  | c :: r => isNameStart c && r.all fun c => c.isAlphanum || c == '_'

/-- The first fault: the multiplicity variable comes before the keywords. -/
def fault? (o : Options) : Option Fault :=
  if !isIdentifier o.multiplicityVar then some (.multiplicityVar o.multiplicityVar)
  else (o.rawKeywords.find? fun k => !k.letter.isAlpha).map fun k => .keywordLetter k.letter k.name

end Options
end SpiceDeck
