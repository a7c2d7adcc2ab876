import SpiceDeck.Options
import SpiceDeck.Toml.Document

/-!
Options from a configuration document. Keys that are not given keep their defaults,
keys that mean nothing are passed over, and the outcome is checked as a whole.
-/

namespace SpiceDeck
namespace Options
open Text

inductive Refusal where
  /-- The document or the type of a value is wrong. -/
  | document
  | fault (f : Fault)
  deriving DecidableEq, Repr

def Refusal.message : Refusal → Text
  | .document => "TOML parse error".toList
  | .fault f => f.message

namespace Decode

def string? : Toml.Value → Option Text
  | .string t => some t
  | _ => none

def boolean? : Toml.Value → Option Bool
  | .boolean b => some b
  | _ => none

def letter? : Toml.Value → Option Char
  | .string [c] => some c
  | _ => none

def strings? : Toml.Value → Option (List Text)
  | .array items => items.mapM string?
  | _ => none

def entries? : Toml.Value → Option Toml.Entries
  | .table _ entries => some entries
  | _ => none

/-- A dialect by its name, or by a table whose only key is the name, with nothing in it. -/
def dialect? : Toml.Value → Option Dialect
  | .string t => named t
  | .table _ [(key, .table _ [])] | .table _ [(key, .array [])] => named key
  | _ => none
where
  named (t : Text) : Option Dialect :=
    if t = "spectre".toList then some .spectre
    else if t = "spice".toList then some .spice
    else none

/-- A keyword is a table, or an array of the same values in order. -/
def rawKeyword? (name : Text) : Toml.Value → Option RawKeyword
  | .table _ entries => do
      let letter ← (← entries.lookup "prefix".toList) |> letter?
      let primitive ← match entries.lookup "primitive".toList with
        | some v => boolean? v
        | none => some false
      return { name, letter, primitive }
  | .array (l :: p :: _) => do return { name, letter := ← letter? l, primitive := ← boolean? p }
  | .array [l] => do return { name, letter := ← letter? l }
  | _ => none

def rawKeywords? (v : Toml.Value) : Option (List RawKeyword) :=
  (entries? v).bind fun entries => entries.mapM fun (name, v) => rawKeyword? name v

/-- The decoded value of a key, or the default if the key is not given. -/
def field? {α : Type} (entries : Toml.Entries) (key : String) (decode : Toml.Value → Option α)
    (default : α) : Option α :=
  match entries.lookup key.toList with
  | some v => decode v
  | none => some default

def options? (entries : Toml.Entries) : Option Options := do
  let o : Options := {}
  return {
    dialect := ← field? entries "dialect" (fun v => (dialect? v).map some) o.dialect
    rawKeywords := ← field? entries "raw_keywords" rawKeywords? o.rawKeywords
    yesNoSwitches := ← field? entries "yes_no_switches" strings? o.yesNoSwitches
    multiplicityVar := ← field? entries "multiplicity_var" string? o.multiplicityVar
    skipExtensions := ← field? entries "skip_extensions" strings? o.skipExtensions
    normalize := ← field? entries "normalize" boolean? o.normalize }

end Decode

def ofText (t : Text) : Except Refusal Options :=
  match (Toml.read? t).bind Decode.options? with
  | none => .error .document
  | some o =>
      match o.fault? with
      | some f => .error (.fault f)
      | none => .ok o

end Options
end SpiceDeck
