import SpiceDeck.Text.Basic

/-!
Configuration values and the tables they stand in. A table remembers how it came
about, because that decides whether later lines may add to it: an inline table is
complete, a table with a header cannot be reopened by dotted keys, and a table that
dotted keys made takes no header.
-/

namespace SpiceDeck
namespace Toml
open Text

inductive TableForm where
  /-- Written in braces as a value. -/
  | inline
  /-- Has a header of its own. -/
  | header
  /-- Stands in the header of another table only. -/
  | implied
  /-- Made by dotted keys. -/
  | dotted
  deriving DecidableEq, Repr

inductive Value where
  | string (text : Text)
  | integer (n : Int)
  | float (text : Text)
  | datetime (text : Text)
  | boolean (b : Bool)
  | array (items : List Value)
  | table (form : TableForm) (entries : List (Text × Value))
  /-- An array whose elements have a header each. -/
  | tables (elements : List (List (Text × Value)))

/-- The entries of a table in document order. -/
abbrev Entries := List (Text × Value)

namespace Entries

/-- Put a value in place of the one that a key has. -/
def set (key : Text) (v : Value) : Entries → Entries
  | [] => []
  | (k, old) :: r => if k = key then (k, v) :: r else (k, old) :: set key v r

def erase (key : Text) (es : Entries) : Entries := es.filter fun (k, _) => k != key

/-- Change the last element of an array of tables. -/
def inLast (f : Entries → Option Entries) (elements : List Entries) : Option (List Entries) :=
  match elements.getLast? with
  | some last => (f last).map fun es => elements.dropLast ++ [es]
  | none => none

/-- Change the table at the end of a path. Tables on the way that do not exist yet are
implied; an array of tables stands for its last element. -/
def atPath (f : Entries → Option Entries) : List Text → Entries → Option Entries
  | [], es => f es
  | key :: path, es =>
      match es.lookup key with
      | none => (atPath f path []).map fun sub => es ++ [(key, .table .implied sub)]
      | some (.table .inline _) => none
      | some (.table form sub) => (atPath f path sub).map fun sub => es.set key (.table form sub)
      | some (.tables elements) =>
          (inLast (atPath f path) elements).map fun elements => es.set key (.tables elements)
      | some _ => none

/-- Add a value under a dotted key. Only tables that dotted keys made can be added to
in this way; `fits` tells whether the table at hand can. -/
def insert (fits : Bool) (key : Text) (v : Value) : List Text → Entries → Option Entries
  | [], es => if fits && (es.lookup key).isNone then some (es ++ [(key, v)]) else none
  | part :: path, es =>
      match es.lookup part with
      | none => (insert true key v path []).map fun sub => es ++ [(part, .table .dotted sub)]
      | some (.table .dotted sub) =>
          (insert true key v path sub).map fun sub => es.set part (.table .dotted sub)
      | some (.table .implied sub) =>
          (insert false key v path sub).map fun sub => es.set part (.table .implied sub)
      | some (.tables elements) =>
          (inLast (insert false key v path) elements).map fun elements =>
            es.set part (.tables elements)
      | some _ => none

/-- Open a table by its header. An implied table moves to the end. -/
def openTable (key : Text) (es : Entries) : Option Entries :=
  match es.lookup key with
  | none => some (es ++ [(key, .table .header [])])
  | some (.table .implied sub) => some (es.erase key ++ [(key, .table .header sub)])
  | some _ => none

/-- Open a further element of an array of tables. -/
def openElement (key : Text) (es : Entries) : Option Entries :=
  match es.lookup key with
  | none => some (es ++ [(key, .tables [[]])])
  | some (.tables elements) => some (es.set key (.tables (elements ++ [[]])))
  | some _ => none

end Entries
end Toml
end SpiceDeck
