import SpiceDeck.Toml.Scalar

/-!
Whole configuration documents: keys, values with their nesting, headers. A document
that breaks a rule, such as a key given twice, has no value at all.
-/

namespace SpiceDeck
namespace Toml
open Text

def nestingLimit : Nat := 80

def isBareKeyChar (c : Char) : Bool := c.isAlphanum || c == '-' || c == '_'

def key? : Reader Text := fun t =>
  match t with
  | '"' :: _ => basicString? t
  | '\x27' :: _ => literalString? t
  | _ =>
      if t.head?.any isBareKeyChar then some (t.takeWhile isBareKeyChar, t.dropWhile isBareKeyChar)
      else none

/-- The parts of a dotted key, with the blanks around them. -/
def keyParts? (t : Text) : Option (List Text × Text) :=
  match key? (skipGaps t) with
  | none => none
  | some (key, r) =>
      match skipGaps r with
      | '.' :: rest =>
          if rest.length < t.length then
            (keyParts? rest).map fun (keys, rest) => (key :: keys, rest)
          else none
      | rest => some ([key], rest)
termination_by t.length

/-- A dotted key as the path to a table and the key in it. -/
def path? : Reader (List Text × Text) := fun t =>
  (keyParts? t).bind fun (keys, rest) =>
    match keys.getLast? with
    | some key => if keys.length < nestingLimit then some ((keys.dropLast, key), rest) else none
    | none => none

/-- `key = value`. -/
def pair? (value : Reader Value) : Reader (List Text × Text × Value) := fun t =>
  match path? t with
  | some ((path, key), '=' :: r) => (value (skipGaps r)).map fun (v, rest) => ((path, key, v), rest)
  | _ => none

/-- The items of an array, after its bracket. -/
def items (value : Reader Value) (t : Text) : Option (List Value × Text) :=
  match skipLines false t with
  | none => none
  | some (']' :: r) => some ([], r)
  | some start =>
      match value start with
      | none => none
      | some (v, r) =>
          match skipLines false r with
          | some (']' :: rest) => some ([v], rest)
          | some (',' :: rest) =>
              if rest.length < t.length then
                (items value rest).map fun (vs, rest) => (v :: vs, rest)
              else none
          | _ => none
termination_by t.length

/-- The entries of an inline table from the first or a further one on. -/
def pairs (value : Reader Value) (es : Entries) (t : Text) : Option (Entries × Text) :=
  match pair? value t with
  | none => none
  | some ((path, key, v), r) =>
      match es.insert true key v path, skipGaps r with
      | some es, '}' :: rest => some (es, rest)
      | some es, ',' :: rest => if rest.length < t.length then pairs value es rest else none
      | _, _ => none
termination_by t.length

/-- A value in which arrays and inline tables nest at most `depth` deep. -/
def value? : Nat → Reader Value
  | depth, t =>
      match t with
      | [] => none
      | c :: r =>
          if c == '"' || c == '\x27' then (string? t).map fun (s, rest) => (.string s, rest)
          else if c == '[' then
            match depth with
            | 0 => none
            | depth + 1 => (items (value? depth) r).map fun (vs, rest) => (.array vs, rest)
          else if c == '\x7b' then
            match depth with
            | 0 => none
            | depth + 1 =>
                match skipGaps r with
                | '}' :: rest => some (.table .inline [], rest)
                | start =>
                    (pairs (value? depth) [] start).map fun (es, rest) => (.table .inline es, rest)
          else if c == 't' || c == 'f' then boolean? t
          else number? t

/-- A document being read: all tables, and the path of the one that is open. -/
structure Draft where
  root : Entries := []
  path : List Text := []

namespace Draft

def openTable (d : Draft) (path : List Text) (key : Text) : Option Draft :=
  (d.root.atPath (Entries.openTable key) path).map fun root => ⟨root, path ++ [key]⟩

def openElement (d : Draft) (path : List Text) (key : Text) : Option Draft :=
  (d.root.atPath (Entries.openElement key) path).map fun root => ⟨root, path ++ [key]⟩

def add (d : Draft) (path : List Text) (key : Text) (v : Value) : Option Draft :=
  (d.root.atPath (Entries.insert true key v path) d.path).map fun root => { d with root }

/-- Read a header or a pair; the line must end after it. -/
def readLine (d : Draft) (t : Text) : Option (Draft × Text) :=
  match after? "[[".toList t, after? "[".toList t with
  | some r, _ => do
      let ((path, key), r) ← path? r
      let rest ← afterLine? (← after? "]]".toList r)
      return (← d.openElement path key, rest)
  | none, some r => do
      let ((path, key), r) ← path? r
      let rest ← afterLine? (← after? "]".toList r)
      return (← d.openTable path key, rest)
  | none, none => do
      let ((path, key, v), r) ← pair? (value? (nestingLimit - 1)) t
      let rest ← afterLine? r
      return (← d.add path key v, rest)

def readLines (d : Draft) (t : Text) : Option Draft :=
  match skipGaps t with
  | [] => some d
  | c :: r =>
      let next := if c == '#' || c == '\n' || c == '\r' then
          (afterLine? (c :: r)).map fun rest => (d, rest)
        else d.readLine (c :: r)
      match next with
      | some (d, rest) => if rest.length < t.length then readLines d rest else none
      | none => none
termination_by t.length

end Draft

/-- The entries of a document, which may start with a byte order mark. -/
def read? (t : Text) : Option Entries :=
  let t := match t with
    | '\uFEFF' :: r => r
    | _ => t
  (Draft.readLines {} t).map Draft.root

end Toml
end SpiceDeck
