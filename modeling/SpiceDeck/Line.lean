import SpiceDeck.Text.Basic

/-!
Physical lines of a deck. A line is code, a comment or blank; code lines may
continue the code line before them, either by a leading `+` or because that line
ended in a backslash. Comments opened by `//` are kept in the `*` and `$` forms.
-/

namespace SpiceDeck
open Text

inductive LineBody where
  | code (text : Text) (continues : Bool)
  | comment (text : Text)
  | blank
  deriving DecidableEq, Repr

/-- A physical line with its number, counted from one. -/
structure Line where
  number : Nat
  body : LineBody
  deriving DecidableEq, Repr

namespace Line

def isCode (l : Line) : Bool :=
  match l.body with
  | .code _ _ => true
  | .comment _ | .blank => false

/-- Whether the line extends the code line before it. -/
def continues (l : Line) : Bool :=
  match l.body with
  | .code _ continues => continues
  | .comment _ | .blank => false

def text (l : Line) : Text :=
  match l.body with
  | .code t _ | .comment t => t
  | .blank => []

def verbatim (l : Line) : Text := l.text

/-- The text without surrounding blanks and without a continuation's `+`. -/
def content (l : Line) : Text :=
  let t := trim l.text
  if l.continues then
    match t with
    | '+' :: r => trimStart r
    | _ => t
  else t

/-- The parts around the first `//` that stands outside double quotes. -/
def splitComment? (quoted : Bool) : Text → Option (Text × Text)
  | [] => none
  | c :: r =>
      if c = '"' then (splitComment? (!quoted) r).map fun (a, b) => (c :: a, b)
      else if !quoted && c = '/' && r.head? = some '/' then some ([], r.tail)
      else (splitComment? quoted r).map fun (a, b) => (c :: a, b)

/-- Write a trailing `//` comment with the `$` marker; an empty one goes away. -/
def markComment (t : Text) : Text :=
  match splitComment? false t with
  | none => t
  | some (left, right) =>
      let right := trim right
      if right.isEmpty then trimEnd left else trimEnd left ++ " $ ".toList ++ right

/-- A code text without its trailing backslash, and whether it had one. -/
def dropBackslash (t : Text) : Text × Bool :=
  if t.getLast? = some '\\' then (trimEnd t.dropLast, true) else (t, false)

/-- Read one line. `joined` says that the last code line ended in a backslash;
the same fact about the lines up to this one is returned. -/
def read (number : Nat) (joined : Bool) (raw : Text) : Line × Bool :=
  let raw := trimEnd raw
  match trimStart raw with
  | [] => (⟨number, .blank⟩, joined)
  | '/' :: '/' :: r => (⟨number, .comment ('*' :: r)⟩, joined)
  | '*' :: r => (⟨number, .comment ('*' :: r)⟩, joined)
  | c :: _ =>
      let (text, backslash) := dropBackslash (markComment raw)
      (⟨number, .code text (joined || c == '+')⟩, backslash)

def readFrom (number : Nat) (joined : Bool) : List Text → List Line
  | [] => []
  | raw :: r =>
      let (line, joined) := read number joined raw
      line :: readFrom (number + 1) joined r

def ofText (t : Text) : List Line := readFrom 1 false (lines t)

end Line
end SpiceDeck
