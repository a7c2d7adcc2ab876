import SpiceDeck.Warning

/-!
What a run over files has done, file by file, and its record as JSON: two blanks of
indentation for each level, one entry a line, nothing inside empty brackets.
-/

namespace SpiceDeck
open Text

inductive Outcome where
  | converted (output : Text) (warnings : List Warning)
  | skipped
  | failed (error : Text)
  deriving DecidableEq, Repr

structure FileReport where
  source : Text
  outcome : Outcome
  deriving DecidableEq, Repr

namespace FileReport

def isConverted (f : FileReport) : Bool :=
  match f.outcome with
  | .converted _ _ => true
  | .skipped | .failed _ => false

def isSkipped (f : FileReport) : Bool :=
  match f.outcome with
  | .skipped => true
  | .converted _ _ | .failed _ => false

def isFailed (f : FileReport) : Bool :=
  match f.outcome with
  | .failed _ => true
  | .converted _ _ | .skipped => false

def output? (f : FileReport) : Option Text :=
  match f.outcome with
  | .converted output _ => some output
  | .skipped | .failed _ => none

def warnings (f : FileReport) : List Warning :=
  match f.outcome with
  | .converted _ warnings => warnings
  | .skipped | .failed _ => []

def error? (f : FileReport) : Option Text :=
  match f.outcome with
  | .failed error => some error
  | .converted _ _ | .skipped => none

def status (f : FileReport) : Text :=
  match f.outcome with
  | .converted _ _ => "converted".toList
  | .skipped => "skipped".toList
  | .failed _ => "failed".toList

end FileReport

structure Report where
  files : List FileReport := []
  deriving DecidableEq, Repr

namespace Report

def converted (r : Report) : Nat := r.files.countP FileReport.isConverted

def skipped (r : Report) : Nat := r.files.countP FileReport.isSkipped

def failed (r : Report) : Nat := r.files.countP FileReport.isFailed

def hasFailures (r : Report) : Bool := 0 < r.failed

def warningCount (r : Report) : Nat := (r.files.flatMap fun f => f.warnings).length

end Report

namespace Json

/-- A written value as its lines, without indentation around the whole. -/
abbrev Lines := List Text

def hexDigit (n : Nat) : Char := (Nat.toDigits 16 n).headD '0'

def escape (c : Char) : Text :=
  if c = '"' then ['\\', '"']
  else if c = '\\' then ['\\', '\\']
  else if c = '\x08' then ['\\', 'b']
  else if c = '\t' then ['\\', 't']
  else if c = '\n' then ['\\', 'n']
  else if c = '\x0C' then ['\\', 'f']
  else if c = '\r' then ['\\', 'r']
  else if c.toNat < 0x20 then
    "\\u00".toList ++ [hexDigit (c.toNat / 16), hexDigit (c.toNat % 16)]
  else [c]

def quote (t : Text) : Text := '"' :: t.flatMap escape ++ ['"']

def string (t : Text) : Lines := [quote t]

def number (n : Nat) : Lines := [ofNat n]

def null : Lines := ["null".toList]

def optional {α : Type} (write : α → Lines) : Option α → Lines
  | some a => write a
  | none => null

def withComma : Lines → Lines
  | [] => []
  | [l] => [l ++ [',']]
  | l :: r => l :: withComma r

def separated : List Lines → Lines
  | [] => []
  | [e] => e
  | e :: r => withComma e ++ separated r

def bracketed (opening closing : Char) (entries : List Lines) : Lines :=
  if entries.isEmpty then [[opening, closing]]
  else [opening] :: (separated entries).map ("  ".toList ++ ·) ++ [[closing]]

def array (entries : List Lines) : Lines := bracketed '[' ']' entries

def field (name : String) : Lines → Lines
  | [] => []
  | l :: r => (quote name.toList ++ ": ".toList ++ l) :: r

def object (fields : List (String × Lines)) : Lines :=
  bracketed '{' '}' (fields.map fun (name, value) => field name value)

end Json

def Warning.toJson (w : Warning) : Json.Lines :=
  Json.object
    [ ("kind", Json.string w.kind.name), ("line", Json.optional Json.number w.line),
      ("message", Json.string w.message) ]

def FileReport.toJson (f : FileReport) : Json.Lines :=
  Json.object
    [ ("source", Json.string f.source), ("output", Json.optional Json.string f.output?),
      ("status", Json.string f.status), ("warnings", Json.array (f.warnings.map Warning.toJson)),
      ("error", Json.optional Json.string f.error?) ]

def Report.toJson (r : Report) : Text :=
  join ['\n'] (Json.object [("files", Json.array (r.files.map FileReport.toJson))])

end SpiceDeck
