import SpiceDeck.Statement.Kind

/-!
Readers for the head line of a statement, one for each kind that its first word or
its first characters give away.
-/

namespace SpiceDeck
namespace Head
open Text

def afterKeyword? (keyword t : Text) : Option Text :=
  match after? keyword t with
  | some r => if atWordEnd r then some r else none
  | none => none

def token? (t : Text) : Option Text := if (token t).isEmpty then none else some (token t)

/-- What follows `name = `. -/
def afterSetting? (name t : Text) : Option Text :=
  match after? name t with
  | none => none
  | some r =>
      match trimStart r with
      | '=' :: r => some (trimStart r)
      | _ => none

/-- `simulator`, with the dialect of `lang=` if that is one. -/
def simulator? (t : Text) : Option (Option Dialect) :=
  (afterKeyword? "simulator".toList t).map fun r =>
    match afterSetting? "lang".toList (trimStart r) with
    | some value => Dialect.ofLang? (value.takeWhile isWord)
    | none => none

/-- `.param`, or `parameters`, `params:` and `param:` where they are keywords. -/
def isParameters (spectre : Bool) (t : Text) : Bool :=
  (match afterFolded? ".param".toList t with
    | some r => r.head?.all isSpace
    | none => false) ||
  (spectre && ((afterKeyword? "parameters".toList t).isSome || startsWith t "params:".toList ||
    startsWith t "param:".toList))

/-- `statistics {`. -/
def isStatistics (t : Text) : Bool :=
  match after? "statistics".toList t with
  | some r => (trimStart r).head? = some '{'
  | none => false

/-- A name and a type, which ends before the given character, and the rest. -/
def nameAndType? (stop : Char) (t : Text) : Option (Text × Text × Text) :=
  match afterSpaces? t with
  | none => none
  | some r =>
      let name := token r
      match afterSpaces? (afterToken r) with
      | none => none
      | some r =>
          let type := r.takeWhile fun c => !(isSpace c || c == stop)
          let rest := r.dropWhile fun c => !(isSpace c || c == stop)
          if name.isEmpty || type.isEmpty then none else some (name, type, trimStart rest)

/-- `model name type` with an optional brace. -/
def bracedModel? (t : Text) : Option ModelOpening :=
  (after? "model".toList t).bind fun r => (nameAndType? '{' r).map fun (name, keyword, rest) =>
    match rest with
    | '{' :: rest => { name, keyword, rest := trimStart rest, braced := true }
    | rest => { name, keyword, rest }

/-- `.model name type` with an optional parenthesis. -/
def dottedModel? (t : Text) : Option ModelOpening :=
  (afterFolded? ".model".toList t).bind fun r =>
    (nameAndType? '(' r).map fun (name, keyword, rest) =>
      match trim rest with
      | '(' :: rest => { name, keyword, rest := trimStart rest, parenthesized := true }
      | rest => { name, keyword, rest }

def model? (spectre : Bool) (t : Text) : Option ModelOpening :=
  (if spectre then bracedModel? t else none).or (dottedModel? t)

/-- Bin indices are below this bound: they fit in 32 bits. -/
def binLimit : Nat := 0x100000000

/-- The index and the text of `index: text`. -/
def bin? (t : Text) : Option (Nat × Text) :=
  let t := trim t
  match trimStart (t.dropWhile isDigit) with
  | ':' :: r =>
      let rest := trimStart r
      match toNat? (t.takeWhile isDigit) with
      | some n => if n < binLimit && !rest.contains '\n' then some (n, rest) else none
      | none => none
  | _ => none

/-- `.ends` or `ends`, with the name that may follow. -/
def close? (spectre : Bool) (t : Text) : Option (Option Text) :=
  let dotted := match afterFolded? ".ends".toList t with
    | some r => if atWordEnd r then some r else none
    | none => none
  let plain := if spectre then afterKeyword? "ends".toList t else none
  (dotted.or plain).map fun r => token? (trimStart r)

/-- The name of a subcircuit, which ends before a parenthesis, and the rest. -/
def subcircuitName? (t : Text) : Option (Text × Text) :=
  match afterSpaces? t with
  | none => none
  | some r =>
      let name := r.takeWhile fun c => !(isSpace c || c == '(')
      if name.isEmpty then none
      else some (name, trim (r.dropWhile fun c => !(isSpace c || c == '(')))

/-- `.subckt name`, or `subckt name` after an optional `inline`. -/
def subcircuit? (spectre : Bool) (t : Text) : Option SubcircuitOpening :=
  let dotted := (afterFolded? ".subckt".toList t).bind subcircuitName?
  let start := match (after? "inline".toList t).bind afterSpaces? with
    | some r => r
    | none => t
  let plain := if spectre then (after? "subckt".toList start).bind subcircuitName? else none
  let head (other : HeaderForm) : Text × Text → SubcircuitOpening := fun (name, rest) =>
    { name, rest, form := if startsWith rest ['('] then .paren else other }
  (dotted.map (head .dotted)).or (plain.map (head .bare))

/-- The rest of an `include`: nothing, or the section to take. -/
def libraryPart? (t : Text) : Option (Option Text) :=
  match afterSetting? "section".toList (trimStart t) with
  | some r => if (token r).isEmpty || !isBlank (afterToken r) then none else some (some (token r))
  | none => if isBlank t then some none else none

/-- The longest non-empty beginning of the first word with an acceptable rest. -/
def longestBefore? {α : Type} (accept : Text → Option α) : Text → Option (Text × α)
  | [] => none
  | c :: r =>
      if isSpace c then none
      else match longestBefore? accept r with
        | some (word, a) => some (c :: word, a)
        | none => (accept r).map fun a => ([c], a)

/-- The text in double quotes at the front, with its quotes, and an acceptable rest. -/
def quotedBefore? {α : Type} (accept : Text → Option α) : Text → Option (Text × α)
  | '"' :: r =>
      match r.dropWhile (· != '"') with
      | _ :: rest => (accept rest).map fun a => ('"' :: r.takeWhile (· != '"') ++ ['"'], a)
      | [] => none
  | _ => none

def includeFile? (t : Text) : Option Text :=
  ((after? "include".toList t).bind afterSpaces?).bind fun r =>
    ((quotedBefore? libraryPart? r).or (longestBefore? libraryPart? r)).map fun (file, part) =>
      match part with
      | some name => ".lib ".toList ++ file ++ ' ' :: name
      | none => ".include ".toList ++ file

/-- `section` and `endsection`. -/
def librarySection? (t : Text) : Option Text :=
  let spelled (keyword : Text) (r : Text) : Text :=
    match token? (trimStart r) with
    | some name => keyword ++ ' ' :: name
    | none => keyword
  ((afterKeyword? "section".toList t).map (spelled ".lib".toList)).or
    ((afterKeyword? "endsection".toList t).map (spelled ".endl".toList))

/-- Global nodes other than the ground node, which always is one. -/
def global? (t : Text) : Option Text :=
  (afterKeyword? "global".toList t).map fun r =>
    match (words r).filter (· != ['0']) with
    | [] => "* global 0".toList
    | nodes => ".global ".toList ++ spaced nodes

/-- Statements without a counterpart, which are commented out. -/
def unsupported? (t : Text) : Option Text :=
  if ["ahdl_include", "library", "endlibrary"].any fun k => (afterKeyword? k.toList t).isSome then
    some ("* ".toList ++ t)
  else none

def directive? (t : Text) : Option Text :=
  (includeFile? t).or ((librarySection? t).or ((global? t).or (unsupported? t)))

end Head
end SpiceDeck
