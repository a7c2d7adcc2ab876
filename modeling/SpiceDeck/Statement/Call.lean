import SpiceDeck.Statement.Kind
import SpiceDeck.Symbols

/-!
Device calls as statements. A call with its pins in parentheses is recognised by its
form, possibly over several lines; a call without them only by a reference that is
known.
-/

namespace SpiceDeck
namespace Head
open Text

def isAsciiWord (c : Char) : Bool := c.isAlphanum || c == '_'

def parenParts? (t : Text) : Option (Text × Text × Text) :=
  if t.head?.any isAsciiWord then
    let stop (c : Char) : Bool := isSpace c || c == '('
    match trimStart (t.dropWhile fun c => !stop c) with
    | '(' :: r =>
        match r.dropWhile (· != ')') with
        | _ :: rest =>
            some (t.takeWhile (fun c => !stop c), r.takeWhile (· != ')'), trimStart rest)
        | [] => none
    | _ => none
  else none

/-- A parenthesis that directly follows the first word, if any is on the line. -/
def parenAfterWord (t : Text) : Bool :=
  t.contains '(' && !(trim (t.takeWhile (· != '('))).any isSpace

def isBalanced (t : Text) : Bool := t.count '(' ≤ t.count ')'

/-- The least number of code lines, from `k` on, whose joined text passes. -/
def linesUntil? (s : Statement) (pass : Text → Bool) (k : Nat) : Nat → Option Nat
  | 0 => none
  | n + 1 => if pass (s.joined k) then some k else linesUntil? s pass (k + 1) n

/-- `name (pins) reference params`. The pin list ends on the line that balances the
parentheses; the reference may stand on the line after it. -/
def parenCall? (s : Statement) : Option CallOpening :=
  let total := s.codeLines.length
  if parenAfterWord s.head.content then
    match linesUntil? s isBalanced 1 total with
    | none => none
    | some k =>
        match parenParts? (s.joined k) with
        | none => none
        | some (_, _, after) =>
            let consumed := if after.isEmpty && k < total then k + 1 else k
            match parenParts? (s.joined consumed) with
            | none => none
            | some (name, pins, after) =>
                let reference := token (trim after)
                if reference.isEmpty || reference.contains '=' then none
                else some
                  { name, pins := words pins, reference
                    params := trim (afterToken (trim after)), consumed }
  else none

/-- A character that an equals sign can follow as the end of a name. -/
def isOperand (c : Char) : Bool := !(isSpace c || c == '=')

/-- The text before the first word that an equals sign follows, and the text from
there on. `inWord` tells whether the text starts inside a word. -/
def cutAtEquals? (inWord : Bool) : Text → Option (Text × Text)
  | [] => none
  | c :: r =>
      if !inWord && isOperand c && (trimStart (r.dropWhile isOperand)).head? = some '=' then
        some ([], c :: r)
      else (cutAtEquals? (isOperand c) r).map fun (before, rest) => (c :: before, rest)

/-- A token without the slash that may set off the reference. -/
def withoutSlash? : Text → Option Text
  | ['/'] => none
  | '/' :: r => some r
  | t => some t

/-- `name pins... reference params`, where the parameters start at the first equals
sign and the reference must be known. -/
def bareCall? (symbols : Symbols) (o : Options) (spectre : Bool) (s : Statement) :
    Option CallOpening :=
  if s.head.content.head?.any isAsciiWord then
    let total := s.codeLines.length
    let consumed := (linesUntil? s (fun t => (cutAtEquals? false t).isSome) 1 total).getD total
    let text := s.joined consumed
    let (before, params) := (cutAtEquals? false text).getD (text, [])
    match (words before).filterMap withoutSlash? with
    | name :: token :: tokens =>
        let reference := (token :: tokens).getLast (List.cons_ne_nil _ _)
        let primitive := spectre && (o.rawKeyword? reference).any RawKeyword.primitive
        if symbols.isKnown reference || primitive then
          some
            { name, pins := (token :: tokens).dropLast, reference, params := trim params, consumed }
        else none
    | _ => none
  else none

end Head
end SpiceDeck
