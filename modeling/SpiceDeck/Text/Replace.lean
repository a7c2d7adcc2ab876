import SpiceDeck.Text.Basic

/-!
Replacement of every occurrence of a pattern that starts at the beginning of a
word. A pattern is a function that reads a text from its front and gives the
replacement together with the text after the occurrence.
-/

namespace SpiceDeck
namespace Text

abbrev Pattern := Text → Option (Text × Text)

/-- One pass from the left. `inWord` tells whether the previous character is a
word character, `skip` how many characters belong to an occurrence already
replaced. -/
def replaceFrom (site : Pattern) (inWord : Bool) (skip : Nat) : Text → Text
  | [] => []
  | c :: r =>
      match skip with
      | skip + 1 => replaceFrom site (isWord c) skip r
      | 0 =>
          match if inWord then none else site (c :: r) with
          | some (new, rest) => new ++ replaceFrom site (isWord c) (r.length - rest.length) r
          | none => c :: replaceFrom site (isWord c) 0 r

/-- Replace all occurrences, leftmost first and without overlap. -/
def replaceAll (site : Pattern) (t : Text) : Text := replaceFrom site false 0 t

def occurs (site : Pattern) (inWord : Bool) : Text → Bool
  | [] => false
  | c :: r => (!inWord && (site (c :: r)).isSome) || occurs site (isWord c) r

end Text
end SpiceDeck
