import SpiceDeck.Deck.Multiplicity
import SpiceDeck.Path
import SpiceDeck.Scope.Step

/-!
Conversion of a whole deck: its items are taken one after the other, then what is
still open is closed and the lines get their final form.
-/

namespace SpiceDeck
open Text

structure Session where
  dialect : Dialect
  scope : Scope := .top
  /-- Open braces of a statistics block, which is commented out as a whole. -/
  statistics : Nat := 0
  deriving DecidableEq, Repr

namespace Session

def commented (l : Line) : Text := if l.isCode then "* ".toList ++ trim l.text else l.verbatim

/-- Copy a statement as comments, counting its braces. -/
def mute (a : Session) (s : Statement) : Session × Deck :=
  let (scope, d) := a.scope.copyAll (s.lines.map commented)
  let code := s.codeLines.flatMap fun l => l.text
  ({ a with scope, statistics := a.statistics + code.count '{' - code.count '}' }, d)

def pushStatement (cx : Context) (a : Session) (s : Statement) : Session × Deck :=
  if 0 < a.statistics then a.mute s
  else match s.kind cx.symbols cx.options a.dialect with
    | .simulator lang => ({ a with dialect := lang.getD a.dialect }, {})
    | .statistics => a.mute s
    | kind =>
        let (scope, d) := a.scope.step cx s kind
        ({ a with scope }, d)

def push (cx : Context) (a : Session) : Item → Session × Deck
  | .line l =>
      let (scope, d) := a.scope.copy l.verbatim
      ({ a with scope }, d)
  | .statement s => a.pushStatement cx s

def run (cx : Context) (a : Session) : List Item → Deck
  | [] => a.scope.finish cx
  | item :: r =>
      let (a, d) := a.push cx item
      d ++ run cx a r

end Session

structure Conversion where
  content : Text
  warnings : List Warning := []
  deriving DecidableEq, Repr

namespace Conversion

/-- The deck of a text before its lines get their final form. -/
def assemble (o : Options) (d : Dialect) (t : Text) : Deck :=
  Session.run ⟨Symbols.scan t, o⟩ { dialect := d } (Item.ofText t)

/-- Convert a deck whose first statements are in the given dialect. -/
def ofText (o : Options) (d : Dialect) (t : Text) : Conversion :=
  let deck := assemble o d t
  let lines := if o.normalize then Deck.normalize o.multiplicityVar deck.lines else deck.lines
  { content := Deck.content lines, warnings := deck.warnings }

def ofFile (o : Options) (path t : Text) : Conversion :=
  ofText o (o.initialDialect (Path.extension? path)) t

end Conversion
end SpiceDeck
