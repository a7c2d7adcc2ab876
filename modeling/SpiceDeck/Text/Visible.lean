import SpiceDeck.Text.Basic

/-!
What a text shows. Control characters are left out, and so are the control sequences
of terminals, which start with an escape character. Tabs and line ends are shown.
-/

namespace SpiceDeck
namespace Text
namespace Visible

/-- The control characters that only lay text out. -/
def isLayout (c : Char) : Bool := c == '\t' || c == '\n' || c == '\x0C' || c == '\r'

def isShown (c : Char) : Bool := isLayout c || (0x20 ≤ c.toNat && c.toNat != 0x7F)

/-- Blanks and punctuation, which a sequence collects. -/
def isMark (c : Char) : Bool := 0x20 ≤ c.toNat && c.toNat ≤ 0x2F

/-- Digits and the punctuation after them, which are parameters. -/
def isParameter (c : Char) : Bool := 0x30 ≤ c.toNat && c.toNat ≤ 0x3F

/-- Letters and the like, which end a sequence. -/
def isFinal (c : Char) : Bool := 0x40 ≤ c.toNat && c.toNat ≤ 0x7E

inductive Sequence where
  /-- The escape character. -/
  | escape
  /-- The escape character and marks. -/
  | escapeMarks
  /-- A function with its parameters, up to a final character. -/
  | function
  /-- The head of a device string, which a final character ends. -/
  | device
  | deviceParameters
  | deviceMarks
  /-- Text that is not shown, up to a terminator. -/
  | string
  /-- A command to the system, up to a bell. -/
  | command
  deriving DecidableEq, Repr

namespace Sequence

/-- Layout is shown inside these, and what follows it too. -/
def showsLayout : Sequence → Bool
  | .escape | .escapeMarks | .function => true
  | .device | .deviceParameters | .deviceMarks | .string | .command => false

/-- The terminator is a byte; it ends a string wherever it stands in the encoding of
a character. -/
def terminates (c : Char) : Bool := (String.utf8EncodeChar c).contains 0x9C

/-- The sequence with one more character, unless that ends it. -/
def next? (s : Sequence) (c : Char) : Option Sequence :=
  match s with
  | .escape =>
      if c = '[' then some .function
      else if c = ']' then some .command
      else if c = 'P' then some .device
      else if c = 'X' || c = '^' || c = '_' then some .string
      else if isMark c then some .escapeMarks
      else if isParameter c || isFinal c then none
      else some s
  | .escapeMarks => if isParameter c || isFinal c then none else some s
  | .function => if isFinal c then none else some s
  | .device =>
      if isMark c then some .deviceMarks
      else if isParameter c then some .deviceParameters
      else if isFinal c then some .string
      else some s
  | .deviceParameters =>
      if isMark c then some .deviceMarks
      else if isFinal c || ('<' ≤ c && c ≤ '?') then some .string
      else some s
  | .deviceMarks => if isParameter c || isFinal c then some .string else some s
  | .string => if terminates c then none else some s
  | .command => if c = '\x07' then none else some s

end Sequence

inductive State where
  | plain
  | within (s : Sequence)
  /-- After layout inside a sequence, which goes on at the next control character. -/
  | paused (s : Sequence)
  deriving DecidableEq, Repr

/-- The state after a character, and whether the character is shown. Everywhere an
escape character starts a sequence and cancel and substitute end one. -/
def step (state : State) (c : Char) : State × Bool :=
  if c = '\x1B' then (.within .escape, false)
  else if c = '\x18' || c = '\x1A' then (.plain, false)
  else match state with
    | .plain => (.plain, isShown c)
    | .within s =>
        if isLayout c && s.showsLayout then (.paused s, true)
        else match s.next? c with
          | some s => (.within s, false)
          | none => (.plain, false)
    | .paused s =>
        if !isShown c then (.within s, false)
        else if c.toNat < 0x80 then (.paused s, true)
        else (.plain, true)

def scan (state : State) : Text → Text
  | [] => []
  | c :: r =>
      let (state, shown) := step state c
      if shown then c :: scan state r else scan state r

theorem isShown_of_isLayout (c : Char) (h : isLayout c = true) : isShown c = true := by
  simp [isShown, h]

theorem isShown_of_step (state : State) (c : Char) (h : (step state c).2 = true) :
    isShown c = true := by
  unfold step at h
  split at h
  · exact absurd h (by simp)
  · split at h
    · exact absurd h (by simp)
    · cases state with
      | plain => exact h
      | within s =>
          by_cases hl : (isLayout c && s.showsLayout) = true
          · exact isShown_of_isLayout c (Bool.and_eq_true_iff.mp hl).1
          · cases hn : s.next? c <;> simp [hl, hn] at h
      | paused s =>
          cases hc : isShown c with
          | false => simp [hc] at h
          | true => rfl

theorem isShown_of_mem_scan (state : State) (t : Text) (c : Char) (h : c ∈ scan state t) :
    isShown c = true := by
  induction t generalizing state with
  | nil => simp [scan] at h
  | cons a r ih =>
      simp only [scan] at h
      split at h
      · rcases List.mem_cons.mp h with rfl | h
        · exact isShown_of_step state c (by assumption)
        · exact ih _ h
      · exact ih _ h

theorem step_plain (c : Char) (h : isShown c = true) : step .plain c = (.plain, true) := by
  unfold step
  split
  · subst c
    exact absurd h (by decide)
  · split
    · rename_i hc
      simp only [Bool.or_eq_true, decide_eq_true_eq] at hc
      rcases hc with rfl | rfl <;> exact absurd h (by decide)
    · rw [h]

end Visible

def visible (t : Text) : Text := Visible.scan .plain t

theorem isShown_of_mem_visible (t : Text) (c : Char) (h : c ∈ visible t) :
    Visible.isShown c = true :=
  Visible.isShown_of_mem_scan .plain t c h

/-- A text of shown characters only stays as it is. -/
theorem visible_eq_self (t : Text) (h : ∀ c ∈ t, Visible.isShown c = true) : visible t = t := by
  induction t with
  | nil => rfl
  | cons c r ih =>
      have hs := Visible.step_plain c (h c (List.mem_cons_self ..))
      have hr := ih fun a ha => h a (List.mem_cons_of_mem c ha)
      simpa [visible, Visible.scan, hs] using hr

end Text
end SpiceDeck
