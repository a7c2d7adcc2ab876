import SpiceDeck.Text.WordChar

/-!
Text as a list of characters, and the cuts every reader of a deck makes:
trimming, words, lines, literals at the front. Case only ever means ASCII case,
except in `afterFolded?`.
-/

namespace SpiceDeck

abbrev Text := List Char

namespace Text

def trimStart (t : Text) : Text := t.dropWhile isSpace

def trimEnd (t : Text) : Text := (t.reverse.dropWhile isSpace).reverse

def trim (t : Text) : Text := trimEnd (trimStart t)

def isBlank (t : Text) : Bool := t.all isSpace

/-- Lower case in ASCII; every other character stays. -/
def lower (t : Text) : Text := t.map Char.toLower

def sameName (a b : Text) : Bool := lower a == lower b

def token (t : Text) : Text := t.takeWhile fun c => !isSpace c

/-- What follows `token`, starting at the blank. -/
def afterToken (t : Text) : Text := t.dropWhile fun c => !isSpace c

/-- Cut at every character of the class; `n` cuts leave `n + 1` parts. -/
def cut (p : Char → Bool) : Text → List Text
  | [] => [[]]
  | c :: r =>
      if p c then [] :: cut p r
      else match cut p r with
        | [] => [[c]]
        | part :: parts => (c :: part) :: parts

def words (t : Text) : List Text := (cut isSpace t).filter fun w => !w.isEmpty

def dropReturn (t : Text) : Text :=
  if t.getLast? = some '\r' then t.dropLast else t

/-- Lines end at a line feed, which takes one carriage return before it along.
A last line without line feed counts unless it is empty. -/
def lines (t : Text) : List Text :=
  let parts := cut (· == '\n') t
  let last := parts.getLast?.getD []
  parts.dropLast.map dropReturn ++ if last.isEmpty then [] else [last]

def join (sep : Text) (parts : List Text) : Text := (parts.intersperse sep).flatten

def spaced (parts : List Text) : Text := join [' '] parts

def after? : Text → Text → Option Text
  | [], t => some t
  | _ :: _, [] => none
  | l :: ls, c :: t => if l = c then after? ls t else none

/-- The lower-case letter that a character folds to. Besides the ASCII letters
the long s folds to `s` and the Kelvin sign to `k`. -/
def fold (c : Char) : Char :=
  if c = '\u017F' then 's' else if c = '\u212A' then 'k' else c.toLower

/-- Like `after?` for a lower-case literal, ignoring case. -/
def afterFolded? : Text → Text → Option Text
  | [], t => some t
  | _ :: _, [] => none
  | l :: ls, c :: t => if l = fold c then afterFolded? ls t else none

def startsWith (t lit : Text) : Bool := (after? lit t).isSome

def atWordEnd (t : Text) : Bool := !t.head?.any isWord

/-- A text that must start with at least one blank, without its blanks. -/
def afterSpaces? (t : Text) : Option Text :=
  if t.head?.any isSpace then some (trimStart t) else none

def isNameStart (c : Char) : Bool := c.isAlpha || c == '_'

def isName (t : Text) : Bool :=
  match t with
  | [] => false
  | c :: r => isNameStart c && r.all isWord

def toNat? (t : Text) : Option Nat :=
  if !t.isEmpty && t.all Char.isDigit then
    some (t.foldl (fun n c => 10 * n + (c.toNat - '0'.toNat)) 0)
  else none

def ofNat (n : Nat) : Text := Nat.toDigits 10 n

def quoted (t : Text) : Text := '\x27' :: t ++ ['\x27']

def byteLength : Text → Nat
  | [] => 0
  | c :: r => c.utf8Size + byteLength r

theorem length_dropWhile_le (p : Char → Bool) (t : Text) :
    (t.dropWhile p).length ≤ t.length :=
  (List.dropWhile_suffix p).length_le

theorem length_trimStart_le (t : Text) : (trimStart t).length ≤ t.length :=
  length_dropWhile_le _ t

theorem length_afterToken_le (t : Text) : (afterToken t).length ≤ t.length :=
  length_dropWhile_le _ t

theorem not_of_dropWhile_eq_cons {p : Char → Bool} {t r : Text} {c : Char}
    (h : t.dropWhile p = c :: r) : p c = false := by
  have hc := List.head?_dropWhile_not p t
  rw [h] at hc
  exact hc

theorem length_afterToken_lt {t r : Text} {c : Char} (h : trimStart t = c :: r) :
    (afterToken (c :: r)).length < (c :: r).length := by
  have hc : isSpace c = false := not_of_dropWhile_eq_cons h
  have hr : afterToken (c :: r) = afterToken r := by simp [afterToken, hc]
  rw [hr]
  exact Nat.lt_succ_of_le (length_afterToken_le r)

theorem token_append_afterToken (t : Text) : token t ++ afterToken t = t :=
  List.takeWhile_append_dropWhile

theorem cut_ne_nil (p : Char → Bool) (t : Text) : cut p t ≠ [] := by
  cases t with
  | nil => simp [cut]
  | cons c r =>
      simp only [cut]
      split
      · simp
      · split <;> simp

end Text
end SpiceDeck
