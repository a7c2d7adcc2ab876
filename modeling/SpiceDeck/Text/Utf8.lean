import SpiceDeck.Text.Basic

/-!
UTF-8. Decoding goes byte by byte; a state tells what the bytes so far still owe. A
byte that cannot follow ends an ill-formed part and is looked at again as a start.
-/

namespace SpiceDeck
namespace Text
namespace Utf8

abbrev Bytes := List UInt8

def encode (t : Text) : Bytes := t.flatMap String.utf8EncodeChar

/-- A character of which bytes are missing. -/
structure Partial where
  /-- Bytes still to come. -/
  missing : Nat
  /-- The bits so far. -/
  code : Nat
  /-- Bounds of the next byte. -/
  lo : Nat := 0x80
  hi : Nat := 0xBF
  deriving DecidableEq, Repr

/-- What has come out, where `none` stands for an ill-formed part, and what is owed. -/
abbrev State := List (Option Char) × Option Partial

/-- A byte at which a character starts. -/
def start (b : Nat) : State :=
  if b < 0x80 then ([some (Char.ofNat b)], none)
  else if 0xC2 ≤ b && b ≤ 0xDF then ([], some { missing := 1, code := b - 0xC0 })
  else if b = 0xE0 then ([], some { missing := 2, code := 0, lo := 0xA0 })
  else if b = 0xED then ([], some { missing := 2, code := 0xD, hi := 0x9F })
  else if 0xE1 ≤ b && b ≤ 0xEF then ([], some { missing := 2, code := b - 0xE0 })
  else if b = 0xF0 then ([], some { missing := 3, code := 0, lo := 0x90 })
  else if b = 0xF4 then ([], some { missing := 3, code := 4, hi := 0x8F })
  else if 0xF1 ≤ b && b ≤ 0xF3 then ([], some { missing := 3, code := b - 0xF0 })
  else ([none], none)

/-- A byte after what is owed. -/
def next (owed : Option Partial) (b : Nat) : State :=
  match owed with
  | none => start b
  | some p =>
      if p.lo ≤ b && b ≤ p.hi then
        let code := 0x40 * p.code + (b - 0x80)
        if p.missing ≤ 1 then ([some (Char.ofNat code)], none)
        else ([], some { missing := p.missing - 1, code })
      else
        let (out, owed) := start b
        (none :: out, owed)

def scan (owed : Option Partial) : Bytes → List (Option Char)
  | [] => if owed.isSome then [none] else []
  | b :: r =>
      let (out, owed) := next owed b.toNat
      out ++ scan owed r

/-- The text, if every part is well formed. -/
def decode? (bytes : Bytes) : Option Text := (scan none bytes).mapM id

/-- The text with a replacement character for every ill-formed part. -/
def decodeLossy (bytes : Bytes) : Text := (scan none bytes).map fun c => c.getD '\uFFFD'

end Utf8
end Text
end SpiceDeck
