import SpiceDeck.Model.Basic

/-!
Model blocks in braces. A block describes one model, or one model for each of its
bins; what stands before the first bin is then shared by all of them.
-/

namespace SpiceDeck
open Text

structure Model.Block where
  /-- The keyword of the type, from which every bin starts. -/
  keyword : Text
  /-- What stands before the first bin. -/
  common : Model
  /-- The bins by index, in the order in which the indices first came up. -/
  bins : List (Nat × Model) := []
  /-- The bin that lines go to; without one they go to the common part. -/
  current : Option Nat := none
  /-- What the last line read into the block leaves open. -/
  carry : Carry := .closed
  deriving DecidableEq, Repr

namespace Model.Block

def new (base keyword : Text) (line : Nat) : Model.Block :=
  { keyword, common := .new base keyword line }

def name (b : Model.Block) : Text := b.common.base

/-- Enter a bin in place of one with the same index, or else at the end. -/
def insertBin (index : Nat) (m : Model) : List (Nat × Model) → List (Nat × Model)
  | [] => [(index, m)]
  | (i, old) :: r => if i = index then (i, m) :: r else (i, old) :: insertBin index m r

def openBin (b : Model.Block) (index : Nat) (params : ParamLine) (line : Nat) : Model.Block :=
  let m := ({ Model.new b.common.base b.keyword line with bin := some index }).withParams params
  { b with bins := insertBin index m b.bins, current := some index }

def currentModel (b : Model.Block) : Model :=
  (b.current.bind fun index => b.bins.lookup index).getD b.common

def modifyCurrent (b : Model.Block) (f : Model → Model) : Model.Block :=
  match b.current with
  | some index => { b with bins := b.bins.map fun (i, m) => (i, if i = index then f m else m) }
  | none => { b with common := f b.common }

def isOpen (b : Model.Block) : Bool := b.carry.isOpen && b.currentModel.isOpen

def closeValue (b : Model.Block) : Model.Block :=
  if b.carry.isOpen then { b.modifyCurrent Model.close with carry := .closed } else b

/-- The lines that every bin starts with. -/
def shared (b : Model.Block) : List Continuation :=
  (match b.common.params with
    | some l => if l.isEmpty then [] else [.params (l.withMarker .plus)]
    | none => []) ++ b.common.tail

/-- A bin with the common part in front. A polarity of its own is kept. -/
def complete (b : Model.Block) (m : Model) : Model :=
  { m with
    type := if !m.type.isResolved && b.common.type.isResolved then b.common.type else m.type
    tail := b.shared ++ m.tail }

def models (b : Model.Block) : List Model :=
  if b.bins.isEmpty then [b.common] else b.bins.map fun (_, m) => b.complete m

end Model.Block
end SpiceDeck
