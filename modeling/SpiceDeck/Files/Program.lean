import SpiceDeck.Files.System

/-!
Programs over files as the operations they ask for. Whatever can be run in any file system
is such a program, and several of them can take turns on one machine, operation by operation.
-/

namespace SpiceDeck
open Text

/-- The next operation with what follows for each of its answers, or a result. -/
inductive Program (Draft α : Type) where
  | done (result : α)
  | kind? (path : Text) (next : Option FileKind → Program Draft α)
  | read (path : Text) (next : Except Refusal Bytes → Program Draft α)
  | createDraft (dir : Text) (next : Except Refusal Draft → Program Draft α)
  | fillDraft (draft : Draft) (bytes : Bytes) (next : Except Refusal Unit → Program Draft α)
  | persistDraft (draft : Draft) (path : Text) (next : Except Refusal Unit → Program Draft α)
  | dropDraft (draft : Draft) (next : Program Draft α)
  | fileNames (path : Text) (next : Except Refusal (List Text) → Program Draft α)
  | makeDirectory (path : Text) (next : Except Refusal Unit → Program Draft α)

namespace Program
variable {Draft α β : Type}

def bind : Program Draft α → (α → Program Draft β) → Program Draft β
  | .done result, f => f result
  | .kind? path next, f => .kind? path fun answer => (next answer).bind f
  | .read path next, f => .read path fun answer => (next answer).bind f
  | .createDraft dir next, f => .createDraft dir fun answer => (next answer).bind f
  | .fillDraft draft bytes next, f => .fillDraft draft bytes fun answer => (next answer).bind f
  | .persistDraft draft path next, f =>
      .persistDraft draft path fun answer => (next answer).bind f
  | .dropDraft draft next, f => .dropDraft draft (next.bind f)
  | .fileNames path next, f => .fileNames path fun answer => (next answer).bind f
  | .makeDirectory path next, f => .makeDirectory path fun answer => (next answer).bind f

instance : Monad (Program Draft) where
  pure := .done
  bind := bind

instance : FileSystem (Program Draft) Draft where
  kind? path := .kind? path .done
  read path := .read path .done
  createDraft dir := .createDraft dir .done
  fillDraft draft bytes := .fillDraft draft bytes .done
  persistDraft draft path := .persistDraft draft path .done
  dropDraft draft := .dropDraft draft (.done ())
  fileNames path := .fileNames path .done
  makeDirectory path := .makeDirectory path .done

variable {m : Type → Type} [Monad m] [FileSystem m Draft]

/-- Do the next operation; a result stays as it is. -/
def turn : Program Draft α → m (Program Draft α)
  | .done result => return .done result
  | .kind? path next => return next (← FileSystem.kind? path)
  | .read path next => return next (← FileSystem.read path)
  | .createDraft dir next => return next (← FileSystem.createDraft dir)
  | .fillDraft draft bytes next => return next (← FileSystem.fillDraft draft bytes)
  | .persistDraft draft path next => return next (← FileSystem.persistDraft draft path)
  | .dropDraft draft next => do
      FileSystem.dropDraft draft
      return next
  | .fileNames path next => return next (← FileSystem.fileNames path)
  | .makeDirectory path next => return next (← FileSystem.makeDirectory path)

def run : Program Draft α → m α
  | .done result => return result
  | .kind? path next => do run (next (← FileSystem.kind? path))
  | .read path next => do run (next (← FileSystem.read path))
  | .createDraft dir next => do run (next (← FileSystem.createDraft dir))
  | .fillDraft draft bytes next => do run (next (← FileSystem.fillDraft draft bytes))
  | .persistDraft draft path next => do run (next (← FileSystem.persistDraft draft path))
  | .dropDraft draft next => do
      FileSystem.dropDraft draft
      run next
  | .fileNames path next => do run (next (← FileSystem.fileNames path))
  | .makeDirectory path next => do run (next (← FileSystem.makeDirectory path))

end Program

/-- Programs that share a machine, whose state is a `W`. -/
structure Pool (W Draft α : Type) where
  programs : List (Program Draft α)
  world : W

namespace Pool
variable {W Draft α : Type} [FileSystem (StateM W) Draft]

/-- Give a program a turn, if there is one with this number. -/
def turn (pool : Pool W Draft α) (i : Nat) : Pool W Draft α :=
  match pool.programs[i]? with
  | none => pool
  | some program =>
      let (program, world) := (program.turn : StateM W (Program Draft α)).run pool.world
      { programs := pool.programs.set i program, world }

/-- Give the programs turns in the order of a schedule. -/
def follow (pool : Pool W Draft α) (schedule : List Nat) : Pool W Draft α :=
  schedule.foldl turn pool

end Pool
end SpiceDeck
