import SpiceDeck.Files.Program
import SpiceDeck.Proofs.Files.Creation

/-!
One file of a directory conversion. What happens to it depends on the tree only by the nodes
at its own source and target, and it changes the tree at its target and at its temporary file
alone. So a file that is converted while others are being converted, too, comes out as it
does alone.
-/

namespace SpiceDeck
open Text

namespace Tree

variable {t u : Tree} {dir name : Text} {p q : Place}

theorem LeadsTo.eq (h : t.LeadsTo dir p) (h' : t.LeadsTo dir q) : p = q :=
  Except.ok.inj (h.walk.symm.trans h'.walk)

theorem LeadsTo.find_child (h : t.LeadsTo dir p) (hn : Path.IsName name) (hkeeps : t.Keeps u)
    (hsame : u.get? (p ++ [name]) = t.get? (p ++ [name])) :
    u.find (Path.child dir name) = t.find (Path.child dir name) := by
  simp only [find, h.resolve_child hn, (hkeeps.leadsTo h).resolve_child hn]
  cases hp : placed (Path.child dir name) name p with
  | error refusal => rfl
  | ok q => simp only [bind, Except.bind, placed_ok hp, hsame]

end Tree

namespace Batch
open SpiceDeck.Tree

variable {W Draft : Type} [FileSystem (StateM W) Draft] {tree : W → Tree} {place : Draft → Place}

theorem leadsTo_draftDirectory {t : Tree} {dir name : Text} {p : Place} (h : t.LeadsTo dir p)
    (hn : Path.IsName name) : t.LeadsTo (draftDirectory (Path.child dir name)) p := by
  have hparent := h.parent_child hn
  rw [draftDirectory]
  split
  · next hempty =>
      rw [List.isEmpty_iff.mp hempty] at hparent
      have hp : p = t.start ['.'] := (Except.ok.inj hparent.walk).symm
      refine ⟨?_, hparent.directory⟩
      rw [← hp]
      exact walk_of_isVoid (by decide) hparent.directory
  · exact hparent

section Write

variable {path content : Text} {w v x y : W} {draft : Draft} {refusal : Refusal}

theorem run_write_uncreated
    (h : (FileSystem.createDraft (draftDirectory path) : StateM W _).run w = (.error refusal, v)) :
    (write path content : StateM W _).run w = (.error (.write path refusal), v) := by
  rw [write, run_bind, h]
  rfl

theorem run_write_unfilled
    (h : (FileSystem.createDraft (draftDirectory path) : StateM W _).run w = (.ok draft, v))
    (hfill : (FileSystem.fillDraft draft (Utf8.encode content) : StateM W _).run v =
      (.error refusal, x)) :
    ((write path content : StateM W _).run w).1 = .error (.write path refusal) := by
  rw [write, run_bind, h]
  simp only [run_bind, hfill]
  rfl

theorem run_write_filled
    (h : (FileSystem.createDraft (draftDirectory path) : StateM W _).run w = (.ok draft, v))
    (hfill : (FileSystem.fillDraft draft (Utf8.encode content) : StateM W _).run v = (.ok (), x)) :
    ((write path content : StateM W _).run w).1 =
      match ((FileSystem.persistDraft draft path : StateM W _).run x).1 with
      | .ok () => .ok ()
      | .error refusal => .error (.write path refusal) := by
  rw [write, run_bind, h]
  simp only [run_bind, hfill]
  cases (FileSystem.persistDraft draft path : StateM W _).run x with
  | mk answer y =>
      cases answer with
      | error refusal | ok done => rfl

end Write

variable (o : Options) (input output name : Text)

def isSkipped : Bool := (Path.extension? (Path.child input name)).any o.skipsExtension

/-- The conversion of one file of a directory, from its content before the run. -/
def entryConversion (bytes : Bytes) : Conversion :=
  Conversion.ofFile o (Path.child input name) (Utf8.decodeLossy bytes)

def entryFailure (e : FileError) : FileReport :=
  { source := Path.child input name, outcome := .failed e.message }

def entrySuccess (bytes : Bytes) : FileReport :=
  { source := Path.child input name
    outcome := .converted (Path.child output name) (entryConversion o input name bytes).warnings }

def entryContent (bytes : Bytes) : Bytes :=
  Utf8.encode (entryConversion o input name bytes).content

def unwritten (refusal : Refusal) : FileReport :=
  entryFailure input name (.write (Path.child output name) refusal)

def afterPersist (bytes : Bytes) (draft : Draft) :
    Except Refusal Unit → Program Draft FileReport
  | .ok () => .done (entrySuccess o input output name bytes)
  | .error refusal => .dropDraft draft (.done (unwritten input output name refusal))

def afterFill (bytes : Bytes) (draft : Draft) : Except Refusal Unit → Program Draft FileReport
  | .ok () =>
      .persistDraft draft (Path.child output name) (afterPersist o input output name bytes draft)
  | .error refusal => .dropDraft draft (.done (unwritten input output name refusal))

def afterCreate (bytes : Bytes) : Except Refusal Draft → Program Draft FileReport
  | .ok draft =>
      .fillDraft draft (entryContent o input name bytes)
        (afterFill o input output name bytes draft)
  | .error refusal => .done (unwritten input output name refusal)

def afterRead : Except Refusal Bytes → Program Draft FileReport
  | .ok bytes =>
      .createDraft (draftDirectory (Path.child output name))
        (afterCreate o input output name bytes)
  | .error refusal => .done (entryFailure input name (.read (Path.child input name) refusal))

theorem convertEntry_program :
    (convertEntry o input output name : Program Draft FileReport) =
      if isSkipped o input name then
        .done { source := Path.child input name, outcome := .skipped }
      else .read (Path.child input name) (afterRead o input output name) := by
  by_cases hskip : isSkipped o input name = true
  · rw [if_pos hskip]
    simp only [isSkipped] at hskip
    simp only [convertEntry, hskip, if_true]
    rfl
  · rw [if_neg hskip]
    simp only [isSkipped] at hskip
    simp only [convertEntry, hskip, convertFile, write, bind, Program.bind, FileSystem.read]
    refine congrArg (Program.read _) ?_
    funext answer
    cases answer with
    | error refusal => rfl
    | ok bytes =>
        simp only [afterRead, Program.bind, FileSystem.createDraft]
        refine congrArg (Program.createDraft _) ?_
        funext answer
        cases answer with
        | error refusal => rfl
        | ok draft =>
            simp only [afterCreate, Program.bind, FileSystem.fillDraft]
            refine congrArg (Program.fillDraft _ _) ?_
            funext answer
            cases answer with
            | error refusal => rfl
            | ok done =>
                simp only [afterFill, Program.bind, FileSystem.persistDraft]
                refine congrArg (Program.persistDraft _ _) ?_
                funext answer
                cases answer with
                | error refusal | ok done => rfl

/-- The operations of a conversion, done one after the other, are that conversion. -/
theorem run_convertEntry :
    (convertEntry o input output name : Program Draft FileReport).run =
      (convertEntry o input output name : StateM W FileReport) := by
  rw [convertEntry_program]
  by_cases hskip : isSkipped o input name = true
  · rw [if_pos hskip]
    simp only [isSkipped] at hskip
    simp only [convertEntry, hskip, if_true]
    rfl
  · rw [if_neg hskip]
    simp only [isSkipped] at hskip
    simp only [convertEntry, hskip, Program.run, convertFile, bind_assoc]
    apply congrArg
    funext answer
    cases answer with
    | error refusal => rfl
    | ok bytes =>
        simp only [afterRead, Program.run, write, bind_assoc]
        apply congrArg
        funext answer
        cases answer with
        | error refusal => rfl
        | ok draft =>
            simp only [afterCreate, Program.run, bind_assoc]
            apply congrArg
            funext answer
            cases answer with
            | error refusal => rfl
            | ok done =>
                simp only [afterFill, Program.run, bind_assoc]
                apply congrArg
                funext answer
                cases answer with
                | error refusal | ok done => rfl

/-- What becomes of a file if its operations are answered as they are in a world: its report
and, if it is converted, the new content of its target. -/
def outcome (w : W) : FileReport × Option Bytes :=
  if isSkipped o input name then ({ source := Path.child input name, outcome := .skipped }, none)
  else match ((FileSystem.read (Path.child input name) : StateM W _).run w).1 with
    | .error refusal => (entryFailure input name (.read (Path.child input name) refusal), none)
    | .ok bytes =>
        match ((write (Path.child output name) (entryConversion o input name bytes).content :
            StateM W _).run w).1 with
        | .ok () => (entrySuccess o input output name bytes, some (entryContent o input name bytes))
        | .error e => (entryFailure input name e, none)

variable {o input name}

theorem outcome_skipped {w : W} (hskip : isSkipped o input name = true) :
    outcome o input output name w =
      ({ source := Path.child input name, outcome := .skipped }, none) := by
  rw [outcome, if_pos hskip]

theorem outcome_unread {w : W} {refusal : Refusal} (hskip : isSkipped o input name = false)
    (hread : ((FileSystem.read (Path.child input name) : StateM W _).run w).1 = .error refusal) :
    outcome o input output name w =
      (entryFailure input name (.read (Path.child input name) refusal), none) := by
  simp only [outcome, hskip, hread, Bool.false_eq_true, if_false]

theorem outcome_read {w : W} {bytes : Bytes} (hskip : isSkipped o input name = false)
    (hread : ((FileSystem.read (Path.child input name) : StateM W _).run w).1 = .ok bytes) :
    outcome o input output name w =
      match ((write (Path.child output name) (entryConversion o input name bytes).content :
          StateM W _).run w).1 with
      | .ok () => (entrySuccess o input output name bytes, some (entryContent o input name bytes))
      | .error e => (entryFailure input name e, none) := by
  simp only [outcome, hskip, hread, Bool.false_eq_true, if_false]

end Batch
end SpiceDeck
