import SpiceDeck.Proofs.Batch.Entry

/-!
The turns of one file of a directory conversion. Between two turns others may have changed
what they may change: targets and temporary files of their own. Main statement: a turn brings
a file on in step with the file that is converted alone, and changes nothing but its target
and its temporary file.
-/

namespace SpiceDeck
open Text

/-- No temporary file ever gets one of these names. -/
def FileSystem.Spares (W : Type) {Draft : Type} [FileSystem (StateM W) Draft]
    (place : Draft → Place) (names : List Text) : Prop :=
  ∀ {dir : Text} {w w' : W} {draft : Draft},
    (FileSystem.createDraft dir : StateM W _).run w = (.ok draft, w') →
    ∀ name ∈ names, (place draft).getLast? ≠ some name

namespace Batch
open SpiceDeck.Tree

variable {W Draft : Type} {tree : W → Tree} {place : Draft → Place} {name : Text}
  {names : List Text} {src dest : Place} {w₁ w w' : W} {draft : Draft} {bytes part : Bytes}

/-- Both directories of a run are there, at these places. -/
structure Setting (t : Tree) (input output : Text) (src dest : Place) : Prop where
  input : t.LeadsTo input src
  output : t.LeadsTo output dest

/-- A place for a temporary file: in the directory of the targets, but not that of a target. -/
structure IsScratch (names : List Text) (dest q : Place) : Prop where
  beside : q.dropLast = dest
  ne_target : ∀ name ∈ names, q ≠ dest ++ [name]

/-- A file has a temporary file with this content; its target is as it was. -/
structure Drafted (tree : W → Tree) (place : Draft → Place) (names : List Text) (dest : Place)
    (w₁ : W) (name : Text) (w : W) (draft : Draft) (bytes : Bytes) : Prop where
  keeps : (tree w₁).Keeps (tree w)
  target : (tree w).get? (dest ++ [name]) = (tree w₁).get? (dest ++ [name])
  node : (tree w).get? (place draft) = some (.file bytes)
  scratch : IsScratch names dest (place draft)

/-- What a turn of a file may change: its target and its temporary file, which is new or goes
away again. -/
structure Advance (names : List Text) (dest : Place) (name : Text) (t u : Tree)
    (before after : Option Place) : Prop where
  keeps : t.Keeps u
  same : ∀ q, q ≠ dest ++ [name] → before ≠ some q → after ≠ some q → u.get? q = t.get? q
  opened : ∀ q, after = some q →
    before = some q ∨ t.get? q = none ∧ IsScratch names dest q
  closed : ∀ q, before = some q → after = some q ∨ u.get? q = none

theorem Advance.of_eq {t u : Tree} {scratch : Option Place} (h : u = t) :
    Advance names dest name t u scratch scratch := by
  subst h
  exact ⟨.refl u, fun _ _ _ _ => rfl, fun _ hq => .inl hq, fun _ hq => .inl hq⟩

theorem Drafted.congr (h : Drafted tree place names dest w₁ name w draft bytes)
    (hkeeps : (tree w).Keeps (tree w'))
    (htarget : (tree w').get? (dest ++ [name]) = (tree w).get? (dest ++ [name]))
    (hnode : (tree w').get? (place draft) = (tree w).get? (place draft)) :
    Drafted tree place names dest w₁ name w' draft bytes :=
  ⟨h.keeps.trans hkeeps, htarget.trans h.target, hnode.trans h.node, h.scratch⟩

/-- A temporary file with another content. -/
theorem Drafted.becomes (h : Drafted tree place names dest w₁ name w draft bytes)
    (hname : name ∈ names)
    (hbecomes : (tree w).Becomes (place draft) (some (.file part)) (tree w')) :
    Drafted tree place names dest w₁ name w' draft part ∧
      Advance names dest name (tree w) (tree w') (some (place draft)) (some (place draft)) := by
  have hkeeps := hbecomes.keeps (isDirectory_of_file h.node)
  constructor
  · refine ⟨h.keeps.trans hkeeps, ?_, ?_, h.scratch⟩
    · rw [hbecomes.get?, if_neg (h.scratch.ne_target name hname).symm, h.target]
    · rw [hbecomes.get?, if_pos rfl]
  · refine ⟨hkeeps, ?_, fun _ hq => .inl hq, fun _ hq => .inl hq⟩
    intro q _ hq _
    rw [hbecomes.get?, if_neg fun heq => hq (congrArg some heq.symm)]

variable [FileSystem (StateM W) Draft] {o : Options} {input output : Text}

/-- How far the conversion of a file has come in a world, for a run that started in another,
and where its temporary file is, if it has one. Each request has been answered as it would be
if the file were converted alone. -/
inductive Progress (tree : W → Tree) (place : Draft → Place) (o : Options) (input output : Text)
    (names : List Text) (dest : Place) (w₁ w : W) (name : Text) :
    Option Place → Program Draft FileReport → Prop
  | waiting (htarget : (tree w).get? (dest ++ [name]) = (tree w₁).get? (dest ++ [name])) :
      Progress tree place o input output names dest w₁ w name none
        (convertEntry o input output name)
  | loaded {bytes : Bytes} (hskip : isSkipped o input name = false)
      (hread : ((FileSystem.read (Path.child input name) : StateM W _).run w₁).1 = .ok bytes)
      (htarget : (tree w).get? (dest ++ [name]) = (tree w₁).get? (dest ++ [name])) :
      Progress tree place o input output names dest w₁ w name none
        (afterRead o input output name (.ok bytes))
  | created {bytes : Bytes} {draft draft' : Draft} {v : W}
      (hskip : isSkipped o input name = false)
      (hread : ((FileSystem.read (Path.child input name) : StateM W _).run w₁).1 = .ok bytes)
      (hcreate : (FileSystem.createDraft (draftDirectory (Path.child output name)) :
        StateM W _).run w₁ = (.ok draft', v))
      (halone : Drafted tree place names dest w₁ name v draft' [])
      (hdraft : Drafted tree place names dest w₁ name w draft []) :
      Progress tree place o input output names dest w₁ w name (some (place draft))
        (afterCreate o input output name bytes (.ok draft))
  | filled {bytes : Bytes} {draft draft' : Draft} {v x : W}
      (hskip : isSkipped o input name = false)
      (hread : ((FileSystem.read (Path.child input name) : StateM W _).run w₁).1 = .ok bytes)
      (hcreate : (FileSystem.createDraft (draftDirectory (Path.child output name)) :
        StateM W _).run w₁ = (.ok draft', v))
      (hfill : (FileSystem.fillDraft draft' (entryContent o input name bytes) :
        StateM W _).run v = (.ok (), x))
      (halone : Drafted tree place names dest w₁ name x draft' (entryContent o input name bytes))
      (hdraft : Drafted tree place names dest w₁ name w draft
        (entryContent o input name bytes)) :
      Progress tree place o input output names dest w₁ w name (some (place draft))
        (afterFill o input output name bytes draft (.ok ()))
  | abandoned {bytes : Bytes} {draft : Draft} {report : FileReport}
      (houtcome : outcome o input output name w₁ = (report, none))
      (hdraft : Drafted tree place names dest w₁ name w draft bytes) :
      Progress tree place o input output names dest w₁ w name (some (place draft))
        (.dropDraft draft (.done report))
  | finished {report : FileReport} {content : Option Bytes}
      (houtcome : outcome o input output name w₁ = (report, content))
      (htarget : (tree w).get? (dest ++ [name]) =
        (content.map Node.file).or ((tree w₁).get? (dest ++ [name]))) :
      Progress tree place o input output names dest w₁ w name none (.done report)

/-- The progress of a file stands what other files do. -/
theorem Progress.congr {scratch : Option Place} {program : Program Draft FileReport}
    (h : Progress tree place o input output names dest w₁ w name scratch program)
    (hkeeps : (tree w).Keeps (tree w'))
    (htarget : (tree w').get? (dest ++ [name]) = (tree w).get? (dest ++ [name]))
    (hscratch : ∀ q, scratch = some q → (tree w').get? q = (tree w).get? q) :
    Progress tree place o input output names dest w₁ w' name scratch program := by
  cases h with
  | waiting hsame => exact .waiting (htarget.trans hsame)
  | loaded hskip hread hsame => exact .loaded hskip hread (htarget.trans hsame)
  | created hskip hread hcreate halone hdraft =>
      exact .created hskip hread hcreate halone (hdraft.congr hkeeps htarget (hscratch _ rfl))
  | filled hskip hread hcreate hfill halone hdraft =>
      exact .filled hskip hread hcreate hfill halone (hdraft.congr hkeeps htarget (hscratch _ rfl))
  | abandoned houtcome hdraft =>
      exact .abandoned houtcome (hdraft.congr hkeeps htarget (hscratch _ rfl))
  | finished houtcome hsame => exact .finished houtcome (htarget.trans hsame)

/-- A program that has come to its result has the result of the file alone, and no temporary
file. -/
theorem Progress.done {scratch : Option Place} {report : FileReport}
    (h : Progress tree place o input output names dest w₁ w name scratch (.done report)) :
    scratch = none ∧ report = (outcome o input output name w₁).1 ∧
      (tree w).get? (dest ++ [name]) =
        ((outcome o input output name w₁).2.map Node.file).or
          ((tree w₁).get? (dest ++ [name])) := by
  generalize hprogram : Program.done report = program at h
  cases h with
  | waiting htarget =>
      rw [convertEntry_program] at hprogram
      rw [outcome]
      split at hprogram
      · next hskip =>
          cases hprogram
          rw [if_pos hskip]
          exact ⟨rfl, rfl, htarget⟩
      · cases hprogram
  | loaded | created | filled | abandoned => cases hprogram
  | finished houtcome htarget =>
      cases hprogram
      rw [houtcome]
      exact ⟨rfl, rfl, htarget⟩

theorem drafted_of_createDraft (hm : FileSystem.Documented tree place)
    (hspares : FileSystem.Spares W place names) (hs : Setting (tree w₁) input output src dest)
    (hn : Path.IsName name) (hname : name ∈ names) (hkeeps : (tree w₁).Keeps (tree w))
    (htarget : (tree w).get? (dest ++ [name]) = (tree w₁).get? (dest ++ [name]))
    (h : (FileSystem.createDraft (draftDirectory (Path.child output name)) : StateM W _).run w =
      (.ok draft, w')) :
    Drafted tree place names dest w₁ name w' draft [] ∧
      Advance names dest name (tree w) (tree w') none (some (place draft)) := by
  obtain ⟨p, scratch, hp, hplace, hfree, hbecomes⟩ := hm.createDraft h
  have hdest : p = dest := hp.eq (leadsTo_draftDirectory (hkeeps.leadsTo hs.output) hn)
  have hscratch : IsScratch names dest (place draft) := by
    constructor
    · rw [hplace, List.dropLast_concat, hdest]
    · intro other hother heq
      apply hspares h other hother
      rw [heq, List.getLast?_concat]
  have hnew := hbecomes.keeps (by rw [isDirectory, hfree]; rfl)
  constructor
  · refine ⟨hkeeps.trans hnew, ?_, ?_, hscratch⟩
    · rw [hbecomes.get?, if_neg (hscratch.ne_target name hname).symm, htarget]
    · rw [hbecomes.get?, if_pos rfl]
  · refine ⟨hnew, ?_, ?_, by simp⟩
    · intro q _ _ hq
      rw [hbecomes.get?, if_neg fun heq => hq (congrArg some heq.symm)]
    · intro q hq
      cases hq
      exact .inr ⟨hfree, hscratch⟩

theorem Drafted.drop (hm : FileSystem.Documented tree place)
    (h : Drafted tree place names dest w₁ name w draft bytes) (hname : name ∈ names)
    (hdrop : (FileSystem.dropDraft draft : StateM W _).run w = ((), w')) :
    (tree w').get? (dest ++ [name]) = (tree w₁).get? (dest ++ [name]) ∧
      Advance names dest name (tree w) (tree w') (some (place draft)) none := by
  have hbecomes := hm.dropDraft h.node
  rw [hdrop] at hbecomes
  constructor
  · rw [hbecomes.get?, if_neg (h.scratch.ne_target name hname).symm, h.target]
  · refine ⟨hbecomes.keeps (isDirectory_of_file h.node), ?_, nofun, ?_⟩
    · intro q _ hq _
      rw [hbecomes.get?, if_neg fun heq => hq (congrArg some heq.symm)]
    · intro q hq
      cases hq
      right
      rw [hbecomes.get?, if_pos rfl]

theorem Drafted.persist (hm : FileSystem.Documented tree place)
    (hs : Setting (tree w₁) input output src dest) (hn : Path.IsName name) (hname : name ∈ names)
    (h : Drafted tree place names dest w₁ name w draft bytes)
    (hpersist : (FileSystem.persistDraft draft (Path.child output name) : StateM W _).run w =
      (.ok (), w')) :
    (tree w').get? (dest ++ [name]) = some (.file bytes) ∧
      Advance names dest name (tree w) (tree w') (some (place draft)) none := by
  obtain ⟨q, hq, hdir, hmoves⟩ := hm.persistDraft h.node hpersist
  rw [(h.keeps.leadsTo hs.output).resolve_child hn] at hq
  obtain rfl := placed_ok hq
  constructor
  · rw [hmoves.get?, if_pos rfl]
  · refine ⟨hmoves.keeps (isDirectory_of_file h.node) hdir, ?_, nofun, ?_⟩
    · intro x hx hdraft _
      rw [hmoves.get?, if_neg hx, if_neg fun heq => hdraft (congrArg some heq.symm)]
    · intro x hx
      cases hx
      right
      rw [hmoves.get?, if_neg (h.scratch.ne_target name hname), if_pos rfl]

/-- What a turn leaves: a program that is as far as the file alone would be. -/
def Follows (tree : W → Tree) (place : Draft → Place) (o : Options) (input output : Text)
    (names : List Text) (dest : Place) (w₁ w : W) (name : Text) (before : Option Place)
    (next : Program Draft FileReport × W) : Prop :=
  ∃ after, Progress tree place o input output names dest w₁ next.2 name after next.1 ∧
    Advance names dest name (tree w) (tree next.2) before after

section Turn

variable {draft' : Draft} {v x : W}

theorem follows_waiting (hm : FileSystem.Documented tree place)
    (hs : Setting (tree w₁) input output src dest) (hn : Path.IsName name)
    (hkeeps : (tree w₁).Keeps (tree w))
    (htarget : (tree w).get? (dest ++ [name]) = (tree w₁).get? (dest ++ [name]))
    (hsource : (tree w).get? (src ++ [name]) = (tree w₁).get? (src ++ [name])) :
    Follows tree place o input output names dest w₁ w name none
      ((Program.turn (convertEntry o input output name) : StateM W _).run w) := by
  rw [convertEntry_program]
  by_cases hskip : isSkipped o input name = true
  · rw [if_pos hskip]
    exact ⟨none, .finished (outcome_skipped output hskip) htarget, .of_eq rfl⟩
  · rw [if_neg hskip]
    have hskip : isSkipped o input name = false := by simpa using hskip
    have hsame := hm.read_same (hs.input.find_child hn hkeeps hsource)
    cases hread : (FileSystem.read (Path.child input name) : StateM W _).run w with
    | mk answer w' =>
        obtain ⟨htree, -⟩ := hm.read hread
        rw [hread] at hsame
        simp only [Program.turn, run_bind, hread, run_pure]
        refine ⟨none, ?_, .of_eq htree⟩
        cases answer with
        | error refusal =>
            refine .finished (outcome_unread output hskip hsame.symm) ?_
            rw [htree, htarget]
            rfl
        | ok bytes => exact .loaded hskip hsame.symm (by rw [htree, htarget])

theorem follows_loaded (hm : FileSystem.Documented tree place)
    (hspares : FileSystem.Spares W place names) (hs : Setting (tree w₁) input output src dest)
    (hn : Path.IsName name) (hname : name ∈ names) (hkeeps : (tree w₁).Keeps (tree w))
    (hskip : isSkipped o input name = false)
    (hread : ((FileSystem.read (Path.child input name) : StateM W _).run w₁).1 = .ok bytes)
    (htarget : (tree w).get? (dest ++ [name]) = (tree w₁).get? (dest ++ [name])) :
    Follows tree place o input output names dest w₁ w name none
      ((Program.turn (afterRead o input output name (.ok bytes)) : StateM W _).run w) := by
  have hsame := hm.createDraft_same hkeeps (leadsTo_draftDirectory hs.output hn)
  cases hcreate : (FileSystem.createDraft (draftDirectory (Path.child output name)) :
      StateM W _).run w with
  | mk answer w' =>
      cases hcreate' : (FileSystem.createDraft (draftDirectory (Path.child output name)) :
          StateM W _).run w₁ with
      | mk answer' v =>
          rw [hcreate, hcreate'] at hsame
          simp only [afterRead, Program.turn, run_bind, hcreate, run_pure]
          cases answer with
          | ok draft =>
              cases answer' with
              | error refusal => cases hsame
              | ok draft' =>
                  obtain ⟨halone, -⟩ := drafted_of_createDraft hm hspares hs hn hname
                    (.refl (tree w₁)) rfl hcreate'
                  obtain ⟨hdraft, hadvance⟩ := drafted_of_createDraft hm hspares hs hn hname
                    hkeeps htarget hcreate
                  exact ⟨_, .created hskip hread hcreate' halone hdraft, hadvance⟩
          | error refusal =>
              cases answer' with
              | ok draft' => cases hsame
              | error refusal' =>
                  cases hsame
                  have htree := hm.createDraft hcreate
                  simp only at htree
                  have houtcome := outcome_read output hskip hread
                  rw [run_write_uncreated hcreate'] at houtcome
                  refine ⟨none, .finished houtcome ?_, .of_eq htree⟩
                  rw [htree, htarget]
                  rfl

theorem follows_created (hm : FileSystem.Documented tree place) (hname : name ∈ names)
    (hskip : isSkipped o input name = false)
    (hread : ((FileSystem.read (Path.child input name) : StateM W _).run w₁).1 = .ok bytes)
    (hcreate : (FileSystem.createDraft (draftDirectory (Path.child output name)) :
      StateM W _).run w₁ = (.ok draft', v))
    (halone : Drafted tree place names dest w₁ name v draft' [])
    (hdraft : Drafted tree place names dest w₁ name w draft []) :
    Follows tree place o input output names dest w₁ w name (some (place draft))
      ((Program.turn (afterCreate o input output name bytes (.ok draft)) : StateM W _).run w) := by
  have hsame : ((FileSystem.fillDraft draft (entryContent o input name bytes) :
      StateM W _).run w).1 = ((FileSystem.fillDraft draft' (entryContent o input name bytes) :
      StateM W _).run v).1 :=
    hm.fillDraft_same hdraft.node halone.node
      (hdraft.scratch.beside.trans halone.scratch.beside.symm)
  cases hfill : (FileSystem.fillDraft draft (entryContent o input name bytes) :
      StateM W _).run w with
  | mk answer w' =>
      cases hfill' : (FileSystem.fillDraft draft' (entryContent o input name bytes) :
          StateM W _).run v with
      | mk answer' x =>
          rw [hfill, hfill'] at hsame
          simp only at hsame
          subst hsame
          have hbecomes := hm.fillDraft hdraft.node hfill
          simp only [afterCreate, Program.turn, run_bind, hfill, run_pure]
          cases answer with
          | ok done =>
              obtain ⟨halone', -⟩ := halone.becomes hname (hm.fillDraft halone.node hfill')
              obtain ⟨hdraft', hadvance⟩ := hdraft.becomes hname hbecomes
              exact ⟨_, .filled hskip hread hcreate hfill' halone' hdraft', hadvance⟩
          | error refusal =>
              obtain ⟨part, hpart⟩ := hbecomes
              obtain ⟨hdraft', hadvance⟩ := hdraft.becomes hname hpart
              have houtcome := outcome_read output hskip hread
              rw [run_write_unfilled hcreate hfill'] at houtcome
              exact ⟨_, .abandoned houtcome hdraft', hadvance⟩

theorem follows_filled (hm : FileSystem.Documented tree place)
    (hs : Setting (tree w₁) input output src dest) (hn : Path.IsName name) (hname : name ∈ names)
    (hskip : isSkipped o input name = false)
    (hread : ((FileSystem.read (Path.child input name) : StateM W _).run w₁).1 = .ok bytes)
    (hcreate : (FileSystem.createDraft (draftDirectory (Path.child output name)) :
      StateM W _).run w₁ = (.ok draft', v))
    (hfill : (FileSystem.fillDraft draft' (entryContent o input name bytes) :
      StateM W _).run v = (.ok (), x))
    (halone : Drafted tree place names dest w₁ name x draft' (entryContent o input name bytes))
    (hdraft : Drafted tree place names dest w₁ name w draft (entryContent o input name bytes)) :
    Follows tree place o input output names dest w₁ w name (some (place draft))
      ((Program.turn (afterFill o input output name bytes draft (.ok ())) :
        StateM W _).run w) := by
  have hresolve : (tree w).resolve (Path.child output name) =
      (tree x).resolve (Path.child output name) := by
    rw [(hdraft.keeps.leadsTo hs.output).resolve_child hn,
      (halone.keeps.leadsTo hs.output).resolve_child hn]
  have hfind : (tree w).find (Path.child output name) = (tree x).find (Path.child output name) :=
    (hs.output.find_child hn hdraft.keeps hdraft.target).trans
      (hs.output.find_child hn halone.keeps halone.target).symm
  have hsame := hm.persistDraft_same hdraft.node halone.node
    (hdraft.scratch.beside.trans halone.scratch.beside.symm) hresolve hfind
  have houtcome := outcome_read output hskip hread
  rw [run_write_filled hcreate hfill, ← hsame] at houtcome
  cases hpersist : (FileSystem.persistDraft draft (Path.child output name) :
      StateM W _).run w with
  | mk answer w' =>
      rw [hpersist] at houtcome
      simp only [afterFill, Program.turn, run_bind, hpersist, run_pure]
      cases answer with
      | ok done =>
          obtain ⟨htarget, hadvance⟩ := hdraft.persist hm hs hn hname hpersist
          refine ⟨none, .finished houtcome ?_, hadvance⟩
          rw [htarget]
          rfl
      | error refusal =>
          have htree := hm.persistDraft hdraft.node hpersist
          simp only at htree
          refine ⟨_, .abandoned houtcome (hdraft.congr ?_ ?_ ?_), .of_eq htree⟩
          · rw [htree]
            exact .refl _
          · rw [htree]
          · rw [htree]

theorem follows_abandoned (hm : FileSystem.Documented tree place) (hname : name ∈ names)
    {report : FileReport} (houtcome : outcome o input output name w₁ = (report, none))
    (hdraft : Drafted tree place names dest w₁ name w draft bytes) :
    Follows tree place o input output names dest w₁ w name (some (place draft))
      ((Program.turn (.dropDraft draft (.done report)) : StateM W _).run w) := by
  cases hdrop : (FileSystem.dropDraft draft : StateM W _).run w with
  | mk answer w' =>
      obtain ⟨htarget, hadvance⟩ := hdraft.drop hm hname hdrop
      simp only [Program.turn, run_bind, hdrop, run_pure]
      exact ⟨none, .finished houtcome htarget, hadvance⟩

/-- A turn brings a file on and changes nothing but its target and its temporary file. -/
theorem Progress.turn (hm : FileSystem.Documented tree place)
    (hspares : FileSystem.Spares W place names) (hs : Setting (tree w₁) input output src dest)
    (hn : Path.IsName name) (hname : name ∈ names) (hkeeps : (tree w₁).Keeps (tree w))
    (hsource : (tree w).get? (dest ++ [name]) = (tree w₁).get? (dest ++ [name]) →
      (tree w).get? (src ++ [name]) = (tree w₁).get? (src ++ [name]))
    {scratch : Option Place} {program : Program Draft FileReport}
    (h : Progress tree place o input output names dest w₁ w name scratch program) :
    Follows tree place o input output names dest w₁ w name scratch
      ((program.turn : StateM W _).run w) := by
  cases h with
  | waiting htarget => exact follows_waiting hm hs hn hkeeps htarget (hsource htarget)
  | loaded hskip hread htarget =>
      exact follows_loaded hm hspares hs hn hname hkeeps hskip hread htarget
  | created hskip hread hcreate halone hdraft =>
      exact follows_created hm hname hskip hread hcreate halone hdraft
  | filled hskip hread hcreate hfill halone hdraft =>
      exact follows_filled hm hs hn hname hskip hread hcreate hfill halone hdraft
  | abandoned houtcome hdraft => exact follows_abandoned hm hname houtcome hdraft
  | finished houtcome htarget => exact ⟨none, .finished houtcome htarget, .of_eq rfl⟩

end Turn

end Batch
end SpiceDeck
