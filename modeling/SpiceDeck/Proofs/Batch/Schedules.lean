import SpiceDeck.Proofs.Batch.Turns

/-!
Directory conversion under every schedule. The files of a directory are converted by programs
that take turns on one machine. Main statement: whatever the order of the turns, each file
comes out as it does alone, and no temporary file is left, so that the reports and the tree at
the end are always the same, and they are those of the conversion file by file.
-/

namespace SpiceDeck
open Text

namespace Pool

variable {W Draft α : Type} [FileSystem (StateM W) Draft]

theorem turn_middle (before after : List (Program Draft α)) (program : Program Draft α) (w : W) :
    (⟨before ++ program :: after, w⟩ : Pool W Draft α).turn before.length =
      ⟨before ++ ((program.turn : StateM W _).run w).1 :: after,
        ((program.turn : StateM W _).run w).2⟩ := by
  have hprogram : (before ++ program :: after)[before.length]? = some program := by simp
  simp only [turn, hprogram, List.set_append_right _ _ (Nat.le_refl _), Nat.sub_self,
    List.set_cons_zero]
  rfl

/-- Some number of turns brings a program to its result. -/
theorem exists_follow_run (before after : List (Program Draft α)) (program : Program Draft α)
    (w : W) :
    ∃ k, (⟨before ++ program :: after, w⟩ : Pool W Draft α).follow
        (List.replicate k before.length) =
      ⟨before ++ .done ((program.run : StateM W α).run w).1 :: after,
        ((program.run : StateM W α).run w).2⟩ := by
  induction program generalizing w with
  | done result => exact ⟨0, rfl⟩
  | dropDraft draft next ih =>
      obtain ⟨k, hk⟩ := ih _
      refine ⟨k + 1, ?_⟩
      rw [List.replicate_succ, follow, List.foldl_cons, turn_middle]
      exact hk
  | kind? path next ih | read path next ih | createDraft dir next ih
  | fillDraft draft bytes next ih | persistDraft draft path next ih | fileNames path next ih
  | makeDirectory path next ih =>
      obtain ⟨k, hk⟩ := ih _ _
      refine ⟨k + 1, ?_⟩
      rw [List.replicate_succ, follow, List.foldl_cons, turn_middle]
      exact hk

/-- Programs run one after the other follow some schedule. -/
theorem exists_follow_mapM (before programs : List (Program Draft α)) (w : W) :
    ∃ schedule, (⟨before ++ programs, w⟩ : Pool W Draft α).follow schedule =
      ⟨before ++ ((programs.mapM Program.run : StateM W _).run w).1.map .done,
        ((programs.mapM Program.run : StateM W _).run w).2⟩ := by
  induction programs generalizing before w with
  | nil => exact ⟨[], rfl⟩
  | cons program r ih =>
      obtain ⟨k, hk⟩ := exists_follow_run before r program w
      obtain ⟨schedule, hschedule⟩ :=
        ih (before ++ [.done ((program.run : StateM W α).run w).1])
          ((program.run : StateM W α).run w).2
      refine ⟨List.replicate k before.length ++ schedule, ?_⟩
      rw [follow, List.foldl_append]
      rw [follow] at hk
      rw [hk]
      simp only [List.append_assoc, List.singleton_append] at hschedule
      simp only [follow] at hschedule
      rw [hschedule, List.mapM_cons]
      rfl

end Pool

namespace Batch
open SpiceDeck.Tree

variable {W Draft : Type} {tree : W → Tree} {place : Draft → Place} {w₁ : W} {src dest : Place}
  {names : List Text}

/-- The trees at the start and at some moment of a run, with the places of the temporary files
that there are then, each under the number of its file. -/
structure Tidy (names : List Text) (dest : Place) (t u : Tree) (scratch : Nat → Option Place) :
    Prop where
  keeps : t.Keeps u
  others : ∀ q, (∀ name ∈ names, q ≠ dest ++ [name]) → (∀ i, scratch i ≠ some q) →
    u.get? q = t.get? q
  fresh : ∀ i q, scratch i = some q → t.get? q = none ∧ IsScratch names dest q
  present : ∀ i q, scratch i = some q → u.get? q ≠ none
  distinct : ∀ i j q, scratch i = some q → scratch j = some q → i = j

section Tidy

variable {t u v : Tree} {name : Text} {scratch : Nat → Option Place} {i : Nat}
  {after : Option Place}

theorem Tidy.untouched (h : Tidy names dest t u scratch) (hname : name ∈ names)
    (hadvance : Advance names dest name u v (scratch i) after) {j : Nat} (hj : j ≠ i) {q : Place}
    (hq : scratch j = some q) : after ≠ some q ∧ v.get? q = u.get? q := by
  have hbefore : scratch i ≠ some q := fun hsame => hj (h.distinct j i q hq hsame)
  have hafter : after ≠ some q := by
    intro heq
    obtain hsame | ⟨hfree, -⟩ := hadvance.opened q heq
    · exact hbefore hsame
    · exact h.present j q hq hfree
  exact ⟨hafter, hadvance.same q ((h.fresh j q hq).2.ne_target name hname) hbefore hafter⟩

/-- A new temporary file stands where there has been nothing from the start. -/
theorem Tidy.fresh_after (h : Tidy names dest t u scratch)
    (hadvance : Advance names dest name u v (scratch i) after) {q : Place}
    (hq : after = some q) : t.get? q = none ∧ IsScratch names dest q := by
  obtain hsame | ⟨hfree, hscratch⟩ := hadvance.opened q hq
  · exact h.fresh i q hsame
  · have hnew : ∀ j, scratch j ≠ some q := fun j hj => h.present j q hj hfree
    exact ⟨(h.others q hscratch.ne_target hnew).symm.trans hfree, hscratch⟩

theorem Tidy.others_after (h : Tidy names dest t u scratch) (hname : name ∈ names)
    (hadvance : Advance names dest name u v (scratch i) after) {q : Place}
    (hq : ∀ other ∈ names, q ≠ dest ++ [other])
    (hnone : ∀ j, Function.update scratch i after j ≠ some q) : v.get? q = t.get? q := by
  have hafter : after ≠ some q := by
    have hself := hnone i
    rwa [Function.update_self] at hself
  by_cases hbefore : scratch i = some q
  · obtain hsame | hgone := hadvance.closed q hbefore
    · exact absurd hsame hafter
    · exact hgone.trans (h.fresh i q hbefore).1.symm
  · rw [hadvance.same q (hq name hname) hbefore hafter]
    apply h.others q hq
    intro j
    by_cases hj : j = i
    · rw [hj]
      exact hbefore
    · have hother := hnone j
      rwa [Function.update_of_ne hj] at hother

theorem Tidy.distinct_after (h : Tidy names dest t u scratch) (hname : name ∈ names)
    (hadvance : Advance names dest name u v (scratch i) after) {j k : Nat} {q : Place}
    (hj : Function.update scratch i after j = some q)
    (hk : Function.update scratch i after k = some q) : j = k := by
  by_cases hji : j = i <;> by_cases hki : k = i
  · rw [hji, hki]
  · rw [hji, Function.update_self] at hj
    rw [Function.update_of_ne hki] at hk
    exact absurd hj (h.untouched hname hadvance hki hk).1
  · rw [Function.update_of_ne hji] at hj
    rw [hki, Function.update_self] at hk
    exact absurd hk (h.untouched hname hadvance hji hj).1
  · rw [Function.update_of_ne hji] at hj
    rw [Function.update_of_ne hki] at hk
    exact h.distinct j k q hj hk

theorem Tidy.advance (h : Tidy names dest t u scratch) (hname : name ∈ names)
    (hadvance : Advance names dest name u v (scratch i) after)
    (hpresent : ∀ q, after = some q → v.get? q ≠ none) :
    Tidy names dest t v (Function.update scratch i after) := by
  refine ⟨h.keeps.trans hadvance.keeps, fun q => h.others_after hname hadvance, ?_, ?_,
    fun j k q => h.distinct_after hname hadvance⟩
  · intro j q hq
    by_cases hj : j = i
    · rw [hj, Function.update_self] at hq
      exact h.fresh_after hadvance hq
    · rw [Function.update_of_ne hj] at hq
      exact h.fresh j q hq
  · intro j q hq
    by_cases hj : j = i
    · rw [hj, Function.update_self] at hq
      exact hpresent q hq
    · rw [Function.update_of_ne hj] at hq
      rw [(h.untouched hname hadvance hj hq).2]
      exact h.present j q hq

/-- While a file waits to be read, its source is as it was: it is the file's own target or, in
another directory, the target of no file and no temporary file. -/
theorem Tidy.source (h : Tidy names dest t u scratch)
    (htarget : u.get? (dest ++ [name]) = t.get? (dest ++ [name])) :
    u.get? (src ++ [name]) = t.get? (src ++ [name]) := by
  by_cases hplace : src = dest
  · rw [hplace]
    exact htarget
  · apply h.others
    · intro other _ heq
      exact hplace (List.append_inj_left' heq rfl)
    · intro j hj
      have hbeside := (h.fresh j _ hj).2.beside
      rw [List.dropLast_concat] at hbeside
      exact hplace hbeside

end Tidy

variable [FileSystem (StateM W) Draft] {o : Options} {input output : Text}
  {pool : Pool W Draft FileReport} {scratch : Nat → Option Place}

/-- The programs of a directory conversion before their first turn. -/
def tasks (o : Options) (input output : Text) (names : List Text) :
    List (Program Draft FileReport) :=
  names.map (convertEntry o input output)

structure Tracks (tree : W → Tree) (place : Draft → Place) (o : Options) (input output : Text)
    (names : List Text) (dest : Place) (w₁ : W) (scratch : Nat → Option Place)
    (pool : Pool W Draft FileReport) : Prop where
  tidy : Tidy names dest (tree w₁) (tree pool.world) scratch
  length : pool.programs.length = names.length
  progress : ∀ (i : Nat) (name : Text) (program : Program Draft FileReport),
    names[i]? = some name → pool.programs[i]? = some program →
    Progress tree place o input output names dest w₁ pool.world name (scratch i) program
  idle : ∀ i, names.length ≤ i → scratch i = none

theorem tracks_start (tree : W → Tree) (place : Draft → Place) (o : Options)
    (input output : Text) (names : List Text) (dest : Place) (w₁ : W) :
    Tracks tree place o input output names dest w₁ (fun _ => none)
      ⟨tasks o input output names, w₁⟩ := by
  refine ⟨⟨.refl (tree w₁), fun _ _ _ => rfl, nofun, nofun, nofun⟩, by simp [tasks], ?_,
    fun _ _ => rfl⟩
  intro i name program hname hprogram
  simp only [tasks, List.getElem?_map, hname, Option.map_some, Option.some.injEq] at hprogram
  subst hprogram
  exact .waiting rfl

/-- A temporary file is there as long as a file has one. -/
theorem Progress.present {w : W} {name : Text} {place' : Option Place}
    {program : Program Draft FileReport}
    (h : Progress tree place o input output names dest w₁ w name place' program) {q : Place}
    (hq : place' = some q) : (tree w).get? q ≠ none := by
  cases h with
  | waiting | loaded | finished => cases hq
  | created _ _ _ _ hdraft | filled _ _ _ _ _ hdraft | abandoned _ hdraft =>
      cases hq
      rw [hdraft.node]
      exact Option.some_ne_none _

/-- What the others have done so far stands through a turn of one file. -/
theorem Tracks.progress_other
    (h : Tracks tree place o input output names dest w₁ scratch pool) (hdistinct : names.Nodup)
    {i j : Nat} {name other : Text} {w : W} {after : Option Place}
    {program : Program Draft FileReport} (hname : names[i]? = some name)
    (hadvance : Advance names dest name (tree pool.world) (tree w) (scratch i) after)
    (hj : j ≠ i) (hother : names[j]? = some other) (hprogram : pool.programs[j]? = some program) :
    Progress tree place o input output names dest w₁ w other (scratch j) program := by
  have hmem : name ∈ names := List.mem_of_getElem? hname
  have hne : other ≠ name := by
    rintro rfl
    apply hj
    apply (List.getElem?_inj (List.getElem?_eq_some_iff.mp hother).1 hdistinct).mp
    rw [hother, hname]
  apply (h.progress j other program hother hprogram).congr hadvance.keeps
  · apply hadvance.same
    · intro heq
      exact hne (List.singleton_inj.mp (List.append_cancel_left heq))
    · intro heq
      exact (h.tidy.fresh i _ heq).2.ne_target other (List.mem_of_getElem? hother) rfl
    · intro heq
      exact (h.tidy.fresh_after hadvance heq).2.ne_target other (List.mem_of_getElem? hother) rfl
  · intro q hq
    exact (h.tidy.untouched hmem hadvance hj hq).2

theorem Tracks.turn (hm : FileSystem.Documented tree place)
    (hspares : FileSystem.Spares W place names) (hs : Setting (tree w₁) input output src dest)
    (hnames : ∀ name ∈ names, Path.IsName name) (hdistinct : names.Nodup)
    (h : Tracks tree place o input output names dest w₁ scratch pool) (i : Nat) :
    ∃ scratch', Tracks tree place o input output names dest w₁ scratch' (pool.turn i) := by
  cases hprogram : pool.programs[i]? with
  | none =>
      have hpool : pool.turn i = pool := by rw [Pool.turn, hprogram]
      rw [hpool]
      exact ⟨scratch, h⟩
  | some program =>
      have hpool : pool.turn i =
          ⟨pool.programs.set i ((program.turn : StateM W _).run pool.world).1,
            ((program.turn : StateM W _).run pool.world).2⟩ := by
        rw [Pool.turn, hprogram]
        rfl
      have hlt : i < names.length := by
        rw [← h.length]
        exact (List.getElem?_eq_some_iff.mp hprogram).1
      obtain ⟨name, hname⟩ : ∃ name, names[i]? = some name := ⟨names[i], by simp [hlt]⟩
      have hmem : name ∈ names := List.mem_of_getElem? hname
      obtain ⟨after, hnext, hadvance⟩ := (h.progress i name program hname hprogram).turn hm
        hspares hs (hnames name hmem) hmem h.tidy.keeps h.tidy.source
      rw [hpool]
      refine ⟨Function.update scratch i after, h.tidy.advance hmem hadvance fun q => hnext.present,
        by rw [List.length_set, h.length], ?_, ?_⟩
      · intro j other program' hother hprogram'
        by_cases hj : j = i
        · subst hj
          rw [hname] at hother
          cases hother
          rw [List.getElem?_set_self (List.getElem?_eq_some_iff.mp hprogram).1] at hprogram'
          cases hprogram'
          rw [Function.update_self]
          exact hnext
        · rw [List.getElem?_set_ne (Ne.symm hj)] at hprogram'
          rw [Function.update_of_ne hj]
          exact h.progress_other hdistinct hname hadvance hj hother hprogram'
      · intro j hj
        rw [Function.update_of_ne (by omega)]
        exact h.idle j hj

/-- However the turns are taken, each file is as far as it would be alone. -/
theorem Tracks.follow (hm : FileSystem.Documented tree place)
    (hspares : FileSystem.Spares W place names) (hs : Setting (tree w₁) input output src dest)
    (hnames : ∀ name ∈ names, Path.IsName name) (hdistinct : names.Nodup)
    (h : Tracks tree place o input output names dest w₁ scratch pool) (schedule : List Nat) :
    ∃ scratch', Tracks tree place o input output names dest w₁ scratch'
      (pool.follow schedule) := by
  induction schedule generalizing pool scratch with
  | nil => exact ⟨scratch, h⟩
  | cons i r ih =>
      obtain ⟨scratch', h'⟩ := h.turn hm hspares hs hnames hdistinct i
      exact ih h'

/-- The reports of a run at its end, and the tree it leaves, as the files give them alone. -/
structure Ends (tree : W → Tree) (o : Options) (input output : Text) (names : List Text)
    (dest : Place) (w₁ : W) (reports : List FileReport) (w : W) : Prop where
  reports : reports = names.map fun name => (outcome o input output name w₁).1
  targets : ∀ name ∈ names, (tree w).get? (dest ++ [name]) =
    ((outcome o input output name w₁).2.map Node.file).or ((tree w₁).get? (dest ++ [name]))
  others : ∀ q, (∀ name ∈ names, q ≠ dest ++ [name]) → (tree w).get? q = (tree w₁).get? q
  working : (tree w).working = (tree w₁).working

theorem Tracks.ends {reports : List FileReport} {w : W}
    (h : Tracks tree place o input output names dest w₁ scratch ⟨reports.map .done, w⟩) :
    Ends tree o input output names dest w₁ reports w := by
  have hlength : reports.length = names.length := by
    have hprograms := h.length
    rwa [List.length_map] at hprograms
  have hdone : ∀ (i : Nat) (report : FileReport) (name : Text), reports[i]? = some report →
      names[i]? = some name → _ :=
    fun i report name hreport hname =>
      (h.progress i name (.done report) hname (by rw [List.getElem?_map, hreport]; rfl)).done
  have hnone : ∀ i, scratch i = none := by
    intro i
    by_cases hi : i < names.length
    · have hi' : i < reports.length := by omega
      exact (hdone i reports[i] names[i] (by simp [hi']) (by simp [hi])).1
    · exact h.idle i (by omega)
  constructor
  · apply List.ext_getElem (by rw [List.length_map, hlength])
    intro i hi hi'
    rw [List.getElem_map]
    rw [List.length_map] at hi'
    exact (hdone i reports[i] names[i] (by simp [hi]) (by simp [hi'])).2.1
  · intro name hname
    obtain ⟨i, hi⟩ := List.mem_iff_getElem?.mp hname
    have hlt : i < reports.length := by
      rw [hlength]
      exact (List.getElem?_eq_some_iff.mp hi).1
    exact (hdone i reports[i] name (by simp [hlt]) hi).2.2
  · intro q hq
    apply h.tidy.others q hq
    intro i
    rw [hnone i]
    exact nofun
  · exact h.tidy.keeps.working

/-- Every schedule that brings all files to their ends gives what the files give alone. -/
theorem ends_of_follow (hm : FileSystem.Documented tree place)
    (hspares : FileSystem.Spares W place names) (hs : Setting (tree w₁) input output src dest)
    (hnames : ∀ name ∈ names, Path.IsName name) (hdistinct : names.Nodup) {schedule : List Nat}
    {reports : List FileReport} {w : W}
    (h : (⟨tasks o input output names, w₁⟩ : Pool W Draft FileReport).follow schedule =
      ⟨reports.map .done, w⟩) :
    Ends tree o input output names dest w₁ reports w := by
  obtain ⟨scratch, htracks⟩ := (tracks_start tree place o input output names dest w₁).follow hm
    hspares hs hnames hdistinct schedule
  rw [h] at htracks
  exact htracks.ends

/-- The conversion file by file follows one of the schedules. -/
theorem exists_follow_convertEntry (o : Options) (input output : Text) (names : List Text)
    (w : W) :
    ∃ schedule, (⟨tasks o input output names, w⟩ : Pool W Draft FileReport).follow schedule =
      ⟨((names.mapM (convertEntry o input output) : StateM W _).run w).1.map .done,
        ((names.mapM (convertEntry o input output) : StateM W _).run w).2⟩ := by
  have hrun : (tasks o input output names).mapM Program.run =
      (names.mapM (convertEntry o input output) : StateM W _) := by
    rw [tasks, List.mapM_map]
    apply congrArg (List.mapM · names)
    funext name
    exact run_convertEntry o input output name
  rw [← hrun]
  exact Pool.exists_follow_mapM [] (tasks o input output names) w

end Batch
end SpiceDeck
