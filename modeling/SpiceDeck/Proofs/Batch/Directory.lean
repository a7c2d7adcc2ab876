import Mathlib.Data.List.Nodup
import SpiceDeck.Proofs.Batch.Schedules

/-!
What the conversion of a directory does on any machine that does what is documented, where
the temporary files get names that no file of the directory has. Main statement: the reports
are those of the regular files directly in the directory, in the order of their paths; each
target holds the conversion of its source as it was before the run, or is as it was; nothing
else changes but that the output directory and its parents are there; and all of it is the
same for every order in which the operations on the files are done.
-/

namespace SpiceDeck
open Text

namespace Tree

variable {t : Tree} {dir name path : Text} {p : Place} {names : List Text}

/-- A regular file directly in a directory: it stands there, and its path leads to it. -/
structure HasFile (t : Tree) (dir : Text) (p : Place) (name : Text) (bytes : Bytes) : Prop where
  node : t.get? (p ++ [name]) = some (.file bytes)
  path : t.isFile (Path.child dir name) = true

theorem get?_of_mem_nodes {n : Node} (ht : t.IsSound) (hp : p ≠ []) (h : (p, n) ∈ t.nodes) :
    t.get? p = some n := by
  simp only [get?, List.isEmpty_iff, hp, if_false]
  have hdistinct := ht.distinct
  generalize t.nodes = nodes at h hdistinct
  induction nodes with
  | nil => cases h
  | cons node r ih =>
      rw [List.map_cons, List.nodup_cons] at hdistinct
      obtain rfl | h := List.mem_cons.mp h
      · exact List.lookup_cons_self
      · have hne : p ≠ node.1 := by
          rintro rfl
          exact hdistinct.1 (List.mem_map.mpr ⟨_, h, rfl⟩)
        rw [List.lookup_cons, beq_false_of_ne hne]
        exact ih h hdistinct.2

/-- A node whose name is listed is a file directly in the directory. -/
theorem eq_of_listed {node : Place × Node} (h : (match node with
      | (q, .file _) => if q.dropLast = p then q.getLast? else none
      | (_, .directory) => none) = some name) :
    ∃ bytes, node = (p ++ [name], .file bytes) := by
  obtain ⟨q, n⟩ := node
  cases n with
  | directory => cases h
  | file bytes =>
      simp only at h
      split at h
      · next hq =>
          obtain ⟨l, rfl⟩ := List.getLast?_eq_some_iff.mp h
          rw [List.dropLast_concat] at hq
          exact ⟨bytes, by rw [hq]⟩
      · cases h

theorem mem_fileNames (ht : t.IsSound) :
    name ∈ t.fileNames p ↔ ∃ bytes, t.get? (p ++ [name]) = some (.file bytes) := by
  simp only [fileNames, List.mem_filterMap]
  constructor
  · rintro ⟨node, hmem, hname⟩
    obtain ⟨bytes, rfl⟩ := eq_of_listed hname
    exact ⟨bytes, get?_of_mem_nodes ht (by simp) hmem⟩
  · rintro ⟨bytes, h⟩
    refine ⟨(p ++ [name], .file bytes), mem_nodes_of_get? (by simp) h, ?_⟩
    simp

theorem nodup_fileNames (ht : t.IsSound) (p : Place) : (t.fileNames p).Nodup := by
  have hplaces : ((t.fileNames p).map fun name => p ++ [name]).Sublist (t.nodes.map Prod.fst) := by
    rw [fileNames]
    induction t.nodes with
    | nil => exact .slnil
    | cons node r ih =>
        rw [List.filterMap_cons]
        split
        · exact ih.cons node.1
        · next name hname =>
            obtain ⟨bytes, rfl⟩ := eq_of_listed hname
            exact ih.cons_cons (p ++ [name])
  exact List.Nodup.of_map _ (ht.distinct.sublist hplaces)

theorem mem_listed (ht : t.IsSound) :
    name ∈ (t.fileNames p).filter (fun name => t.isFile (Path.child dir name)) ↔
      ∃ bytes, t.HasFile dir p name bytes := by
  rw [List.mem_filter, mem_fileNames ht]
  constructor
  · rintro ⟨⟨bytes, hnode⟩, hpath⟩
    exact ⟨bytes, hnode, hpath⟩
  · rintro ⟨bytes, h⟩
    exact ⟨⟨bytes, h.node⟩, h.path⟩

end Tree

namespace Batch
open SpiceDeck.Tree

theorem sortNames_pairwise {names : List Text} (h : names.Nodup) :
    (sortNames names).Pairwise (· < ·) := by
  have hsorted : (sortNames names).Pairwise fun a b => (!decide (b < a)) = true := by
    apply List.pairwise_mergeSort
    · intro a b c hab hbc
      simp only [Bool.not_eq_true', decide_eq_false_iff_not, List.not_lt] at *
      exact List.le_trans hab hbc
    · intro a b
      simp only [Bool.or_eq_true, Bool.not_eq_true', decide_eq_false_iff_not, List.not_lt]
      exact List.le_total a b
  have hnodup : (sortNames names).Nodup := (List.mergeSort_perm names _).nodup_iff.mpr h
  apply (hsorted.and hnodup).imp
  rintro a b ⟨hab, hne⟩
  simp only [Bool.not_eq_true', decide_eq_false_iff_not, List.not_lt] at hab
  by_contra hlt
  exact hne (List.le_antisymm hab (List.not_lt.mp hlt))

theorem child_lt {dir a b : Text} (h : a < b) : Path.child dir a < Path.child dir b := by
  simp only [Path.child]
  split
  · exact h
  · split
    · exact List.append_left_lt h
    · have hslash : ['/'] ++ a < ['/'] ++ b := List.append_left_lt h
      exact List.append_left_lt hslash

variable {W Draft : Type} [FileSystem (StateM W) Draft] {tree : W → Tree} {place : Draft → Place}
  {o : Options} {input output : Text} {w w₀ w₁ w₂ : W} {src dest : Place}
  {reports : List FileReport} {names : List Text}

/-- What a directory conversion has done, from the worlds before it, with the output directory
in it and at its end. -/
structure Converts (tree : W → Tree) (o : Options) (input output : Text) (src dest : Place)
    (w w₁ w₂ : W) (reports : List FileReport) : Prop where
  /-- The reports stand in the order of their paths, no two for one file. -/
  sorted : (reports.map FileReport.source).Pairwise (· < ·)
  /-- There is one for each regular file directly in the directory. -/
  complete : ∀ path, path ∈ reports.map FileReport.source ↔
    ∃ name bytes, path = Path.child input name ∧ (tree w).HasFile input src name bytes
  skipped : ∀ name bytes, (tree w).HasFile input src name bytes →
    isSkipped o input name = true →
    { source := Path.child input name, outcome := .skipped } ∈ reports ∧
      (tree w₂).get? (dest ++ [name]) = (tree w₁).get? (dest ++ [name])
  /-- Any other file is read and written, if the machine does not refuse it; then its target
  holds the conversion of what the file was before the run. Otherwise it stays as it was. -/
  converted : ∀ name bytes, (tree w).HasFile input src name bytes →
    isSkipped o input name = false →
    match ((FileSystem.read (Path.child input name) : StateM W _).run w₁).1 with
    | .error refusal =>
        entryFailure input name (.read (Path.child input name) refusal) ∈ reports ∧
        (tree w₂).get? (dest ++ [name]) = (tree w₁).get? (dest ++ [name])
    | .ok _ =>
        let c := entryConversion o input name bytes
        match ((write (Path.child output name) c.content : StateM W _).run w₁).1 with
        | .ok () =>
            { source := Path.child input name
              outcome := .converted (Path.child output name) c.warnings } ∈ reports ∧
            (tree w₂).get? (dest ++ [name]) = some (.file (Utf8.encode c.content))
        | .error e =>
            entryFailure input name e ∈ reports ∧
            (tree w₂).get? (dest ++ [name]) = (tree w₁).get? (dest ++ [name])
  /-- Before the files, only directories have been created, on the way to the output. -/
  created : (tree w).Grows (tree w₁) output
  /-- Nothing changes but targets; no temporary file is left. -/
  others : ∀ q, (∀ name bytes, (tree w).HasFile input src name bytes → q ≠ dest ++ [name]) →
    (tree w₂).get? q = (tree w₁).get? q

theorem source_outcome (o : Options) (input output name : Text) (w : W) :
    (outcome o input output name w).1.source = Path.child input name := by
  rw [outcome]
  split
  · rfl
  · split
    · rfl
    · split <;> rfl

theorem find_of_hasFile {t : Tree} (hinput : t.LeadsTo input src) {name : Text} {bytes : Bytes}
    (hn : Path.IsName name) (h : t.HasFile input src name bytes) :
    t.find (Path.child input name) = .ok (.file bytes) := by
  have hpath := h.path
  simp only [isFile, find, hinput.resolve_child hn] at hpath
  simp only [find, hinput.resolve_child hn]
  cases hp : placed (Path.child input name) name src with
  | error refusal =>
      rw [hp] at hpath
      cases hpath
  | ok q =>
      simp only [placed_ok hp, bind, Except.bind, h.node]
      rfl

/-- What is read of a regular file once the output directory is there is its content before. -/
theorem eq_of_read (hm : FileSystem.Documented tree place)
    (hgrows : (tree w).Grows (tree w₁) output) (hinput : (tree w).LeadsTo input src)
    {name : Text} {bytes bytes' : Bytes}
    (hn : Path.IsName name) (h : (tree w).HasFile input src name bytes)
    (hread : ((FileSystem.read (Path.child input name) : StateM W _).run w₁).1 = .ok bytes') :
    bytes' = bytes := by
  have hsame : (tree w₁).get? (src ++ [name]) = (tree w).get? (src ++ [name]) := by
    obtain heq | ⟨hnone, -, -⟩ := hgrows.get? (src ++ [name])
    · exact heq
    · rw [h.node] at hnone
      cases hnone
  have hcontent := (hm.read rfl).2 bytes' hread
  rw [readAt, hinput.find_child hn hgrows.keeps hsame, find_of_hasFile hinput hn h] at hcontent
  exact (Except.ok.inj hcontent).symm

theorem isName_of_hasFile {t : Tree} (ht : t.IsSound) {name : Text} {bytes : Bytes}
    (h : t.HasFile input src name bytes) : Path.IsName name := by
  have hsome : (t.get? (src ++ [name])).isSome = true := by
    rw [h.node]
    rfl
  exact (ht.isName hsome name (List.mem_append_right src List.mem_cons_self)).1

theorem converts_of_ends (hm : FileSystem.Documented tree place) (ht : (tree w).IsSound)
    (hgrows : (tree w).Grows (tree w₁) output) (hinput : (tree w).LeadsTo input src)
    (hnames : ∀ name, name ∈ names ↔ ∃ bytes, (tree w).HasFile input src name bytes)
    (hsorted : names.Pairwise (· < ·))
    (hends : Ends tree o input output names dest w₁ reports w₂) :
    Converts tree o input output src dest w w₁ w₂ reports := by
  have hsources : reports.map FileReport.source = names.map (Path.child input) := by
    rw [hends.reports, List.map_map]
    apply List.map_congr_left
    intro name _
    exact source_outcome o input output name w₁
  have hentry : ∀ name bytes, (tree w).HasFile input src name bytes →
      (outcome o input output name w₁).1 ∈ reports ∧
        (tree w₂).get? (dest ++ [name]) =
          ((outcome o input output name w₁).2.map Node.file).or
            ((tree w₁).get? (dest ++ [name])) := by
    intro name bytes h
    have hmem : name ∈ names := (hnames name).mpr ⟨bytes, h⟩
    refine ⟨?_, hends.targets name hmem⟩
    rw [hends.reports]
    exact List.mem_map.mpr ⟨name, hmem, rfl⟩
  constructor
  · rw [hsources, List.pairwise_map]
    exact hsorted.imp child_lt
  · intro path
    rw [hsources, List.mem_map]
    constructor
    · rintro ⟨name, hmem, rfl⟩
      obtain ⟨bytes, h⟩ := (hnames name).mp hmem
      exact ⟨name, bytes, rfl, h⟩
    · rintro ⟨name, bytes, rfl, h⟩
      exact ⟨name, (hnames name).mpr ⟨bytes, h⟩, rfl⟩
  · intro name bytes h hskip
    have hresult := hentry name bytes h
    rw [outcome, if_pos hskip] at hresult
    exact hresult
  · intro name bytes h hskip
    have hresult := hentry name bytes h
    cases hread : ((FileSystem.read (Path.child input name) : StateM W _).run w₁).1 with
    | error refusal =>
        rw [outcome_unread output hskip hread] at hresult
        exact hresult
    | ok bytes' =>
        obtain rfl := eq_of_read hm hgrows hinput (isName_of_hasFile ht h) h hread
        rw [outcome_read output hskip hread] at hresult
        dsimp only
        cases hwrite : ((write (Path.child output name)
            (entryConversion o input name bytes').content : StateM W _).run w₁).1 with
        | error e | ok done =>
            rw [hwrite] at hresult
            exact hresult
  · exact hgrows
  · intro q hq
    apply hends.others
    intro name hmem
    obtain ⟨bytes, h⟩ := (hnames name).mp hmem
    exact hq name bytes h

theorem run_convertDirectory
    (hlist : (FileSystem.fileNames input : StateM W _).run w = (.ok names, w₀))
    (hcreate : (createDirectory output : StateM W _).run w₀ = (.ok (), w₁)) :
    (convertDirectory o input output : StateM W _).run w =
      (.ok { files :=
        (((sortNames names).mapM (convertEntry o input output) : StateM W _).run w₁).1 },
        (((sortNames names).mapM (convertEntry o input output) : StateM W _).run w₁).2) := by
  rw [convertDirectory, run_bind, hlist]
  simp only [run_bind, hcreate, run_pure]

/-- However the operations on the files are ordered, these are the reports and this is the
tree at the end. -/
structure SameInAnyOrder (tree : W → Tree) (o : Options) (input output : Text)
    (names : List Text) (w₁ w₂ : W) (reports : List FileReport) : Prop where
  reached : ∃ schedule,
    (⟨tasks o input output names, w₁⟩ : Pool W Draft FileReport).follow schedule =
      ⟨reports.map .done, w₂⟩
  only : ∀ (schedule : List Nat) (reports' : List FileReport) (w' : W),
    (⟨tasks o input output names, w₁⟩ : Pool W Draft FileReport).follow schedule =
      ⟨reports'.map .done, w'⟩ →
    reports' = reports ∧ (tree w').working = (tree w₂).working ∧
      ∀ q, (tree w').get? q = (tree w₂).get? q

theorem Ends.unique {reports' : List FileReport} {w' : W}
    (h : Ends tree o input output names dest w₁ reports w₂)
    (h' : Ends tree o input output names dest w₁ reports' w') :
    reports' = reports ∧ (tree w').working = (tree w₂).working ∧
      ∀ q, (tree w').get? q = (tree w₂).get? q := by
  refine ⟨h'.reports.trans h.reports.symm, h'.working.trans h.working.symm, ?_⟩
  intro q
  by_cases hq : ∃ name ∈ names, q = dest ++ [name]
  · obtain ⟨name, hmem, rfl⟩ := hq
    rw [h'.targets name hmem, h.targets name hmem]
  · have hfar : ∀ name ∈ names, q ≠ dest ++ [name] := by
      intro name hmem heq
      exact hq ⟨name, hmem, heq⟩
    rw [h'.others q hfar, h.others q hfar]

/-- The conversion of a directory that can be listed into one that can be created comes to its
end, does what `Converts` says, and does the same in every order of the operations on the
files. -/
theorem convertDirectory_schedules (hm : FileSystem.Documented tree place) (o : Options)
    (ht : (tree w).IsSound)
    (hlist : (FileSystem.fileNames input : StateM W _).run w = (.ok names, w₀))
    (hcreate : (createDirectory output : StateM W _).run w₀ = (.ok (), w₁))
    (hspares : FileSystem.Spares W place names) :
    ∃ src dest reports w₂,
      (tree w).resolve input = .ok src ∧ (tree w₁).LeadsTo output dest ∧
      (convertDirectory o input output : StateM W _).run w = (.ok { files := reports }, w₂) ∧
      Converts tree o input output src dest w w₁ w₂ reports ∧
      SameInAnyOrder tree o input output (sortNames names) w₁ w₂ reports := by
  obtain ⟨htree, hnamed⟩ := hm.fileNames hlist
  obtain ⟨src, hsrc, hdir, hlisted⟩ := hnamed names rfl
  have hworking : (tree w₀).isDirectory (tree w₀).working = true := by
    rw [htree]
    exact ht.working
  obtain ⟨hgrows, dest, hdest⟩ := createDirectory_ok hm hworking hcreate
  rw [htree] at hgrows
  have hinput : (tree w).LeadsTo input src := leadsTo_of_resolve hsrc hdir
  have hs : Setting (tree w₁) input output src dest := ⟨hgrows.keeps.leadsTo hinput, hdest⟩
  have hnames : ∀ name, name ∈ sortNames names ↔
      ∃ bytes, (tree w).HasFile input src name bytes := by
    intro name
    rw [sortNames, List.mem_mergeSort, hlisted.mem_iff]
    exact mem_listed ht
  have hproper : ∀ name ∈ sortNames names, Path.IsName name := by
    intro name hmem
    obtain ⟨bytes, h⟩ := (hnames name).mp hmem
    exact isName_of_hasFile ht h
  have hnodup : names.Nodup :=
    hlisted.nodup_iff.mpr ((nodup_fileNames ht src).filter _)
  have hdistinct : (sortNames names).Nodup := (List.mergeSort_perm names _).nodup_iff.mpr hnodup
  have hspares' : FileSystem.Spares W place (sortNames names) := by
    intro dir v v' draft h name hmem
    exact hspares h name (List.mem_mergeSort.mp hmem)
  obtain ⟨schedule, hfollow⟩ := exists_follow_convertEntry o input output (sortNames names) w₁
  have hends := ends_of_follow hm hspares' hs hproper hdistinct hfollow
  refine ⟨src, dest, _, _, hsrc, hdest, run_convertDirectory hlist hcreate, ?_,
    ⟨schedule, hfollow⟩, ?_⟩
  · exact converts_of_ends hm ht hgrows hinput hnames (sortNames_pairwise hnodup) hends
  · intro schedule' reports' w' hfollow'
    exact hends.unique (ends_of_follow hm hspares' hs hproper hdistinct hfollow')

/-- Files held as a value have temporary files whose names begin with a dot. -/
theorem spares_of_head {names : List Text} (h : ∀ name ∈ names, name.head? ≠ some '.') :
    FileSystem.Spares Tree (id : Place → Place) names := by
  intro dir t u draft hrun name hmem hlast
  simp only [FileSystem.createDraft, StateT.run] at hrun
  cases hcreate : t.createDraft dir with
  | error refusal =>
      rw [hcreate] at hrun
      cases hrun
  | ok created =>
      obtain ⟨draft', v⟩ := created
      rw [hcreate] at hrun
      cases hrun
      obtain ⟨p, -, rfl, -⟩ := createDraft_ok hcreate
      obtain ⟨-, n, hn⟩ := get?_freeName t p
      rw [id, List.getLast?_concat, hn] at hlast
      apply h name hmem
      rw [← Option.some.inj hlast]
      rfl

/-- A directory with a file to convert, one to pass over and one whose target is a directory. -/
def mixedTree : Tree :=
  { nodes :=
      [ (["in".toList], .directory),
        (["in".toList, "b.scs".toList], .file (Utf8.encode "r1 (a 0) resistor r=1k\n".toList)),
        (["in".toList, "x.VA".toList], .file (Utf8.encode "module\n".toList)),
        (["in".toList, "a.sp".toList], .file (Utf8.encode "* a\n".toList)),
        (["in".toList, "sub".toList], .directory),
        (["out".toList], .directory),
        (["out".toList, "a.sp".toList], .directory) ] }

/-- Of the three, one is converted, and nothing stands beside it that was not there before. -/
theorem convertDirectory_schedules_mixedTree :
    ∃ src dest reports t₂,
      mixedTree.resolve "in".toList = .ok src ∧ mixedTree.LeadsTo "out".toList dest ∧
      (convertDirectory {} "in".toList "out".toList : StateM Tree _).run mixedTree =
        (.ok { files := reports }, t₂) ∧
      Converts id {} "in".toList "out".toList src dest mixedTree mixedTree t₂ reports ∧
      SameInAnyOrder id {} "in".toList "out".toList
        (sortNames ["b.scs".toList, "x.VA".toList, "a.sp".toList]) mixedTree t₂ reports ∧
      t₂.get? ["out".toList, "b.scs".toList] =
        some (.file (Utf8.encode "r1 a 0 r=1k\n".toList)) ∧
      t₂.get? ["out".toList, "a.sp".toList] = some .directory ∧
      t₂.get? ["out".toList, draftName 0] = none := by
  have hspares : FileSystem.Spares Tree (id : Place → Place)
      ["b.scs".toList, "x.VA".toList, "a.sp".toList] := spares_of_head (by decide)
  have hlist : (FileSystem.fileNames "in".toList : StateM Tree _).run mixedTree =
      (.ok ["b.scs".toList, "x.VA".toList, "a.sp".toList], mixedTree) := rfl
  have hcreate : (createDirectory "out".toList : StateM Tree _).run mixedTree =
      (.ok (), mixedTree) := rfl
  obtain ⟨src, dest, reports, t₂, hsrc, hdest, hrun, hconverts, hsame⟩ :=
    convertDirectory_schedules documented {} (by decide) hlist hcreate hspares
  have hdest' : dest = ["out".toList] := hdest.eq ⟨rfl, rfl⟩
  have hsrc' : src = ["in".toList] := (Except.ok.inj hsrc).symm
  refine ⟨src, dest, reports, t₂, hsrc, hdest, hrun, hconverts, hsame, ?_, ?_, ?_⟩
  · have hentry := hconverts.converted "b.scs".toList
      (Utf8.encode "r1 (a 0) resistor r=1k\n".toList) ⟨by rw [hsrc']; rfl, rfl⟩ rfl
    have hcontent : (entryConversion {} "in".toList "b.scs".toList
        (Utf8.encode "r1 (a 0) resistor r=1k\n".toList)).content = "r1 a 0 r=1k\n".toList := by
      decide +kernel
    have htarget := hentry.2
    rw [hcontent, hdest'] at htarget
    exact htarget
  · have hentry := hconverts.converted "a.sp".toList (Utf8.encode "* a\n".toList)
      ⟨by rw [hsrc']; rfl, rfl⟩ rfl
    have htarget := hentry.2
    rw [hdest'] at htarget
    exact htarget
  · refine (hconverts.others _ ?_).trans rfl
    intro name bytes hfile heq
    rw [hdest'] at heq
    have hname : name = draftName 0 := by simpa using heq.symm
    have hnode := hfile.node
    rw [hsrc', hname] at hnode
    cases hnode

end Batch
end SpiceDeck
