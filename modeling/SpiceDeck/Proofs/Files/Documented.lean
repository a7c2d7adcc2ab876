import Mathlib.Data.List.Nodup
import Mathlib.Data.List.Perm.Subperm
import SpiceDeck.Proofs.Files.Places

/-!
What a machine does to its files. The operations are those of any machine whose files, to
whoever looks at them, form a tree; where its operations can fail for reasons of their own,
only what they are documented to do is required. Main statement: the files held as a value
are such a machine.
-/

namespace SpiceDeck
open Text

namespace Tree

def kindAt (t : Tree) (path : Text) : Option FileKind :=
  match t.find path with
  | .ok (.file _) => some .file
  | .ok .directory => some .directory
  | .error _ => none

def readAt (t : Tree) (path : Text) : Except Refusal Bytes :=
  match t.find path with
  | .ok (.file bytes) => .ok bytes
  | .ok .directory => .error {}
  | .error refusal => .error refusal

/-- One place of a tree has got another node, or none. -/
structure Becomes (t : Tree) (p : Place) (n : Option Node) (u : Tree) : Prop where
  working : u.working = t.working
  get? : ∀ q, u.get? q = if q = p then n else t.get? q

/-- A file has been moved from one place to another, over what was there. -/
structure Moves (t : Tree) (p q : Place) (bytes : Bytes) (u : Tree) : Prop where
  working : u.working = t.working
  get? : ∀ x, u.get? x =
    if x = q then some (.file bytes) else if x = p then none else t.get? x

end Tree

def Refusal.of? {α : Type} : Except Refusal α → Option Refusal
  | .ok _ => none
  | .error refusal => some refusal

/-- What the operations of a machine with states `W` do to the tree of its files, in which a
temporary file has a place. They may be refused, also where a tree would allow them; but
whether they are depends on nothing but what their own paths lead to. -/
structure FileSystem.Documented {W Draft : Type} [FileSystem (StateM W) Draft] (tree : W → Tree)
    (place : Draft → Place) : Prop where
  kind? : ∀ {path w answer w'}, (FileSystem.kind? path : StateM W _).run w = (answer, w') →
    answer = (tree w).kindAt path ∧ tree w' = tree w
  fileNames : ∀ {dir w answer w'},
    (FileSystem.fileNames dir : StateM W _).run w = (answer, w') →
    tree w' = tree w ∧ ∀ names, answer = .ok names →
      ∃ p, (tree w).resolve dir = .ok p ∧ (tree w).isDirectory p = true ∧
        names.Perm (((tree w).fileNames p).filter fun name =>
          (tree w).isFile (Path.child dir name))
  makeDirectory : ∀ {path w answer w'},
    (FileSystem.makeDirectory path : StateM W _).run w = (answer, w') →
    match answer with
    | .ok () => (tree w).makeDirectory path = .ok (tree w')
    | .error _ => tree w' = tree w
  read : ∀ {path w answer w'}, (FileSystem.read path : StateM W _).run w = (answer, w') →
    tree w' = tree w ∧ ∀ bytes, answer = .ok bytes → (tree w).readAt path = .ok bytes
  read_same : ∀ {path v w}, (tree v).find path = (tree w).find path →
    ((FileSystem.read path : StateM W _).run v).1 = ((FileSystem.read path : StateM W _).run w).1
  /-- A temporary file gets a fresh name directly in its directory. -/
  createDraft : ∀ {dir w answer w'},
    (FileSystem.createDraft dir : StateM W _).run w = (answer, w') →
    match answer with
    | .ok draft => ∃ p name, (tree w).LeadsTo dir p ∧ place draft = p ++ [name] ∧
        (tree w).get? (place draft) = none ∧
        (tree w).Becomes (place draft) (some (.file [])) (tree w')
    | .error _ => tree w' = tree w
  createDraft_same : ∀ {dir v w p}, (tree v).Keeps (tree w) → (tree v).LeadsTo dir p →
    Refusal.of? ((FileSystem.createDraft dir : StateM W _).run v).1 =
      Refusal.of? ((FileSystem.createDraft dir : StateM W _).run w).1
  fillDraft : ∀ {draft bytes w answer w'}, (tree w).get? (place draft) = some (.file []) →
    (FileSystem.fillDraft draft bytes : StateM W _).run w = (answer, w') →
    match answer with
    | .ok () => (tree w).Becomes (place draft) (some (.file bytes)) (tree w')
    | .error _ => ∃ part, (tree w).Becomes (place draft) (some (.file part)) (tree w')
  fillDraft_same : ∀ {draft draft' bytes v w}, (tree v).get? (place draft) = some (.file []) →
    (tree w).get? (place draft') = some (.file []) →
    (place draft).dropLast = (place draft').dropLast →
    ((FileSystem.fillDraft draft bytes : StateM W _).run v).1 =
      ((FileSystem.fillDraft draft' bytes : StateM W _).run w).1
  /-- A move replaces its target as a whole or leaves everything as it was. -/
  persistDraft : ∀ {draft bytes path w answer w'},
    (tree w).get? (place draft) = some (.file bytes) →
    (FileSystem.persistDraft draft path : StateM W _).run w = (answer, w') →
    match answer with
    | .ok () => ∃ q, (tree w).resolve path = .ok q ∧ (tree w).isDirectory q = false ∧
        (tree w).Moves (place draft) q bytes (tree w')
    | .error _ => tree w' = tree w
  persistDraft_same : ∀ {draft draft' bytes path v w},
    (tree v).get? (place draft) = some (.file bytes) →
    (tree w).get? (place draft') = some (.file bytes) →
    (place draft).dropLast = (place draft').dropLast →
    (tree v).resolve path = (tree w).resolve path → (tree v).find path = (tree w).find path →
    ((FileSystem.persistDraft draft path : StateM W _).run v).1 =
      ((FileSystem.persistDraft draft' path : StateM W _).run w).1
  dropDraft : ∀ {draft bytes w}, (tree w).get? (place draft) = some (.file bytes) →
    (tree w).Becomes (place draft) none
      (tree ((FileSystem.dropDraft draft : StateM W _).run w).2)

theorem run_bind {W α β : Type} (x : StateM W α) (f : α → StateM W β) (w : W) :
    (x >>= f).run w = (f (x.run w).1).run (x.run w).2 := rfl

theorem run_pure {W α : Type} (a : α) (w : W) : (pure a : StateM W α).run w = (a, w) := rfl

theorem run_get (t : Tree) : (get : StateM Tree Tree).run t = (t, t) := rfl

namespace Tree

variable {t u : Tree} {p q : Place} {n : Node} {dir path : Text} {bytes : Bytes}

theorem Becomes.keeps {n : Option Node} (h : t.Becomes p n u) (hp : t.isDirectory p = false) :
    t.Keeps u := by
  refine ⟨h.working, ?_⟩
  intro q hq
  have hne : q ≠ p := by
    rintro rfl
    rw [hp] at hq
    cases hq
  rw [isDirectory_iff, h.get?, if_neg hne]
  exact isDirectory_iff.mp hq

theorem Moves.keeps (h : t.Moves p q bytes u) (hp : t.isDirectory p = false)
    (hq : t.isDirectory q = false) : t.Keeps u := by
  refine ⟨h.working, ?_⟩
  intro x hx
  have hne : ∀ y, t.isDirectory y = false → x ≠ y := by
    rintro y hy rfl
    rw [hy] at hx
    cases hx
  rw [isDirectory_iff, h.get?, if_neg (hne q hq), if_neg (hne p hp)]
  exact isDirectory_iff.mp hx

theorem ne_nil_of_get?_file (h : t.get? p = some (.file bytes)) : p ≠ [] := by
  rintro rfl
  cases h

theorem isDirectory_of_file (h : t.get? p = some (.file bytes)) : t.isDirectory p = false := by
  rw [isDirectory, h]
  rfl

theorem becomes_set (t : Tree) (hp : p ≠ []) : t.Becomes p (some n) (t.set p n) :=
  ⟨working_set t p n, get?_set t hp⟩

theorem lookup_filter_ne (nodes : List (Place × Node)) (p q : Place) :
    (nodes.filter fun node => node.1 != p).lookup q =
      if q = p then none else nodes.lookup q := by
  induction nodes with
  | nil => simp
  | cons node r ih =>
      obtain ⟨x, n⟩ := node
      by_cases hx : x = p
      · rw [List.filter_cons_of_neg (by simpa using hx), ih]
        split
        · rfl
        · next hq =>
            rw [List.lookup_cons, beq_false_of_ne (hx ▸ hq)]
      · rw [List.filter_cons_of_pos (by simpa using hx), List.lookup_cons, List.lookup_cons, ih]
        by_cases hq : q = x
        · subst hq
          simp [hx]
        · simp [beq_false_of_ne hq]

theorem get?_remove (t : Tree) (hp : p ≠ []) (q : Place) :
    (t.remove p).get? q = if q = p then none else t.get? q := by
  cases q with
  | nil => simp [hp.symm]
  | cons x q =>
      simp only [get?, List.isEmpty_cons, Bool.false_eq_true, if_false, remove]
      exact lookup_filter_ne t.nodes p (x :: q)

theorem becomes_remove (t : Tree) (hp : p ≠ []) : t.Becomes p none (t.remove p) :=
  ⟨rfl, get?_remove t hp⟩

theorem draftName_injective : Function.Injective draftName := by
  intro a b h
  have hnumbers := ofNat_injective (List.append_cancel_left h)
  omega

theorem isName_draftName (n : Nat) : Path.IsName (draftName n) := by
  have hhead : ∃ r, draftName n = ".tmp".toList ++ r := ⟨_, rfl⟩
  constructor
  · obtain ⟨r, h⟩ := hhead
    rw [h]
    exact List.cons_ne_nil _ _
  · obtain ⟨r, h⟩ := hhead
    rw [h]
    simp
  · obtain ⟨r, h⟩ := hhead
    rw [h]
    simp
  · intro hslash
    obtain hslash | hslash := List.mem_append.mp hslash
    · revert hslash
      decide
    · have hdigit : '/'.isDigit = true :=
        Nat.isDigit_of_mem_toDigits (by decide) (by decide) hslash
      revert hdigit
      decide

/-- There is a free name: the tree has fewer nodes than names are tried. -/
theorem get?_freeName (t : Tree) (dir : Place) :
    t.get? (dir ++ [t.freeName dir]) = none ∧ ∃ n, t.freeName dir = draftName n := by
  simp only [freeName]
  cases hfind : ((List.range (t.nodes.length + 1)).map draftName).find? fun name =>
      (t.get? (dir ++ [name])).isNone with
  | some name =>
      have hfree := List.find?_some hfind
      obtain ⟨n, -, hn⟩ := List.mem_map.mp (List.mem_of_find?_eq_some hfind)
      exact ⟨by simpa using hfree, n, hn.symm⟩
  | none =>
      -- otherwise all of them stand in the tree
      have hplaces : (List.range (t.nodes.length + 1)).map (fun n => dir ++ [draftName n]) ⊆
          t.nodes.map Prod.fst := by
        intro place hplace
        obtain ⟨n, hn, rfl⟩ := List.mem_map.mp hplace
        have htaken := List.find?_eq_none.mp hfind (draftName n) (List.mem_map_of_mem hn)
        obtain ⟨node, hnode⟩ := Option.ne_none_iff_exists'.mp (by simpa using htaken)
        exact List.mem_map_of_mem (mem_nodes_of_get? (by simp) hnode)
      have hdistinct : ((List.range (t.nodes.length + 1)).map
          fun n => dir ++ [draftName n]).Nodup := by
        apply List.nodup_range.map
        intro a b h
        exact draftName_injective (List.singleton_inj.mp (List.append_cancel_left h))
      have hlength := (List.subperm_of_subset hdistinct hplaces).length_le
      simp only [List.length_map, List.length_range] at hlength
      omega

theorem LeadsTo.createDraft_eq (h : t.LeadsTo dir p) :
    t.createDraft dir =
      match improper? (t.draftPath dir) with
      | some refusal => .error refusal
      | none => .ok (p ++ [t.freeName p], t.set (p ++ [t.freeName p]) (.file [])) := by
  have hlimit : ¬ nameLimit < byteLength (draftName 0) := by decide
  cases himproper : improper? (t.draftPath dir) with
  | some refusal => simp only [createDraft, himproper]
  | none =>
      simp only [createDraft, himproper, h.walk_child (isName_draftName 0), if_neg hlimit,
        List.dropLast_concat]

theorem leadsTo_of_createDraft {draft : Place} (h : t.createDraft dir = .ok (draft, u)) :
    ∃ p, t.LeadsTo dir p := by
  have hname := (isName_draftName 0).noSlash
  simp only [createDraft, Path.parts_child, Path.parts_of_noSlash hname, walk_append,
    start_child (.inr (Path.isAbsolute_of_noSlash hname) : dir ≠ [] ∨ _)] at h
  split at h
  · cases h
  · cases hwalk : t.walk (t.start dir) (Path.stem dir) with
    | error refusal =>
        rw [hwalk] at h
        cases h
    | ok p =>
        rw [hwalk] at h
        simp only [Except.bind] at h
        split at h
        · cases h
        · next hnext => exact ⟨p, hwalk, isDirectory_of_walk hnext⟩

theorem createDraft_ok {draft : Place} (h : t.createDraft dir = .ok (draft, u)) :
    ∃ p, t.LeadsTo dir p ∧ draft = p ++ [t.freeName p] ∧ t.get? draft = none ∧
      t.Becomes draft (some (.file [])) u := by
  obtain ⟨p, hp⟩ := leadsTo_of_createDraft h
  rw [hp.createDraft_eq] at h
  split at h
  · cases h
  · cases h
    exact ⟨p, hp, rfl, (get?_freeName t p).1, becomes_set t (by simp)⟩

/-- A file can be put at a path or not whatever its content is. -/
theorem replace_ok (h : t.replace path bytes = .ok u) :
    ∃ q, t.resolve path = .ok q ∧ t.isDirectory q = false ∧ u = t.set q (.file bytes) := by
  simp only [replace] at h
  split at h
  · cases h
  · next q hq =>
      split at h
      · next hroom =>
          cases h
          simp only [Bool.and_eq_true, Bool.not_eq_true'] at hroom
          exact ⟨q, hq, hroom.2, rfl⟩
      · cases h

theorem persistDraft_ok {draft : Place} (hdraft : t.get? draft = some (.file bytes))
    (h : t.persistDraft draft path = .ok u) :
    ∃ q, t.resolve path = .ok q ∧ t.isDirectory q = false ∧ t.Moves draft q bytes u := by
  simp only [persistDraft, hdraft] at h
  cases hreplace : t.replace path bytes with
  | error refusal =>
      rw [hreplace] at h
      cases h
  | ok v =>
      rw [hreplace] at h
      obtain ⟨q, hq, hdir, rfl⟩ := replace_ok hreplace
      have hne : q ≠ [] := by
        rintro rfl
        cases hdir
      refine ⟨q, hq, hdir, ?_⟩
      rw [hq] at h
      simp only [Except.toOption, Option.some.injEq, Except.ok.injEq] at h
      subst h
      split
      · next hself =>
          refine ⟨working_set t q _, ?_⟩
          intro x
          rw [get?_set t hne, hself]
          split <;> rfl
      · next hother =>
          refine ⟨working_set t q _, ?_⟩
          intro x
          rw [get?_remove _ (ne_nil_of_get?_file hdraft), get?_set t hne]
          by_cases hx : x = draft
          · rw [if_pos hx, if_pos hx, if_neg (fun hxq => hother (hxq.symm.trans hx))]
          · rw [if_neg hx, if_neg hx]

theorem run_kind? (path : Text) (t : Tree) :
    (FileSystem.kind? path : StateM Tree _).run t = (t.kindAt path, t) := by
  simp only [FileSystem.kind?, kindAt, run_bind, run_get]
  cases t.find path with
  | error refusal => rfl
  | ok n => cases n <;> rfl

theorem run_read (path : Text) (t : Tree) :
    (FileSystem.read path : StateM Tree _).run t = (t.readAt path, t) := by
  simp only [FileSystem.read, readAt, run_bind, run_get]
  cases t.find path with
  | error refusal => rfl
  | ok n => cases n <;> rfl

theorem run_fileNames (dir : Text) (t : Tree) :
    (FileSystem.fileNames dir : StateM Tree _).run t =
      (match t.resolve dir with
        | .error refusal => .error refusal
        | .ok p =>
            if t.isDirectory p then
              .ok ((t.fileNames p).filter fun name => t.isFile (Path.child dir name))
            else .error {}, t) := by
  simp only [FileSystem.fileNames, run_bind, run_get]
  cases t.resolve dir with
  | error refusal => rfl
  | ok p =>
      by_cases hdir : t.isDirectory p = true
      · simp only [hdir, if_true]
        rfl
      · simp only [hdir]
        rfl

/-- A change that is granted or leaves the tree as it was. -/
theorem run_attempt (change : Tree → Except Refusal Tree) (t : Tree) :
    (attempt change).run t =
      match change t with
      | .ok u => (.ok (), u)
      | .error refusal => (.error refusal, t) := rfl

theorem of_run_attempt {change : Tree → Except Refusal Tree} {answer : Except Refusal Unit} :
    (attempt change).run t = (answer, u) →
      match answer with
      | .ok () => change t = .ok u
      | .error _ => u = t := by
  intro h
  rw [run_attempt] at h
  cases hchange : change t with
  | ok v =>
      rw [hchange] at h
      cases h
      rfl
  | error refusal =>
      rw [hchange] at h
      cases h
      rfl

theorem fillDraft_eq {draft : Place} {old : Bytes} (h : t.get? draft = some (.file old))
    (bytes : Bytes) : t.fillDraft draft bytes = .ok (t.set draft (.file (old ++ bytes))) := by
  rw [fillDraft, h]

theorem isDirectory_of_find (ht : t.resolve path = .ok p) (hu : u.resolve path = .ok p)
    (h : t.find path = u.find path) : t.isDirectory p = u.isDirectory p := by
  simp only [find, ht, hu, bind, Except.bind] at h
  rw [isDirectory, isDirectory]
  cases hn : t.get? p with
  | none =>
      rw [hn] at h
      cases hn' : u.get? p with
      | none => rfl
      | some n =>
          rw [hn'] at h
          cases h
  | some n =>
      rw [hn] at h
      cases hn' : u.get? p with
      | none =>
          rw [hn'] at h
          cases h
      | some n' =>
          rw [hn'] at h
          cases h
          rfl

/-- Whether a temporary file can be created depends on the directory alone. -/
theorem run_createDraft_congr (hkeeps : t.Keeps u) (hp : t.LeadsTo dir p) :
    Refusal.of? ((FileSystem.createDraft dir : StateM Tree _).run t).1 =
      Refusal.of? ((FileSystem.createDraft dir : StateM Tree _).run u).1 := by
  have hpath : u.draftPath dir = t.draftPath dir := by
    rw [draftPath, draftPath, workingPath, workingPath, hkeeps.working]
  simp only [FileSystem.createDraft, StateT.run, hp.createDraft_eq,
    (hkeeps.leadsTo hp).createDraft_eq, hpath]
  cases improper? (t.draftPath dir) with
  | none | some refusal => rfl

/-- Whether a file can be moved to a path depends on what the path leads to alone. -/
theorem run_persistDraft_congr {draft draft' : Place} (ht : t.get? draft = some (.file bytes))
    (hu : u.get? draft' = some (.file bytes)) (hresolve : t.resolve path = u.resolve path)
    (hfind : t.find path = u.find path) :
    ((attempt (·.persistDraft draft path)).run t).1 =
      ((attempt (·.persistDraft draft' path)).run u).1 := by
  rw [run_attempt, run_attempt]
  simp only [persistDraft, ht, hu, replace, hresolve]
  cases hq : u.resolve path with
  | error refusal => rfl
  | ok q =>
      simp only [isDirectory_of_find (hresolve.trans hq) hq hfind]
      cases endsInName path && !u.isDirectory q with
      | true | false => rfl

/-- The files held as a value are a machine that refuses nothing but what the tree forbids. -/
theorem documented : FileSystem.Documented (id : Tree → Tree) id where
  kind? {path w answer w'} h := by
    rw [run_kind?] at h
    cases h
    exact ⟨rfl, rfl⟩
  fileNames {dir w answer w'} h := by
    rw [run_fileNames] at h
    cases h
    refine ⟨rfl, ?_⟩
    intro names hnames
    split at hnames
    · cases hnames
    · next p hp =>
        split at hnames
        · next hdir =>
            cases hnames
            exact ⟨p, hp, hdir, .refl _⟩
        · cases hnames
  makeDirectory {path w answer w'} h := by
    change (attempt (·.makeDirectory path)).run w = _ at h
    exact of_run_attempt h
  read {path w answer w'} h := by
    rw [run_read] at h
    cases h
    exact ⟨rfl, fun _ hread => hread⟩
  read_same {path v w} h := by
    simp only [id] at h
    rw [run_read, run_read, readAt, readAt, h]
  createDraft {dir w answer w'} h := by
    simp only [FileSystem.createDraft, StateT.run] at h
    cases hcreate : w.createDraft dir with
    | ok created =>
        rw [hcreate] at h
        cases h
        obtain ⟨p, hp, hplace, hfree, hbecomes⟩ := createDraft_ok hcreate
        exact ⟨p, _, hp, hplace, hfree, hbecomes⟩
    | error refusal =>
        rw [hcreate] at h
        cases h
        rfl
  createDraft_same hkeeps hp := run_createDraft_congr hkeeps hp
  fillDraft {draft bytes w answer w'} hdraft h := by
    simp only [id] at hdraft
    change (attempt (·.fillDraft draft bytes)).run w = _ at h
    rw [run_attempt, fillDraft_eq hdraft] at h
    cases h
    exact becomes_set w (ne_nil_of_get?_file hdraft)
  fillDraft_same {draft draft' bytes v w} hv hw _ := by
    simp only [id] at hv hw
    change ((attempt (·.fillDraft draft bytes)).run v).1 =
      ((attempt (·.fillDraft draft' bytes)).run w).1
    rw [run_attempt, run_attempt, fillDraft_eq hv, fillDraft_eq hw]
  persistDraft {draft bytes path w answer w'} hdraft h := by
    change (attempt (·.persistDraft draft path)).run w = _ at h
    cases answer with
    | ok _ => exact persistDraft_ok hdraft (of_run_attempt h)
    | error refusal => exact of_run_attempt h
  persistDraft_same hv hw _ hresolve hfind := run_persistDraft_congr hv hw hresolve hfind
  dropDraft {draft bytes w} hdraft := by
    simp only [id] at hdraft
    exact becomes_remove w (ne_nil_of_get?_file hdraft)

end Tree
end SpiceDeck
