import SpiceDeck.Files.Tree
import SpiceDeck.Proofs.Text.Lines

/-!
Where paths lead. A path is followed through directories only, so it leads to the same
place in every tree that has these directories. Main statements: where a name inside a
directory is found depends on the tree only through the place of that directory, and so does
the directory in which a file under that name has its temporary file.
-/

namespace SpiceDeck
open Text

namespace Path

/-- A name that something in a directory can have. -/
structure IsName (name : Text) : Prop where
  ne_nil : name ≠ []
  ne_dot : name ≠ ['.']
  ne_dots : name ≠ "..".toList
  noSlash : '/' ∉ name

instance (name : Text) : Decidable (IsName name) :=
  decidable_of_iff (name ≠ [] ∧ name ≠ ['.'] ∧ name ≠ "..".toList ∧ '/' ∉ name)
    ⟨fun ⟨hnil, hdot, hdots, hslash⟩ => ⟨hnil, hdot, hdots, hslash⟩,
      fun h => ⟨h.ne_nil, h.ne_dot, h.ne_dots, h.noSlash⟩⟩

theorem IsName.isVoid {name : Text} (h : IsName name) : Path.isVoid name = false := by
  simp [Path.isVoid, h.ne_nil, h.ne_dot]

theorem parts_slash (a b : Text) : parts (a ++ '/' :: b) = parts a ++ parts b :=
  cut_append_sep rfl a b

theorem parts_of_noSlash {t : Text} (h : '/' ∉ t) : parts t = [t] := by
  apply cut_of_all_not
  intro c hc
  have hne : c ≠ '/' := by
    rintro rfl
    exact h hc
  simpa using hne

theorem noSlash_of_mem_parts {p part : Text} (h : part ∈ parts p) : '/' ∉ part := by
  intro hmem
  have hfalse := not_of_mem_cut h '/' hmem
  simp at hfalse

theorem join_cons_cons (sep a b : Text) (r : List Text) :
    join sep (a :: b :: r) = a ++ sep ++ join sep (b :: r) := by
  simp [join]

theorem parts_join {ps : List Text} (hne : ps ≠ []) (h : ∀ p ∈ ps, '/' ∉ p) :
    parts (join ['/'] ps) = ps := by
  induction ps with
  | nil => exact absurd rfl hne
  | cons p r ih =>
      have hp := parts_of_noSlash (h p List.mem_cons_self)
      cases r with
      | nil => simpa [join] using hp
      | cons q r =>
          have hrest := ih (List.cons_ne_nil q r) fun x hx => h x (List.mem_cons_of_mem p hx)
          rw [join_cons_cons, List.append_assoc, List.singleton_append, parts_slash, hp, hrest]
          rfl

theorem join_parts (p : Text) : join ['/'] (parts p) = p := by
  induction p with
  | nil => rfl
  | cons c r ih =>
      obtain ⟨part, rest, hparts⟩ := List.exists_cons_of_ne_nil (cut_ne_nil (· == '/') r)
      simp only [parts, hparts] at ih
      simp only [parts, cut, hparts]
      by_cases hc : c = '/'
      · simp only [hc, beq_self_eq_true, if_true, join_cons_cons, List.nil_append, ih]
        rfl
      · simp only [beq_iff_eq, hc, if_false]
        cases rest with
        | nil =>
            simp only [join] at ih ⊢
            simpa using ih
        | cons q rest =>
            rw [join_cons_cons] at ih ⊢
            rw [← ih]
            rfl

/-- The parts of a directory's path before the name of something in it. -/
def stem (dir : Text) : List Text :=
  if dir.isEmpty then [] else if dir.getLast? = some '/' then (parts dir).dropLast else parts dir

theorem parts_dropSlash {dir : Text} (h : dir.getLast? = some '/') :
    ∃ a, dir = a ++ ['/'] ∧ parts dir = parts a ++ [[]] := by
  obtain ⟨a, rfl⟩ := List.getLast?_eq_some_iff.mp h
  exact ⟨a, rfl, parts_slash a []⟩

theorem parts_child (dir t : Text) : parts (child dir t) = stem dir ++ parts t := by
  by_cases hdir : dir.isEmpty = true
  · simp only [child, stem, hdir, if_true, List.nil_append]
  · by_cases hslash : dir.getLast? = some '/'
    · obtain ⟨a, ha, hparts⟩ := parts_dropSlash hslash
      simp only [child, stem, hdir, hslash, if_true, Bool.false_eq_true, if_false, hparts,
        List.dropLast_concat]
      rw [ha, List.append_assoc, List.singleton_append, parts_slash]
    · simp only [child, stem, hdir, hslash, if_false, Bool.false_eq_true, parts_slash]

theorem isAbsolute_of_noSlash {t : Text} (h : '/' ∉ t) : isAbsolute t = false := by
  cases t with
  | nil => rfl
  | cons c r =>
      have hc : '/' ≠ c := by
        rintro rfl
        exact h List.mem_cons_self
      simp [isAbsolute, startsWith, after?, hc]

theorem isAbsolute_begins {a b : Text} (h : a <+: b) (hne : a ≠ []) :
    isAbsolute a = isAbsolute b := by
  obtain ⟨x, rfl⟩ := h
  cases a with
  | nil => exact absurd rfl hne
  | cons c r =>
      simp only [isAbsolute, startsWith, List.cons_append, after?]
      split <;> rfl

theorem isAbsolute_child {dir t : Text} (h : dir ≠ [] ∨ isAbsolute t = false) :
    isAbsolute (child dir t) = isAbsolute dir := by
  by_cases hdir : dir = []
  · rw [hdir]
    exact h.resolve_left fun hne => hne hdir
  · symm
    apply isAbsolute_begins _ hdir
    simp only [child, List.isEmpty_iff, hdir, if_false]
    split
    · exact List.prefix_append dir t
    · exact List.prefix_append dir _

end Path

namespace Tree

variable {t u : Tree} {p q : Place} {n : Node}

@[simp] theorem get?_nil (t : Tree) : t.get? [] = some .directory := rfl

@[simp] theorem working_set (t : Tree) (p : Place) (n : Node) :
    (t.set p n).working = t.working := by
  simp only [set]
  split <;> rfl

theorem lookup_map_snd (nodes : List (Place × Node)) (p q : Place) (n : Node) :
    (nodes.map fun (x, old) => (x, if x = p then n else old)).lookup q =
      if q = p then (nodes.lookup q).map fun _ => n else nodes.lookup q := by
  induction nodes with
  | nil => simp
  | cons node r ih =>
      obtain ⟨x, old⟩ := node
      simp only [List.map_cons, List.lookup_cons, ih]
      by_cases hx : q = x
      · subst hx
        simp only [beq_self_eq_true]
        split <;> rfl
      · simp only [beq_false_of_ne hx]

theorem get?_set (t : Tree) (hp : p ≠ []) (q : Place) :
    (t.set p n).get? q = if q = p then some n else t.get? q := by
  cases q with
  | nil => simp [hp.symm]
  | cons x q =>
      simp only [get?, List.isEmpty_cons, Bool.false_eq_true, if_false, set]
      split
      · next hsome =>
          rw [lookup_map_snd]
          split
          · next heq =>
              obtain ⟨old, hold⟩ := Option.isSome_iff_exists.mp hsome
              rw [heq, hold]
              rfl
          · rfl
      · next hnone =>
          have hnone : t.nodes.lookup p = none := Option.not_isSome_iff_eq_none.mp hnone
          by_cases heq : x :: q = p
          · rw [List.lookup_append, heq, hnone]
            simp
          · rw [List.lookup_append]
            simp [List.lookup_cons, beq_false_of_ne heq, heq]

theorem isDirectory_iff : t.isDirectory p = true ↔ t.get? p = some .directory := by
  rw [isDirectory, beq_iff_eq]

/-- A tree in which everything that was a directory still is one. -/
structure Keeps (t u : Tree) : Prop where
  working : u.working = t.working
  directory : ∀ p, t.isDirectory p = true → u.isDirectory p = true

theorem Keeps.refl (t : Tree) : t.Keeps t := ⟨rfl, fun _ h => h⟩

theorem Keeps.trans {s : Tree} (h : s.Keeps t) (h' : t.Keeps u) : s.Keeps u :=
  ⟨h'.working.trans h.working, fun p hp => h'.directory p (h.directory p hp)⟩

theorem walk_append (t : Tree) (p : Place) (a b : List Text) :
    t.walk p (a ++ b) = (t.walk p a).bind fun q => t.walk q b := by
  induction a generalizing p with
  | nil => rfl
  | cons part r ih =>
      simp only [List.cons_append, walk]
      split
      · rfl
      · rfl
      · split
        · exact ih p
        · split
          · exact ih _
          · split
            · rfl
            · exact ih _

theorem isDirectory_of_walk {part : Text} {r : List Text} (h : t.walk p (part :: r) = .ok q) :
    t.isDirectory p = true := by
  rw [isDirectory_iff]
  simp only [walk] at h
  split at h
  · cases h
  · cases h
  · assumption

/-- A path that can be followed leads to the same place as long as directories stay. -/
theorem Keeps.walk (h : t.Keeps u) {parts : List Text} (hw : t.walk p parts = .ok q) :
    u.walk p parts = .ok q := by
  induction parts generalizing p with
  | nil => exact hw
  | cons part r ih =>
      have hdir : t.get? p = some .directory := isDirectory_iff.mp (isDirectory_of_walk hw)
      have hdir' : u.get? p = some .directory :=
        isDirectory_iff.mp (h.directory p (isDirectory_iff.mpr hdir))
      simp only [Tree.walk, hdir, hdir'] at hw ⊢
      split at hw
      · next hvoid =>
          rw [if_pos hvoid]
          exact ih hw
      · next hvoid =>
          rw [if_neg hvoid]
          split at hw
          · next hup =>
              rw [if_pos hup]
              exact ih hw
          · next hup =>
              rw [if_neg hup]
              split at hw
              · cases hw
              · next hlimit =>
                  rw [if_neg hlimit]
                  exact ih hw

theorem walk_of_isVoid {parts : List Text} (h : ∀ part ∈ parts, Path.isVoid part = true)
    (hdir : t.isDirectory p = true) : t.walk p parts = .ok p := by
  induction parts with
  | nil => rfl
  | cons part r ih =>
      simp only [walk, isDirectory_iff.mp hdir, h part List.mem_cons_self, if_true]
      exact ih fun x hx => h x (List.mem_cons_of_mem part hx)

theorem eq_of_walk_isVoid {parts : List Text} (h : ∀ part ∈ parts, Path.isVoid part = true)
    (hw : t.walk p parts = .ok q) : q = p := by
  induction parts with
  | nil =>
      cases hw
      rfl
  | cons part r ih =>
      simp only [walk, h part List.mem_cons_self, if_true] at hw
      split at hw
      · cases hw
      · cases hw
      · exact ih (fun x hx => h x (List.mem_cons_of_mem part hx)) hw

/-- Parts that do not lead on can be left out at the end of a path. -/
theorem walk_of_append_isVoid {parts rest : List Text}
    (h : ∀ part ∈ rest, Path.isVoid part = true) (hw : t.walk p (parts ++ rest) = .ok q) :
    t.walk p parts = .ok q := by
  rw [walk_append] at hw
  cases hparts : t.walk p parts with
  | error refusal =>
      rw [hparts] at hw
      cases hw
  | ok r =>
      rw [hparts] at hw
      rw [eq_of_walk_isVoid h hw]

theorem walk_name (hdir : t.isDirectory p = true) {name : Text} (hn : Path.IsName name) :
    t.walk p [name] = if nameLimit < byteLength name then .error {} else .ok (p ++ [name]) := by
  simp only [walk, isDirectory_iff.mp hdir, hn.isVoid, Bool.false_eq_true, if_false, hn.ne_dots]

/-- The path of a directory leads to this place. The empty path stands for the working
directory, as it does before a name. -/
structure LeadsTo (t : Tree) (dir : Text) (p : Place) : Prop where
  walk : t.walk (t.start dir) (Path.stem dir) = .ok p
  directory : t.isDirectory p = true

theorem Keeps.start (h : t.Keeps u) (path : Text) : u.start path = t.start path := by
  rw [Tree.start, Tree.start, h.working]

theorem Keeps.leadsTo (h : t.Keeps u) {dir : Text} (hp : t.LeadsTo dir p) : u.LeadsTo dir p := by
  constructor
  · rw [h.start]
    exact h.walk hp.walk
  · exact h.directory p hp.directory

theorem resolve_of_improper {path : Text} (h : improper? path = none) :
    t.resolve path = t.walk (t.start path) (Path.parts path) := by
  rw [resolve, h]

theorem improper?_of_resolve {path : Text} (h : t.resolve path = .ok p) :
    improper? path = none := by
  simp only [resolve] at h
  split at h
  · cases h
  · assumption

theorem leadsTo_of_resolve {dir : Text} (h : t.resolve dir = .ok p)
    (hdir : t.isDirectory p = true) : t.LeadsTo dir p := by
  have hproper := improper?_of_resolve h
  have hne : dir.isEmpty = false := by
    cases hempty : dir.isEmpty with
    | false => rfl
    | true =>
        rw [List.isEmpty_iff.mp hempty] at hproper
        cases hproper
  rw [resolve_of_improper hproper] at h
  refine ⟨?_, hdir⟩
  simp only [Path.stem, hne, Bool.false_eq_true, if_false]
  split
  · next hslash =>
      obtain ⟨a, -, hparts⟩ := Path.parts_dropSlash hslash
      rw [hparts] at h
      rw [hparts, List.dropLast_concat]
      exact walk_of_append_isVoid (by decide) h
  · exact h

theorem start_child {dir x : Text} (h : dir ≠ [] ∨ Path.isAbsolute x = false) :
    t.start (Path.child dir x) = t.start dir := by
  rw [start, start, Path.isAbsolute_child h]

theorem LeadsTo.walk_child {dir name : Text} (h : t.LeadsTo dir p) (hn : Path.IsName name) :
    t.walk (t.start (Path.child dir name)) (Path.parts (Path.child dir name)) =
      if nameLimit < byteLength name then .error {} else .ok (p ++ [name]) := by
  rw [start_child (.inr (Path.isAbsolute_of_noSlash hn.noSlash)), Path.parts_child,
    Path.parts_of_noSlash hn.noSlash, walk_append, h.walk]
  exact walk_name h.directory hn

/-- What a path for a name inside a directory leads to, as far as the path itself allows. -/
def placed (path : Text) (name : Text) (p : Place) : Except Refusal Place :=
  match improper? path with
  | some refusal => .error refusal
  | none => if nameLimit < byteLength name then .error {} else .ok (p ++ [name])

/-- The tree matters for the path of a name inside a directory only by the place of that
directory. -/
theorem LeadsTo.resolve_child {dir : Text} (h : t.LeadsTo dir p) {name : Text}
    (hn : Path.IsName name) :
    t.resolve (Path.child dir name) = placed (Path.child dir name) name p := by
  cases himproper : improper? (Path.child dir name) with
  | some refusal => simp only [resolve, placed, himproper]
  | none => simp only [resolve, placed, himproper, h.walk_child hn]

theorem placed_ok {path name : Text} (h : placed path name p = .ok q) : q = p ++ [name] := by
  simp only [placed] at h
  split at h
  · cases h
  · split at h
    · cases h
    · cases h
      rfl

end Tree

namespace Path

/-- The parts of a directory's path up to the last one that leads on. -/
def trunk (dir : Text) : List Text := ((stem dir).reverse.dropWhile isVoid).reverse

theorem stem_eq_trunk_append (dir : Text) :
    ∃ rest, stem dir = trunk dir ++ rest ∧ ∀ part ∈ rest, isVoid part = true := by
  refine ⟨((stem dir).reverse.takeWhile isVoid).reverse, ?_, ?_⟩
  · rw [trunk, ← List.reverse_append, List.takeWhile_append_dropWhile, List.reverse_reverse]
  · intro part hpart
    exact List.mem_takeWhile_imp (List.mem_reverse.mp hpart)

theorem parent_child {dir name : Text} (hn : IsName name) :
    parent (child dir name) =
      if trunk dir = [] then
        if isAbsolute dir then ['/']
        else if (stem dir ++ [name]).head? = some ['.'] then ['.'] else []
      else join ['/'] (trunk dir) := by
  have habsolute : isAbsolute (child dir name) = isAbsolute dir :=
    isAbsolute_child (.inr (isAbsolute_of_noSlash hn.noSlash))
  have hparts : parts (child dir name) = stem dir ++ [name] := by
    rw [parts_child, parts_of_noSlash hn.noSlash]
  have hbefore : (((parts (child dir name)).reverse.dropWhile isVoid).drop 1).dropWhile isVoid =
      (trunk dir).reverse := by
    rw [hparts, List.reverse_concat, List.dropWhile_cons_of_neg (by simp [hn.isVoid])]
    simp [trunk]
  have hany : (stem dir ++ [name]).any (fun part => !isVoid part) = true := by
    simp [hn.isVoid]
  rw [parent, hbefore, habsolute, hparts]
  cases htrunk : trunk dir with
  | nil => simp [hany]
  | cons part r =>
      rw [if_neg (List.cons_ne_nil part r)]
      split
      · next hnil => simp at hnil
      · rw [List.reverse_reverse]

theorem noSlash_of_mem_stem {dir part : Text} (h : part ∈ stem dir) : '/' ∉ part := by
  simp only [stem] at h
  split at h
  · cases h
  · split at h
    · exact noSlash_of_mem_parts (List.mem_of_mem_dropLast h)
    · exact noSlash_of_mem_parts h

theorem noSlash_of_mem_trunk {dir part : Text} (h : part ∈ trunk dir) : '/' ∉ part := by
  obtain ⟨rest, hstem, -⟩ := stem_eq_trunk_append dir
  have hmem : part ∈ stem dir := by
    rw [hstem]
    exact List.mem_append_left rest h
  exact noSlash_of_mem_stem hmem

theorem isVoid_getLast_trunk {dir last : Text} (h : (trunk dir).getLast? = some last) :
    isVoid last = false := by
  rw [trunk, List.getLast?_reverse] at h
  have hnot := List.head?_dropWhile_not isVoid (stem dir).reverse
  rw [h] at hnot
  exact hnot

theorem join_append (sep : Text) {a b : List Text} (ha : a ≠ []) (hb : b ≠ []) :
    join sep (a ++ b) = join sep a ++ sep ++ join sep b := by
  induction a with
  | nil => exact absurd rfl ha
  | cons x a ih =>
      cases a with
      | nil =>
          obtain ⟨y, b, rfl⟩ := List.exists_cons_of_ne_nil hb
          rw [List.singleton_append, join_cons_cons]
          simp [join]
      | cons y a =>
          have hrest := ih (List.cons_ne_nil y a)
          simp only [List.cons_append] at hrest ⊢
          rw [join_cons_cons, join_cons_cons, hrest]
          simp only [List.append_assoc]

theorem join_begins (sep : Text) {a b : List Text} (h : a <+: b) : join sep a <+: join sep b := by
  obtain ⟨x, rfl⟩ := h
  by_cases ha : a = []
  · rw [ha]
    exact List.nil_prefix
  · by_cases hx : x = []
    · rw [hx, List.append_nil]
    · rw [join_append sep ha hx, List.append_assoc]
      exact List.prefix_append _ _

theorem stem_begins {dir : Text} (h : dir ≠ []) : stem dir <+: parts dir := by
  simp only [stem, List.isEmpty_iff, h, if_false]
  split
  · exact List.dropLast_prefix _
  · exact List.prefix_rfl

/-- The path of a trunk is the beginning of the directory's path, and the trunk its stem. -/
theorem trunk_path {dir : Text} (h : trunk dir ≠ []) :
    isAbsolute (join ['/'] (trunk dir)) = isAbsolute dir ∧
      stem (join ['/'] (trunk dir)) = trunk dir := by
  have hparts : parts (join ['/'] (trunk dir)) = trunk dir :=
    parts_join h fun part hpart => noSlash_of_mem_trunk hpart
  have hdir : dir ≠ [] := by
    rintro rfl
    exact h rfl
  obtain ⟨last, hlast⟩ : ∃ last, (trunk dir).getLast? = some last := by
    apply Option.ne_none_iff_exists'.mp
    rw [ne_eq, List.getLast?_eq_none_iff]
    exact h
  have hvoid := isVoid_getLast_trunk hlast
  have hne : join ['/'] (trunk dir) ≠ [] := by
    intro hnil
    rw [hnil] at hparts
    rw [← hparts] at hlast
    cases hlast
    cases hvoid
  constructor
  · apply isAbsolute_begins _ hne
    obtain ⟨rest, hstem, -⟩ := stem_eq_trunk_append dir
    have htrunk : trunk dir <+: parts dir :=
      List.IsPrefix.trans ⟨rest, hstem.symm⟩ (stem_begins hdir)
    have hbegins := join_begins ['/'] htrunk
    rwa [join_parts] at hbegins
  · simp only [stem, List.isEmpty_iff, hne, if_false]
    split
    · next hslash =>
        obtain ⟨a, -, ha⟩ := parts_dropSlash hslash
        rw [hparts] at ha
        rw [ha, List.getLast?_concat] at hlast
        cases hlast
        cases hvoid
    · exact hparts

end Path

namespace Tree

variable {t u : Tree} {p : Place} {dir name : Text}

/-- What is left of a path without the name at its end leads to the directory of the name. -/
theorem LeadsTo.parent_child (h : t.LeadsTo dir p) (hn : Path.IsName name) :
    t.LeadsTo (Path.parent (Path.child dir name)) p := by
  refine ⟨?_, h.directory⟩
  obtain ⟨rest, hstem, hrest⟩ := Path.stem_eq_trunk_append dir
  have hwalk := h.walk
  rw [Path.parent_child hn]
  by_cases htrunk : Path.trunk dir = []
  · rw [htrunk, List.nil_append] at hstem
    rw [hstem] at hwalk
    have hp : p = t.start dir := eq_of_walk_isVoid hrest hwalk
    rw [if_pos htrunk]
    have hvoid : ∀ x : Text, Path.isAbsolute x = Path.isAbsolute dir →
        (∀ part ∈ Path.stem x, Path.isVoid part = true) →
        t.walk (t.start x) (Path.stem x) = .ok p := by
      intro x habsolute hx
      have hstart : t.start x = p := by rw [hp, start, start, habsolute]
      rw [hstart]
      exact walk_of_isVoid hx h.directory
    split
    · next habsolute => exact hvoid ['/'] habsolute.symm (by decide)
    · next habsolute =>
        have hrelative : Path.isAbsolute dir = false := by simpa using habsolute
        split
        · exact hvoid ['.'] hrelative.symm (by decide)
        · exact hvoid [] hrelative.symm (by decide)
  · rw [if_neg htrunk]
    obtain ⟨habsolute, hstem'⟩ := Path.trunk_path htrunk
    have hstart : t.start (join ['/'] (Path.trunk dir)) = t.start dir := by
      rw [start, start, habsolute]
    rw [hstart, hstem']
    rw [hstem] at hwalk
    exact walk_of_append_isVoid hrest hwalk

/-- A tree as file systems have it: each place once, names that paths can spell, and every
node in a directory. -/
structure IsSound (t : Tree) : Prop where
  distinct : (t.nodes.map Prod.fst).Nodup
  names : ∀ node ∈ t.nodes, ∀ name ∈ node.1, Path.IsName name ∧ byteLength name ≤ nameLimit
  parents : ∀ node ∈ t.nodes, t.isDirectory node.1.dropLast = true
  working : t.isDirectory t.working = true

instance (t : Tree) : Decidable t.IsSound :=
  decidable_of_iff ((t.nodes.map Prod.fst).Nodup ∧
      (∀ node ∈ t.nodes, ∀ name ∈ node.1, Path.IsName name ∧ byteLength name ≤ nameLimit) ∧
      (∀ node ∈ t.nodes, t.isDirectory node.1.dropLast = true) ∧ t.isDirectory t.working = true)
    ⟨fun ⟨hdistinct, hnames, hparents, hworking⟩ => ⟨hdistinct, hnames, hparents, hworking⟩,
      fun h => ⟨h.distinct, h.names, h.parents, h.working⟩⟩

theorem mem_nodes_of_get? {n : Node} (hp : p ≠ []) (h : t.get? p = some n) : (p, n) ∈ t.nodes := by
  simp only [get?, List.isEmpty_iff, hp, if_false] at h
  obtain ⟨l, r, hnodes, -⟩ := List.lookup_eq_some_iff.mp h
  rw [hnodes]
  exact List.mem_append_right l List.mem_cons_self

theorem IsSound.isName (h : t.IsSound) (hp : (t.get? p).isSome = true) :
    ∀ name ∈ p, Path.IsName name ∧ byteLength name ≤ nameLimit := by
  intro name hname
  have hne : p ≠ [] := List.ne_nil_of_mem hname
  obtain ⟨n, hn⟩ := Option.isSome_iff_exists.mp hp
  exact h.names (p, n) (mem_nodes_of_get? hne hn) name hname

end Tree
end SpiceDeck
