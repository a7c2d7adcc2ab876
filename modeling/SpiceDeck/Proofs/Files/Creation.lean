import Mathlib.Logic.Function.Iterate
import SpiceDeck.Batch
import SpiceDeck.Proofs.Files.Documented

/-!
Creating a directory with those it stands in. Main statement: whatever the answer, the tree
changes only by new directories, each at the place of the path or of one of its parents, and
if the answer is yes, the path leads to a directory.
-/

namespace SpiceDeck
open Text

namespace Tree

variable {t u v : Tree} {path : Text} {p : Place}

theorem Keeps.resolve (h : t.Keeps u) (hp : t.resolve path = .ok p) : u.resolve path = .ok p := by
  have hproper := improper?_of_resolve hp
  rw [resolve_of_improper hproper] at hp ⊢
  rw [h.start]
  exact h.walk hp

/-- A tree with more directories: on the way to a path there may be new ones. -/
structure Grows (t u : Tree) (path : Text) : Prop where
  working : u.working = t.working
  get? : ∀ p, u.get? p = t.get? p ∨
    t.get? p = none ∧ u.get? p = some .directory ∧ ∃ k, u.resolve (Path.parent^[k] path) = .ok p

theorem Grows.refl (t : Tree) (path : Text) : t.Grows t path := ⟨rfl, fun _ => .inl rfl⟩

theorem Grows.keeps (h : t.Grows u path) : t.Keeps u := by
  refine ⟨h.working, ?_⟩
  intro p hp
  rw [isDirectory_iff] at hp ⊢
  obtain heq | ⟨-, hnew, -⟩ := h.get? p
  · rw [heq, hp]
  · exact hnew

theorem Grows.of_parent (h : t.Grows u (Path.parent path)) : t.Grows u path := by
  refine ⟨h.working, ?_⟩
  intro p
  obtain heq | ⟨hnone, hnew, k, hk⟩ := h.get? p
  · exact .inl heq
  · exact .inr ⟨hnone, hnew, k + 1, hk⟩

theorem Grows.trans (h : t.Grows u path) (h' : u.Grows v path) : t.Grows v path := by
  refine ⟨h'.working.trans h.working, ?_⟩
  intro p
  obtain heq' | ⟨hnone', hnew', hpath'⟩ := h'.get? p
  · obtain heq | ⟨hnone, hnew, k, hk⟩ := h.get? p
    · exact .inl (heq'.trans heq)
    · exact .inr ⟨hnone, heq'.trans hnew, k, h'.keeps.resolve hk⟩
  · obtain heq | ⟨-, hnew, -⟩ := h.get? p
    · exact .inr ⟨heq ▸ hnone', hnew', hpath'⟩
    · rw [hnew] at hnone'
      cases hnone'

theorem makeDirectory_ok (h : t.makeDirectory path = .ok u) :
    ∃ p, t.get? p = none ∧ u = t.set p .directory ∧ improper? path = none ∧
      t.walk (t.start path) (partsToLast path) = .ok p := by
  simp only [makeDirectory] at h
  cases hproper : improper? path with
  | some refusal =>
      rw [hproper] at h
      cases h
  | none =>
      rw [hproper] at h
      cases hwalk : t.walk (t.start path) (partsToLast path) with
      | error refusal =>
          rw [hwalk] at h
          cases h
      | ok p =>
          rw [hwalk] at h
          cases hp : t.get? p with
          | some n =>
              simp only [bind, Except.bind, hp] at h
              cases h
          | none =>
              simp only [bind, Except.bind, hp] at h
              cases h
              exact ⟨p, hp, rfl, rfl, rfl⟩

theorem parts_eq_partsToLast (path : Text) :
    ∃ rest, Path.parts path = partsToLast path ++ rest ∧
      ∀ part ∈ rest, Path.isVoid part = true := by
  refine ⟨((Path.parts path).reverse.takeWhile List.isEmpty).reverse, ?_, ?_⟩
  · rw [partsToLast, ← List.reverse_append, List.takeWhile_append_dropWhile, List.reverse_reverse]
  · intro part hpart
    have hempty := List.mem_takeWhile_imp (List.mem_reverse.mp hpart)
    rw [Path.isVoid, hempty, Bool.true_or]

theorem makeDirectory_grows (h : t.makeDirectory path = .ok u) :
    t.Grows u path ∧ ∃ p, u.resolve path = .ok p ∧ u.isDirectory p = true := by
  obtain ⟨p, hnone, rfl, hproper, hwalk⟩ := makeDirectory_ok h
  have hne : p ≠ [] := by
    rintro rfl
    cases hnone
  have hkeeps : t.Keeps (t.set p .directory) := by
    refine ⟨working_set t p _, ?_⟩
    intro q hq
    rw [isDirectory_iff, get?_set t hne] at *
    split
    · rfl
    · exact hq
  have hdir : (t.set p .directory).isDirectory p = true := by
    rw [isDirectory_iff, get?_set t hne, if_pos rfl]
  have hresolve : (t.set p .directory).resolve path = .ok p := by
    obtain ⟨rest, hparts, hrest⟩ := parts_eq_partsToLast path
    rw [resolve_of_improper hproper, hkeeps.start, hparts, walk_append, hkeeps.walk hwalk]
    exact walk_of_isVoid hrest hdir
  refine ⟨⟨working_set t p _, ?_⟩, p, hresolve, hdir⟩
  intro q
  rw [get?_set t hne]
  by_cases hq : q = p
  · right
    rw [hq, if_pos rfl]
    exact ⟨hnone, rfl, 0, hresolve⟩
  · left
    rw [if_neg hq]

theorem kindAt_directory (h : t.kindAt path = some .directory) :
    ∃ p, t.resolve path = .ok p ∧ t.isDirectory p = true := by
  simp only [kindAt, find] at h
  cases hp : t.resolve path with
  | error refusal =>
      rw [hp] at h
      cases h
  | ok p =>
      rw [hp] at h
      refine ⟨p, rfl, ?_⟩
      rw [isDirectory_iff]
      cases hn : t.get? p with
      | none =>
          simp only [bind, Except.bind, hn] at h
          cases h
      | some n =>
          simp only [bind, Except.bind, hn] at h
          cases n with
          | file bytes => cases h
          | directory => rfl

end Tree

namespace Batch
open SpiceDeck.Tree

variable {W Draft : Type} [FileSystem (StateM W) Draft] {tree : W → Tree} {place : Draft → Place}
  {w w' : W} {path : Text} {r : Except Refusal Unit}

theorem ensureDirectory_grows (hm : FileSystem.Documented tree place)
    (h : (ensureDirectory path : StateM W _).run w = (r, w')) :
    (tree w).Grows (tree w') path ∧
      (r = .ok () → ∃ p, (tree w').resolve path = .ok p ∧ (tree w').isDirectory p = true) := by
  rw [ensureDirectory, run_bind] at h
  cases hmake : (FileSystem.makeDirectory path : StateM W _).run w with
  | mk made v =>
      have hmade := hm.makeDirectory hmake
      rw [hmake] at h
      cases made with
      | ok done =>
          cases h
          obtain ⟨hgrows, hp⟩ := makeDirectory_grows hmade
          exact ⟨hgrows, fun _ => hp⟩
      | error refusal =>
          simp only [run_bind] at h
          cases hkind : (FileSystem.kind? path : StateM W _).run v with
          | mk kind x =>
              obtain ⟨hanswer, hsame⟩ := hm.kind? hkind
              simp only at hmade
              rw [hmade] at hsame hanswer
              rw [hkind] at h
              simp only at h
              split at h
              · next hpresent =>
                  cases h
                  rw [hsame]
                  simp only [Bool.and_eq_true, decide_eq_true_eq] at hpresent
                  rw [hpresent.2] at hanswer
                  exact ⟨.refl _ path, fun _ => kindAt_directory hanswer.symm⟩
              · cases h
                rw [hsame]
                exact ⟨.refl _ path, nofun⟩

theorem createFrom_grows (hm : FileSystem.Documented tree place) {depth : Nat}
    (h : (createFrom depth path : StateM W _).run w = (r, w')) :
    (tree w).Grows (tree w') path ∧
      (r = .ok () →
        path = [] ∨ ∃ p, (tree w').resolve path = .ok p ∧ (tree w').isDirectory p = true) := by
  induction depth generalizing path w r w' with
  | zero =>
      simp only [createFrom] at h
      split at h
      · next hempty =>
          cases h
          exact ⟨.refl _ path, fun _ => .inl (List.isEmpty_iff.mp hempty)⟩
      · obtain ⟨hgrows, hok⟩ := ensureDirectory_grows hm h
        exact ⟨hgrows, fun hr => .inr (hok hr)⟩
  | succ depth ih =>
      simp only [createFrom] at h
      split at h
      · next hempty =>
          cases h
          exact ⟨.refl _ path, fun _ => .inl (List.isEmpty_iff.mp hempty)⟩
      · rw [run_bind] at h
        cases hfirst : (ensureDirectory path : StateM W _).run w with
        | mk first v =>
            obtain ⟨hgrows, hok⟩ := ensureDirectory_grows hm hfirst
            rw [hfirst] at h
            cases first with
            | ok done =>
                cases h
                exact ⟨hgrows, fun _ => .inr (hok rfl)⟩
            | error refusal =>
                simp only at h
                split at h
                · rw [run_bind] at h
                  cases hparent : (createFrom depth (Path.parent path) : StateM W _).run v with
                  | mk second x =>
                      obtain ⟨hgrows', -⟩ := ih hparent
                      rw [hparent] at h
                      cases second with
                      | error refusal =>
                          cases h
                          exact ⟨hgrows.trans hgrows'.of_parent, nofun⟩
                      | ok done =>
                          obtain ⟨hgrows'', hok'⟩ := ensureDirectory_grows hm h
                          have hall := (hgrows.trans hgrows'.of_parent).trans hgrows''
                          exact ⟨hall, fun hr => .inr (hok' hr)⟩
                · cases h
                  exact ⟨hgrows, nofun⟩

/-- A directory that has been created is there, and nothing else has changed but that it and
its parents are directories now. -/
theorem createDirectory_ok (hm : FileSystem.Documented tree place)
    (hworking : (tree w).isDirectory (tree w).working = true)
    (h : (createDirectory path : StateM W _).run w = (.ok (), w')) :
    (tree w).Grows (tree w') path ∧ ∃ p, (tree w').LeadsTo path p := by
  simp only [createDirectory, run_bind] at h
  cases hfrom : (createFrom (Path.parts path).length path : StateM W _).run w with
  | mk answer v =>
      obtain ⟨hgrows, hok⟩ := createFrom_grows hm hfrom
      rw [hfrom] at h
      cases answer with
      | error refusal => cases h
      | ok done =>
          cases h
          refine ⟨hgrows, ?_⟩
          obtain rfl | ⟨p, hp, hdir⟩ := hok rfl
          · refine ⟨(tree v).working, rfl, ?_⟩
            rw [hgrows.working]
            exact hgrows.keeps.directory _ hworking
          · exact ⟨p, leadsTo_of_resolve hp hdir⟩

end Batch
end SpiceDeck
