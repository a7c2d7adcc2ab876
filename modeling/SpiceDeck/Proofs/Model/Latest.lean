import SpiceDeck.Proofs.Deck.Renaming
import SpiceDeck.Proofs.Model.Bins
import SpiceDeck.Proofs.Scope.Given
import SpiceDeck.Proofs.Text.Lines

/-!
Things that are entered under a key, each in place of an earlier one with the same key:
the bins of a block under their indices, the models of a subcircuit under their names.
Main statement: the models of a block are the last ones that its bin headers declare,
in the order in which their names came up.
-/

namespace SpiceDeck
open Text

section Keyed

variable {α β κ μ : Type} [DecidableEq κ] [DecidableEq μ] {key : α → κ} {ds xs bs cs : List α}

/-- Enter a thing in place of one with the same key, or else at the end. -/
def enterBy (key : α → κ) (xs : List α) (x : α) : List α :=
  match xs with
  | [] => [x]
  | old :: r => if key old = key x then x :: r else old :: enterBy key r x

/-- Of the things that were declared, the last of each key, in the order in which the
keys came up. -/
structure IsLatest (key : α → κ) (ds xs : List α) : Prop where
  keys : xs.map key = (ds.map key).eraseDups
  last : ∀ x ∈ xs, ∃ earlier later, ds = earlier ++ x :: later ∧ ∀ y ∈ later, key y ≠ key x

theorem nodup_eraseDups (ks : List κ) : ks.eraseDups.Nodup := by
  induction ks using List.reverseRecOn with
  | nil => exact List.nodup_nil
  | append_singleton ks k ih =>
      rw [Model.Block.eraseDups_concat]
      split
      · exact ih
      · next h =>
          refine List.nodup_append.mpr ⟨ih, List.pairwise_singleton _ k, ?_⟩
          rintro a ha b hb rfl
          cases List.mem_singleton.mp hb
          exact h (List.mem_eraseDups.mp ha)

theorem eraseDups_append_eraseDups (ks ls : List κ) :
    (ks ++ ls.eraseDups).eraseDups = (ks ++ ls).eraseDups := by
  induction ls using List.reverseRecOn with
  | nil => rfl
  | append_singleton ls l ih =>
      rw [← List.append_assoc, Model.Block.eraseDups_concat (ks ++ ls), ← ih,
        Model.Block.eraseDups_concat ls]
      by_cases h : l ∈ ls
      · rw [if_pos h, if_pos (List.mem_append_right ks h)]
      · rw [if_neg h, ← List.append_assoc, Model.Block.eraseDups_concat]
        simp only [List.mem_append, List.mem_eraseDups]

theorem eraseDups_map {g : κ → μ} (hg : Function.Injective g) (ks : List κ) :
    (ks.map g).eraseDups = ks.eraseDups.map g := by
  induction ks using List.reverseRecOn with
  | nil => rfl
  | append_singleton ks k ih =>
      rw [List.map_append, List.map_singleton, Model.Block.eraseDups_concat,
        Model.Block.eraseDups_concat, ih]
      by_cases h : k ∈ ks
      · rw [if_pos h, if_pos (List.mem_map_of_mem h)]
      · rw [if_neg h, if_neg fun hk => h ((List.mem_map_of_injective hg).mp hk), List.map_append,
          List.map_singleton]

theorem keys_enterBy (key : α → κ) (xs : List α) (x : α) :
    (enterBy key xs x).map key =
      if key x ∈ xs.map key then xs.map key else xs.map key ++ [key x] := by
  induction xs with
  | nil => rfl
  | cons old r ih =>
      by_cases h : key old = key x
      · simp [enterBy, h]
      · have hne : key x ≠ key old := fun he => h he.symm
        simp only [enterBy, if_neg h, List.map_cons, ih, List.mem_cons, hne, false_or]
        split <;> rfl

/-- What stands in the list after a thing was entered: that thing, and the old ones
with other keys. -/
theorem mem_enterBy (h : (xs.map key).Nodup) {x y : α} (hy : y ∈ enterBy key xs x) :
    y = x ∨ y ∈ xs ∧ key y ≠ key x := by
  induction xs with
  | nil => exact .inl (List.mem_singleton.mp hy)
  | cons old r ih =>
      obtain ⟨hold, hr⟩ := List.nodup_cons.mp h
      simp only [enterBy] at hy
      split at hy
      · next he =>
          obtain rfl | hy := List.mem_cons.mp hy
          · exact .inl rfl
          · refine .inr ⟨List.mem_cons_of_mem _ hy, ?_⟩
            intro hkey
            exact hold (List.mem_map.mpr ⟨y, hy, hkey.trans he.symm⟩)
      · next hne =>
          obtain rfl | hy := List.mem_cons.mp hy
          · exact .inr ⟨List.mem_cons_self, hne⟩
          · exact (ih hr hy).imp_right fun ⟨hmem, hkey⟩ => ⟨List.mem_cons_of_mem _ hmem, hkey⟩

namespace IsLatest

theorem nil (key : α → κ) : IsLatest key [] [] := ⟨rfl, fun _ h => nomatch h⟩

theorem nodup (h : IsLatest key ds xs) : (xs.map key).Nodup := by
  rw [h.keys]
  exact nodup_eraseDups _

theorem concat (h : IsLatest key ds xs) (x : α) : IsLatest key (ds ++ [x]) (enterBy key xs x) where
  keys := by
    rw [keys_enterBy, List.map_append, h.keys, List.map_singleton, Model.Block.eraseDups_concat]
    simp only [List.mem_eraseDups]
  last := by
    intro y hy
    obtain rfl | ⟨hmem, hkey⟩ := mem_enterBy h.nodup hy
    · exact ⟨ds, [], rfl, fun _ h => nomatch h⟩
    · obtain ⟨earlier, later, rfl, hlater⟩ := h.last y hmem
      refine ⟨earlier, later ++ [x], by simp, ?_⟩
      intro z hz
      obtain hz | hz := List.mem_append.mp hz
      · exact hlater z hz
      · cases List.mem_singleton.mp hz
        exact hkey.symm

theorem foldl (h : IsLatest key ds xs) (cs : List α) :
    IsLatest key (ds ++ cs) (cs.foldl (enterBy key) xs) := by
  induction cs generalizing ds xs with
  | nil =>
      rw [List.append_nil]
      exact h
  | cons c r ih =>
      have hr := ih (h.concat c)
      rw [List.append_assoc] at hr
      exact hr

/-- Of what is declared only the last of each key needs to be entered. -/
theorem trans (h : IsLatest key (ds ++ cs) xs) (hc : IsLatest key bs cs) :
    IsLatest key (ds ++ bs) xs where
  keys := by
    rw [h.keys, List.map_append, List.map_append, hc.keys, eraseDups_append_eraseDups]
  last := by
    intro x hx
    obtain ⟨earlier, later, heq, hlater⟩ := h.last x hx
    by_cases hmem : x ∈ cs
    · obtain ⟨before, after, rfl, hafter⟩ := hc.last x hmem
      exact ⟨ds ++ before, after, by simp, hafter⟩
    · obtain ⟨first, rfl, hcs⟩ | ⟨rest, hds, hrest⟩ := List.append_eq_append_iff.mp heq
      · exact absurd (hcs ▸ List.mem_append_right _ List.mem_cons_self) hmem
      · cases rest with
        | nil =>
            have hx : x ∈ [] ++ cs := hrest ▸ List.mem_cons_self
            exact absurd hx hmem
        | cons y rest =>
            obtain ⟨rfl, rfl⟩ := List.cons.inj hrest
            refine ⟨earlier, rest ++ bs, by simp [hds], ?_⟩
            intro z hz hkey
            obtain hz | hz := List.mem_append.mp hz
            · exact hlater z (List.mem_append_left _ hz) hkey
            · have hkeys : key z ∈ cs.map key := by
                rw [hc.keys]
                exact List.mem_eraseDups.mpr (List.mem_map_of_mem hz)
              obtain ⟨c, hmem, hcz⟩ := List.mem_map.mp hkeys
              exact hlater c (List.mem_append_right _ hmem) (hcz.trans hkey)

/-- What is made of the things has the keys that are made of theirs. -/
theorem map {f : α → β} {other : β → μ} {g : κ → μ} (h : IsLatest key ds xs)
    (hg : Function.Injective g) (hf : ∀ d ∈ ds, other (f d) = g (key d)) :
    IsLatest other (ds.map f) (xs.map f) := by
  have hmem : ∀ x ∈ xs, x ∈ ds := by
    intro x hx
    obtain ⟨earlier, later, rfl, -⟩ := h.last x hx
    exact List.mem_append_right _ List.mem_cons_self
  have hkeys : ∀ l : List α, (∀ d ∈ l, d ∈ ds) →
      (l.map f).map other = (l.map key).map g := by
    intro l hl
    rw [List.map_map, List.map_map]
    exact List.map_congr_left fun d hd => hf d (hl d hd)
  constructor
  · rw [hkeys xs hmem, hkeys ds fun _ hd => hd, h.keys, eraseDups_map hg]
  · intro y hy
    obtain ⟨x, hx, rfl⟩ := List.mem_map.mp hy
    obtain ⟨earlier, later, rfl, hlater⟩ := h.last x hx
    refine ⟨earlier.map f, later.map f, by simp, ?_⟩
    intro z hz heq
    obtain ⟨d, hd, rfl⟩ := List.mem_map.mp hz
    rw [hf d (by simp [hd]), hf x (by simp)] at heq
    exact hlater d hd (hg heq)

end IsLatest

end Keyed

namespace Text

theorem lower_ofNat (n : Nat) : lower (ofNat n) = ofNat n := by
  conv_rhs => rw [← List.map_id (ofNat n)]
  apply List.map_congr_left
  intro c hc
  have hdigit : c.isDigit = true := Nat.isDigit_of_mem_toDigits (by decide) (by decide) hc
  have hle : c.toNat ≤ '9'.toNat := by
    simp only [Char.isDigit, ge_iff_le, Bool.and_eq_true, decide_eq_true_eq,
      UInt32.le_iff_toNat_le] at hdigit
    exact hdigit.2
  obtain hsame | ⟨⟨hlarge, -⟩, -⟩ := toLower_cases c
  · exact hsame
  · exact absurd (Nat.le_trans hlarge hle) (by decide)

end Text

namespace Model

def key (m : Model) : Text := lower m.name

theorem enter_eq_enterBy (ms : List Model) (m : Model) : enter ms m = enterBy key ms m := by
  induction ms with
  | nil => rfl
  | cons old r ih =>
      simp only [enter, enterBy, ih, sameName, beq_iff_eq, key]
      congr 1

namespace Block

theorem enterBin_eq_enterBy (bins : List (Nat × Model)) (bin : Nat × Model) :
    enterBin bins bin = enterBy Prod.fst bins bin := by
  induction bins with
  | nil => rfl
  | cons old r ih =>
      simp only [enterBin, insertBin, enterBy] at ih ⊢
      split
      · next h => rw [h]
      · rw [ih]

/-- The common part of a block and its bins, each time that one is opened, with the
value ended that the last of them leaves open. -/
def opened (base keyword : Text) (line : Nat) (ps : List Part) : Model × List (Nat × Model) :=
  if (ps.foldl Part.carryAfter .closed).isOpen then
    closeLast (commonOf base keyword line ps) (binsOf base keyword ps)
  else (commonOf base keyword line ps, binsOf base keyword ps)

/-- The models that a block declares: the common one alone, or else one for each header
of a bin, also where a later header replaces it. -/
def declared (base keyword : Text) (line : Nat) (ps : List Part) : List Model :=
  let (common, bins) := opened base keyword line ps
  if bins.isEmpty then [common]
  else bins.map fun (_, m) => ({ keyword, common } : Model.Block).complete m

theorem base_bin_close (m : Model) : m.close.base = m.base ∧ m.close.bin = m.bin := by
  simp only [close]
  split <;> exact ⟨rfl, rfl⟩

theorem base_bin_opened {base keyword : Text} {line : Nat} {ps : List Part} {p : Nat × Model}
    (h : p ∈ (opened base keyword line ps).2) : p.2.base = base ∧ p.2.bin = some p.1 := by
  have hbins : ∀ q ∈ binsOf base keyword ps, q.2.base = base ∧ q.2.bin = some q.1 := by
    intro q hq
    obtain ⟨s, -, rfl⟩ := List.mem_map.mp hq
    rw [model_section]
    exact ⟨rfl, rfl⟩
  simp only [opened] at h
  split at h
  · simp only [closeLast] at h
    split at h
    · cases h
    · next index m hlast =>
        obtain h | h := List.mem_append.mp h
        · exact hbins p (List.dropLast_subset _ h)
        · cases List.mem_singleton.mp h
          obtain ⟨hbase, hbin⟩ := base_bin_close m
          have hm := hbins (index, m) (List.mem_of_getLast? hlast)
          exact ⟨hbase.trans hm.1, hbin.trans hm.2⟩
  · exact hbins p h

/-- A block gives the last model of each name that its headers declare. -/
theorem isLatest_modelsOf (base keyword : Text) (line : Nat) (ps : List Part) :
    IsLatest key (declared base keyword line ps) (modelsOf base keyword line ps) := by
  have hmodels : modelsOf base keyword line ps =
      if (opened base keyword line ps).2.isEmpty then [(opened base keyword line ps).1]
      else ((opened base keyword line ps).2.foldl (enterBy Prod.fst) []).map fun (_, m) =>
        ({ keyword, common := (opened base keyword line ps).1 } : Model.Block).complete m := by
    have henter : enterBin = enterBy Prod.fst := by
      funext bins bin
      exact enterBin_eq_enterBy bins bin
    rw [← henter]
    rfl
  rw [hmodels]
  simp only [declared]
  split
  · exact (IsLatest.nil key).concat _
  · have hname : Function.Injective fun index => lower (base ++ '.' :: ofNat index) := by
      intro a b h
      simp only [lower, List.map_append, List.map_cons, List.append_cancel_left_eq,
        List.cons.injEq, true_and] at h
      apply ofNat_injective
      rw [← lower_ofNat a, ← lower_ofNat b]
      exact h
    apply ((IsLatest.nil Prod.fst).foldl (opened base keyword line ps).2).map hname
    intro p hp
    obtain ⟨hbase, hbin⟩ := base_bin_opened hp
    have hp : p.2.name = base ++ '.' :: ofNat p.1 := by
      simp only [Model.name, hbin, hbase]
    exact congrArg lower hp

end Block

end Model

end SpiceDeck
