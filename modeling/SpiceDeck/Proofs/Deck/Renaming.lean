import SpiceDeck.Deck.Rename
import SpiceDeck.Proofs.Text.Replace

/-!
Renaming of parameters in a line. A parameter is renamed where an equals sign follows its
name, so whether a word is renamed depends on this word and on the next character that is not
blank. Main statements: the renamings of a deck's final form are word patterns, and renaming a
second time changes nothing where no new name is an old one.
-/

namespace SpiceDeck
namespace Text

theorem toLower_cases (c : Char) :
    c.toLower = c ∨ (0x41 ≤ c.toNat ∧ c.toNat ≤ 0x5A) ∧ c.toLower.toNat = c.toNat + 32 := by
  delta Char.toLower
  split
  · rename_i h
    simp only [ge_iff_le, UInt32.le_iff_toNat_le] at h
    have hbounds : 0x41 ≤ c.val.toNat ∧ c.val.toNat ≤ 0x5A := h
    have hsum : (c.val + 32).toNat = c.val.toNat + 32 := by
      rw [UInt32.toNat_add]
      exact Nat.mod_eq_of_lt (Nat.lt_of_le_of_lt (Nat.add_le_add_right hbounds.2 32) (by decide))
    exact .inr ⟨hbounds, hsum⟩
  · exact .inl rfl

theorem isWord_of_toLower {c : Char} (h : isWord c.toLower = true) : isWord c = true := by
  obtain hlow | ⟨hbounds, -⟩ := toLower_cases c
  · rwa [hlow] at h
  · have hall : ∀ n < 0x5B, 0x41 ≤ n → inRanges n wordRanges = true := by decide
    exact hall c.toNat (by omega) hbounds.1

theorem isWord_of_fold {c : Char} (h : isWord (fold c) = true) : isWord c = true := by
  simp only [fold] at h
  split at h
  · rename_i hc
    rw [hc]
    decide
  · split at h
    · rename_i hc
      rw [hc]
      decide +kernel
    · exact isWord_of_toLower h

/-- Only the long s and the Kelvin sign fold to another letter than their lower case. -/
theorem toLower_of_fold {c l : Char} (h : fold c = l) (hs : l ≠ 's') (hk : l ≠ 'k') :
    c.toLower = l := by
  simp only [fold] at h
  split at h
  · exact absurd h.symm hs
  · split at h
    · exact absurd h.symm hk
    · exact h

theorem isRun_iff (w : Text) : w.all isWord = true ↔ IsRun w := List.all_eq_true

instance (w : Text) : Decidable (IsRun w) := decidable_of_iff _ (isRun_iff w)

theorem atWordEnd_blanks {u : Text} (hu : ∀ c ∈ u, isSpace c = true) {e : Char}
    (he : isWord e = false) (x : Text) : atWordEnd (u ++ e :: x) = true := by
  cases u with
  | nil => rw [List.nil_append, atWordEnd_cons, he, Bool.not_false]
  | cons c u =>
      rw [List.cons_append, atWordEnd_cons, not_isWord_of_isSpace (hu c List.mem_cons_self),
        Bool.not_false]

/-- The blanks in front of a character that is none. -/
theorem exists_blanks_of_trimStart {r x : Text} {e : Char} (h : trimStart r = e :: x) :
    ∃ u, (∀ c ∈ u, isSpace c = true) ∧ r = u ++ e :: x :=
  ⟨r.takeWhile isSpace, fun _ hc => List.mem_takeWhile_imp hc, by
    rw [← h]
    exact List.takeWhile_append_dropWhile.symm⟩

theorem trimStart_blanks_cons {u : Text} (hu : ∀ c ∈ u, isSpace c = true) {e : Char}
    (he : isSpace e = false) (x : Text) : trimStart (u ++ e :: x) = e :: x := by
  rw [trimStart_blanks hu, trimStart_cons_of_not_isSpace he]

end Text

namespace Deck
open Text

variable {w r t x new rest name var : Text}

/-- What follows an equals sign, with nothing but blanks before it. -/
def afterEquals? (r : Text) : Option Text :=
  match trimStart r with
  | '=' :: r => some r
  | _ => none

theorem afterEquals?_some (h : afterEquals? r = some rest) : trimStart r = '=' :: rest := by
  simp only [afterEquals?] at h
  split at h
  · rename_i r' heq
    cases h
    exact heq
  · cases h

theorem afterEquals?_of_head? {e : Char} (h : (trimStart r).head? = some e) (he : e ≠ '=') :
    afterEquals? r = none := by
  rw [← Option.not_isSome_iff_eq_none, Option.isSome_iff_exists]
  rintro ⟨rest, hrest⟩
  rw [afterEquals?_some hrest] at h
  cases h
  exact he rfl

theorem isSome_afterEquals? : (afterEquals? r).isSome = true ↔ (trimStart r).head? = some '=' := by
  constructor
  · intro h
    obtain ⟨rest, hrest⟩ := Option.isSome_iff_exists.mp h
    rw [afterEquals?_some hrest]
    rfl
  · intro h
    cases hr : trimStart r with
    | nil => rw [hr] at h; cases h
    | cons c s =>
        rw [hr] at h
        cases h
        simp [afterEquals?, hr]

/-- A literal of word characters is the whole first word, or a word goes on behind it. -/
theorem afterFolded?_run (hname : IsRun name) (hw : IsRun w) (hr : atWordEnd r = true) :
    (w.map fold = name ∧ afterFolded? name (w ++ r) = some r) ∨
      (w.map fold ≠ name ∧ ∀ rest, afterFolded? name (w ++ r) = some rest →
        atWordEnd rest = false) := by
  induction name generalizing w with
  | nil =>
      cases w with
      | nil => exact .inl ⟨rfl, rfl⟩
      | cons c w =>
          refine .inr ⟨by simp, fun rest h => ?_⟩
          cases h
          rw [List.cons_append, atWordEnd_cons, hw c List.mem_cons_self, Bool.not_true]
  | cons l ls ih =>
      cases w with
      | nil =>
          refine .inr ⟨by simp, fun rest h => ?_⟩
          cases r with
          | nil => cases h
          | cons c r =>
              have hl : l ≠ fold c := by
                rintro rfl
                rw [atWordEnd_cons, isWord_of_fold (hname _ List.mem_cons_self)] at hr
                cases hr
              simp [afterFolded?, hl] at h
      | cons c w =>
          by_cases hl : l = fold c
          · have hrec := ih (fun x hx => hname x (List.mem_cons_of_mem l hx))
              (fun x hx => hw x (List.mem_cons_of_mem c hx))
            simpa [afterFolded?, hl] using hrec
          · right
            simp [afterFolded?, hl, Ne.symm hl]

/-- A setting is read off the first word and what follows it. -/
theorem afterSetting?_run (hname : IsRun name) (hw : IsRun w) (hr : atWordEnd r = true) :
    afterSetting? name (w ++ r) = if w.map fold = name then afterEquals? r else none := by
  obtain ⟨hfold, hafter⟩ | ⟨hfold, hmore⟩ := afterFolded?_run hname hw hr
  · rw [if_pos hfold]
    simp only [afterSetting?, hafter]
    rfl
  · rw [if_neg hfold]
    cases hafter : afterFolded? name (w ++ r) with
    | none => simp only [afterSetting?, hafter]
    | some rest =>
        cases rest with
        | nil => cases hmore [] hafter
        | cons c rest =>
            have hc : isWord c = true := by simpa [atWordEnd_cons] using hmore _ hafter
            have heq : c ≠ '=' := by
              rintro rfl
              revert hc
              decide
            have htrim := trimStart_cons_of_not_isSpace (not_isSpace_of_isWord hc) rest
            simp [afterSetting?, hafter, htrim, heq]

theorem afterSetting?_gap (hne : name ≠ []) (hname : IsRun name) (hr : atWordEnd r = true) :
    afterSetting? name r = none := by
  have h := afterSetting?_run (w := []) hname (by simp [IsRun]) hr
  rw [if_neg (by simpa using hne.symm)] at h
  exact h

/-- The pattern gives parameters new names, which depend on the name in lower case. -/
structure Renames (newName? : Text → Option Text) (site : Pattern) : Prop where
  gap : ∀ {r : Text}, atWordEnd r = true → site r = none
  word : ∀ {w r : Text}, IsRun w → atWordEnd r = true →
    site (w ++ r) = (newName? (w.map fold)).bind fun new =>
      (afterEquals? r).map fun rest => (new ++ ['='], rest)
  fresh : ∀ {name new : Text}, newName? name = some new → new ≠ [] ∧ IsRun new

section Renames
variable {newName? : Text → Option Text} {site : Pattern}

/-- An occurrence is a name with its equals sign. -/
theorem Renames.site_some (h : Renames newName? site) (hsite : site t = some (new, rest)) :
    ∃ w blanks n, t = w ++ (blanks ++ '=' :: rest) ∧ w ≠ [] ∧ IsRun w ∧
      (∀ c ∈ blanks, isSpace c = true) ∧ newName? (w.map fold) = some n ∧ new = n ++ ['='] := by
  cases t with
  | nil =>
      rw [h.gap rfl] at hsite
      cases hsite
  | cons c r =>
      cases hc : isWord c with
      | false =>
          rw [h.gap (by rw [atWordEnd_cons, hc, Bool.not_false])] at hsite
          cases hsite
      | true =>
          obtain ⟨w, r', heq, hne, hw, hr⟩ := exists_run (r := r) hc
          rw [heq, h.word hw hr] at hsite
          obtain ⟨n, hn, hmap⟩ := Option.bind_eq_some_iff.mp hsite
          obtain ⟨s, hs, hpair⟩ := Option.map_eq_some_iff.mp hmap
          cases hpair
          obtain ⟨blanks, hblanks, hr'⟩ := exists_blanks_of_trimStart (afterEquals?_some hs)
          exact ⟨w, blanks, n, by rw [heq, hr'], hne, hw, hblanks, hn, rfl⟩

theorem Renames.site_whole (h : Renames newName? site) {n blanks : Text} (hw : IsRun w)
    (hblanks : ∀ c ∈ blanks, isSpace c = true) (hn : newName? (w.map fold) = some n) (x : Text) :
    site (w ++ (blanks ++ '=' :: x)) = some (n ++ ['='], x) := by
  have heq : afterEquals? (blanks ++ '=' :: x) = some x := by
    simp only [afterEquals?, trimStart_blanks_cons hblanks (by decide : isSpace '=' = false)]
  rw [h.word hw (atWordEnd_blanks hblanks (by decide) x), hn, heq]
  rfl

theorem Renames.wordPattern (h : Renames newName? site) : WordPattern site where
  gap := h.gap
  whole := by
    intro t new rest hsite
    obtain ⟨w, blanks, n, rfl, -, hw, hblanks, hn, rfl⟩ := h.site_some hsite
    refine ⟨w ++ blanks, '=', by rw [List.append_assoc], by decide, ?_⟩
    intro x
    rw [List.append_assoc]
    exact h.site_whole hw hblanks hn x
  fresh := by
    intro t new rest hsite
    obtain ⟨w, blanks, n, -, -, -, -, hn, rfl⟩ := h.site_some hsite
    obtain ⟨hne, hrun⟩ := h.fresh hn
    obtain ⟨c, n, rfl⟩ := List.exists_cons_of_ne_nil hne
    exact ⟨c, n ++ ['='], rfl, hrun c List.mem_cons_self⟩
  follows := by
    intro t new rest hsite x
    obtain ⟨w, blanks, n, rfl, -, hw, hblanks, hn, rfl⟩ := h.site_some hsite
    have hold : follower (w ++ (blanks ++ '=' :: rest)) = some '=' := by
      rw [follower_run hw (atWordEnd_blanks hblanks (by decide) rest),
        trimStart_blanks_cons hblanks (by decide)]
      rfl
    have hnew : follower (n ++ ['='] ++ x) = some '=' := by
      rw [List.append_assoc]
      exact follower_run (h.fresh hn).2 rfl
    rw [hold, hnew]
    exact ⟨rfl, nofun⟩

/-- A name that something other than an equals sign follows is not renamed. -/
theorem Renames.unset (h : Renames newName? site) {e : Char} (hw : IsRun w)
    (hr : atWordEnd r = true) (hhead : (trimStart r).head? = some e) (he : e ≠ '=') :
    site (w ++ r) = none := by
  rw [h.word hw hr, afterEquals?_of_head? hhead he]
  cases newName? (w.map fold) with
  | none => rfl
  | some n => rfl

/-- Whether a name is set is decided before anything that is replaced behind it. -/
theorem Renames.unaffected (h : Renames newName? site) {b : Pattern} (hb : WordPattern b) :
    Unaffected site b := by
  intro w r _ hw hr
  rw [h.word hw hr, h.word hw (atWordEnd_replaceFrom hb hr)]
  cases newName? (w.map fold) with
  | none => rfl
  | some n =>
      have hsame : (afterEquals? (replaceFrom b false 0 r)).isSome = (afterEquals? r).isSome := by
        rw [Bool.eq_iff_iff, isSome_afterEquals?, isSome_afterEquals?]
        exact head?_trimStart_replaceFrom hb (by decide) r
      simpa using hsame

/-- Names that are new stay. -/
theorem Renames.final (h : Renames newName? site)
    (hfinal : ∀ name n, newName? name = some n → newName? (n.map fold) = none) (t : Text) :
    replaceAll site (replaceAll site t) = replaceAll site t := by
  have hpattern := h.wordPattern
  refine replaceFrom_replaceFrom hpattern ?_ (h.unaffected hpattern) t
  intro t new rest hsite x
  obtain ⟨w, blanks, n, -, -, -, -, hn, rfl⟩ := h.site_some hsite
  obtain ⟨hne, hrun⟩ := h.fresh hn
  have hnone : ∀ x, site (n ++ (['='] ++ x)) = none := by
    intro x
    rw [h.word hrun rfl, hfinal _ n hn]
    rfl
  exact (passes_word hpattern hne hrun (fun _ => rfl) hnone
    (passes_gap hpattern (by decide)) x).1

end Renames

/-- One parameter gets a new name. -/
def renameTo (name new : Text) : Pattern := fun t =>
  (afterSetting? name t).map fun r => (new ++ ['='], r)

def newNameFor (name new : Text) (n : Text) : Option Text := if n = name then some new else none

theorem newNameFor_some {n m : Text} (h : newNameFor name new n = some m) : n = name ∧ m = new := by
  simp only [newNameFor] at h
  split at h
  · rename_i hn
    exact ⟨hn, (Option.some.inj h).symm⟩
  · cases h

theorem renames_renameTo (hne : name ≠ []) (hname : IsRun name) (hnew : new ≠ [])
    (hrun : IsRun new) : Renames (newNameFor name new) (renameTo name new) where
  gap := by
    intro r hr
    rw [renameTo, afterSetting?_gap hne hname hr]
    rfl
  word := by
    intro w r hw hr
    rw [renameTo, afterSetting?_run hname hw hr, newNameFor]
    split
    · rfl
    · rfl
  fresh := by
    intro n m h
    rw [(newNameFor_some h).2]
    exact ⟨hnew, hrun⟩

/-- Renamings of different parameters make one renaming. -/
theorem Renames.or {f g : Text → Option Text} {a b : Pattern} (ha : Renames f a)
    (hb : Renames g b) (hfg : ∀ n, f n = none ∨ g n = none) :
    Renames (fun n => (f n).or (g n)) (fun t => (a t).or (b t)) where
  gap := by
    intro r hr
    simp only [ha.gap hr, hb.gap hr, Option.or_none]
  word := by
    intro w r hw hr
    simp only [ha.word hw hr, hb.word hw hr]
    obtain h | h := hfg (w.map fold)
    · simp only [h, Option.bind_none, Option.none_or]
    · simp only [h, Option.bind_none, Option.or_none]
  fresh := by
    intro n m h
    obtain h | ⟨-, h⟩ := Option.or_eq_some_iff.mp h
    · exact ha.fresh h
    · exact hb.fresh h

def coefficientName? (n : Text) : Option Text :=
  (newNameFor "tc1r".toList "tc1".toList n).or (newNameFor "tc2r".toList "tc2".toList n)

theorem renames_perimeter : Renames (newNameFor "perim".toList "pj".toList) perimeter :=
  renames_renameTo (by decide) (by decide) (by decide) (by decide)

theorem renames_coefficient : Renames coefficientName? coefficient := by
  refine Renames.or (a := renameTo "tc1r".toList "tc1".toList)
    (b := renameTo "tc2r".toList "tc2".toList)
    (renames_renameTo (by decide) (by decide) (by decide) (by decide))
    (renames_renameTo (by decide) (by decide) (by decide) (by decide)) ?_
  intro n
  by_cases h : n = "tc1r".toList
  · right
    rw [h]
    rfl
  · left
    exact if_neg h

theorem coefficientName?_some {n m : Text} (h : coefficientName? n = some m) :
    (n = "tc1r".toList ∧ m = "tc1".toList) ∨ (n = "tc2r".toList ∧ m = "tc2".toList) := by
  obtain h | ⟨-, h⟩ := Option.or_eq_some_iff.mp h
  · exact .inl (newNameFor_some h)
  · exact .inr (newNameFor_some h)

end Deck
end SpiceDeck
