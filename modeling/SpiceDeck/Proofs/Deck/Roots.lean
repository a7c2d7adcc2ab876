import SpiceDeck.Deck.Multiplicity
import SpiceDeck.Proofs.Deck.Renaming

/-!
Roots of the multiplicity variable in a line. A root and a setting leave each other alone: the
names in a root are followed by its parentheses, the name of a setting by its equals sign.
Main statements: scaling commutes with every renaming, is final, and neither declares a
parameter nor takes a declaration away.
-/

namespace SpiceDeck
namespace Deck
open Text

variable {w r t x new rest name var : Text}

/-- The call behind the word of a root: blanks, the variable, blanks and a parenthesis. -/
def argument? (var r : Text) : Option Text :=
  match trimStart ((trimStart r).dropWhile isWord) with
  | ')' :: rest =>
      let name := (trimStart r).takeWhile isWord
      if isName name && name = var then some rest else none
  | _ => none

theorem isRun_sqrt : IsRun "sqrt".toList := by decide

theorem isRun_mult : IsRun "mult".toList := by decide

theorem after?_run {lit : Text} {e : Char} (hlit : IsRun lit) (hw : IsRun w)
    (hr : atWordEnd r = true) (he : isWord e = false) :
    after? (lit ++ [e]) (w ++ r) = if w = lit then after? [e] r else none := by
  induction lit generalizing w with
  | nil =>
      cases w with
      | nil => rfl
      | cons c w =>
          have hne : e ≠ c := by
            rintro rfl
            rw [hw e List.mem_cons_self] at he
            cases he
          simp [after?, hne]
  | cons l ls ih =>
      cases w with
      | nil =>
          cases r with
          | nil => rfl
          | cons c r =>
              have hne : l ≠ c := by
                rintro rfl
                rw [atWordEnd_cons, hlit l List.mem_cons_self] at hr
                cases hr
              simp [after?, hne]
      | cons c w =>
          simp only [List.cons_append, after?]
          rw [ih (fun x hx => hlit x (List.mem_cons_of_mem l hx))
            (fun x hx => hw x (List.mem_cons_of_mem c hx))]
          by_cases hc : l = c
          · simp [hc]
          · simp [hc, Ne.symm hc]

theorem rootOf_word (hw : IsRun w) (hr : atWordEnd r = true) :
    rootOf var (w ++ r) = if w = "sqrt".toList then
        (after? ['('] r).bind fun r => (argument? var r).map fun rest =>
          ("sqrt(mult)".toList, rest)
      else none := by
  have hlit : "sqrt(".toList = "sqrt".toList ++ ['('] := rfl
  rw [rootOf, hlit, after?_run isRun_sqrt hw hr (by decide)]
  by_cases h : w = "sqrt".toList
  · simp only [h, if_true]
    cases after? ['('] r with
    | none => rfl
    | some s =>
        simp only [Option.bind_some, argument?]
        generalize trimStart ((trimStart s).dropWhile isWord) = u
        cases u with
        | nil => rfl
        | cons e rest =>
            by_cases he : e = ')'
            · simp only [he, apply_ite (Option.map _), Option.map_some, Option.map_none]
            · simp [he]
  · simp only [h, if_false]

theorem rootOf_gap (hr : atWordEnd r = true) : rootOf var r = none := by
  have h : rootOf var ([] ++ r) = _ := rootOf_word (by simp [IsRun]) hr
  rwa [if_neg (by decide)] at h

theorem after?_paren (h : after? ['('] r = some x) : r = '(' :: x := by
  cases r with
  | nil => cases h
  | cons c r =>
      simp only [after?] at h
      split at h
      · rename_i hc
        cases h
        rw [hc]
      · cases h

/-- The parts of an argument. -/
theorem argument?_some (h : argument? var r = some rest) :
    ∃ before after, (∀ c ∈ before, isSpace c = true) ∧ (∀ c ∈ after, isSpace c = true) ∧
      isName var = true ∧ IsRun var ∧ r = before ++ (var ++ (after ++ ')' :: rest)) := by
  simp only [argument?] at h
  split at h
  · rename_i s hs
    split at h
    · rename_i hname
      cases h
      simp only [Bool.and_eq_true, decide_eq_true_eq] at hname
      obtain ⟨hname, rfl⟩ := hname
      obtain ⟨after, hafter, hdrop⟩ := exists_blanks_of_trimStart hs
      refine ⟨r.takeWhile isSpace, after, fun _ hc => List.mem_takeWhile_imp hc, hafter, hname,
        fun _ hc => List.mem_takeWhile_imp hc, ?_⟩
      rw [← hdrop, List.takeWhile_append_dropWhile]
      exact List.takeWhile_append_dropWhile.symm
    · cases h
  · cases h

theorem ne_nil_of_isName (h : isName var = true) : var ≠ [] := by
  rintro rfl
  cases h

theorem argument?_whole {before after : Text} (hbefore : ∀ c ∈ before, isSpace c = true)
    (hafter : ∀ c ∈ after, isSpace c = true) (hname : isName var = true) (hvar : IsRun var)
    (x : Text) : argument? var (before ++ (var ++ (after ++ ')' :: x))) = some x := by
  have hend := atWordEnd_blanks hafter (by decide : isWord ')' = false) x
  have htrim : trimStart (before ++ (var ++ (after ++ ')' :: x))) =
      var ++ (after ++ ')' :: x) := by
    obtain ⟨c, v, rfl⟩ := List.exists_cons_of_ne_nil (ne_nil_of_isName hname)
    rw [trimStart_blanks hbefore]
    exact trimStart_cons_of_not_isSpace (not_isSpace_of_isWord (hvar c List.mem_cons_self)) _
  simp only [argument?, htrim, takeWhile_run hvar hend, dropWhile_run hvar hend,
    trimStart_blanks_cons hafter (by decide : isSpace ')' = false)]
  simp [hname]

/-- The text of a call of `sqrt` up to its argument's parenthesis. -/
def rootText (before name after : Text) : Text :=
  "sqrt".toList ++ ('(' :: (before ++ (name ++ (after ++ [')']))))

theorem rootOf_whole {before after : Text} (hbefore : ∀ c ∈ before, isSpace c = true)
    (hafter : ∀ c ∈ after, isSpace c = true) (hname : isName var = true) (hvar : IsRun var)
    (x : Text) : rootOf var (rootText before var after ++ x) = some ("sqrt(mult)".toList, x) := by
  have heq : rootText before var after ++ x =
      "sqrt".toList ++ ('(' :: (before ++ (var ++ (after ++ ')' :: x)))) := by
    simp [rootText]
  have harg := argument?_whole hbefore hafter hname hvar x
  rw [heq, rootOf_word isRun_sqrt rfl, if_pos rfl]
  simp [after?, harg]

theorem rootOf_some (h : rootOf var t = some (new, rest)) :
    ∃ before after, (∀ c ∈ before, isSpace c = true) ∧ (∀ c ∈ after, isSpace c = true) ∧
      isName var = true ∧ IsRun var ∧ t = rootText before var after ++ rest ∧
      new = "sqrt(mult)".toList := by
  cases t with
  | nil => cases h
  | cons c r =>
      cases hc : isWord c with
      | false =>
          rw [rootOf_gap (by rw [atWordEnd_cons, hc, Bool.not_false])] at h
          cases h
      | true =>
          obtain ⟨w, r', heq, -, hw, hr⟩ := exists_run (r := r) hc
          rw [heq, rootOf_word hw hr] at h
          split at h
          · rename_i hsqrt
            obtain ⟨s, hs, hbind⟩ := Option.bind_eq_some_iff.mp h
            obtain ⟨rest', harg, hpair⟩ := Option.map_eq_some_iff.mp hbind
            cases hpair
            obtain ⟨before, after, hbefore, hafter, hname, hvar, hs'⟩ := argument?_some harg
            refine ⟨before, after, hbefore, hafter, hname, hvar, ?_, rfl⟩
            rw [heq, hsqrt, after?_paren hs, hs']
            simp [rootText]
          · cases h

theorem wordPattern_rootOf (var : Text) : WordPattern (rootOf var) where
  gap := by
    intro r hr
    exact rootOf_gap hr
  whole := by
    intro t new rest h
    obtain ⟨before, after, hbefore, hafter, hname, hvar, rfl, rfl⟩ := rootOf_some h
    refine ⟨"sqrt".toList ++ ('(' :: (before ++ (var ++ after))), ')', by simp [rootText],
      by decide, ?_⟩
    intro x
    have hx := rootOf_whole hbefore hafter hname hvar x
    simpa [rootText] using hx
  fresh := by
    intro t new rest h
    obtain ⟨before, after, -, -, -, -, -, rfl⟩ := rootOf_some h
    exact ⟨'s', "qrt(mult)".toList, rfl, by decide⟩
  follows := by
    intro t new rest h x
    obtain ⟨before, after, -, -, -, -, rfl, rfl⟩ := rootOf_some h
    have hold : follower (rootText before var after ++ rest) = some '(' := by
      rw [rootText, List.append_assoc]
      exact follower_run isRun_sqrt rfl
    have hnew : follower ("sqrt(mult)".toList ++ x) = some '(' := by
      have : "sqrt(mult)".toList ++ x = "sqrt".toList ++ ("(mult)".toList ++ x) := rfl
      rw [this]
      exact follower_run isRun_sqrt rfl
    rw [hold, hnew]
    exact ⟨rfl, nofun⟩

/-- An argument is read off its name and what follows it. -/
theorem isSome_argument? :
    (argument? var r).isSome = true ↔
      isName var = true ∧ (trimStart r).takeWhile isWord = var ∧
        follower (trimStart r) = some ')' := by
  simp only [argument?, follower]
  cases hs : trimStart ((trimStart r).dropWhile isWord) with
  | nil => simp
  | cons e s =>
      by_cases he : e = ')'
      · subst he
        by_cases hv : (trimStart r).takeWhile isWord = var
        · simp [hv]
        · simp [hv]
      · simp [he]

theorem isSome_argument?_replaceFrom {b : Pattern} (hb : WordPattern b) (var r : Text) :
    (argument? var (replaceFrom b false 0 r)).isSome = (argument? var r).isSome := by
  rw [Bool.eq_iff_iff, isSome_argument?, isSome_argument?, trimStart_replaceFrom hb]
  generalize trimStart r = s
  refine and_congr_right fun hname => ?_
  cases s with
  | nil => rfl
  | cons c r =>
      cases hc : isWord c with
      | false =>
          have hnil : ∀ u : Text, (c :: u).takeWhile isWord = [] := by simp [hc]
          rw [replaceFrom_gap hb hc, hnil, hnil]
          exact iff_of_false (fun h => ne_nil_of_isName hname h.1.symm)
            (fun h => ne_nil_of_isName hname h.1.symm)
      | true =>
          obtain ⟨w, r', heq, hne, hw, hr⟩ := exists_run (r := r) hc
          rw [heq]
          cases hs : b (w ++ r') with
          | some p =>
              obtain ⟨hsame, hparen⟩ := hb.follows hs (replaceFrom b false 0 p.2)
              rw [replaceFrom_whole hb hs, hsame]
              exact iff_of_false (fun h => hparen h.2) (fun h => hparen h.2)
          | none =>
              have hr' := atWordEnd_replaceFrom hb hr
              rw [replaceFrom_word hb hne hw hr hs, takeWhile_run hw hr, takeWhile_run hw hr',
                follower_run hw hr, follower_run hw hr',
                head?_trimStart_replaceFrom hb (by decide)]

/-- Whether a word starts a root is decided before anything that is replaced behind it: a name
that is replaced is not the argument of a root, neither before nor after. -/
theorem unaffected_rootOf (var : Text) {b : Pattern} (hb : WordPattern b) :
    Unaffected (rootOf var) b := by
  intro w r _ hw hr
  rw [rootOf_word hw hr, rootOf_word hw (atWordEnd_replaceFrom hb hr)]
  split
  · cases r with
    | nil => rfl
    | cons c r =>
        rw [replaceFrom_gap hb (by simpa [atWordEnd_cons] using hr)]
        simp only [after?]
        split
        · have hsame : (argument? var (replaceFrom b false 0 r)).isSome =
              (argument? var r).isSome := isSome_argument?_replaceFrom hb var r
          simp only [Option.bind_some, Option.isSome_map]
          exact hsame
        · rfl
  · rfl

theorem spares_renames_rootOf {newName? : Text → Option Text} {site : Pattern}
    (h : Renames newName? site) (var : Text) : Spares site (rootOf var) := by
  intro t new rest hsite
  obtain ⟨w, blanks, n, rfl, hne, hw, hblanks, hn, rfl⟩ := h.site_some hsite
  have hroot := wordPattern_rootOf var
  have hset : ∀ v : Text, v ≠ [] → IsRun v → ∀ u : Text, (∀ c ∈ u, isSpace c = true) →
      Passes (rootOf var) (v ++ (u ++ ['='])) := by
    intro v hv hrun u hu
    have hend : ∀ x, atWordEnd (u ++ ['='] ++ x) = true := by
      intro x
      rw [List.append_assoc]
      exact atWordEnd_blanks hu (by decide) x
    refine passes_word hroot hv hrun hend ?_
      (passes_append (passes_blanks hroot hu) (passes_gap hroot (by decide)))
    intro x
    rw [rootOf_word hrun (hend x)]
    split
    · cases hparen : after? ['('] (u ++ ['='] ++ x) with
      | none => rfl
      | some s =>
          have hhead := trimStart_blanks_cons hu (by decide : isSpace '=' = false) x
          rw [← List.singleton_append, ← List.append_assoc, after?_paren hparen] at hhead
          cases hhead
    · rfl
  obtain ⟨hnne, hnrun⟩ := h.fresh hn
  refine ⟨w ++ (blanks ++ ['=']), by simp, ?_, hset w hne hw blanks hblanks,
    hset n hnne hnrun [] (by simp)⟩
  intro x
  simpa using h.site_whole hw hblanks hn x

/-- A call of `sqrt` has two words that may start an occurrence. -/
theorem passes_rootText {site : Pattern} (h : WordPattern site) {before name after : Text}
    (hbefore : ∀ c ∈ before, isSpace c = true) (hafter : ∀ c ∈ after, isSpace c = true)
    (hne : name ≠ []) (hname : IsRun name)
    (hcall : ∀ x, site (rootText before name after ++ x) = none)
    (harg : ∀ x, site (name ++ (after ++ ')' :: x)) = none) :
    Passes site (rootText before name after) := by
  have hend : ∀ x, atWordEnd (after ++ [')'] ++ x) = true := by
    intro x
    rw [List.append_assoc]
    exact atWordEnd_blanks hafter (by decide) x
  have hpass : Passes site (name ++ (after ++ [')'])) := by
    refine passes_word h hne hname hend ?_
      (passes_append (passes_blanks h hafter) (passes_gap h (by decide)))
    intro x
    rw [List.append_assoc]
    exact harg x
  refine passes_word h (by decide) isRun_sqrt (fun _ => rfl) ?_
    (passes_append (u := ['(']) (passes_gap h (by decide))
      (passes_append (passes_blanks h hbefore) hpass))
  intro x
  rw [← List.append_assoc]
  exact hcall x

theorem Renames.passes_rootText {newName? : Text → Option Text} {site : Pattern}
    (h : Renames newName? site) {before name after : Text}
    (hbefore : ∀ c ∈ before, isSpace c = true) (hafter : ∀ c ∈ after, isSpace c = true)
    (hne : name ≠ []) (hname : IsRun name) : Passes site (rootText before name after) := by
  apply Deck.passes_rootText h.wordPattern hbefore hafter hne hname
  · intro x
    rw [rootText, List.append_assoc]
    exact h.unset isRun_sqrt rfl rfl (by decide)
  · intro x
    apply h.unset hname (atWordEnd_blanks hafter (by decide) x) (e := ')')
    · rw [trimStart_blanks_cons hafter (by decide)]
      rfl
    · decide

theorem spares_rootOf_renames {newName? : Text → Option Text} {site : Pattern}
    (h : Renames newName? site) (var : Text) : Spares (rootOf var) site := by
  intro t new rest hsite
  obtain ⟨before, after, hbefore, hafter, hname, hvar, rfl, rfl⟩ := rootOf_some hsite
  have hnew : Passes site (rootText [] "mult".toList []) :=
    h.passes_rootText (by simp) (by simp) (by decide) isRun_mult
  exact ⟨rootText before var after, rfl, rootOf_whole hbefore hafter hname hvar,
    h.passes_rootText hbefore hafter (ne_nil_of_isName hname) hvar, hnew⟩

theorem rootOf_other_eq_none (hvar : var ≠ "mult".toList) (x : Text) :
    rootOf var (rootText [] "mult".toList [] ++ x) = none := by
  have harg : argument? var ("mult)".toList ++ x) = none := by
    rw [← Option.not_isSome_iff_eq_none, isSome_argument?]
    rintro ⟨-, hname, -⟩
    have hmult : (trimStart ("mult)".toList ++ x)).takeWhile isWord = "mult".toList :=
      takeWhile_run (w := "mult".toList) (r := ')' :: x) isRun_mult rfl
    exact hvar (hname.symm.trans hmult)
  have hsplit : rootText [] "mult".toList [] ++ x =
      "sqrt".toList ++ ('(' :: ("mult)".toList ++ x)) := rfl
  rw [hsplit, rootOf_word isRun_sqrt rfl, if_pos rfl]
  simp only [after?, if_true, Option.bind_some, harg]
  rfl

/-- Scaled roots stay. Where the variable is `mult` they are scaled again to the same text. -/
theorem replaceAll_rootOf_final (var t : Text) :
    replaceAll (rootOf var) (replaceAll (rootOf var) t) = replaceAll (rootOf var) t := by
  have hp := wordPattern_rootOf var
  refine replaceFrom_replaceFrom hp ?_ (unaffected_rootOf var hp) t
  intro t new rest hsite x
  obtain ⟨before, after, -, -, -, -, -, rfl⟩ := rootOf_some hsite
  have htext : "sqrt(mult)".toList = rootText [] "mult".toList [] := rfl
  by_cases hvar : var = "mult".toList
  · subst hvar
    rw [htext]
    exact replaceFrom_whole hp
      (rootOf_whole (by simp) (by simp) (by decide) isRun_mult x)
  · refine (passes_rootText hp (by simp) (by simp) (by decide) isRun_mult
      (rootOf_other_eq_none hvar) ?_ x).1
    intro x
    rw [rootOf_word isRun_mult rfl, if_neg (by decide)]

section Independence
variable {newName? : Text → Option Text} {site : Pattern}

theorem replaceAll_rootOf_comm (h : Renames newName? site) (var t : Text) :
    replaceAll (rootOf var) (replaceAll site t) = replaceAll site (replaceAll (rootOf var) t) :=
  replaceFrom_comm (wordPattern_rootOf var) h.wordPattern (spares_rootOf_renames h var)
    (spares_renames_rootOf h var) (unaffected_rootOf var h.wordPattern)
    (h.unaffected (wordPattern_rootOf var)) t

/-- Renaming neither makes a root nor takes one away. -/
theorem occurs_rootOf_replaceAll (h : Renames newName? site) (var t : Text) :
    occurs (rootOf var) false (replaceAll site t) = occurs (rootOf var) false t :=
  occurs_replaceFrom (wordPattern_rootOf var) h.wordPattern (spares_renames_rootOf h var)
    (unaffected_rootOf var h.wordPattern) t

/-- Scaling neither declares a parameter nor takes a declaration away. -/
theorem declaresMult_replaceAll (var t : Text) :
    declaresMult (replaceAll (rootOf var) t) = declaresMult t := by
  have hdecl : Renames (newNameFor "mult".toList "mult".toList)
      (renameTo "mult".toList "mult".toList) :=
    renames_renameTo (by decide) isRun_mult (by decide) isRun_mult
  have hsame : ∀ inWord l, occurs (renameTo "mult".toList "mult".toList) inWord l =
      occurs (fun t => (afterSetting? "mult".toList t).map fun r => ([], r)) inWord l := by
    intro inWord l
    induction l generalizing inWord with
    | nil => rfl
    | cons c r ih => simp only [occurs, renameTo, ih, Option.isSome_map]
  simp only [declaresMult, ← hsame]
  exact occurs_replaceFrom hdecl.wordPattern (wordPattern_rootOf var)
    (spares_rootOf_renames hdecl var) (hdecl.unaffected (wordPattern_rootOf var)) t

end Independence

end Deck
end SpiceDeck
