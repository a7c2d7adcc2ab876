import SpiceDeck.Proofs.Deck.Statements

/-!
The final form of a deck. Each of its three passes is final, and each two of them commute: a
renaming sees the lines of a subcircuit as they are, and scaling the statements as they are. Main
statement: the final form of a deck is its own final form.
-/

namespace SpiceDeck
namespace Deck
open Text

variable {line var : Text} {letter : Char} {owner : Option Char}
  {newName? : Text → Option Text} {site : Pattern}

theorem scaleLine_scaleLine (var line : Text) :
    scaleLine var (scaleLine var line) = scaleLine var line := by
  rw [scaleLine, isPassive_scaleLine]
  unfold scaleLine
  split
  · rfl
  · exact replaceAll_rootOf_final var line

section Continuations
variable {first rest : List Text}

theorem foldl_ownerAfter_continuations (h : ∀ line ∈ first, isContinuation line = true)
    (owner : Option Char) : first.foldl ownerAfter owner = owner := by
  induction first with
  | nil => rfl
  | cons line first ih =>
      obtain ⟨hplus, hrest⟩ := List.forall_mem_cons.mp h
      rw [List.foldl_cons, ownerAfter_continuation hplus, ih hrest]

/-- The continuations of a command belong to it and are not renamed. -/
theorem RenamesIn.renameFrom_continuations (hin : RenamesIn letter newName? site)
    (h : ∀ line ∈ first, isContinuation line = true) :
    renameFrom letter site (some '.') first = first := by
  induction first with
  | nil => rfl
  | cons line first ih =>
      obtain ⟨hplus, hrest⟩ := List.forall_mem_cons.mp h
      have hne : some '.' ≠ some letter := fun heq => hin.statement (Option.some.inj heq).symm
      rw [renameFrom_cons, ownerAfter_continuation hplus, renameLine_of_ne hne, ih hrest]

theorem RenamesIn.renameFrom_header (hin : RenamesIn letter newName? site)
    (h : ∀ line ∈ first, isContinuation line = true) (rest : List Text) :
    renameFrom letter site (some '.') (first ++ rest) =
      first ++ renameFrom letter site (some '.') rest := by
  rw [renameFrom_append, hin.renameFrom_continuations h, foldl_ownerAfter_continuations h]

theorem head?_map_scaleLine (h : rest.head?.any isContinuation = false) (var : Text) :
    (rest.map (scaleLine var)).head?.any isContinuation = false := by
  cases rest with
  | nil => rfl
  | cons line rest => simpa using h

theorem RenamesIn.head?_renameFrom (hin : RenamesIn letter newName? site)
    (h : rest.head?.any isContinuation = false) (owner : Option Char) :
    (renameFrom letter site owner rest).head?.any isContinuation = false := by
  cases rest with
  | nil => rfl
  | cons line rest =>
      have hlead := hin.lead_renameLine owner line
      simpa [renameFrom_cons, isContinuation, hlead] using h

end Continuations

namespace Circuit

theorem head?_trailing (c : Circuit) : c.trailing.head?.any isContinuation = false := by
  cases ht : c.trailing with
  | nil => rfl
  | cons line rest =>
      have hnot := List.head?_dropWhile_not isContinuation c.inside
      rw [← trailing, ht] at hnot
      exact hnot

section Parts
variable {c : Circuit} {first rest : List Text}

theorem leading_eq (hinside : c.inside = first ++ rest)
    (hfirst : ∀ line ∈ first, isContinuation line = true)
    (hrest : rest.head?.any isContinuation = false) : c.leading = first := by
  rw [leading, hinside, List.takeWhile_append_of_pos hfirst]
  cases rest with
  | nil => simp
  | cons line rest =>
      have hline : isContinuation line = false := hrest
      simp [hline]

theorem trailing_eq (hinside : c.inside = first ++ rest)
    (hfirst : ∀ line ∈ first, isContinuation line = true)
    (hrest : rest.head?.any isContinuation = false) : c.trailing = rest := by
  rw [trailing, hinside, List.dropWhile_append_of_pos hfirst]
  cases rest with
  | nil => rfl
  | cons line rest =>
      have hline : isContinuation line = false := hrest
      simp [hline]

end Parts

theorem foldl_ownerAfter_scaled (var : Text) (c : Circuit) (owner : Option Char) :
    (c.scaled var).lines.foldl ownerAfter owner = c.lines.foldl ownerAfter owner := by
  have hscaled : ∀ (ls : List Text) (owner : Option Char),
      (ls.map (scaleLine var)).foldl ownerAfter owner = ls.foldl ownerAfter owner := by
    intro ls
    induction ls with
    | nil => exact fun _ => rfl
    | cons line ls ih =>
        intro owner
        rw [List.map_cons, List.foldl_cons, List.foldl_cons, ih,
          ownerAfter_congr (lead_scaleLine var line)]
  have hinside : ∀ owner, (c.scaled var).inside.foldl ownerAfter owner =
      c.inside.foldl ownerAfter owner := by
    intro owner
    rw [scaled, List.foldl_append, hscaled,
      foldl_ownerAfter_continuations (c.isContinuation_scaled_leading var),
      ← c.leading_append_trailing, List.foldl_append,
      foldl_ownerAfter_continuations fun _ hl => isContinuation_of_mem_leading hl]
  rw [lines, lines, List.foldl_cons, List.foldl_cons, List.foldl_append, List.foldl_append, hinside]
  rfl

section Renamed
variable (h : RenamesIn letter newName? site)
include h

def renamed (c : Circuit) : Circuit where
  opening := c.opening
  inside := renameFrom letter site (some '.') c.inside
  closing := c.closing
  opens := c.opens
  plain := h.isPlain_renameFrom c.plain _
  closes := c.closes

theorem renameFrom_lines (c : Circuit) (owner : Option Char) :
    renameFrom letter site owner c.lines = (c.renamed h).lines := by
  have hopening := lead_of_opens c.opens
  have hclosing : ∀ owner, renameFrom letter site owner c.closing.toList = c.closing.toList := by
    intro owner
    cases hc : c.closing with
    | none => rfl
    | some line =>
        have hdot := lead_of_closes (c.closes line hc)
        rw [Option.toList_some, renameFrom_cons, h.renameLine_dot hdot]
        rfl
  rw [lines, renameFrom_cons, h.renameLine_dot hopening, ownerAfter_dot hopening,
    renameFrom_append, hclosing]
  rfl

theorem inside_renamed (c : Circuit) :
    (c.renamed h).inside = c.leading ++ renameFrom letter site (some '.') c.trailing := by
  rw [renamed, ← h.renameFrom_header fun _ hl => isContinuation_of_mem_leading hl,
    c.leading_append_trailing]

theorem leading_renamed (c : Circuit) : (c.renamed h).leading = c.leading :=
  leading_eq (inside_renamed h c) (fun _ hl => isContinuation_of_mem_leading hl)
    (h.head?_renameFrom c.head?_trailing _)

theorem trailing_renamed (c : Circuit) :
    (c.renamed h).trailing = renameFrom letter site (some '.') c.trailing :=
  trailing_eq (inside_renamed h c) (fun _ hl => isContinuation_of_mem_leading hl)
    (h.head?_renameFrom c.head?_trailing _)

theorem added_renamed (var : Text) (c : Circuit) : (c.renamed h).added var = c.added var := by
  have hroot : (c.renamed h).hasRoot var = c.hasRoot var :=
    h.any_hasRoot_renameFrom var (some '.') c.inside
  rw [added, hroot, declaresAtOnce, leading_renamed]
  rfl

theorem scaled_renamed (var : Text) (c : Circuit) :
    (c.renamed h).scaled var = (c.scaled var).renamed h := by
  have hinside : ((c.scaled var).renamed h).inside =
      c.leading.map (scaleLine var) ++ c.added var ++
        (renameFrom letter site (some '.') c.trailing).map (scaleLine var) := by
    rw [← h.renameFrom_map_scaleLine]
    exact h.renameFrom_header (c.isContinuation_scaled_leading var) _
  ext1
  · rfl
  · rw [hinside]
    simp only [scaled, leading_renamed, trailing_renamed, added_renamed]
  · rfl

end Renamed

section Scaled
variable (var : Text) (c : Circuit)

theorem inside_scaled : (c.scaled var).inside =
    c.leading.map (scaleLine var) ++ c.added var ++ c.trailing.map (scaleLine var) := rfl

theorem leading_scaled : (c.scaled var).leading = c.leading.map (scaleLine var) ++ c.added var :=
  leading_eq rfl (c.isContinuation_scaled_leading var) (head?_map_scaleLine c.head?_trailing var)

theorem trailing_scaled : (c.scaled var).trailing = c.trailing.map (scaleLine var) :=
  trailing_eq rfl (c.isContinuation_scaled_leading var) (head?_map_scaleLine c.head?_trailing var)

theorem declaresAtOnce_scaled :
    (c.scaled var).declaresAtOnce = (c.declaresAtOnce || (c.added var).any declaresMult) := by
  rw [declaresAtOnce, leading_scaled, List.any_cons, List.any_append,
    any_declaresMult_map_scaleLine, ← Bool.or_assoc]
  rfl

theorem scaled_of_not_hasRoot (h : c.hasRoot var = false) : c.scaled var = c := by
  have hadded : c.added var = [] := by simp [added, h]
  have hsame : ∀ line ∈ c.inside, scaleLine var line = line := by
    intro line hline
    exact scaleLine_of_not_hasRoot (Bool.eq_false_iff.mpr (List.any_eq_false.mp h line hline))
  ext1
  · rfl
  · rw [inside_scaled, hadded, List.append_nil, ← List.map_append, c.leading_append_trailing]
    exact (List.map_congr_left (g := id) hsame).trans (List.map_id _)
  · rfl

/-- The second time there is a declaration. -/
theorem added_scaled (h : c.hasRoot var = true) : (c.scaled var).added var = [] := by
  rw [added, declaresAtOnce_scaled, any_declaresMult_added, h]
  change (if c.closing.isSome && _ && _ then [multLine] else []) = []
  cases c.closing.isSome with
  | false => simp
  | true =>
      cases c.declaresAtOnce with
      | false => simp
      | true => simp

theorem scaled_scaled : (c.scaled var).scaled var = c.scaled var := by
  cases h : c.hasRoot var with
  | false => rw [scaled_of_not_hasRoot var c h, scaled_of_not_hasRoot var c h]
  | true =>
      have hmult : scaleLine var multLine = multLine := rfl
      have hadded : (c.added var).map (scaleLine var) = c.added var := by
        unfold added
        split
        · rw [List.map_singleton, hmult]
        · rfl
      have htwice : ∀ ls : List Text,
          (ls.map (scaleLine var)).map (scaleLine var) = ls.map (scaleLine var) := by
        intro ls
        rw [List.map_map]
        exact List.map_congr_left fun line _ => scaleLine_scaleLine var line
      have hinside : ((c.scaled var).scaled var).inside =
          (c.leading.map (scaleLine var) ++ c.added var).map (scaleLine var) ++
            (c.scaled var).added var ++ (c.trailing.map (scaleLine var)).map (scaleLine var) := by
        rw [inside_scaled, leading_scaled, trailing_scaled]
      ext1
      · rfl
      · rw [hinside, added_scaled var c h, List.map_append, hadded, htwice, htwice, List.append_nil]
        rfl
      · rfl

end Scaled
end Circuit

/-- Behind an opening line there is a subcircuit. One without a closing line goes up to the end
or to the next opening line. -/
theorem exists_circuit (h : opensSubcircuit line = true) (lines : List Text) :
    ∃ (c : Circuit) (after : List Text), line :: lines = c.lines ++ after ∧
      (c.closing = none → after.head?.all opensSubcircuit = true) := by
  let isPlain := fun l => !opensSubcircuit l && !closesSubcircuit l
  have hplain : ∀ l ∈ lines.takeWhile isPlain, IsPlain l := by
    intro l hl
    simpa [isPlain, IsPlain] using List.mem_takeWhile_imp hl
  have hsplit : lines.takeWhile isPlain ++ lines.dropWhile isPlain = lines :=
    List.takeWhile_append_dropWhile
  have hnever : ∀ l ∈ (none : Option Text), closesSubcircuit l = true := by simp
  cases hrest : lines.dropWhile isPlain with
  | nil =>
      rw [hrest] at hsplit
      refine ⟨⟨line, lines.takeWhile isPlain, none, h, hplain, hnever⟩, [], ?_, fun _ => rfl⟩
      rw [Circuit.lines, Option.toList_none, hsplit, List.append_nil]
  | cons next after =>
      rw [hrest] at hsplit
      cases hcloses : closesSubcircuit next with
      | true =>
          refine ⟨⟨line, lines.takeWhile isPlain, some next, h, hplain, ?_⟩, after, ?_, ?_⟩
          · intro l hl
            rwa [← Option.some.inj hl]
          · rw [Circuit.lines, Option.toList_some, List.cons_append, List.append_assoc,
              List.singleton_append, hsplit]
          · intro hnone
            cases hnone
      | false =>
          refine ⟨⟨line, lines.takeWhile isPlain, none, h, hplain, hnever⟩, next :: after, ?_, ?_⟩
          · rw [Circuit.lines, Option.toList_none, List.append_nil, List.cons_append, hsplit]
          · intro _
            have hnot := List.head?_dropWhile_not isPlain lines
            rw [hrest] at hnot
            simpa [isPlain, hcloses] using hnot

theorem head?_scaleRoots {lines : List Text} (h : lines.head?.all opensSubcircuit = true)
    (var : Text) : (scaleRoots var lines).head?.all opensSubcircuit = true := by
  cases lines with
  | nil => rfl
  | cons line lines =>
      obtain ⟨c, after, heq, hnext⟩ := exists_circuit h lines
      rw [heq, scaleRoots_circuit var c hnext]
      exact c.opens

/-- Induction over a deck by its subcircuits. -/
theorem circuit_induction {motive : List Text → Prop} (nil : motive [])
    (outside : ∀ line lines, opensSubcircuit line = false → motive lines → motive (line :: lines))
    (circuit : ∀ (c : Circuit) (after : List Text),
      (c.closing = none → after.head?.all opensSubcircuit = true) → motive after →
        motive (c.lines ++ after))
    (lines : List Text) : motive lines := by
  induction hn : lines.length using Nat.strong_induction_on generalizing lines with
  | _ n ih =>
      cases lines with
      | nil => exact nil
      | cons line r =>
          have hshort : ∀ after : List Text, after.length ≤ r.length → motive after :=
            fun after hle => ih after.length (by rw [← hn]; exact Nat.lt_succ_of_le hle) after rfl
          cases hopens : opensSubcircuit line with
          | false => exact outside line r hopens (hshort r (Nat.le_refl _))
          | true =>
              obtain ⟨c, after, heq, hnext⟩ := exists_circuit hopens r
              have hlength := congrArg List.length heq
              simp only [Circuit.lines, List.cons_append, List.length_cons, List.length_append]
                at hlength
              rw [heq]
              exact circuit c after hnext (hshort after (by omega))

theorem scaleRoots_outside (h : opensSubcircuit line = false) (lines : List Text) :
    scaleRoots var (line :: lines) = line :: scaleRoots var lines := by
  rw [scaleRoots, scaleFrom, if_neg (Bool.eq_false_iff.mp h)]
  rfl

theorem scaleRoots_scaleRoots (var : Text) (lines : List Text) :
    scaleRoots var (scaleRoots var lines) = scaleRoots var lines := by
  induction lines using circuit_induction with
  | nil => rfl
  | outside line lines h ih => rw [scaleRoots_outside h, scaleRoots_outside h, ih]
  | circuit c after h ih =>
      have hagain : (c.scaled var).closing = none →
          (scaleRoots var after).head?.all opensSubcircuit = true :=
        fun hnone => head?_scaleRoots (h hnone) var
      rw [scaleRoots_circuit var c h, scaleRoots_circuit var _ hagain, c.scaled_scaled, ih]

theorem RenamesIn.scaleRoots_renameFrom (hin : RenamesIn letter newName? site) (var : Text)
    (owner : Option Char) (lines : List Text) :
    scaleRoots var (renameFrom letter site owner lines) =
      renameFrom letter site owner (scaleRoots var lines) := by
  induction lines using circuit_induction generalizing owner with
  | nil => rfl
  | outside line lines h ih =>
      have hnew := (hin.opens_renameLine owner line).trans h
      rw [renameFrom_cons, scaleRoots_outside hnew, scaleRoots_outside h, renameFrom_cons, ih]
  | circuit c after h ih =>
      have hnext : ∀ owner, (c.renamed hin).closing = none →
          (renameFrom letter site owner after).head?.all opensSubcircuit = true := by
        intro owner hnone
        cases after with
        | nil => rfl
        | cons line after => exact (hin.opens_renameLine owner line).trans (h hnone)
      rw [renameFrom_append, c.renameFrom_lines hin, scaleRoots_circuit var _ (hnext _),
        c.scaled_renamed hin, ih, scaleRoots_circuit var c h, renameFrom_append,
        (c.scaled var).renameFrom_lines hin, c.foldl_ownerAfter_scaled]

/-- The passes commute and each of them is final. -/
theorem normalize_normalize (var : Text) (lines : List Text) :
    normalize var (normalize var lines) = normalize var lines := by
  simp only [normalize, rename]
  rw [renamesIn_perimeter.renameFrom_comm renamesIn_coefficient (by decide),
    ← renamesIn_perimeter.scaleRoots_renameFrom, renamesIn_perimeter.renameFrom_final,
    renamesIn_coefficient.scaleRoots_renameFrom, renamesIn_coefficient.renameFrom_final,
    scaleRoots_scaleRoots]

end Deck
end SpiceDeck
