import SpiceDeck.Proofs.Deck.Normal

/-!
What the final form of a deck changes. Apart from the lines it adds, it sees one line at a time,
with the letter of the statement and whether a subcircuit is open. Main statement: the final form
is final, and a line is changed only by an occurrence in it of what is replaced where it stands.
A subcircuit is open up to its closing line, also where it has none.
-/

namespace SpiceDeck
namespace Deck
open Text

variable {var line : Text} {lines : List Text} {owner : Option Char} {inside : Bool}

/-- The second list is the first one with declarations of the multiplicity put in. -/
inductive Inserted : List Text → List Text → Prop
  | nil : Inserted [] []
  | keep (line : Text) {kept out : List Text} :
      Inserted kept out → Inserted (line :: kept) (line :: out)
  | insert {kept out : List Text} : Inserted kept out → Inserted kept (multLine :: out)

namespace Inserted

theorem refl (lines : List Text) : Inserted lines lines := by
  induction lines with
  | nil => exact .nil
  | cons line lines ih => exact .keep line ih

theorem append {a b c d : List Text} (hab : Inserted a b) (hcd : Inserted c d) :
    Inserted (a ++ c) (b ++ d) := by
  induction hab with
  | nil => exact hcd
  | keep line _ ih => exact .keep line ih
  | insert _ ih => exact .insert ih

theorem length_le {kept out : List Text} (h : Inserted kept out) : kept.length ≤ out.length := by
  induction h with
  | nil => exact Nat.le_refl _
  | keep line _ ih => exact Nat.succ_le_succ ih
  | insert _ ih => exact Nat.le_succ_of_le ih

theorem eq_of_length {kept out : List Text} (h : Inserted kept out)
    (hlength : out.length ≤ kept.length) : kept = out := by
  induction h with
  | nil => rfl
  | keep line _ ih => rw [ih (Nat.le_of_succ_le_succ hlength)]
  | insert h _ => exact absurd (Nat.le_trans hlength h.length_le) (Nat.not_succ_le_self _)

/-- A declaration of the multiplicity is not renamed and belongs to the statement before it. -/
theorem renameFrom {letter : Char} {site : Pattern} (hmult : replaceAll site multLine = multLine)
    {kept out : List Text} (h : Inserted kept out) (owner : Option Char) :
    Inserted (renameFrom letter site owner kept) (Deck.renameFrom letter site owner out) := by
  induction h generalizing owner with
  | nil => exact .nil
  | keep line _ ih => exact .keep _ (ih _)
  | insert _ ih =>
      have hline : ∀ owner, renameLine letter site owner multLine = multLine := by
        intro owner
        unfold renameLine
        split
        · exact hmult
        · rfl
      rw [renameFrom_cons, hline, ownerAfter_continuation rfl]
      exact .insert (ih owner)

end Inserted

def insideAfter (inside : Bool) (line : Text) : Bool :=
  opensSubcircuit line || (inside && !closesSubcircuit line)

/-- Whether a line is one in a subcircuit, if one is open before it or not. -/
def standsInside (inside : Bool) (line : Text) : Bool :=
  inside && !opensSubcircuit line && !closesSubcircuit line

/-- Scaling without its declarations. -/
def scaleInPlace (var : Text) (inside : Bool) : List Text → List Text
  | [] => []
  | line :: lines =>
      (if standsInside inside line then scaleLine var line else line) ::
        scaleInPlace var (insideAfter inside line) lines

theorem scaleInPlace_plain {plain : List Text} (h : ∀ line ∈ plain, IsPlain line) (var : Text)
    (after : List Text) :
    scaleInPlace var true (plain ++ after) =
      plain.map (scaleLine var) ++ scaleInPlace var true after := by
  induction plain with
  | nil => rfl
  | cons line plain ih =>
      obtain ⟨⟨hopens, hcloses⟩, hrest⟩ := List.forall_mem_cons.mp h
      have hinside : standsInside true line = true := by simp [standsInside, hopens, hcloses]
      have hafter : insideAfter true line = true := by simp [insideAfter, hcloses]
      rw [List.cons_append, scaleInPlace, hinside, hafter, ih hrest]
      rfl

theorem scaleInPlace_of_opens {after : List Text} (h : after.head?.all opensSubcircuit = true)
    (inside : Bool) : scaleInPlace var inside after = scaleInPlace var false after := by
  cases after with
  | nil => rfl
  | cons line after =>
      have hopens : opensSubcircuit line = true := h
      simp [scaleInPlace, standsInside, insideAfter, hopens]

theorem scaleInPlace_circuit (var : Text) (c : Circuit) {after : List Text}
    (h : c.closing = none → after.head?.all opensSubcircuit = true) :
    scaleInPlace var false (c.lines ++ after) =
      c.opening :: (c.inside.map (scaleLine var) ++
        (c.closing.toList ++ scaleInPlace var false after)) := by
  have hopening : insideAfter false c.opening = true := by simp [insideAfter, c.opens]
  have hstands : standsInside false c.opening = false := by simp [standsInside]
  rw [Circuit.lines, List.cons_append, List.append_assoc, scaleInPlace, hstands, hopening,
    scaleInPlace_plain c.plain]
  cases hc : c.closing with
  | none =>
      rw [Option.toList_none, List.nil_append, List.nil_append, scaleInPlace_of_opens (h hc)]
      rfl
  | some line =>
      have hcloses := c.closes line hc
      have hends : standsInside true line = false := by simp [standsInside, hcloses]
      have hafter : insideAfter true line = false := by
        simp [insideAfter, hcloses, not_opens_of_closes hcloses]
      rw [Option.toList_some, List.singleton_append, scaleInPlace, hends, hafter]
      rfl

theorem inserted_scaleRoots (var : Text) (lines : List Text) :
    Inserted (scaleInPlace var false lines) (scaleRoots var lines) := by
  induction lines using circuit_induction with
  | nil => exact .nil
  | outside line lines h ih =>
      have hafter : insideAfter false line = false := by simp [insideAfter, h]
      have hstands : standsInside false line = false := by simp [standsInside]
      rw [scaleRoots_outside h, scaleInPlace, hstands, hafter]
      exact .keep line ih
  | circuit c after h ih =>
      have hadded : Inserted [] (c.added var) := by
        unfold Circuit.added
        split
        · exact .insert .nil
        · exact .nil
      have hinside : Inserted (c.inside.map (scaleLine var)) (c.scaled var).inside := by
        have hparts := ((Inserted.refl (c.leading.map (scaleLine var))).append hadded).append
          (Inserted.refl (c.trailing.map (scaleLine var)))
        rwa [List.append_nil, ← List.map_append, c.leading_append_trailing] at hparts
      rw [scaleInPlace_circuit var c h, scaleRoots_circuit var c h, Circuit.lines,
        List.cons_append, List.append_assoc]
      exact .keep _ (hinside.append ((Inserted.refl c.closing.toList).append ih))

/-- What the final form makes of a line, by the letter of its statement and whether it is one in
a subcircuit. -/
def settleLine (var : Text) (owner : Option Char) (inside : Bool) (line : Text) : Text :=
  let line := renameLine 'd' perimeter owner line
  renameLine 'r' coefficient owner (if inside then scaleLine var line else line)

def settleFrom (var : Text) (owner : Option Char) (inside : Bool) : List Text → List Text
  | [] => []
  | line :: lines =>
      settleLine var (ownerAfter owner line) (standsInside inside line) line ::
        settleFrom var (ownerAfter owner line) (insideAfter inside line) lines

theorem settleFrom_eq (var : Text) (owner : Option Char) (inside : Bool) (lines : List Text) :
    settleFrom var owner inside lines =
      renameFrom 'r' coefficient owner
        (scaleInPlace var inside (renameFrom 'd' perimeter owner lines)) := by
  induction lines generalizing owner inside with
  | nil => rfl
  | cons line lines ih =>
      have hstands : standsInside inside (renameLine 'd' perimeter (ownerAfter owner line) line) =
          standsInside inside line := by
        simp only [standsInside, renamesIn_perimeter.opens_renameLine,
          renamesIn_perimeter.closes_renameLine]
      have hafter : insideAfter inside (renameLine 'd' perimeter (ownerAfter owner line) line) =
          insideAfter inside line := by
        simp only [insideAfter, renamesIn_perimeter.opens_renameLine,
          renamesIn_perimeter.closes_renameLine]
      have hlead : lead (if standsInside inside line then
          scaleLine var (renameLine 'd' perimeter (ownerAfter owner line) line)
          else renameLine 'd' perimeter (ownerAfter owner line) line) = lead line := by
        split
        · rw [lead_scaleLine, renamesIn_perimeter.lead_renameLine]
        · rw [renamesIn_perimeter.lead_renameLine]
      rw [settleFrom, renameFrom_cons, scaleInPlace, hstands, hafter, renameFrom_cons,
        ownerAfter_congr hlead, ih]
      rfl

theorem inserted_normalize (var : Text) (lines : List Text) :
    Inserted (settleFrom var none false lines) (normalize var lines) := by
  rw [settleFrom_eq]
  exact (inserted_scaleRoots var _).renameFrom (by decide) none

/-- A line that is changed holds something that is replaced. -/
theorem settleLine_ne (h : settleLine var owner inside line ≠ line) :
    isPassive line = false ∧ ((owner = some 'd' ∧ occurs perimeter false line = true) ∨
      (owner = some 'r' ∧ occurs coefficient false line = true) ∨
      (inside = true ∧ occurs (rootOf var) false line = true)) := by
  by_contra hno
  apply h
  have hrename : ∀ letter site, ¬ (isPassive line = false ∧ owner = some letter ∧
      occurs site false line = true) → renameLine letter site owner line = line := by
    intro letter site hnot
    unfold renameLine
    split
    · rename_i hcond
      simp only [Bool.and_eq_true, Bool.not_eq_true', decide_eq_true_eq] at hcond
      apply replaceFrom_of_not_occurs
      exact Bool.eq_false_iff.mpr fun hoccurs => hnot ⟨hcond.1, hcond.2, hoccurs⟩
    · rfl
  have hd := hrename 'd' perimeter fun hd => hno ⟨hd.1, .inl hd.2⟩
  have hr := hrename 'r' coefficient fun hr => hno ⟨hr.1, .inr (.inl hr.2)⟩
  have hscale : (if inside then scaleLine var line else line) = line := by
    split
    · rename_i hinside
      apply scaleLine_of_not_hasRoot
      rw [Bool.eq_false_iff]
      intro hroot
      simp only [hasRoot, Bool.and_eq_true, Bool.not_eq_true'] at hroot
      exact hno ⟨hroot.1, .inr (.inr ⟨hinside, hroot.2⟩)⟩
    · rfl
  simp only [settleLine, hd, hscale, hr]

theorem length_settleFrom (var : Text) (owner : Option Char) (inside : Bool)
    (lines : List Text) : (settleFrom var owner inside lines).length = lines.length := by
  induction lines generalizing owner inside with
  | nil => rfl
  | cons line lines ih => exact congrArg (· + 1) (ih _ _)

theorem getElem?_settleFrom (var : Text) (owner : Option Char) (inside : Bool)
    (lines : List Text) (i : Nat) :
    (settleFrom var owner inside lines)[i]? = lines[i]?.map fun line =>
      settleLine var ((lines.take (i + 1)).foldl ownerAfter owner)
        (standsInside ((lines.take i).foldl insideAfter inside) line) line := by
  induction lines generalizing owner inside i with
  | nil => rfl
  | cons line lines ih =>
      cases i with
      | zero => rfl
      | succ i => exact ih _ _ i

/-- The line belongs to a statement of the letter. Comments and blank lines belong to none. -/
def BelongsTo (letter : Char) (lines : List Text) (i : Nat) : Prop :=
  lines[i]?.any isPassive = false ∧ (lines.take (i + 1)).foldl ownerAfter none = some letter

/-- The line follows an opening line with no closing line up to it. -/
def InSubcircuit (lines : List Text) (i : Nat) : Prop :=
  ∃ j < i, lines[j]?.any opensSubcircuit = true ∧
    ∀ k, j < k → k ≤ i → lines[k]?.any closesSubcircuit = false

/-- The line stands between an opening line and the next closing line. -/
def Enclosed (lines : List Text) (i : Nat) : Prop :=
  ∃ j e, j < i ∧ i < e ∧ lines[j]?.any opensSubcircuit = true ∧
    lines[e]?.any closesSubcircuit = true ∧
    ∀ k, j < k → k < e → lines[k]?.any closesSubcircuit = false

/-- A line of the first list differs from that of the second one only if it belongs to a `d`
statement and has a perimeter, belongs to an `r` statement and has a coefficient, or stands inside
a subcircuit and has a root of the variable. -/
def ChangesOnly (inside : List Text → Nat → Prop) (var : Text) (lines kept : List Text) : Prop :=
  kept.length = lines.length ∧ ∀ i line line', lines[i]? = some line → kept[i]? = some line' →
    line' ≠ line → (BelongsTo 'd' lines i ∧ occurs perimeter false line = true) ∨
      (BelongsTo 'r' lines i ∧ occurs coefficient false line = true) ∨
      (inside lines i ∧ occurs (rootOf var) false line = true)

theorem foldl_insideAfter (h : lines.foldl insideAfter inside = true) :
    (inside = true ∧ ∀ k : Nat, lines[k]?.any closesSubcircuit = false) ∨
      ∃ j : Nat, j < lines.length ∧ lines[j]?.any opensSubcircuit = true ∧
        ∀ k, j < k → lines[k]?.any closesSubcircuit = false := by
  induction lines generalizing inside with
  | nil => exact .inl ⟨h, fun _ => rfl⟩
  | cons line lines ih =>
      obtain ⟨hinside, hrest⟩ | ⟨j, hj, hopens, hrest⟩ := ih h
      · simp only [insideAfter, Bool.or_eq_true, Bool.and_eq_true, Bool.not_eq_true'] at hinside
        obtain hopens | ⟨hinside, hcloses⟩ := hinside
        · refine .inr ⟨0, Nat.succ_pos _, hopens, ?_⟩
          intro k hk
          obtain ⟨k, rfl⟩ := Nat.exists_eq_succ_of_ne_zero (Nat.ne_of_gt hk)
          exact hrest k
        · refine .inl ⟨hinside, ?_⟩
          intro k
          cases k with
          | zero => exact hcloses
          | succ k => exact hrest k
      · refine .inr ⟨j + 1, Nat.succ_lt_succ hj, hopens, ?_⟩
        intro k hk
        obtain ⟨k, rfl⟩ := Nat.exists_eq_succ_of_ne_zero (Nat.ne_of_gt (Nat.zero_lt_of_lt hk))
        exact hrest k (Nat.lt_of_succ_lt_succ hk)

theorem inSubcircuit_of_standsInside {i : Nat} (hline : lines[i]? = some line)
    (h : standsInside ((lines.take i).foldl insideAfter false) line = true) :
    InSubcircuit lines i := by
  simp only [standsInside, Bool.and_eq_true, Bool.not_eq_true'] at h
  obtain ⟨⟨hinside, -⟩, hcloses⟩ := h
  obtain ⟨hfalse, -⟩ | ⟨j, hj, hopens, hrest⟩ := foldl_insideAfter hinside
  · cases hfalse
  · have hji : j < i := Nat.lt_of_lt_of_le hj (List.length_take_le i lines)
    refine ⟨j, hji, ?_, ?_⟩
    · rwa [List.getElem?_take_of_lt hji] at hopens
    · intro k hjk hki
      obtain hlt | rfl := Nat.lt_or_eq_of_le hki
      · have hk := hrest k hjk
        rwa [List.getElem?_take_of_lt hlt] at hk
      · rw [hline]
        exact hcloses

/-- The final form is final and local. -/
theorem normalize_final_local (var : Text) (lines : List Text) :
    normalize var (normalize var lines) = normalize var lines ∧
      ∃ kept, Inserted kept (normalize var lines) ∧ ChangesOnly InSubcircuit var lines kept := by
  refine ⟨normalize_normalize var lines, settleFrom var none false lines,
    inserted_normalize var lines, length_settleFrom var none false lines, ?_⟩
  intro i line line' hline hline' hne
  rw [getElem?_settleFrom, hline, Option.map_some] at hline'
  obtain rfl := Option.some.inj hline'
  obtain ⟨hactive, hd | hr | hroot⟩ := settleLine_ne hne
  · exact .inl ⟨⟨by rw [hline]; exact hactive, hd.1⟩, hd.2⟩
  · exact .inr (.inl ⟨⟨by rw [hline]; exact hactive, hr.1⟩, hr.2⟩)
  · exact .inr (.inr ⟨inSubcircuit_of_standsInside hline hroot.1, hroot.2⟩)

/-- A subcircuit that is never closed is scaled too. -/
theorem not_changesOnly_enclosed :
    ¬ ∀ (var : Text) (lines : List Text), (∀ line ∈ lines, '\n' ∉ line) →
      normalize var (normalize var lines) = normalize var lines ∧
        ∃ kept, Inserted kept (normalize var lines) ∧ ChangesOnly Enclosed var lines kept := by
  intro h
  let lines := [".subckt".toList, "r1 a b r={1k/sqrt(m)}".toList]
  let out := [".subckt".toList, "r1 a b r={1k/sqrt(mult)}".toList]
  have hout : normalize "m".toList lines = out := by decide
  obtain ⟨-, kept, hinserted, hlength, hchanges⟩ := h "m".toList lines (by decide)
  rw [hout] at hinserted
  have htwo : kept.length = 2 := hlength
  obtain rfl : kept = out := hinserted.eq_of_length (Nat.le_of_eq htwo.symm)
  have hne : "r1 a b r={1k/sqrt(mult)}".toList ≠ "r1 a b r={1k/sqrt(m)}".toList := by decide
  obtain ⟨⟨-, howner⟩, -⟩ | ⟨-, hoccurs⟩ | ⟨⟨j, e, -, he, -, hcloses, -⟩, -⟩ :=
    hchanges 1 _ _ rfl rfl hne
  · revert howner
    decide
  · revert hoccurs
    decide
  · have hnone : lines[e]? = none := List.getElem?_eq_none he
    rw [hnone] at hcloses
    cases hcloses

end Deck
end SpiceDeck
