import SpiceDeck.Proofs.Deck.Circuits

/-!
Renaming by statements. The letter of a statement is read off its first line, and a renaming for
the letter does not touch it, so renaming changes neither the statement nor the subcircuit that a
line belongs to. Main statements: renaming in the statements of a letter is final, and it
commutes with the renamings for other letters and with the scaling of lines.
-/

namespace SpiceDeck
namespace Deck
open Text

variable {line var : Text} {letter : Char} {owner : Option Char}
  {newName? : Text → Option Text} {site : Pattern}

/-- The renaming is one for the statements of a letter. Neither the letter of such a statement
nor the dot of a command is renamed, and no new name is an old one. -/
structure RenamesIn (letter : Char) (newName? : Text → Option Text) (site : Pattern) : Prop
    extends Renames newName? site where
  settled : ∀ name n, newName? name = some n → newName? (n.map fold) = none
  foreign : ∀ {name n : Text} {c : Char}, newName? name = some n → name.head? = some (fold c) →
    c.toLower ≠ letter
  statement : letter ≠ '.'

theorem renamesIn_perimeter :
    RenamesIn 'd' (newNameFor "perim".toList "pj".toList) perimeter where
  toRenames := renames_perimeter
  settled := by
    intro name n h
    obtain ⟨-, rfl⟩ := newNameFor_some h
    decide
  foreign := by
    intro name n c h hc
    obtain ⟨rfl, -⟩ := newNameFor_some h
    have hp : fold c = 'p' := (Option.some.inj hc).symm
    rw [toLower_of_fold hp (by decide) (by decide)]
    decide
  statement := by decide

theorem renamesIn_coefficient : RenamesIn 'r' coefficientName? coefficient where
  toRenames := renames_coefficient
  settled := by
    intro name n h
    obtain ⟨-, rfl⟩ | ⟨-, rfl⟩ := coefficientName?_some h
    · decide
    · decide
  foreign := by
    intro name n c h hc
    have ht : fold c = 't' := by
      obtain ⟨rfl, -⟩ | ⟨rfl, -⟩ := coefficientName?_some h
      · exact (Option.some.inj hc).symm
      · exact (Option.some.inj hc).symm
    rw [toLower_of_fold ht (by decide) (by decide)]
    decide
  statement := by decide

section Owner

theorem ownerAfter_eq (owner : Option Char) (line : Text) :
    ownerAfter owner line = ((lead line).map fun c =>
      if c == '*' || c == '+' then owner else some c.toLower).getD owner := by
  unfold ownerAfter lead
  cases trimStart line with
  | nil => rfl
  | cons c r => rfl

theorem ownerAfter_congr {a b : Text} (h : lead a = lead b) :
    ownerAfter owner a = ownerAfter owner b := by
  rw [ownerAfter_eq, ownerAfter_eq, h]

theorem isPassive_congr {a b : Text} (h : lead a = lead b) : isPassive a = isPassive b := by
  rw [isPassive_eq_all, isPassive_eq_all, h]

theorem ownerAfter_dot (h : lead line = some '.') : ownerAfter owner line = some '.' := by
  rw [ownerAfter_eq, h]
  rfl

theorem ownerAfter_continuation (h : isContinuation line = true) :
    ownerAfter owner line = owner := by
  rw [ownerAfter_eq, of_decide_eq_true h]
  rfl

end Owner

/-- What renaming makes of a line of the statement with the letter `owner`. -/
def renameLine (letter : Char) (site : Pattern) (owner : Option Char) (line : Text) : Text :=
  if !isPassive line && owner = some letter then replaceAll site line else line

theorem renameFrom_cons (lines : List Text) :
    renameFrom letter site owner (line :: lines) =
      renameLine letter site (ownerAfter owner line) line ::
        renameFrom letter site (ownerAfter owner line) lines := rfl

theorem renameFrom_append (before after : List Text) :
    renameFrom letter site owner (before ++ after) =
      renameFrom letter site owner before ++
        renameFrom letter site (before.foldl ownerAfter owner) after := by
  induction before generalizing owner with
  | nil => rfl
  | cons line before ih => exact congrArg _ ih

theorem renameLine_of_ne (h : owner ≠ some letter) : renameLine letter site owner line = line := by
  simp [renameLine, h]

section RenameLine
variable (h : RenamesIn letter newName? site)
include h

/-- A statement of the letter does not start with a parameter to be renamed. -/
theorem RenamesIn.site_trimStart (howner : ownerAfter owner line = some letter) :
    site (trimStart line) = none := by
  cases ht : trimStart line with
  | nil => exact h.gap rfl
  | cons c r =>
      cases hs : site (c :: r) with
      | none => rfl
      | some p =>
          exfalso
          obtain ⟨w, blanks, n, heq, hne, hw, -, hn, -⟩ := h.site_some hs
          obtain ⟨a, w, rfl⟩ := List.exists_cons_of_ne_nil hne
          obtain ⟨rfl, -⟩ := List.cons.inj heq
          have hword : isWord c = true := hw c List.mem_cons_self
          have hmark : (c == '*' || c == '+') = false := by
            rw [Bool.eq_false_iff]
            simp only [ne_eq, Bool.or_eq_true, beq_iff_eq]
            rintro (rfl | rfl)
            · revert hword
              decide
            · revert hword
              decide
          simp only [ownerAfter, ht, hmark, Bool.false_eq_true, if_false] at howner
          exact h.foreign hn rfl (Option.some.inj howner)

theorem RenamesIn.lead_renameLine (owner : Option Char) (line : Text) :
    lead (renameLine letter site (ownerAfter owner line) line) = lead line := by
  unfold renameLine
  split
  · rename_i hcond
    simp only [Bool.and_eq_true, decide_eq_true_eq] at hcond
    have hnone := h.site_trimStart hcond.2
    rw [lead, replaceAll, trimStart_replaceFrom h.wordPattern, lead]
    cases ht : trimStart line with
    | nil => rfl
    | cons c r =>
        rw [ht] at hnone
        simp [replaceFrom, hnone]
  · rfl

theorem RenamesIn.ownerAfter_renameLine (owner : Option Char) (line : Text) :
    ownerAfter owner (renameLine letter site (ownerAfter owner line) line) =
      ownerAfter owner line :=
  ownerAfter_congr (h.lead_renameLine owner line)

theorem RenamesIn.isPassive_renameLine (owner : Option Char) (line : Text) :
    isPassive (renameLine letter site (ownerAfter owner line) line) = isPassive line :=
  isPassive_congr (h.lead_renameLine owner line)

theorem RenamesIn.renameLine_dot (hdot : lead line = some '.') :
    renameLine letter site (ownerAfter owner line) line = line := by
  apply renameLine_of_ne
  rw [ownerAfter_dot hdot]
  exact fun heq => h.statement (Option.some.inj heq).symm

/-- A renaming makes no command and unmakes none. -/
theorem RenamesIn.command_renameLine (owner : Option Char) (line : Text) :
    opensSubcircuit (renameLine letter site (ownerAfter owner line) line) =
        opensSubcircuit line ∧
      closesSubcircuit (renameLine letter site (ownerAfter owner line) line) =
        closesSubcircuit line := by
  by_cases hdot : lead line = some '.'
  · rw [h.renameLine_dot hdot]
    exact ⟨rfl, rfl⟩
  · have hnew : lead (renameLine letter site (ownerAfter owner line) line) ≠ some '.' := by
      rwa [h.lead_renameLine]
    have hplain := isPlain_of_lead hdot
    have hplain' := isPlain_of_lead hnew
    exact ⟨hplain'.1.trans hplain.1.symm, hplain'.2.trans hplain.2.symm⟩

theorem RenamesIn.opens_renameLine (owner : Option Char) (line : Text) :
    opensSubcircuit (renameLine letter site (ownerAfter owner line) line) =
      opensSubcircuit line :=
  (h.command_renameLine owner line).1

theorem RenamesIn.closes_renameLine (owner : Option Char) (line : Text) :
    closesSubcircuit (renameLine letter site (ownerAfter owner line) line) =
      closesSubcircuit line :=
  (h.command_renameLine owner line).2

theorem RenamesIn.hasRoot_renameLine (var : Text) (owner : Option Char) (line : Text) :
    hasRoot var (renameLine letter site (ownerAfter owner line) line) = hasRoot var line := by
  rw [hasRoot, hasRoot, h.isPassive_renameLine]
  unfold renameLine
  split
  · rw [occurs_rootOf_replaceAll h.toRenames]
  · rfl

theorem RenamesIn.renameLine_scaleLine (owner : Option Char) (line : Text) :
    renameLine letter site (ownerAfter owner line) (scaleLine var line) =
      scaleLine var (renameLine letter site (ownerAfter owner line) line) := by
  have hpassive := h.isPassive_renameLine owner line
  by_cases howner : ownerAfter owner line = some letter
  · cases hp : isPassive line with
    | true => simp [renameLine, scaleLine, hp]
    | false =>
        have hline : renameLine letter site (ownerAfter owner line) line =
            replaceAll site line := by
          simp [renameLine, hp, howner]
        rw [hline, hp] at hpassive
        have hscaled := isPassive_scaleLine var line
        simp only [scaleLine, hp, Bool.false_eq_true, if_false] at hscaled
        simp [renameLine, scaleLine, hp, howner, hpassive, hscaled,
          replaceAll_rootOf_comm h.toRenames var line]
  · rw [renameLine_of_ne howner, renameLine_of_ne howner]

theorem RenamesIn.renameFrom_final (owner : Option Char) (lines : List Text) :
    renameFrom letter site owner (renameFrom letter site owner lines) =
      renameFrom letter site owner lines := by
  induction lines generalizing owner with
  | nil => rfl
  | cons line lines ih =>
      rw [renameFrom_cons, renameFrom_cons, h.ownerAfter_renameLine, ih]
      refine congrArg (· :: _) ?_
      rw [renameLine, h.isPassive_renameLine]
      unfold renameLine
      split
      · exact h.final h.settled line
      · rfl

theorem RenamesIn.renameFrom_map_scaleLine (var : Text) (owner : Option Char)
    (lines : List Text) :
    renameFrom letter site owner (lines.map (scaleLine var)) =
      (renameFrom letter site owner lines).map (scaleLine var) := by
  induction lines generalizing owner with
  | nil => rfl
  | cons line lines ih =>
      have howner : ownerAfter owner (scaleLine var line) = ownerAfter owner line :=
        ownerAfter_congr (lead_scaleLine var line)
      rw [List.map_cons, renameFrom_cons, renameFrom_cons, howner, ih, List.map_cons,
        h.renameLine_scaleLine]

theorem RenamesIn.any_hasRoot_renameFrom (var : Text) (owner : Option Char)
    (lines : List Text) :
    (renameFrom letter site owner lines).any (hasRoot var) = lines.any (hasRoot var) := by
  induction lines generalizing owner with
  | nil => rfl
  | cons line lines ih =>
      rw [renameFrom_cons, List.any_cons, List.any_cons, h.hasRoot_renameLine, ih]

theorem RenamesIn.isPlain_renameFrom {lines : List Text} (hplain : ∀ line ∈ lines, IsPlain line)
    (owner : Option Char) : ∀ line ∈ renameFrom letter site owner lines, IsPlain line := by
  induction lines generalizing owner with
  | nil => exact List.forall_mem_nil _
  | cons first lines ih =>
      obtain ⟨⟨hopens, hcloses⟩, hrest⟩ := List.forall_mem_cons.mp hplain
      rw [renameFrom_cons, List.forall_mem_cons]
      exact ⟨⟨(h.opens_renameLine owner first).trans hopens,
        (h.closes_renameLine owner first).trans hcloses⟩, ih hrest _⟩

end RenameLine

/-- A line belongs to one statement, so renamings for different letters do not meet. -/
theorem RenamesIn.renameFrom_comm {a b : Char} {f g : Text → Option Text} {p q : Pattern}
    (ha : RenamesIn a f p) (hb : RenamesIn b g q) (hab : a ≠ b) (owner : Option Char)
    (lines : List Text) :
    renameFrom a p owner (renameFrom b q owner lines) =
      renameFrom b q owner (renameFrom a p owner lines) := by
  induction lines generalizing owner with
  | nil => rfl
  | cons line lines ih =>
      rw [renameFrom_cons, renameFrom_cons, renameFrom_cons, renameFrom_cons,
        hb.ownerAfter_renameLine, ha.ownerAfter_renameLine, ih]
      refine congrArg (· :: _) ?_
      by_cases howner : ownerAfter owner line = some a
      · have hother : ownerAfter owner line ≠ some b := by
          rw [howner]
          exact fun heq => hab (Option.some.inj heq)
        rw [renameLine_of_ne hother, renameLine_of_ne hother]
      · rw [renameLine_of_ne howner, renameLine_of_ne howner]

end Deck
end SpiceDeck
