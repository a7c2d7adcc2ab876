import SpiceDeck.Proofs.Deck.Roots

/-!
The subcircuits of a deck, as the lines from an opening line on. Scaling rewrites each
subcircuit on its own. A line that declares the multiplicity is added behind the opening line
and the continuations that follow it directly, while the header of a subcircuit goes on behind
comments and blank lines. Main statement: the exact condition under which the multiplicity of a
scaled subcircuit is declared, and declared only once.
-/

namespace SpiceDeck

namespace Text

theorem eq_dot_of_fold {c : Char} (h : fold c = '.') : c = '.' := by
  have hlower := toLower_of_fold h (by decide) (by decide)
  obtain hsame | ⟨hbounds, hnat⟩ := toLower_cases c
  · rwa [hsame] at hlower
  · have hdot : c.toLower.toNat = 46 := by rw [hlower]; rfl
    omega

end Text

namespace Deck
open Text

variable {line var name : Text}

/-- The first character of a line, which tells what kind of line it is. -/
def lead (line : Text) : Option Char := (trimStart line).head?

/-- A line that continues the statement before it. -/
def isContinuation (line : Text) : Bool := lead line = some '+'

theorem isPassive_eq_all (line : Text) : isPassive line = (lead line).all (· == '*') := by
  unfold isPassive lead
  cases trimStart line with
  | nil => rfl
  | cons c r => rfl

/-- A command is a dot and a word. -/
theorem startsWithCommand_iff (hname : IsRun name) :
    startsWithCommand ('.' :: name) line = true ↔
      ∃ r, trimStart line = '.' :: r ∧ (r.takeWhile isWord).map fold = name := by
  unfold startsWithCommand
  cases trimStart line with
  | nil => simp [afterFolded?]
  | cons c r =>
      by_cases hc : c = '.'
      · subst hc
        have hdot : afterFolded? ('.' :: name) ('.' :: r) = afterFolded? name r := if_pos rfl
        have hend : atWordEnd (r.dropWhile isWord) = true := by
          cases hd : r.dropWhile isWord with
          | nil => rfl
          | cons a s => rw [atWordEnd_cons, not_of_dropWhile_eq_cons hd, Bool.not_false]
        have hrun := afterFolded?_run (w := r.takeWhile isWord) hname
          (fun _ hx => List.mem_takeWhile_imp hx) hend
        rw [List.takeWhile_append_dropWhile] at hrun
        rw [hdot]
        obtain ⟨hfold, hafter⟩ | ⟨hfold, hmore⟩ := hrun
        · rw [hafter]
          exact iff_of_true hend ⟨r, rfl, hfold⟩
        · refine iff_of_false ?_ ?_
          · cases hafter : afterFolded? name r with
            | none => exact Bool.false_ne_true
            | some rest => simp [hmore rest hafter]
          · rintro ⟨r', heq, hfold'⟩
            cases heq
            exact hfold hfold'
      · have hfold : '.' ≠ fold c := fun h => hc (eq_dot_of_fold h.symm)
        simp [afterFolded?, hfold, hc]

theorem lead_of_startsWithCommand (hname : IsRun name)
    (h : startsWithCommand ('.' :: name) line = true) : lead line = some '.' := by
  obtain ⟨r, hr, -⟩ := (startsWithCommand_iff hname).mp h
  rw [lead, hr]
  rfl

theorem isRun_subckt : IsRun "subckt".toList := by decide

theorem isRun_ends : IsRun "ends".toList := by decide

theorem lead_of_opens (h : opensSubcircuit line = true) : lead line = some '.' :=
  lead_of_startsWithCommand isRun_subckt h

theorem lead_of_closes (h : closesSubcircuit line = true) : lead line = some '.' :=
  lead_of_startsWithCommand isRun_ends h

theorem not_opens_of_closes (h : closesSubcircuit line = true) : opensSubcircuit line = false := by
  rw [Bool.eq_false_iff]
  intro hopens
  obtain ⟨r, hr, hends⟩ := (startsWithCommand_iff isRun_ends).mp h
  obtain ⟨r', hr', hsubckt⟩ := (startsWithCommand_iff isRun_subckt).mp hopens
  rw [hr] at hr'
  cases hr'
  rw [hends] at hsubckt
  revert hsubckt
  decide

/-- A line that neither opens nor closes a subcircuit. -/
def IsPlain (line : Text) : Prop := opensSubcircuit line = false ∧ closesSubcircuit line = false

theorem isPlain_of_lead (h : lead line ≠ some '.') : IsPlain line := by
  constructor
  · exact Bool.eq_false_iff.mpr fun hopens => h (lead_of_opens hopens)
  · exact Bool.eq_false_iff.mpr fun hcloses => h (lead_of_closes hcloses)

/-- The multiplicity as the last line of a header. -/
def multLine : Text := "+ mult=1".toList

/-- What scaling makes of a line in a subcircuit. -/
def scaleLine (var line : Text) : Text :=
  if isPassive line then line else replaceAll (rootOf var) line

/-- Whether scaling finds anything in a line. -/
def hasRoot (var line : Text) : Bool := !isPassive line && occurs (rootOf var) false line

theorem takeWhile_replaceAll_rootOf (var t : Text) :
    (replaceAll (rootOf var) t).takeWhile isWord = t.takeWhile isWord := by
  have hp := wordPattern_rootOf var
  cases t with
  | nil => rfl
  | cons c r =>
      cases hc : isWord c with
      | false =>
          rw [replaceAll, replaceFrom_gap hp hc]
          simp [hc]
      | true =>
          obtain ⟨w, r', heq, hne, hw, hr⟩ := exists_run (r := r) hc
          rw [heq, replaceAll]
          cases hs : rootOf var (w ++ r') with
          | none =>
              rw [replaceFrom_word hp hne hw hr hs, takeWhile_run hw hr,
                takeWhile_run hw (atWordEnd_replaceFrom hp hr)]
          | some p =>
              obtain ⟨before, after, -, -, -, -, htext, hnew⟩ := rootOf_some hs
              have hsqrt : ∀ x, ("sqrt".toList ++ '(' :: x).takeWhile isWord = "sqrt".toList :=
                fun x => takeWhile_run isRun_sqrt rfl
              rw [replaceFrom_whole hp hs, hnew, htext, rootText, List.append_assoc]
              exact (hsqrt _).trans (hsqrt _).symm

theorem lead_replaceAll_rootOf (var line : Text) :
    lead (replaceAll (rootOf var) line) = lead line := by
  have hp := wordPattern_rootOf var
  have hwords := takeWhile_replaceAll_rootOf var (trimStart line)
  rw [lead, lead, replaceAll, trimStart_replaceFrom hp]
  rw [replaceAll] at hwords
  obtain hsame | ⟨⟨c, hc, hword⟩, d, hd, hword'⟩ := head?_replaceFrom hp (trimStart line)
  · exact hsame
  · obtain ⟨s, hs⟩ := List.head?_eq_some_iff.mp hc
    obtain ⟨u, hu⟩ := List.head?_eq_some_iff.mp hd
    rw [hs, hu, List.takeWhile_cons_of_pos hword, List.takeWhile_cons_of_pos hword'] at hwords
    rw [hs, hu, List.head?_cons, List.head?_cons, (List.cons.inj hwords).1]

theorem startsWithCommand_replaceAll_rootOf (hname : IsRun name) (var line : Text) :
    startsWithCommand ('.' :: name) (replaceAll (rootOf var) line) =
      startsWithCommand ('.' :: name) line := by
  have hp := wordPattern_rootOf var
  have hdot : ∀ r, replaceFrom (rootOf var) false 0 ('.' :: r) =
      '.' :: replaceFrom (rootOf var) false 0 r := replaceFrom_gap hp (by decide)
  have hwords := takeWhile_replaceAll_rootOf var
  have hlead := lead_replaceAll_rootOf var line
  simp only [lead, replaceAll, trimStart_replaceFrom hp] at hlead hwords
  rw [Bool.eq_iff_iff, startsWithCommand_iff hname, startsWithCommand_iff hname, replaceAll,
    trimStart_replaceFrom hp]
  constructor
  · rintro ⟨r, hr, hfold⟩
    rw [hr] at hlead
    obtain ⟨s, hs⟩ := List.head?_eq_some_iff.mp hlead.symm
    rw [hs, hdot] at hr
    cases hr
    rw [hwords] at hfold
    exact ⟨s, hs, hfold⟩
  · rintro ⟨r, hr, hfold⟩
    refine ⟨replaceFrom (rootOf var) false 0 r, ?_, ?_⟩
    · rw [hr, hdot]
    · rw [hwords, hfold]

section ScaleLine

theorem lead_scaleLine (var line : Text) : lead (scaleLine var line) = lead line := by
  unfold scaleLine
  split
  · rfl
  · exact lead_replaceAll_rootOf var line

@[simp] theorem isPassive_scaleLine (var line : Text) :
    isPassive (scaleLine var line) = isPassive line := by
  rw [isPassive_eq_all, isPassive_eq_all, lead_scaleLine]

@[simp] theorem isContinuation_scaleLine (var line : Text) :
    isContinuation (scaleLine var line) = isContinuation line := by
  simp only [isContinuation, lead_scaleLine]

theorem isPlain_scaleLine (h : IsPlain line) (var : Text) : IsPlain (scaleLine var line) := by
  unfold scaleLine
  split
  · exact h
  · have hopens := startsWithCommand_replaceAll_rootOf isRun_subckt var line
    have hcloses := startsWithCommand_replaceAll_rootOf isRun_ends var line
    exact ⟨hopens.trans h.1, hcloses.trans h.2⟩

@[simp] theorem declaresMult_scaleLine (var line : Text) :
    declaresMult (scaleLine var line) = declaresMult line := by
  unfold scaleLine
  split
  · rfl
  · exact declaresMult_replaceAll var line

theorem any_declaresMult_map_scaleLine (var : Text) (ls : List Text) :
    (ls.map (scaleLine var)).any declaresMult = ls.any declaresMult := by
  simp [List.any_map, Function.comp_def]

theorem scaleLine_of_not_hasRoot (h : hasRoot var line = false) : scaleLine var line = line := by
  unfold scaleLine
  split
  · rfl
  · rename_i hactive
    apply replaceFrom_of_not_occurs
    simpa [hasRoot, hactive] using h

end ScaleLine

/-- A subcircuit of a deck, with its closing line if it has one. -/
@[ext]
structure Circuit where
  opening : Text
  inside : List Text
  closing : Option Text
  opens : opensSubcircuit opening = true
  plain : ∀ line ∈ inside, IsPlain line
  closes : ∀ line ∈ closing, closesSubcircuit line = true

namespace Circuit

def lines (c : Circuit) : List Text := c.opening :: (c.inside ++ c.closing.toList)

def leading (c : Circuit) : List Text := c.inside.takeWhile isContinuation

def trailing (c : Circuit) : List Text := c.inside.dropWhile isContinuation

/-- The opening line and the lines that continue it. Comments and blank lines between them do
not end the header. -/
def header (c : Circuit) : List Text :=
  c.opening :: (c.inside.takeWhile fun l => isContinuation l || isPassive l).filter isContinuation

def hasRoot (var : Text) (c : Circuit) : Bool := c.inside.any (Deck.hasRoot var)

def declares (c : Circuit) : Bool := c.header.any declaresMult

/-- The setting stands in front of the first comment or blank line of the header. -/
def declaresAtOnce (c : Circuit) : Bool := (c.opening :: c.leading).any declaresMult

/-- The line that scaling adds, if it adds one. -/
def added (var : Text) (c : Circuit) : List Text :=
  if c.closing.isSome && c.hasRoot var && !c.declaresAtOnce then [multLine] else []

theorem leading_append_trailing (c : Circuit) : c.leading ++ c.trailing = c.inside :=
  List.takeWhile_append_dropWhile

theorem isContinuation_of_mem_leading {c : Circuit} (h : line ∈ c.leading) :
    isContinuation line = true :=
  List.mem_takeWhile_imp h

theorem isPlain_multLine : IsPlain multLine := by
  refine ⟨?_, ?_⟩
  · decide
  · decide

theorem eq_multLine_of_mem_added {c : Circuit} (h : line ∈ c.added var) : line = multLine := by
  unfold added at h
  split at h
  · exact List.mem_singleton.mp h
  · cases h

def scaled (var : Text) (c : Circuit) : Circuit where
  opening := c.opening
  inside := c.leading.map (scaleLine var) ++ c.added var ++ c.trailing.map (scaleLine var)
  closing := c.closing
  opens := c.opens
  plain := by
    have hscaled : ∀ l ∈ c.inside, IsPlain (scaleLine var l) :=
      fun l hl => isPlain_scaleLine (c.plain l hl) var
    rw [← c.leading_append_trailing] at hscaled
    intro line hline
    simp only [List.mem_append, List.mem_map] at hline
    obtain (⟨l, hl, rfl⟩ | hadded) | ⟨l, hl, rfl⟩ := hline
    · exact hscaled l (List.mem_append_left _ hl)
    · rw [eq_multLine_of_mem_added hadded]
      exact isPlain_multLine
    · exact hscaled l (List.mem_append_right _ hl)
  closes := c.closes

end Circuit

theorem foldl_push (var : Text) (inside : List Text) (b : Block) :
    inside.foldl (Block.push var) b =
      { header := b.header ++
          if b.inHeader then (inside.takeWhile isContinuation).map (scaleLine var) else []
        rest := b.rest ++
          (if b.inHeader then inside.dropWhile isContinuation else inside).map (scaleLine var)
        inHeader := b.inHeader && inside.all isContinuation
        found := b.found || inside.any (hasRoot var) } := by
  induction inside generalizing b with
  | nil => simp
  | cons line inside ih =>
      have hpush : b.push var line =
          if b.inHeader && isContinuation line then
            { b with header := b.header ++ [scaleLine var line]
                     found := b.found || hasRoot var line }
          else
            { b with rest := b.rest ++ [scaleLine var line]
                     inHeader := false
                     found := b.found || hasRoot var line } := rfl
      rw [List.foldl_cons, ih, hpush]
      cases hin : b.inHeader with
      | false => simp [Bool.or_assoc]
      | true =>
          cases hplus : isContinuation line with
          | false => simp [hplus, Bool.or_assoc]
          | true => simp [hplus, Bool.or_assoc]

/-- Lines that neither open nor close a subcircuit are pushed one after another. -/
theorem scaleFrom_plain {inside : List Text} (h : ∀ line ∈ inside, IsPlain line) (var : Text)
    (b : Block) (after : List Text) :
    scaleFrom var (some b) (inside ++ after) =
      scaleFrom var (some (inside.foldl (Block.push var) b)) after := by
  induction inside generalizing b with
  | nil => rfl
  | cons line inside ih =>
      obtain ⟨hopens, hcloses⟩ := h line List.mem_cons_self
      simp only [List.cons_append, scaleFrom, hopens, hcloses, Bool.false_eq_true, if_false]
      exact ih (fun l hl => h l (List.mem_cons_of_mem line hl)) _

/-- An opening line starts afresh, whatever was open. -/
theorem scaleFrom_append_of_opens {after : List Text} (h : after.head?.all opensSubcircuit = true)
    (var : Text) (block : Option Block) (before : List Text) :
    scaleFrom var block (before ++ after) =
      scaleFrom var block before ++ scaleFrom var none after := by
  induction before generalizing block with
  | nil =>
      cases after with
      | nil => cases block <;> simp [scaleFrom]
      | cons line after =>
          have hopens : opensSubcircuit line = true := by simpa using h
          simp [scaleFrom, hopens]
  | cons line before ih =>
      simp only [List.cons_append, scaleFrom]
      split
      · rw [ih, List.append_assoc]
      · cases block with
        | none => exact congrArg (line :: ·) (ih none)
        | some b =>
            dsimp only
            split
            · rw [ih, List.append_assoc, List.cons_append]
            · exact ih _

theorem scaleFrom_closes (h : closesSubcircuit line = true) (var : Text) (b : Block)
    (after : List Text) :
    scaleFrom var (some b) (line :: after) = b.closed ++ line :: scaleFrom var none after := by
  rw [scaleFrom, if_neg (Bool.eq_false_iff.mp (not_opens_of_closes h))]
  exact if_pos h

/-- The open subcircuit once all lines in it have been read. -/
def Circuit.block (var : Text) (c : Circuit) : Block where
  header := c.opening :: c.leading.map (scaleLine var)
  rest := c.trailing.map (scaleLine var)
  inHeader := c.inside.all isContinuation
  found := c.hasRoot var

theorem Circuit.foldl_push_inside (var : Text) (c : Circuit) :
    c.inside.foldl (Block.push var) { header := [c.opening] } = c.block var := by
  rw [foldl_push]
  rfl

theorem Circuit.declaration_block (var : Text) {c : Circuit} (h : c.closing.isSome = true) :
    (c.block var).declaration = c.added var := by
  rw [Block.declaration, Circuit.added, h, Bool.true_and]
  simp only [Circuit.block, List.any_cons, any_declaresMult_map_scaleLine]
  rfl

theorem scaleRoots_circuit (var : Text) (c : Circuit) {after : List Text}
    (h : c.closing = none → after.head?.all opensSubcircuit = true) :
    scaleRoots var (c.lines ++ after) = (c.scaled var).lines ++ scaleRoots var after := by
  have hread : scaleRoots var (c.lines ++ after) =
      scaleFrom var (some (c.block var)) (c.closing.toList ++ after) := by
    rw [scaleRoots, Circuit.lines, List.cons_append, scaleFrom, if_pos c.opens, List.append_assoc,
      scaleFrom_plain c.plain, c.foldl_push_inside]
    rfl
  rw [hread]
  cases hc : c.closing with
  | none =>
      have hadded : c.added var = [] := by simp [Circuit.added, hc]
      have hafter := scaleFrom_append_of_opens (h hc) var (some (c.block var)) []
      rw [List.nil_append] at hafter
      rw [Option.toList_none, List.nil_append, hafter]
      simp [scaleFrom, Block.lines, Circuit.block, Circuit.lines, Circuit.scaled, hadded, hc,
        scaleRoots]
  | some line =>
      have hends : closesSubcircuit line = true := c.closes line hc
      have hadded := c.declaration_block var (by rw [hc]; rfl)
      rw [Option.toList_some, List.singleton_append, scaleFrom_closes hends, Block.closed, hadded]
      simp [Circuit.block, Circuit.lines, Circuit.scaled, hc, scaleRoots]

/-- Scaling sees one subcircuit after another. -/
theorem scaleRoots_append_circuit (var : Text) (before : List Text) (c : Circuit)
    {after : List Text} (h : c.closing = none → after.head?.all opensSubcircuit = true) :
    scaleRoots var (before ++ c.lines ++ after) =
      scaleRoots var before ++ (c.scaled var).lines ++ scaleRoots var after := by
  have hopens : (c.lines ++ after).head?.all opensSubcircuit = true := c.opens
  have hbefore := scaleFrom_append_of_opens hopens var none before
  rw [List.append_assoc, List.append_assoc, ← scaleRoots_circuit var c h]
  exact hbefore

namespace Circuit

/-- The lines of a header behind its first comment or blank line. -/
def later (c : Circuit) : List Text :=
  (c.trailing.takeWhile fun l => isContinuation l || isPassive l).filter isContinuation

/-- Continuations in front are a part of the header. -/
theorem filter_takeWhile_append {first : List Text}
    (h : ∀ line ∈ first, isContinuation line = true) (rest : List Text) :
    ((first ++ rest).takeWhile fun l => isContinuation l || isPassive l).filter isContinuation =
      first ++ (rest.takeWhile fun l => isContinuation l || isPassive l).filter isContinuation := by
  rw [List.takeWhile_append_of_pos fun l hl => by rw [h l hl, Bool.true_or], List.filter_append,
    List.filter_eq_self.mpr h]

theorem header_eq (c : Circuit) : c.header = c.opening :: (c.leading ++ c.later) := by
  rw [header, ← c.leading_append_trailing,
    filter_takeWhile_append fun _ hl => isContinuation_of_mem_leading hl]
  rfl

theorem isContinuation_scaled_leading (var : Text) (c : Circuit) :
    ∀ line ∈ c.leading.map (scaleLine var) ++ c.added var, isContinuation line = true := by
  intro line hline
  obtain hline | hadded := List.mem_append.mp hline
  · obtain ⟨l, hl, rfl⟩ := List.mem_map.mp hline
    rw [isContinuation_scaleLine, isContinuation_of_mem_leading hl]
  · rw [eq_multLine_of_mem_added hadded]
    rfl

theorem header_scaled (var : Text) (c : Circuit) :
    (c.scaled var).header = c.opening ::
      (c.leading.map (scaleLine var) ++ c.added var ++ c.later.map (scaleLine var)) := by
  simp only [header, scaled]
  rw [filter_takeWhile_append (c.isContinuation_scaled_leading var), List.takeWhile_map,
    List.filter_map]
  simp only [Function.comp_def, isContinuation_scaleLine, isPassive_scaleLine]
  rfl

theorem any_declaresMult_added (var : Text) (c : Circuit) :
    (c.added var).any declaresMult =
      (c.closing.isSome && c.hasRoot var && !c.declaresAtOnce) := by
  have hmult : declaresMult multLine = true := by decide
  unfold added
  split
  · rename_i h
    rw [h, List.any_cons, hmult, Bool.true_or]
  · rename_i h
    rw [Bool.eq_false_iff.mpr h]
    rfl

theorem declares_eq (c : Circuit) :
    c.declares = (c.declaresAtOnce || c.later.any declaresMult) := by
  rw [declares, header_eq, declaresAtOnce, ← List.cons_append, List.any_append]

theorem declares_scaled (var : Text) (c : Circuit) :
    (c.scaled var).declares =
      (c.declares || (c.closing.isSome && c.hasRoot var && !c.declaresAtOnce)) := by
  rw [declares_eq c, declaresAtOnce, declares, header_scaled]
  simp only [List.any_cons, List.any_append, any_declaresMult_map_scaleLine,
    any_declaresMult_added, Bool.or_assoc]
  rw [Bool.or_comm (_ && _) (c.later.any declaresMult)]
  rfl

/-- Scaling makes a subcircuit longer by the line that it adds. -/
theorem length_lt_length_scaled (var : Text) (c : Circuit) :
    c.lines.length < (c.scaled var).lines.length ↔
      c.closing.isSome = true ∧ c.hasRoot var = true ∧ c.declaresAtOnce = false := by
  have hinside : (c.scaled var).inside.length = c.inside.length + (c.added var).length := by
    rw [← c.leading_append_trailing]
    simp only [scaled, List.length_append, List.length_map]
    omega
  have hadded : 0 < (c.added var).length ↔
      c.closing.isSome = true ∧ c.hasRoot var = true ∧ c.declaresAtOnce = false := by
    unfold added
    split
    · rename_i h
      simpa [and_assoc] using h
    · rename_i h
      refine iff_of_false (Nat.lt_irrefl 0) ?_
      rintro ⟨h1, h2, h3⟩
      exact h (by rw [h1, h2, h3]; rfl)
  rw [← hadded, lines, lines, List.length_cons, List.length_cons, List.length_append,
    List.length_append, hinside]
  change _ < _ + c.closing.toList.length + 1 ↔ _
  omega

/-- A scaled subcircuit declares its multiplicity, and gets a line for it only where it has no
declaration: this holds exactly where the declaration of a closed subcircuit stands in front of
all comments and blank lines, and where an unclosed subcircuit has one. -/
theorem scaleRoots_declares_iff (var : Text) (before after : List Text) (c : Circuit)
    (h : c.closing = none → after.head?.all opensSubcircuit = true) :
    scaleRoots var (before ++ c.lines ++ after) =
        scaleRoots var before ++ (c.scaled var).lines ++ scaleRoots var after ∧
      (((c.hasRoot var = true → (c.scaled var).declares = true) ∧
          (c.lines.length < (c.scaled var).lines.length → c.declares = false)) ↔
        (c.hasRoot var = true →
          if c.closing.isSome then c.declares = true → c.declaresAtOnce = true
          else c.declares = true)) := by
  refine ⟨scaleRoots_append_circuit var before c h, ?_⟩
  rw [length_lt_length_scaled, declares_scaled]
  cases c.closing.isSome with
  | false => simp
  | true =>
      cases c.hasRoot var with
      | false => simp
      | true =>
          have hfirst : c.declaresAtOnce = true → c.declares = true := by
            intro hfirst
            rw [declares_eq, hfirst, Bool.true_or]
          cases hd : c.declaresAtOnce with
          | false => simp
          | true => simp [hfirst hd]

/-- A comment stands in front of the declaration. -/
def commented : Circuit where
  opening := ".subckt cell a b".toList
  inside := ["* corner".toList, "+ mult=2".toList, "r1 a b r={1k/sqrt(m)}".toList]
  closing := some ".ends cell".toList
  opens := by decide
  plain := by
    simp only [List.forall_mem_cons, IsPlain]
    decide
  closes := by
    simp only [Option.mem_some_iff, forall_eq']
    decide

theorem scaleRoots_declares_commented :
    commented.hasRoot "m".toList = true ∧ commented.declares = true ∧
      ¬ ((commented.hasRoot "m".toList = true →
            (commented.scaled "m".toList).declares = true) ∧
          (commented.lines.length < (commented.scaled "m".toList).lines.length →
            commented.declares = false)) := by
  have hroot : commented.hasRoot "m".toList = true := by decide
  have hdeclares : commented.declares = true := by decide
  refine ⟨hroot, hdeclares, ?_⟩
  intro hpromises
  have hcondition := (scaleRoots_declares_iff "m".toList [] [] commented nofun).2.mp hpromises hroot
  have hfirst : commented.declaresAtOnce = true := hcondition hdeclares
  revert hfirst
  decide

end Circuit

end Deck
end SpiceDeck
