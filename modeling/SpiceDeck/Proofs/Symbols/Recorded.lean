import SpiceDeck.Proofs.Symbols.HeadLine
import SpiceDeck.Proofs.Text.Words

/-!
What the symbols of a text record. Of the lines that declare a model the last one gives its
type, or else the first one that declares a bin of it, however they are mixed. Main statement:
the look-ups by the lines of the text, and when they see only lines that start a statement. A
line that a backslash joins to the one before it is read for symbols like any other.
-/

namespace SpiceDeck
open Text

namespace Text

/-- Blanks between two words. -/
def IsGap (g : Text) : Prop := g ≠ [] ∧ ∀ c ∈ g, isSpace c = true

/-- A word that ends where the rest starts: at a blank or one of the given characters. -/
structure IsWordBefore (stops : List Char) (w rest : Text) : Prop where
  ne_nil : w ≠ []
  inside : ∀ c ∈ w, isSpace c = false ∧ c ∉ stops
  ends : ∀ c ∈ rest.head?, isSpace c = true ∨ c ∈ stops

variable {lit t r w : Text} {stops : List Char}

theorem after?_eq_some_iff : after? lit t = some r ↔ t = lit ++ r := by
  constructor
  · exact Param.after?_append
  · rintro rfl
    induction lit with
    | nil => rfl
    | cons l ls ih => simp [after?, ih]

theorem afterFolded?_eq_some_iff :
    afterFolded? lit t = some r ↔ ∃ keyword, keyword.map fold = lit ∧ t = keyword ++ r := by
  induction lit generalizing t with
  | nil => simp [afterFolded?, eq_comm]
  | cons l ls ih =>
      cases t with
      | nil => simp [afterFolded?]
      | cons c t =>
          simp only [afterFolded?]
          constructor
          · intro h
            split at h
            · next hl =>
                obtain ⟨keyword, hkeyword, rfl⟩ := ih.mp h
                exact ⟨c :: keyword, by rw [List.map_cons, ← hl, hkeyword], rfl⟩
            · cases h
          · rintro ⟨keyword, hkeyword, heq⟩
            cases keyword with
            | nil => cases hkeyword
            | cons x keyword =>
                obtain ⟨rfl, rfl⟩ := List.cons.inj heq
                obtain ⟨hl, hls⟩ := List.cons.inj hkeyword
                rw [if_pos hl.symm]
                exact ih.mpr ⟨keyword, hls, rfl⟩

theorem startsInInk_trimStart (t : Text) : StartsInInk (trimStart t) := by
  intro c hc
  obtain ⟨u, hu⟩ := List.head?_eq_some_iff.mp hc
  exact not_of_dropWhile_eq_cons hu

theorem afterSpaces?_eq_some_iff :
    afterSpaces? t = some r ↔ ∃ gap, IsGap gap ∧ StartsInInk r ∧ t = gap ++ r := by
  constructor
  · intro h
    have hr := Symbols.eq_of_afterSpaces? h
    rw [afterSpaces?] at h
    split at h
    · next hblank =>
        refine ⟨t.takeWhile isSpace, ⟨?_, fun c hc => List.mem_takeWhile_imp hc⟩, ?_, ?_⟩
        · cases t with
          | nil => cases hblank
          | cons c t =>
              have hc : isSpace c = true := hblank
              simp [hc]
        · rw [hr]
          exact startsInInk_trimStart t
        · rw [hr]
          exact List.takeWhile_append_dropWhile.symm
    · cases h
  · rintro ⟨gap, ⟨hne, hgap⟩, hr, rfl⟩
    obtain ⟨c, g, rfl⟩ := List.exists_cons_of_ne_nil hne
    have hblank : ((c :: g) ++ r).head?.any isSpace = true := hgap c List.mem_cons_self
    rw [afterSpaces?, if_pos hblank, trimStart_blanks hgap, hr.trimStart]

theorem wordBefore?_eq_some_iff :
    Symbols.wordBefore? stops t = some w ↔ ∃ rest, IsWordBefore stops w rest ∧ t = w ++ rest := by
  constructor
  · intro h
    have hw := Symbols.eq_of_wordBefore? h
    refine ⟨t.dropWhile fun c => !(isSpace c || stops.contains c), ⟨?_, ?_, ?_⟩, ?_⟩
    · rintro rfl
      rw [Symbols.wordBefore?, ← hw] at h
      cases h
    · intro c hc
      rw [hw] at hc
      have hinside := List.mem_takeWhile_imp hc
      simpa using hinside
    · intro c hc
      obtain ⟨u, hu⟩ := List.head?_eq_some_iff.mp hc
      have hstop := not_of_dropWhile_eq_cons hu
      simpa only [Bool.not_eq_false', Bool.or_eq_true, List.contains_iff_mem] using hstop
    · rw [hw]
      exact List.takeWhile_append_dropWhile.symm
  · rintro ⟨rest, h, rfl⟩
    refine Symbols.wordBefore?_of_takeWhile ?_ h.ne_nil
    rw [takeWhile_append_stop]
    · rw [List.takeWhile_eq_self_iff]
      intro c hc
      have hinside := h.inside c hc
      simpa using hinside
    · intro c hc
      have hends := h.ends c hc
      simpa only [Bool.not_eq_false', Bool.or_eq_true, List.contains_iff_mem] using hends

/-- A word that no character but a blank ends. -/
theorem isWordBefore_nil_iff :
    IsWordBefore [] w r ↔ IsInk w ∧ ∀ c ∈ r.head?, isSpace c = true := by
  constructor
  · intro h
    exact ⟨⟨h.ne_nil, fun c hc => (h.inside c hc).1⟩, by simpa using h.ends⟩
  · rintro ⟨⟨hne, hink⟩, hends⟩
    exact ⟨hne, fun c hc => ⟨hink c hc, List.not_mem_nil⟩, fun c hc => .inl (hends c hc)⟩

theorem afterToken_append (hw : IsInk w) (hr : ∀ c ∈ r.head?, isSpace c = true) :
    afterToken (w ++ r) = r := by
  rw [afterToken, dropWhile_append_stop, List.dropWhile_eq_nil_iff.mpr, List.nil_append]
  · intro c hc
    rw [hw.2 c hc]
    rfl
  · intro c hc
    rw [hr c hc]
    rfl

theorem IsGap.head? {gap : Text} (h : IsGap gap) (u : Text) :
    ∀ c ∈ (gap ++ u).head?, isSpace c = true := by
  obtain ⟨x, g, rfl⟩ := List.exists_cons_of_ne_nil h.1
  rintro c ⟨⟩
  exact h.2 x List.mem_cons_self

theorem IsWordBefore.startsInInk (h : IsWordBefore stops w r) : StartsInInk (w ++ r) := by
  obtain ⟨x, u, rfl⟩ := List.exists_cons_of_ne_nil h.ne_nil
  exact startsInInk_cons (h.inside x List.mem_cons_self).1 _

theorem IsInk.startsInInk (h : IsInk w) (u : Text) : StartsInInk (w ++ u) := by
  obtain ⟨x, v, rfl⟩ := List.exists_cons_of_ne_nil h.1
  exact startsInInk_cons (h.2 x List.mem_cons_self) _

end Text

theorem Line.getElem?_readFrom {raws : List Text} {raw : Text} {k : Nat} (h : raws[k]? = some raw)
    (n : Nat) (joined : Bool) :
    ∃ before, (readFrom n joined raws)[k]? = some (read (n + k) before raw).1 := by
  induction raws generalizing n joined k with
  | nil => cases h
  | cons x r ih =>
      cases k with
      | zero =>
          cases h
          exact ⟨joined, rfl⟩
      | succ k =>
          obtain ⟨before, hl⟩ := ih (k := k) h (n + 1) (read n joined x).2
          have hnumber : n + (k + 1) = n + 1 + k := by omega
          rw [hnumber]
          exact ⟨before, hl⟩

namespace Symbols

/-- A line without its outer blanks that declares a model: `model name type`, or the same
with a dotted keyword, in which case does not matter. -/
inductive ModelLine : Text → Text → Text → Prop where
  | mk {keyword gap name gap' type rest : Text}
      (hkeyword : keyword = "model".toList ∨ keyword.map fold = ".model".toList)
      (hgap : IsGap gap) (hname : IsInk name) (hgap' : IsGap gap')
      (htype : IsWordBefore ['{', '('] type rest) :
      ModelLine (keyword ++ (gap ++ (name ++ (gap' ++ (type ++ rest))))) name type

/-- A line without its outer blanks that declares a subcircuit: `subckt name`, perhaps after
`inline`, or the same with a dotted keyword, in which case does not matter. -/
inductive SubcircuitLine : Text → Text → Prop where
  | plain {gap name rest : Text} (hgap : IsGap gap) (hname : IsWordBefore ['('] name rest) :
      SubcircuitLine ("subckt".toList ++ (gap ++ (name ++ rest))) name
  | inline {gap' gap name rest : Text} (hgap' : IsGap gap') (hgap : IsGap gap)
      (hname : IsWordBefore ['('] name rest) :
      SubcircuitLine
        ("inline".toList ++ (gap' ++ ("subckt".toList ++ (gap ++ (name ++ rest))))) name
  | dotted {keyword gap name rest : Text} (hkeyword : keyword.map fold = ".subckt".toList)
      (hgap : IsGap gap) (hname : IsWordBefore ['('] name rest) :
      SubcircuitLine (keyword ++ (gap ++ (name ++ rest))) name

variable {t r name type : Text}

theorem afterModelKeyword?_eq_some_iff :
    (after? "model".toList t).or (afterFolded? ".model".toList t) = some r ↔
      ∃ keyword, (keyword = "model".toList ∨ keyword.map fold = ".model".toList) ∧
        t = keyword ++ r := by
  constructor
  · intro h
    obtain h | ⟨-, h⟩ := Option.or_eq_some_iff.mp h
    · exact ⟨_, .inl rfl, after?_eq_some_iff.mp h⟩
    · obtain ⟨keyword, hkeyword, ht⟩ := afterFolded?_eq_some_iff.mp h
      exact ⟨keyword, .inr hkeyword, ht⟩
  · rintro ⟨keyword, rfl | hkeyword, ht⟩
    · rw [after?_eq_some_iff.mpr ht, Option.some_or]
    · have hdotted := afterFolded?_eq_some_iff.mpr ⟨keyword, hkeyword, ht⟩
      rw [after?_eq_none (begins_of_afterFolded? hdotted) (by decide), Option.none_or, hdotted]

theorem modelDeclared?_eq_some_iff :
    modelDeclared? t = some (name, type) ↔ ModelLine t name type := by
  constructor
  · intro h
    obtain ⟨r, hr, hparts⟩ := Option.bind_eq_some_iff.mp h
    obtain ⟨u, hu, hspaces⟩ := Option.bind_eq_some_iff.mp hr
    obtain ⟨keyword, hkeyword, rfl⟩ := afterModelKeyword?_eq_some_iff.mp hu
    obtain ⟨gap, hgap, -, rfl⟩ := afterSpaces?_eq_some_iff.mp hspaces
    split at hparts
    · next hname htype =>
        cases hparts
        obtain ⟨rest, hrest, rfl⟩ := wordBefore?_eq_some_iff.mp hname
        obtain ⟨hink, hends⟩ := isWordBefore_nil_iff.mp hrest
        rw [afterToken_append hink hends] at htype
        obtain ⟨v, hv, hkind⟩ := Option.bind_eq_some_iff.mp htype
        obtain ⟨gap', hgap', -, rfl⟩ := afterSpaces?_eq_some_iff.mp hv
        obtain ⟨last, hlast, rfl⟩ := wordBefore?_eq_some_iff.mp hkind
        exact .mk hkeyword hgap hink hgap' hlast
    · cases hparts
  · rintro (@⟨keyword, gap, name, gap', type, rest, hkeyword, hgap, hname, hgap', htype⟩)
    have hspaces := afterSpaces?_eq_some_iff.mpr
      ⟨gap, hgap, hname.startsInInk (gap' ++ (type ++ rest)), rfl⟩
    have hfirst := wordBefore?_eq_some_iff.mpr
      ⟨gap' ++ (type ++ rest), isWordBefore_nil_iff.mpr ⟨hname, hgap'.head? _⟩, rfl⟩
    have hspaces' := afterSpaces?_eq_some_iff.mpr ⟨gap', hgap', htype.startsInInk, rfl⟩
    have hsecond := wordBefore?_eq_some_iff.mpr ⟨rest, htype, rfl⟩
    simp only [modelDeclared?]
    rw [afterModelKeyword?_eq_some_iff.mpr ⟨keyword, hkeyword, rfl⟩, Option.bind_some, hspaces,
      Option.bind_some, hfirst, afterToken_append hname (hgap'.head? _), hspaces',
      Option.bind_some, hsecond]

/-- The name of a subcircuit behind the keyword. -/
theorem nameAfterGap?_eq_some_iff :
    (afterSpaces? r).bind (wordBefore? ['(']) = some name ↔
      ∃ gap rest, IsGap gap ∧ IsWordBefore ['('] name rest ∧ r = gap ++ (name ++ rest) := by
  constructor
  · intro h
    obtain ⟨u, hu, hname⟩ := Option.bind_eq_some_iff.mp h
    obtain ⟨gap, hgap, -, rfl⟩ := afterSpaces?_eq_some_iff.mp hu
    obtain ⟨rest, hrest, rfl⟩ := wordBefore?_eq_some_iff.mp hname
    exact ⟨gap, rest, hgap, hrest, rfl⟩
  · rintro ⟨gap, rest, hgap, hname, rfl⟩
    rw [afterSpaces?_eq_some_iff.mpr ⟨gap, hgap, hname.startsInInk, rfl⟩, Option.bind_some]
    exact wordBefore?_eq_some_iff.mpr ⟨rest, hname, rfl⟩

theorem subcircuitDeclared?_eq_some_iff :
    subcircuitDeclared? t = some name ↔ SubcircuitLine t name := by
  constructor
  · intro h
    simp only [subcircuitDeclared?, Option.bind_assoc] at h
    obtain ⟨r, hkeyword, hword⟩ := Option.bind_eq_some_iff.mp h
    obtain ⟨gap, rest, hgap, hname, rfl⟩ := nameAfterGap?_eq_some_iff.mp hword
    obtain hplain | ⟨-, hdotted⟩ := Option.or_eq_some_iff.mp hkeyword
    · split at hplain
      · next start hstart =>
          obtain ⟨u, hu, hspaces⟩ := Option.bind_eq_some_iff.mp hstart
          cases after?_eq_some_iff.mp hu
          obtain ⟨gap', hgap', -, rfl⟩ := afterSpaces?_eq_some_iff.mp hspaces
          cases after?_eq_some_iff.mp hplain
          exact .inline hgap' hgap hname
      · cases after?_eq_some_iff.mp hplain
        exact .plain hgap hname
    · obtain ⟨keyword, hfolded, rfl⟩ := afterFolded?_eq_some_iff.mp hdotted
      exact .dotted hfolded hgap hname
  · intro h
    cases h with
    | plain hgap hname =>
        have hinline : ∀ r, after? "inline".toList ("subckt".toList ++ r) = none := fun _ => rfl
        simp only [subcircuitDeclared?, hinline, Option.bind_none, after?_eq_some_iff.mpr rfl,
          Option.some_or, Option.bind_some]
        exact nameAfterGap?_eq_some_iff.mpr ⟨_, _, hgap, hname, rfl⟩
    | @inline gap' gap name rest hgap' hgap hname =>
        have hstart : afterSpaces? (gap' ++ ("subckt".toList ++ (gap ++ (name ++ rest)))) =
            some ("subckt".toList ++ (gap ++ (name ++ rest))) :=
          afterSpaces?_eq_some_iff.mpr ⟨gap', hgap', startsInInk_cons rfl _, rfl⟩
        simp only [subcircuitDeclared?, after?_eq_some_iff.mpr rfl, hstart, Option.some_or,
          Option.bind_some]
        exact nameAfterGap?_eq_some_iff.mpr ⟨_, _, hgap, hname, rfl⟩
    | dotted hkeyword hgap hname =>
        exact subcircuitDeclared?_dotted (afterFolded?_eq_some_iff.mpr ⟨_, hkeyword, rfl⟩)
          (nameAfterGap?_eq_some_iff.mpr ⟨_, _, hgap, hname, rfl⟩)

theorem declaredModel?_eq_some_iff {raw : Text} :
    declaredModel? raw = some (name, type) ↔ ModelLine (trim raw) name type := by
  rw [← modelDeclared?_eq_some_iff, declaredModel?]
  constructor
  · intro h
    split at h
    · cases h
    · exact h
  · intro h
    have hactive : isPassive (trim raw) = false :=
      isPassive_eq_false (startsAs_of_modelDeclared? h) (by decide)
    simp only [hactive, subcircuitDeclared?_of_modelDeclared? h, h, Option.isSome_none,
      Bool.or_false, Bool.false_eq_true, if_false]

theorem recordedSubcircuit?_eq_some_iff {raw key : Text} :
    recordedSubcircuit? raw = some key ↔
      ∃ name, SubcircuitLine (trim raw) name ∧ lower name = key := by
  simp only [← subcircuitDeclared?_eq_some_iff, ← Option.map_eq_some_iff]
  cases h : subcircuitDeclared? (trim raw) with
  | none => simp [recordedSubcircuit?, h]
  | some name =>
      have hactive : isPassive (trim raw) = false :=
        isPassive_eq_false (startsAs_of_subcircuitDeclared? h) (by decide)
      simp [recordedSubcircuit?, h, hactive]

theorem isSubcircuit_scan_iff (t n : Text) :
    (scan t).isSubcircuit n = true ↔
      ∃ raw ∈ lines t, ∃ name, SubcircuitLine (trim raw) name ∧ sameName name n = true := by
  rw [isSubcircuit, List.contains_iff_mem, scan, subcircuits_foldl]
  simp only [List.not_mem_nil, false_or, List.mem_filterMap, recordedSubcircuit?_eq_some_iff,
    sameName, beq_iff_eq]

/-- The name is that of a bin: a base name, a point and digits. -/
def IsBinOf (base name : Text) : Prop :=
  base ≠ [] ∧ ∃ digits, digits ≠ [] ∧ (∀ c ∈ digits, isDigit c = true) ∧
    lower name = lower base ++ '.' :: digits

theorem binBase?_eq_some_iff {base : Text} :
    binBase? name = some base ↔
      base ≠ [] ∧ ∃ digits, digits ≠ [] ∧ (∀ c ∈ digits, isDigit c = true) ∧
        name = base ++ '.' :: digits := by
  have hsplit : name.reverse.takeWhile isDigit ++ name.reverse.dropWhile isDigit = name.reverse :=
    List.takeWhile_append_dropWhile
  constructor
  · intro h
    simp only [binBase?] at h
    split at h
    · next b hb =>
        split at h
        · cases h
        · next hne =>
            cases h
            simp only [Bool.or_eq_true, List.isEmpty_iff, not_or] at hne
            refine ⟨by simpa using hne.2, (name.reverse.takeWhile isDigit).reverse,
              by simpa using hne.1, ?_, ?_⟩
            · intro c hc
              exact List.mem_takeWhile_imp (List.mem_reverse.mp hc)
            · have hname := congrArg List.reverse hsplit
              rw [hb] at hname
              simpa using hname.symm
    · cases h
  · rintro ⟨hbase, digits, hne, hdigits, rfl⟩
    have hstop : ∀ c ∈ ('.' :: base.reverse).head?, isDigit c = false := by
      rintro c ⟨⟩
      decide
    have hreverse : (base ++ '.' :: digits).reverse = digits.reverse ++ '.' :: base.reverse := by
      simp
    have htake : digits.reverse.takeWhile isDigit = digits.reverse :=
      List.takeWhile_eq_self_iff.mpr fun c hc => hdigits c (List.mem_reverse.mp hc)
    have hdrop : digits.reverse.dropWhile isDigit = [] :=
      List.dropWhile_eq_nil_iff.mpr fun c hc => hdigits c (List.mem_reverse.mp hc)
    simp only [binBase?, hreverse, takeWhile_append_stop hstop, dropWhile_append_stop hstop, htake,
      hdrop, List.nil_append]
    simp [hne, hbase]

theorem isBinOf_iff {base : Text} :
    IsBinOf base name ↔ binBase? (lower name) = some (lower base) := by
  simp [IsBinOf, binBase?_eq_some_iff, lower]

/-- The last declaration of a name counts, and a bin for its base name only while that has no
type. -/
theorem modelType?_addModel (s : Symbols) (name type n : Text) :
    (s.addModel name type).modelType? n =
      ((if sameName name n then some (lower type) else none).or (s.modelType? n)).or
        (if binBase? (lower name) = some (lower n) then some (lower type) else none) := by
  have hsame : sameName name n = (lower n == lower name) := by
    rw [sameName, Bool.beq_comm]
  simp only [modelType?, addModel, List.lookup_cons, hsame]
  cases lower n == lower name with
  | true => rfl
  | false =>
      cases hbase : binBase? (lower name) with
      | none => simp
      | some base =>
          simp only [Option.some.injEq, Bool.false_eq_true, if_false, Option.none_or]
          by_cases hn : base = lower n
          · subst hn
            cases hs : s.models.lookup (lower n) <;> simp [hs]
          · have hne : (lower n == base) = false := beq_false_of_ne (Ne.symm hn)
            cases s.models.lookup base <;> simp [hn, hne, List.lookup_cons]

/-- The type that a line declares for a model whose name is of this kind. -/
def typeAs? (p : Text → Bool) (raw : Text) : Option Text :=
  (declaredModel? raw).bind fun model => if p model.1 then some (lower model.2) else none

/-- Some line declares a model whose name is of this kind, the first of them with this type. -/
def FirstTyped (p : Text → Prop) (raws : List Text) (type : Text) : Prop :=
  ∃ before raw after name keyword, raws = before ++ raw :: after ∧
    ModelLine (trim raw) name keyword ∧ p name ∧ type = lower keyword ∧
    ∀ x ∈ before, ∀ other keyword, ModelLine (trim x) other keyword → ¬ p other

theorem typeAs?_eq_some_iff {p : Text → Bool} {raw : Text} :
    typeAs? p raw = some type ↔
      ∃ name keyword, ModelLine (trim raw) name keyword ∧ p name = true ∧ type = lower keyword := by
  rw [typeAs?, Option.bind_eq_some_iff]
  constructor
  · rintro ⟨⟨name, keyword⟩, hmodel, htype⟩
    split at htype
    · next hname =>
        cases htype
        exact ⟨name, keyword, declaredModel?_eq_some_iff.mp hmodel, hname, rfl⟩
    · cases htype
  · rintro ⟨name, keyword, hline, hname, rfl⟩
    exact ⟨(name, keyword), declaredModel?_eq_some_iff.mpr hline, if_pos hname⟩

theorem typeAs?_eq_none_iff {p : Text → Bool} {raw : Text} :
    typeAs? p raw = none ↔ ∀ name keyword, ModelLine (trim raw) name keyword → ¬ p name = true := by
  rw [Option.eq_none_iff_forall_ne_some]
  simp only [ne_eq, typeAs?_eq_some_iff, not_exists, not_and]
  constructor
  · intro h name keyword hline hname
    exact h (lower keyword) name keyword hline hname rfl
  · intro h _ name keyword hline hname
    exact absurd hname (h name keyword hline)

theorem findSome?_typeAs?_eq_some_iff {p : Text → Bool} {raws : List Text} :
    raws.findSome? (typeAs? p) = some type ↔ FirstTyped (fun name => p name = true) raws type := by
  rw [List.findSome?_eq_some_iff]
  constructor
  · rintro ⟨before, raw, after, rfl, htype, hbefore⟩
    obtain ⟨name, keyword, hline, hname, rfl⟩ := typeAs?_eq_some_iff.mp htype
    exact ⟨before, raw, after, name, keyword, rfl, hline, hname, rfl,
      fun x hx => typeAs?_eq_none_iff.mp (hbefore x hx)⟩
  · rintro ⟨before, raw, after, name, keyword, rfl, hline, hname, rfl, hbefore⟩
    exact ⟨before, raw, after, rfl, typeAs?_eq_some_iff.mpr ⟨name, keyword, hline, hname, rfl⟩,
      fun x hx => typeAs?_eq_none_iff.mpr (hbefore x hx)⟩

theorem modelType?_addLine_eq (s : Symbols) (raw n : Text) :
    (s.addLine raw).modelType? n =
      ((typeAs? (sameName · n) raw).or (s.modelType? n)).or
        (typeAs? (fun name => binBase? (lower name) = some (lower n)) raw) := by
  cases h : declaredModel? raw with
  | some model =>
      rw [addLine_of_declaredModel h, modelType?_addModel]
      simp [typeAs?, h]
  | none =>
      have hmodels : (s.addLine raw).models = s.models := by
        obtain ⟨-, -, hline⟩ | ⟨declared, -, -, hline⟩ | ⟨declared, keyword, -, hrecords, -⟩ :=
          addLine_cases s raw
        · rw [hline]
        · rw [hline]
          rfl
        · rw [recordedModels_eq, h] at hrecords
          cases hrecords
      simp [typeAs?, h, modelType?, hmodels]

/-- From the end of the lines the first that declares the name counts; behind it, and behind
what was known before, the first from the start that declares a bin. -/
theorem modelType?_foldl_eq (s : Symbols) (raws : List Text) (n : Text) :
    (raws.foldl addLine s).modelType? n =
      ((raws.reverse.findSome? (typeAs? (sameName · n))).or (s.modelType? n)).or
        (raws.findSome? (typeAs? fun name => binBase? (lower name) = some (lower n))) := by
  induction raws generalizing s with
  | nil => simp
  | cons raw r ih =>
      rw [List.foldl_cons, ih, modelType?_addLine_eq, List.reverse_cons, List.findSome?_append]
      have hcons : ∀ p : Text → Bool, (raw :: r).findSome? (typeAs? p) =
          (typeAs? p raw).or (r.findSome? (typeAs? p)) := by
        intro p
        rw [List.findSome?_cons]
        cases typeAs? p raw <;> rfl
      have hlast : ∀ p : Text → Bool, [raw].findSome? (typeAs? p) = typeAs? p raw := by
        intro p
        rw [List.findSome?_singleton]
      rw [hcons, hlast]
      simp only [Option.or_assoc]

/-- Some line declares a model whose name is of this kind, the last of them with this type. -/
def LastTyped (p : Text → Prop) (raws : List Text) (type : Text) : Prop :=
  FirstTyped p raws.reverse type

theorem modelType?_scan_iff (t n type : Text) :
    (scan t).modelType? n = some type ↔
      LastTyped (sameName · n = true) (lines t) type ∨
        (¬ ∃ other, LastTyped (sameName · n = true) (lines t) other) ∧
          FirstTyped (IsBinOf n) (lines t) type := by
  have hbin : (fun name => decide (binBase? (lower name) = some (lower n)) = true) = IsBinOf n := by
    funext name
    rw [decide_eq_true_eq, ← isBinOf_iff]
  have hfirst : (({} : Symbols).modelType? n) = none := rfl
  simp only [LastTyped, ← findSome?_typeAs?_eq_some_iff]
  rw [scan, modelType?_foldl_eq, hfirst, Option.or_none, Option.or_eq_some_iff, ← hbin,
    ← findSome?_typeAs?_eq_some_iff, Option.eq_none_iff_forall_ne_some, not_exists]

/-- Some line of the text declares the subcircuit; `continues` tells whether that line goes on
with the statement of another one. -/
def DeclaredOn (t n : Text) (continues : Bool) : Prop :=
  ∃ (k : Nat) (raw : Text) (l : Line) (name : Text), (lines t)[k]? = some raw ∧
    (Line.ofText t)[k]? = some l ∧ l.isCode = true ∧ l.continues = continues ∧
    SubcircuitLine (trim raw) name ∧ sameName name n = true

theorem isSilent_of_subcircuitLine {raw name : Text} (h : SubcircuitLine (trim raw) name) :
    isSilent raw = false := by
  have hactive : isPassive (trim raw) = false :=
    isPassive_eq_false
      (startsAs_of_subcircuitDeclared? (subcircuitDeclared?_eq_some_iff.mpr h)) (by decide)
  cases hs : isSilent raw with
  | false => rfl
  | true =>
      have hstar : isSpace '*' = false := by decide
      have hslash : isSpace '/' = false := by decide
      rw [trim] at hactive
      simp only [isSilent] at hs
      split at hs
      · next hraw =>
          rw [hraw] at hactive
          cases hactive
      · next hraw =>
          rw [hraw, trimEnd_cons hstar] at hactive
          cases hactive
      · next hraw =>
          rw [hraw, trimEnd_cons hslash, trimEnd_cons hslash] at hactive
          cases hactive
      · cases hs

/-- Every line that declares a subcircuit counts, also one that continues another. -/
theorem isSubcircuit_scan_iff_declaredOn (t n : Text) :
    (scan t).isSubcircuit n = true ↔ DeclaredOn t n false ∨ DeclaredOn t n true := by
  rw [isSubcircuit_scan_iff]
  constructor
  · rintro ⟨raw, hraw, name, hline, hname⟩
    obtain ⟨k, hk⟩ := List.mem_iff_getElem?.mp hraw
    obtain ⟨joined, hl⟩ := Line.getElem?_readFrom hk 1 false
    have hcode : (Line.read (1 + k) joined raw).1.isCode = true := by
      rw [Line.read_code (isSilent_of_subcircuitLine hline)]
      rfl
    cases hcontinues : (Line.read (1 + k) joined raw).1.continues with
    | false => exact .inl ⟨k, raw, _, name, hk, hl, hcode, hcontinues, hline, hname⟩
    | true => exact .inr ⟨k, raw, _, name, hk, hl, hcode, hcontinues, hline, hname⟩
  · rintro (⟨k, raw, l, name, hk, -, -, -, hline, hname⟩ |
      ⟨k, raw, l, name, hk, -, -, -, hline, hname⟩)
    · exact ⟨raw, List.mem_of_getElem? hk, name, hline, hname⟩
    · exact ⟨raw, List.mem_of_getElem? hk, name, hline, hname⟩

/-- A model has the type of the last line that declares its name, or else of the first line
that declares a bin of it, and otherwise none. A name is that of a subcircuit if some line
declares it; only lines that start a statement count for it if and only if no line that
continues another is the only one to declare it. -/
theorem scan_records (t n : Text) :
    (∀ type, (scan t).modelType? n = some type ↔
      LastTyped (sameName · n = true) (lines t) type ∨
        (¬ ∃ other, LastTyped (sameName · n = true) (lines t) other) ∧
          FirstTyped (IsBinOf n) (lines t) type) ∧
    ((scan t).isSubcircuit n = true ↔
      ∃ raw ∈ lines t, ∃ name, SubcircuitLine (trim raw) name ∧ sameName name n = true) ∧
    (((scan t).isSubcircuit n = true ↔ DeclaredOn t n false) ↔
      (DeclaredOn t n true → DeclaredOn t n false)) := by
  refine ⟨modelType?_scan_iff t n, isSubcircuit_scan_iff t n, ?_⟩
  rw [isSubcircuit_scan_iff_declaredOn]
  tauto

/-- A list of global nodes that goes on behind a backslash, with a node named as the keyword. -/
def joinedNodes : Text := "global 0 \\\nsubckt vdd\n".toList

example : (scan joinedNodes).isSubcircuit "vdd".toList = true ∧
    (Line.ofText joinedNodes).map Line.continues = [false, true] := by
  decide +kernel

end Symbols
end SpiceDeck
