import Mathlib.Data.List.DropRight
import Mathlib.Data.List.Find
import SpiceDeck.Proofs.Order.Agreement
import SpiceDeck.Proofs.Statement.Origin

/-!
The two readers of declarations. The symbols are collected from the physical lines before
any statement is recognised, with rules of their own for where a name and a type end. Main
statement: on a line that both readers see alike, whatever is recognised as the opening of
a subcircuit or of a model is among the symbols, and a model has the family there that its
own type gives it.
-/

namespace SpiceDeck
open Text

namespace Text

@[simp] theorem lower_lower (t : Text) : lower (lower t) = lower t := by
  rw [lower, lower, List.map_map]
  apply List.map_congr_left
  intro c _
  simp only [Function.comp_apply]
  delta Char.toLower
  grind

theorem trimEnd_trimEnd (t : Text) : trimEnd (trimEnd t) = trimEnd t := by
  rw [trimEnd, trimEnd, List.reverse_reverse, List.dropWhile_idempotent]

/-- Whether a text starts with a word does not depend on what follows a character that the
word cannot have. -/
theorem startsWith_lower_takeWhile {p : Char → Bool} {lit : Text}
    (h : ∀ c, c.toLower ∈ lit → p c = true) (t : Text) :
    startsWith (lower (t.takeWhile p)) lit = startsWith (lower t) lit := by
  simp only [startsWith]
  induction lit generalizing t with
  | nil => rfl
  | cons l ls ih =>
      have hls : ∀ c, c.toLower ∈ ls → p c = true := by
        intro c hc
        exact h c (List.mem_cons_of_mem l hc)
      cases t with
      | nil => rfl
      | cons c r =>
          by_cases hp : p c = true
          · simp only [List.takeWhile_cons_of_pos hp, lower, List.map_cons, after?]
            by_cases hl : l = c.toLower
            · simp only [hl, if_true]
              exact ih hls r
            · simp only [hl, if_false]
          · have hl : l ≠ c.toLower := by
              intro hl
              apply hp
              apply h
              rw [hl]
              exact List.mem_cons_self
            simp [List.takeWhile_cons_of_neg hp, lower, after?, hl]

end Text

namespace Family

theorem ofKeyword_lower (keyword : Text) : ofKeyword (lower keyword) = ofKeyword keyword := by
  rw [ofKeyword, lower_lower]
  rfl

/-- A character that no stem has, in either case, ends the part of a keyword that tells its
family. -/
theorem ofKeyword_takeWhile {p : Char → Bool}
    (h : ∀ stem ∈ stems, ∀ c, c.toLower ∈ stem.1 → p c = true) (keyword : Text) :
    ofKeyword (keyword.takeWhile p) = ofKeyword keyword := by
  unfold ofKeyword
  congr 1
  apply List.find?_congr
  intro stem hstem
  exact startsWith_lower_takeWhile (h stem hstem) keyword

end Family

namespace Symbols

def declaredModel? (raw : Text) : Option (Text × Text) :=
  if isPassive (trim raw) || (subcircuitDeclared? (trim raw)).isSome then none
  else modelDeclared? (trim raw)

variable {s : Symbols} {raws : List Text} {raw name type : Text}

theorem recordedModels_eq (raw : Text) :
    recordedModels raw = match declaredModel? raw with
      | some (name, type) => records name type
      | none => [] := by
  simp only [recordedModels, declaredModel?]
  cases isPassive (trim raw) with
  | true => rfl
  | false =>
      cases subcircuitDeclared? (trim raw) with
      | some _ => rfl
      | none =>
          cases modelDeclared? (trim raw) with
          | none => rfl
          | some model => rfl

theorem addLine_of_declaredModel (h : declaredModel? raw = some (name, type)) :
    s.addLine raw = s.addModel name type := by
  simp only [declaredModel?] at h
  split at h
  · cases h
  · next hline =>
      simp only [Bool.or_eq_true, not_or, Bool.not_eq_true, Option.isSome_eq_false_iff,
        Option.isNone_iff_eq_none] at hline
      simp only [addLine, hline.1, hline.2, h, Bool.false_eq_true, if_false]

/-- A model keeps its type when others are entered, also when it is the base of a bin. -/
theorem modelType?_addLine (hs : s.modelType? name = some type)
    (h : ∀ m ∈ declaredModel? raw, sameName m.1 name = false) :
    (s.addLine raw).modelType? name = some type := by
  obtain ⟨-, -, hline⟩ | ⟨declared, -, -, hline⟩ | ⟨declared, keyword, -, hrecords, hline⟩ :=
    addLine_cases s raw
  · rw [hline]
    exact hs
  · rw [hline]
    exact hs
  · have hne : lower name ≠ lower declared := by
      rw [recordedModels_eq] at hrecords
      cases hm : declaredModel? raw with
      | none =>
          rw [hm] at hrecords
          cases hrecords
      | some m =>
          rw [hm] at hrecords
          have hfirst : (lower m.1, lower m.2) = (lower declared, lower keyword) :=
            (List.cons.inj hrecords).1
          have hdiffer := h m hm
          simp only [sameName, beq_eq_false_iff_ne] at hdiffer
          intro heq
          apply hdiffer
          rw [(Prod.mk.inj hfirst).1, heq]
    have hmodels : s.models.lookup (lower name) = some type := hs
    rw [hline]
    simp only [modelType?, addModel, List.lookup_cons, beq_false_of_ne hne]
    split
    · next base _ =>
        split
        · exact hmodels
        · next hbase =>
            -- the base of a bin is entered only if it has no type
            have hother : lower name ≠ base := by
              rintro rfl
              simp [hmodels] at hbase
            rw [List.lookup_cons, beq_false_of_ne hother]
            exact hmodels
    · exact hmodels

theorem modelType?_foldl (hs : s.modelType? name = some type)
    (h : ∀ raw ∈ raws, ∀ m ∈ declaredModel? raw, sameName m.1 name = false) :
    (raws.foldl addLine s).modelType? name = some type := by
  induction raws generalizing s with
  | nil => exact hs
  | cons raw r ih =>
      apply ih
      · exact modelType?_addLine hs (h raw List.mem_cons_self)
      · intro x hx
        exact h x (List.mem_cons_of_mem raw hx)

/-- The type of a model that one line alone declares. -/
theorem modelType?_scan {t : Text} {k : Nat} (hk : (lines t)[k]? = some raw)
    (hm : declaredModel? raw = some (name, type))
    (h : ∀ i x, (lines t)[i]? = some x → i ≠ k →
      ∀ m ∈ declaredModel? x, sameName m.1 name = false) :
    (scan t).modelType? name = some (lower type) := by
  obtain ⟨hlength, hget⟩ := List.getElem?_eq_some_iff.mp hk
  have hsplit : lines t = (lines t).take k ++ raw :: (lines t).drop (k + 1) := by
    rw [← hget, ← List.drop_eq_getElem_cons hlength, List.take_append_drop]
  rw [scan, hsplit, List.foldl_append, List.foldl_cons]
  apply modelType?_foldl
  · rw [addLine_of_declaredModel hm]
    simp [modelType?, addModel]
  · intro x hx
    obtain ⟨i, hi⟩ := List.mem_iff_getElem?.mp hx
    rw [List.getElem?_drop] at hi
    exact h (k + 1 + i) x hi (by omega)

theorem isSome_modelType?_scan {t : Text} (hraw : raw ∈ lines t)
    (hm : declaredModel? raw = some (name, type)) : ((scan t).modelType? name).isSome = true := by
  have hrecorded : (lower name, lower type) ∈ (lines t).flatMap recordedModels := by
    apply List.mem_flatMap.mpr
    refine ⟨raw, hraw, ?_⟩
    rw [recordedModels_eq, hm]
    exact List.mem_cons_self
  exact isSome_lookup_foldl (.inr hrecorded)

theorem isSubcircuit_scan {t : Text} (hraw : raw ∈ lines t)
    (h : recordedSubcircuit? raw = some (lower name)) : (scan t).isSubcircuit name = true := by
  rw [isSubcircuit, List.contains_iff_mem, scan, subcircuits_foldl]
  right
  exact List.mem_filterMap.mpr ⟨raw, hraw, h⟩

end Symbols

namespace Text

theorem begins_of_after? {lit t r : Text} (h : after? lit t = some r) :
    lit.map fold <+: t.map fold := by
  rw [Param.after?_append h, List.map_append]
  exact List.prefix_append _ _

theorem begins_of_afterFolded? {lit t r : Text} (h : afterFolded? lit t = some r) :
    lit <+: t.map fold := by
  induction lit generalizing t with
  | nil => exact List.nil_prefix
  | cons l ls ih =>
      cases t with
      | nil => cases h
      | cons c t =>
          simp only [afterFolded?] at h
          split at h
          · next hl =>
              rw [List.map_cons, ← hl]
              exact List.cons_prefix_cons.mpr ⟨rfl, ih h⟩
          · cases h

end Text

namespace Symbols

/-- What a text starts with, case aside, in each of the roles of a line. The beginnings
exclude each other. -/
def passiveStarts : List Text := ["*".toList, "//".toList, "+".toList]

def subcircuitStarts : List Text := ["inline".toList, "subckt".toList, ".subckt".toList]

def modelStarts : List Text := ["model".toList, ".model".toList]

/-- The text starts with one of these, case aside. -/
def StartsAs (starts : List Text) (t : Text) : Prop := ∃ start ∈ starts, start <+: t.map fold

/-- Neither of two texts begins the other. -/
def Differ (a b : Text) : Prop := ¬ a <+: b ∧ ¬ b <+: a

instance (a b : Text) : Decidable (Differ a b) := inferInstanceAs (Decidable (_ ∧ _))

theorem StartsAs.elim {starts starts' : List Text} {t : Text} (h : StartsAs starts t)
    (h' : StartsAs starts' t) (hdiffer : ∀ a ∈ starts, ∀ b ∈ starts', Differ a b) : False := by
  obtain ⟨a, ha, hat⟩ := h
  obtain ⟨b, hb, hbt⟩ := h'
  obtain hab | hba := List.prefix_or_prefix_of_prefix hat hbt
  · exact (hdiffer a ha b hb).1 hab
  · exact (hdiffer a ha b hb).2 hba

theorem startsAs_of_subcircuitDeclared? {t name : Text} (h : subcircuitDeclared? t = some name) :
    StartsAs subcircuitStarts t := by
  simp only [subcircuitDeclared?] at h
  obtain ⟨r, h, -⟩ := Option.bind_eq_some_iff.mp h
  obtain ⟨r', h, -⟩ := Option.bind_eq_some_iff.mp h
  obtain h | ⟨-, h⟩ := Option.or_eq_some_iff.mp h
  · split at h
    · next start hstart =>
        obtain ⟨x, hx, -⟩ := Option.bind_eq_some_iff.mp hstart
        exact ⟨_, by decide, begins_of_after? hx⟩
    · exact ⟨_, by decide, begins_of_after? h⟩
  · exact ⟨_, by decide, begins_of_afterFolded? h⟩

theorem startsAs_of_modelDeclared? {t : Text} {model : Text × Text}
    (h : modelDeclared? t = some model) : StartsAs modelStarts t := by
  simp only [modelDeclared?] at h
  obtain ⟨r, h, -⟩ := Option.bind_eq_some_iff.mp h
  obtain ⟨r', h, -⟩ := Option.bind_eq_some_iff.mp h
  obtain h | ⟨-, h⟩ := Option.or_eq_some_iff.mp h
  · exact ⟨_, by decide, begins_of_after? h⟩
  · exact ⟨_, by decide, begins_of_afterFolded? h⟩

theorem startsAs_of_isPassive {t : Text} (h : isPassive t = true) (hne : t ≠ []) :
    StartsAs passiveStarts t := by
  simp only [isPassive, startsWith, Bool.or_eq_true, List.isEmpty_iff, Option.isSome_iff_exists,
    hne, false_or] at h
  obtain (⟨r, hr⟩ | ⟨r, hr⟩) | ⟨r, hr⟩ := h
  all_goals exact ⟨_, by decide, begins_of_after? hr⟩

/-- A line that starts as a declaration is not passed over. -/
theorem isPassive_eq_false {starts : List Text} {t : Text} (h : StartsAs starts t)
    (hdiffer : ∀ a ∈ starts, a ≠ [] ∧ ∀ b ∈ passiveStarts, Differ a b) :
    isPassive t = false := by
  cases hp : isPassive t with
  | false => rfl
  | true =>
      exfalso
      have hne : t ≠ [] := by
        rintro rfl
        obtain ⟨a, ha, hat⟩ := h
        exact (hdiffer a ha).1 (List.prefix_nil.mp hat)
      apply h.elim (startsAs_of_isPassive hp hne)
      intro a ha
      exact (hdiffer a ha).2

theorem after?_eq_none {lit start t : Text} (h : start <+: t.map fold)
    (hdiffer : Differ (lit.map fold) start) : after? lit t = none := by
  cases hr : after? lit t with
  | none => rfl
  | some r =>
      exfalso
      obtain hlit | hstart := List.prefix_or_prefix_of_prefix (begins_of_after? hr) h
      · exact hdiffer.1 hlit
      · exact hdiffer.2 hstart

/-- A line that declares a model declares no subcircuit. -/
theorem subcircuitDeclared?_of_modelDeclared? {t : Text} {model : Text × Text}
    (h : modelDeclared? t = some model) : subcircuitDeclared? t = none := by
  cases hs : subcircuitDeclared? t with
  | none => rfl
  | some name =>
      exfalso
      exact (startsAs_of_modelDeclared? h).elim (startsAs_of_subcircuitDeclared? hs) (by decide)

theorem wordBefore?_of_takeWhile {stops : List Char} {t w : Text}
    (hw : (t.takeWhile fun c => !(isSpace c || stops.contains c)) = w) (hne : w ≠ []) :
    wordBefore? stops t = some w := by
  rw [wordBefore?, hw]
  cases w with
  | nil => exact absurd rfl hne
  | cons c r => rfl

theorem subcircuitDeclared?_dotted {t r name : Text} (h : afterFolded? ".subckt".toList t = some r)
    (hname : (afterSpaces? r).bind (wordBefore? ['(']) = some name) :
    subcircuitDeclared? t = some name := by
  have hstart := begins_of_afterFolded? h
  have hinline : after? "inline".toList t = none := after?_eq_none hstart (by decide)
  have hplain : after? "subckt".toList t = none := after?_eq_none hstart (by decide)
  simp only [subcircuitDeclared?, hinline, hplain, h, Option.bind_none, Option.none_or,
    Option.bind_some, hname]

end Symbols

namespace Head

open Symbols

theorem subcircuitName?_some {t : Text} {x : Text × Text} (h : subcircuitName? t = some x) :
    (afterSpaces? t).bind (wordBefore? ['(']) = some x.1 := by
  simp only [subcircuitName?] at h
  split at h
  · cases h
  · next r hr =>
      split at h
      · cases h
      · next hname =>
          cases h
          rw [hr, Option.bind_some]
          apply wordBefore?_of_takeWhile
          · simp only [List.contains_cons, List.contains_nil, Bool.or_false]
          · simpa using hname

/-- Every subcircuit that a statement opens is declared by its head line. -/
theorem subcircuitDeclared?_of_subcircuit? {spectre : Bool} {t : Text} {head : SubcircuitOpening}
    (h : subcircuit? spectre t = some head) : subcircuitDeclared? t = some head.name := by
  simp only [subcircuit?, Option.or_eq_some_iff, Option.map_eq_some_iff] at h
  obtain ⟨x, hx, rfl⟩ | ⟨-, x, hx, rfl⟩ := h
  · obtain ⟨r, hr, hname⟩ := Option.bind_eq_some_iff.mp hx
    exact subcircuitDeclared?_dotted hr (subcircuitName?_some hname)
  · split at hx
    · obtain ⟨r, hr, hname⟩ := Option.bind_eq_some_iff.mp hx
      have hname := subcircuitName?_some hname
      cases hinline : (after? "inline".toList t).bind afterSpaces? with
      | none | some start =>
          simp only [hinline] at hr
          simp only [subcircuitDeclared?, hinline, hr, Option.some_or, Option.bind_some, hname]
    · cases hx

/-- The part of a type keyword that the symbols have: it ends at either delimiter. -/
def undelimited (keyword : Text) : Text := keyword.takeWhile fun c => !(c == '{' || c == '(')

theorem undelimited_ne_nil {keyword : Text} (hne : keyword ≠ [])
    (h : ∀ c ∈ keyword.head?, c ≠ '{' ∧ c ≠ '(') : undelimited keyword ≠ [] := by
  cases keyword with
  | nil => exact absurd rfl hne
  | cons c r => simp [undelimited, h c rfl]

/-- No stem has a delimiter, so the family of a type is that of its undelimited part. -/
theorem ofKeyword_undelimited (keyword : Text) :
    Family.ofKeyword (undelimited keyword) = Family.ofKeyword keyword := by
  apply Family.ofKeyword_takeWhile
  intro stem hstem c hc
  have hstems : ∀ stem ∈ Family.stems, '{' ∉ stem.1 ∧ '(' ∉ stem.1 := by decide
  have hbrace : c ≠ '{' := by
    rintro rfl
    exact (hstems stem hstem).1 hc
  have hparen : c ≠ '(' := by
    rintro rfl
    exact (hstems stem hstem).2 hc
  simp [hbrace, hparen]

theorem wordBefore?_keyword {stop : Char} {r : Text} (hstop : stop = '{' ∨ stop = '(')
    (h : ∀ c ∈ (r.takeWhile fun c => !(isSpace c || c == stop)).head?, c ≠ '{' ∧ c ≠ '(')
    (hne : (r.takeWhile fun c => !(isSpace c || c == stop)) ≠ []) :
    wordBefore? ['{', '('] r =
      some (undelimited (r.takeWhile fun c => !(isSpace c || c == stop))) := by
  apply wordBefore?_of_takeWhile
  · rw [undelimited, List.takeWhile_takeWhile]
    congr 1
    funext c
    obtain rfl | rfl := hstop
    · simp
      grind
    · simp
      grind
  · exact undelimited_ne_nil hne h

/-- A model of a statement is declared by its head line, with a type that may be shorter. -/
theorem modelDeclared?_of_keyword {stop : Char} {t r name keyword rest : Text}
    (hr : (after? "model".toList t).or (afterFolded? ".model".toList t) = some r)
    (h : nameAndType? stop r = some (name, keyword, rest)) (hstop : stop = '{' ∨ stop = '(')
    (hkeyword : ∀ c ∈ keyword.head?, c ≠ '{' ∧ c ≠ '(') :
    modelDeclared? t = some (name, undelimited keyword) := by
  simp only [nameAndType?] at h
  split at h
  · cases h
  · next r hr' =>
      split at h
      · cases h
      · next r' htype =>
          split at h
          · cases h
          · next hne =>
              cases h
              simp only [Bool.or_eq_true, not_or, List.isEmpty_iff] at hne
              have hname : wordBefore? [] r = some (token r) := by
                apply wordBefore?_of_takeWhile
                · simp only [List.contains_nil, Bool.or_false]
                  rfl
                · exact hne.1
              simp only [modelDeclared?, hr, hr', htype, hname, Option.bind_some,
                wordBefore?_keyword hstop hkeyword hne.2]

theorem bracedModel?_some {t : Text} {head : ModelOpening} (h : bracedModel? t = some head) :
    ∃ r rest, after? "model".toList t = some r ∧
      nameAndType? '{' r = some (head.name, head.keyword, rest) := by
  obtain ⟨r, hr, h⟩ := Option.bind_eq_some_iff.mp h
  obtain ⟨⟨name, keyword, rest⟩, hparts, rfl⟩ := Option.map_eq_some_iff.mp h
  refine ⟨r, rest, hr, ?_⟩
  rw [hparts]
  dsimp only
  split <;> rfl

theorem dottedModel?_some {t : Text} {head : ModelOpening} (h : dottedModel? t = some head) :
    ∃ r rest, afterFolded? ".model".toList t = some r ∧
      nameAndType? '(' r = some (head.name, head.keyword, rest) := by
  obtain ⟨r, hr, h⟩ := Option.bind_eq_some_iff.mp h
  obtain ⟨⟨name, keyword, rest⟩, hparts, rfl⟩ := Option.map_eq_some_iff.mp h
  refine ⟨r, rest, hr, ?_⟩
  rw [hparts]
  dsimp only
  split <;> rfl

/-- Every model of a statement is declared by its head line, up to the end of its type. -/
theorem modelDeclared?_of_model? {spectre : Bool} {t : Text} {head : ModelOpening}
    (h : model? spectre t = some head) (hkeyword : ∀ c ∈ head.keyword.head?, c ≠ '{' ∧ c ≠ '(') :
    modelDeclared? t = some (head.name, undelimited head.keyword) := by
  simp only [model?, Option.or_eq_some_iff] at h
  obtain h | ⟨-, h⟩ := h
  · split at h
    · obtain ⟨r, rest, hr, hparts⟩ := bracedModel?_some h
      refine modelDeclared?_of_keyword ?_ hparts (.inl rfl) hkeyword
      rw [hr, Option.some_or]
    · cases h
  · obtain ⟨r, rest, hr, hparts⟩ := dottedModel?_some h
    have hplain : after? "model".toList t = none :=
      after?_eq_none (begins_of_afterFolded? hr) (by decide)
    refine modelDeclared?_of_keyword ?_ hparts (.inr rfl) hkeyword
    rw [hplain, Option.none_or, hr]

end Head

namespace Line

/-- A line with no comment behind its code that is not joined to the next one. -/
structure IsWhole (raw : Text) : Prop where
  noComment : ¬ "//".toList <:+: raw
  /-- As everywhere, blanks at the end of a line do not count. -/
  noBackslash : (trimEnd raw).getLast? ≠ some '\\'

theorem markComment_of_isWhole {raw : Text} (h : IsWhole raw) :
    markComment (trimEnd raw) = trimEnd raw := by
  cases hsplit : splitComment? false (trimEnd raw) with
  | none => rw [markComment, hsplit]
  | some parts =>
      exfalso
      apply h.noComment
      have hraw : ['/', '/'] <:+: trimEnd raw := by
        refine ⟨parts.1, parts.2, ?_⟩
        rw [(splitComment?_some hsplit).1]
        simp
      exact hraw.trans (trimEnd_begins raw).isInfix

/-- A whole line that starts a statement is its content, blanks aside. -/
theorem content_read {raw : Text} (h : IsWhole raw) {n : Nat} {joined : Bool}
    (hcode : (read n joined raw).1.isCode = true)
    (hhead : (read n joined raw).1.continues = false) (hfeed : '\n' ∉ raw) :
    (read n joined raw).1.content = trim raw := by
  rw [content, hhead, read_code (isSilent_of_isCode hfeed hcode)]
  simp only [text, markComment_of_isWhole h, dropBackslash, h.noBackslash, if_false]
  rw [trim, trimStart_trimEnd, trimEnd_trimEnd]
  rfl

end Line

namespace Statement

open Symbols

variable {s : Statement} {symbols : Symbols} {o : Options} {d : Dialect}

theorem subcircuit?_of_kind {head : SubcircuitOpening}
    (h : s.kind symbols o d = .subcircuitOpen head) :
    Head.subcircuit? (d = .spectre) s.head.content = some head := by
  have hmem := Kind.mem_of_firstOf h nofun
  simpa [eq_comm (a := some (Kind.subcircuitOpen head))] using hmem

theorem model?_of_kind {head : ModelOpening} (h : s.kind symbols o d = .model head) :
    Head.model? (d = .spectre) s.head.content = some head := by
  have hmem := Kind.mem_of_firstOf h nofun
  simpa [eq_comm (a := some (Kind.model head))] using hmem

/-- The content of a whole head line is what the symbols are read from. -/
theorem content_head {t raw : Text} (hs : .statement s ∈ Item.ofText t)
    (hhead : s.head.continues = false) (hraw : (Text.lines t)[s.number - 1]? = some raw)
    (hwhole : Line.IsWhole raw) :
    s.head.content = trim raw := by
  have hcode : s.head.isCode = true := Item.isCode_head_group hs
  obtain ⟨k, x, joined, hk, hl⟩ :=
    Line.mem_readFrom (Item.mem_lines_ofText hs (l := s.head) List.mem_cons_self)
  have hnumber : s.number = 1 + k := by
    rw [number, hl, Line.number_read]
  rw [hnumber, Nat.add_sub_cancel_left, hk] at hraw
  cases hraw
  rw [hl] at hcode hhead ⊢
  exact Line.content_read hwhole hcode hhead (feed_not_mem_lines (List.mem_of_getElem? hk))

/-- Whatever a head line opens is among the symbols of the whole text. A model that no
other line declares has there a type of the family that its own keyword gives it. -/
theorem declared_of_kind {t raw : Text} (hs : .statement s ∈ Item.ofText t)
    (hhead : s.head.continues = false) (hraw : (Text.lines t)[s.number - 1]? = some raw)
    (hwhole : Line.IsWhole raw) :
    (∀ head, s.kind symbols o d = .subcircuitOpen head →
      (scan t).isSubcircuit head.name = true) ∧
    (∀ head, s.kind symbols o d = .model head →
      (∀ c ∈ head.keyword.head?, c ≠ '{' ∧ c ≠ '(') →
      ((scan t).modelType? head.name).isSome = true ∧
      ((∀ i x, (Text.lines t)[i]? = some x → i ≠ s.number - 1 →
          ∀ m ∈ declaredModel? x, sameName m.1 head.name = false) →
        ∃ type, (scan t).modelType? head.name = some type ∧
          Family.ofKeyword type = Family.ofKeyword head.keyword)) := by
  have hcontent := content_head hs hhead hraw hwhole
  have hmem : raw ∈ Text.lines t := List.mem_of_getElem? hraw
  constructor
  · intro head hkind
    have hdeclared := Head.subcircuitDeclared?_of_subcircuit? (subcircuit?_of_kind hkind)
    rw [hcontent] at hdeclared
    have hactive : isPassive (trim raw) = false :=
      isPassive_eq_false (startsAs_of_subcircuitDeclared? hdeclared) (by decide)
    apply isSubcircuit_scan hmem
    simp only [recordedSubcircuit?, hactive, hdeclared, Bool.false_eq_true, if_false,
      Option.map_some]
  · intro head hkind hkeyword
    have hdeclared := Head.modelDeclared?_of_model? (model?_of_kind hkind) hkeyword
    rw [hcontent] at hdeclared
    have hmodel : declaredModel? raw = some (head.name, Head.undelimited head.keyword) := by
      have hactive : isPassive (trim raw) = false :=
        isPassive_eq_false (startsAs_of_modelDeclared? hdeclared) (by decide)
      simp only [declaredModel?, hactive, subcircuitDeclared?_of_modelDeclared? hdeclared,
        hdeclared, Option.isSome_none, Bool.or_false, Bool.false_eq_true, if_false]
    constructor
    · exact isSome_modelType?_scan hmem hmodel
    · intro hother
      refine ⟨_, modelType?_scan hraw hmodel hother, ?_⟩
      rw [Family.ofKeyword_lower, Head.ofKeyword_undelimited]

/-- A subcircuit and a model whose type goes on behind a brace, next to a bin of that model. -/
def declaringDeck : Text :=
  "subckt Amp (a b)\n.MODEL nCH nmos\x7bx (vto=1\n.model nch.2 npn\n".toList

def declaringHead : Statement :=
  { head := ⟨1, .code "subckt Amp (a b)".toList false⟩ }

def declaringModel : Statement :=
  { head := ⟨2, .code ".MODEL nCH nmos\x7bx (vto=1".toList false⟩ }

theorem declared_of_kind_declaringDeck :
    (scan declaringDeck).isSubcircuit "Amp".toList = true ∧
    ∃ type, (scan declaringDeck).modelType? "nCH".toList = some type ∧
      Family.ofKeyword type = Family.ofKeyword "nmos\x7bx".toList := by
  have hlines : Text.lines declaringDeck = ["subckt Amp (a b)".toList,
      ".MODEL nCH nmos\x7bx (vto=1".toList, ".model nch.2 npn".toList] := by decide
  have hitems : Item.ofText declaringDeck = [.statement declaringHead, .statement declaringModel,
      .statement { head := ⟨3, .code ".model nch.2 npn".toList false⟩ }] := by decide
  have hhead : Item.statement declaringHead ∈ Item.ofText declaringDeck := by
    rw [hitems]
    exact List.mem_cons_self
  have hmodel : Item.statement declaringModel ∈ Item.ofText declaringDeck := by
    rw [hitems]
    exact List.mem_cons_of_mem _ List.mem_cons_self
  have hopens : declaringHead.kind {} {} .spectre =
      .subcircuitOpen { name := "Amp".toList, rest := "(a b)".toList, form := .paren } := by
    decide +kernel
  have hdeclares : declaringModel.kind {} {} .spectre =
      .model { name := "nCH".toList, keyword := "nmos\x7bx".toList, rest := "vto=1".toList,
               parenthesized := true } := by
    decide +kernel
  constructor
  · exact (declared_of_kind hhead rfl (by rw [hlines]; rfl) ⟨by decide, by decide⟩).1 _ hopens
  · have hkeyword : ∀ c ∈ "nmos\x7bx".toList.head?, c ≠ '{' ∧ c ≠ '(' := by
      rintro c ⟨⟩
      decide
    refine ((declared_of_kind hmodel rfl (by rw [hlines]; rfl) ⟨by decide, by decide⟩).2 _
      hdeclares hkeyword).2 ?_
    intro i x hx hi
    rw [hlines] at hx
    obtain rfl | rfl | rfl | hi' : i = 0 ∨ i = 1 ∨ i = 2 ∨ 3 ≤ i := by omega
    · cases hx
      decide +kernel
    · exact absurd rfl hi
    · cases hx
      decide +kernel
    · rw [List.getElem?_eq_none hi'] at hx
      cases hx

end Statement
end SpiceDeck
