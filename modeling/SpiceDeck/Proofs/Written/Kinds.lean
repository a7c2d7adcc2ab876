import SpiceDeck.Proofs.Statement.Joining
import SpiceDeck.Proofs.Subcircuit.PinList
import SpiceDeck.Proofs.Symbols.Recorded
import SpiceDeck.Proofs.Written.Lines

/-!
The kinds of written statements. A kind depends on the lines of a statement and not on where
they stand. Main statements: a statement that is copied is copied wherever it stands, and a
head that starts with a plain name is claimed by no reader but that of calls without
parentheses.
-/

namespace SpiceDeck
open Text

namespace Statement
variable {s : Statement} {head : Text} {tail : List Text} {kind : Kind}

/-- The statement of settled lines, with no line numbers. -/
def ofTexts (head : Text) (tail : List Text) : Statement :=
  ⟨⟨0, Line.settledBody head⟩, tail.map fun t => ⟨0, Line.settledBody t⟩⟩

theorem readsAs_ofTexts (head : Text) (tail : List Text) :
    (ofTexts head tail).ReadsAs head tail := by
  refine ⟨rfl, ?_⟩
  rw [ofTexts, List.map_map]
  rfl

theorem ReadsAs.renumber_eq (h : s.ReadsAs head tail) :
    s.renumber (fun _ => 0) = ofTexts head tail := by
  have hline : ∀ l : Line, l.renumber (fun _ => 0) = ⟨0, l.body⟩ := fun _ => rfl
  have htail : s.tail.map (Line.renumber fun _ => 0) =
      tail.map fun t => (⟨0, Line.settledBody t⟩ : Line) :=
    Line.map_of_bodies (fun hl => by rw [hline, hl]) h.tail
  simp only [Statement.renumber, Statement.ofTexts, htail, hline, h.head]

/-- The kind of a statement is that of its lines. -/
theorem ReadsAs.kind_eq (h : s.ReadsAs head tail) (symbols : Symbols) (o : Options) (d : Dialect) :
    s.kind symbols o d = (Statement.ofTexts head tail).kind symbols o d := by
  rw [← h.renumber_eq, kind_renumber]

/-- Statements of this kind are copied, outside of subcircuits and inside. -/
def Kind.isCopied : Kind → Bool
  | .binHeader _ _ | .blockClose | .other => true
  | .simulator _ | .parameters | .statistics | .model _ | .subcircuitClose _
  | .subcircuitOpen _ | .directive _ | .deviceCall _ => false

theorem Kind.reachesScope_of_isCopied (h : kind.isCopied = true) :
    Session.reachesScope kind = true := by
  cases kind with
  | binHeader _ _ | blockClose | other => rfl
  | simulator _ | parameters | statistics | model _ | subcircuitClose _ | subcircuitOpen _
  | directive _ | deviceCall _ => cases h

end Statement

/-- A statement that is written in these lines is copied. -/
def Statement.IsCopied (cx : Context) (d : Dialect) (head : Text) (tail : List Text) : Prop :=
  ((Statement.ofTexts head tail).kind cx.symbols cx.options d).isCopied = true

instance (cx : Context) (d : Dialect) (head : Text) (tail : List Text) :
    Decidable (Statement.IsCopied cx d head tail) := inferInstanceAs (Decidable (_ = _))

namespace Scope
variable {s : Statement} {kind : Statement.Kind}

theorem lines_oddStatement (s : Statement) : (oddStatement s).lines = [] := lines_warnIf _ _ _

theorem stepTop_copied (h : kind.isCopied = true) (cx : Context) (s : Statement) :
    (stepTop cx s kind).1 = .top ∧ (stepTop cx s kind).2.lines = s.verbatim := by
  cases kind with
  | binHeader _ _ | blockClose => exact ⟨rfl, rfl⟩
  | other =>
      refine ⟨rfl, ?_⟩
      simp only [stepTop, Deck.lines_append, lines_oddStatement]
      rfl
  | simulator _ | parameters | statistics | model _ | subcircuitClose _ | subcircuitOpen _
  | directive _ | deviceCall _ => cases h

theorem stepBody_copied (h : kind.isCopied = true) (cx : Context) (sub : Subcircuit)
    (s : Statement) :
    (stepBody cx sub s kind).1 = .body (sub.copyLines s.verbatim) ∧
      (stepBody cx sub s kind).2.lines = [] := by
  cases kind with
  | binHeader _ _ | blockClose =>
      simp only [stepBody, Subcircuit.foldl_copyLine]
      exact ⟨trivial, rfl⟩
  | other =>
      simp only [stepBody, Subcircuit.foldl_copyLine]
      exact ⟨trivial, lines_oddStatement s⟩
  | simulator _ | parameters | statistics | model _ | subcircuitClose _ | subcircuitOpen _
  | directive _ | deviceCall _ => cases h

end Scope

namespace Head

/-- Words that readers look for at the front of a head. -/
def keywords : List Text :=
  [ "simulator".toList, "parameters".toList, "statistics".toList, "model".toList, "ends".toList,
    "inline".toList, "subckt".toList, "include".toList, "section".toList, "endsection".toList,
    "global".toList, "ahdl_include".toList, "library".toList, "endlibrary".toList ]

/-- A word that starts with a letter and is no keyword. -/
structure IsPlainName (name : Text) : Prop where
  starts : name.head?.any Char.isAlpha = true
  word : ∀ c ∈ name, isWord c = true
  free : name ∉ keywords

instance (name : Text) : Decidable (IsPlainName name) :=
  decidable_of_iff (name.head?.any Char.isAlpha = true ∧ name.all isWord = true ∧ name ∉ keywords)
    ⟨fun h => ⟨h.1, List.all_eq_true.mp h.2.1, h.2.2⟩,
      fun h => ⟨h.starts, List.all_eq_true.mpr h.word, h.free⟩⟩

/-- What may follow a name: nothing, or a blank and a character that opens no parenthesis. -/
def Follows (rest : Text) : Prop :=
  rest = [] ∨ ∃ c r, rest = ' ' :: c :: r ∧ isSpace c = false ∧ c ≠ '('

section Name
variable {name rest lit t : Text}

theorem Follows.blank (h : Follows rest) : ∀ c ∈ rest.head?, isSpace c = true := by
  obtain rfl | ⟨c, r, rfl, -, -⟩ := h
  · nofun
  · rintro x ⟨⟩
    rfl

/-- A literal without blanks that the text starts with is in the name. -/
theorem prefix_name (hlit : ∀ c ∈ lit, isSpace c = false) (hrest : Follows rest)
    (h : lit <+: name ++ rest) : lit <+: name := by
  induction lit generalizing name with
  | nil => exact List.nil_prefix
  | cons a r ih =>
      obtain ⟨ha, hr⟩ := List.forall_mem_cons.mp hlit
      cases name with
      | nil =>
          obtain ⟨u, hu⟩ := h
          have hblank := hrest.blank a (by rw [← List.nil_append rest, ← hu]; rfl)
          rw [ha] at hblank
          cases hblank
      | cons b name =>
          rw [List.cons_append, List.cons_prefix_cons] at h
          obtain ⟨rfl, h⟩ := h
          exact List.cons_prefix_cons.mpr ⟨rfl, ih hr h⟩

theorem after?_name (hname : IsPlainName name) (hrest : Follows rest) (hlit : lit ∈ keywords)
    (h : after? lit (name ++ rest) = some t) : t.head?.any isWord = true := by
  have hink : ∀ c ∈ lit, isSpace c = false := by
    have hall : ∀ lit ∈ keywords, lit.all (!isSpace ·) = true := by decide
    simpa using hall lit hlit
  have ht := after?_eq_some_iff.mp h
  obtain ⟨more, hmore⟩ := prefix_name hink hrest ⟨t, ht.symm⟩
  cases more with
  | nil =>
      rw [List.append_nil] at hmore
      exact absurd (hmore ▸ hlit) hname.free
  | cons c r =>
      rw [← hmore, List.append_assoc] at ht
      rw [← List.append_cancel_left ht, List.cons_append, List.head?_cons, Option.any_some]
      exact hname.word c (by rw [← hmore]; simp)

theorem afterKeyword?_name (hname : IsPlainName name) (hrest : Follows rest)
    (hlit : lit ∈ keywords) : afterKeyword? lit (name ++ rest) = none := by
  unfold afterKeyword?
  split
  · next r hr => simp [atWordEnd, after?_name hname hrest hlit hr]
  · rfl

theorem afterSpaces?_name (hname : IsPlainName name) (hrest : Follows rest)
    (hlit : lit ∈ keywords) : (after? lit (name ++ rest)).bind afterSpaces? = none := by
  cases h : after? lit (name ++ rest) with
  | none => rfl
  | some r =>
      have hword := after?_name hname hrest hlit h
      cases r with
      | nil => cases hword
      | cons c r =>
          have hc : isSpace c = false := not_isSpace_of_isWord (by simpa using hword)
          simp [afterSpaces?, hc]

/-- A literal with a character that is no part of a word does not start the text. -/
theorem startsWith_name (hname : IsPlainName name) (hrest : Follows rest)
    (hlit : lit.all (!isSpace ·) = true) {a : Char} (ha : a ∈ lit) (hword : isWord a = false) :
    startsWith (name ++ rest) lit = false := by
  rw [startsWith, Option.isSome_eq_false_iff, Option.isNone_iff_eq_none]
  cases h : after? lit (name ++ rest) with
  | none => rfl
  | some r =>
      have hink : ∀ c ∈ lit, isSpace c = false := by simpa using hlit
      have hstart := prefix_name hink hrest ⟨r, (after?_eq_some_iff.mp h).symm⟩
      rw [hname.word a (hstart.subset ha)] at hword
      cases hword

theorem IsPlainName.exists_cons (h : IsPlainName name) :
    ∃ a r, name = a :: r ∧ isNameStart a = true ∧ isDigit a = false := by
  have hstarts := h.starts
  cases name with
  | nil => cases hstarts
  | cons a r =>
      have ha : a.isAlpha = true := by simpa using hstarts
      refine ⟨a, r, rfl, by simp [isNameStart, ha], ?_⟩
      cases hdigit : isDigit a with
      | false => rfl
      | true =>
          have hbounds := isDigit_bounds hdigit
          delta Char.isAlpha Char.isUpper Char.isLower at ha
          simp only [Bool.or_eq_true, Bool.and_eq_true, decide_eq_true_eq,
            UInt32.le_iff_toNat_le] at ha
          change (65 ≤ a.toNat ∧ a.toNat ≤ 90) ∨ (97 ≤ a.toNat ∧ a.toNat ≤ 122) at ha
          omega

theorem IsPlainName.isInk (h : IsPlainName name) : IsInk name := by
  obtain ⟨a, r, rfl, -⟩ := h.exists_cons
  exact ⟨by simp, fun c hc => not_isSpace_of_isWord (h.word c hc)⟩

theorem afterFolded?_name (hname : IsPlainName name) (lit rest : Text) :
    afterFolded? ('.' :: lit) (name ++ rest) = none := by
  cases h : afterFolded? ('.' :: lit) (name ++ rest) with
  | none => rfl
  | some r =>
      obtain ⟨a, u, rfl, ha, -⟩ := hname.exists_cons
      obtain ⟨x, hx⟩ := eq_dot_of_afterFolded? h
      cases hx
      cases ha

theorem bin?_name (hname : IsPlainName name) (rest : Text) : bin? (name ++ rest) = none := by
  obtain ⟨a, r, rfl, ha, hdigit⟩ := hname.exists_cons
  refine bin?_cons (Param.not_isSpace_of_isNameStart ha) hdigit ?_ _
  rintro rfl
  cases ha

section Readers
variable (hname : IsPlainName name) (hrest : Follows rest) (spectre : Bool)
include hname hrest

theorem simulator?_name : simulator? (name ++ rest) = none := by
  rw [simulator?, afterKeyword?_name hname hrest (by decide)]
  rfl

theorem isParameters_name : isParameters spectre (name ++ rest) = false := by
  have hdotted : afterFolded? ".param".toList (name ++ rest) = none :=
    afterFolded?_name hname _ _
  have hparams : startsWith (name ++ rest) "params:".toList = false :=
    startsWith_name hname hrest (a := ':') (by decide) (by decide) (by decide)
  have hparam : startsWith (name ++ rest) "param:".toList = false :=
    startsWith_name hname hrest (a := ':') (by decide) (by decide) (by decide)
  have hword : afterKeyword? "parameters".toList (name ++ rest) = none :=
    afterKeyword?_name hname hrest (by decide)
  simp only [isParameters, hdotted, hword, hparams, hparam, Option.isSome_none, Bool.or_self,
    Bool.and_false]

theorem isStatistics_name : isStatistics (name ++ rest) = false := by
  rw [isStatistics]
  split
  · next r hr =>
      have hword := after?_name hname hrest (by decide) hr
      cases r with
      | nil => cases hword
      | cons c r =>
          have hc : isWord c = true := by simpa using hword
          have hspace : isSpace c = false := not_isSpace_of_isWord hc
          have hne : c ≠ '{' := by
            rintro rfl
            exact absurd hc (by decide)
          simp [trimStart, hspace, hne]
  · rfl

theorem model?_name : model? spectre (name ++ rest) = none := by
  have hdotted : dottedModel? (name ++ rest) = none := by
    have hlit : afterFolded? ".model".toList (name ++ rest) = none := afterFolded?_name hname _ _
    rw [dottedModel?, hlit]
    rfl
  have hbraced : bracedModel? (name ++ rest) = none := by
    have hspaces := afterSpaces?_name hname hrest (show "model".toList ∈ keywords by decide)
    rw [bracedModel?]
    cases h : after? "model".toList (name ++ rest) with
    | none => rfl
    | some r =>
        rw [h] at hspaces
        rw [Option.bind_some, nameAndType?, show afterSpaces? r = none from hspaces]
        rfl
  rw [model?, hdotted, hbraced]
  cases spectre <;> rfl

theorem close?_name : close? spectre (name ++ rest) = none := by
  have hdotted : afterFolded? ".ends".toList (name ++ rest) = none := afterFolded?_name hname _ _
  have hword : afterKeyword? "ends".toList (name ++ rest) = none :=
    afterKeyword?_name hname hrest (by decide)
  simp only [close?, hdotted, hword]
  cases spectre <;> rfl

theorem subcircuit?_name : subcircuit? spectre (name ++ rest) = none := by
  have hdotted : afterFolded? ".subckt".toList (name ++ rest) = none := afterFolded?_name hname _ _
  have hspaces := afterSpaces?_name hname hrest (show "subckt".toList ∈ keywords by decide)
  have hplain : (after? "subckt".toList (name ++ rest)).bind subcircuitName? = none := by
    cases h : after? "subckt".toList (name ++ rest) with
    | none => rfl
    | some r =>
        rw [h] at hspaces
        rw [Option.bind_some, subcircuitName?, show afterSpaces? r = none from hspaces]
  have hinline : (after? "inline".toList (name ++ rest)).bind afterSpaces? = none :=
    afterSpaces?_name hname hrest (by decide)
  simp only [subcircuit?, hdotted, hinline, hplain]
  cases spectre <;> rfl

theorem directive?_name : directive? (name ++ rest) = none := by
  have hfile : includeFile? (name ++ rest) = none := by
    rw [includeFile?, afterSpaces?_name hname hrest (by decide)]
    rfl
  have hsection : librarySection? (name ++ rest) = none := by
    rw [librarySection?, afterKeyword?_name hname hrest (by decide),
      afterKeyword?_name hname hrest (by decide)]
    rfl
  have hglobal : global? (name ++ rest) = none := by
    rw [global?, afterKeyword?_name hname hrest (by decide)]
    rfl
  have hunsupported : unsupported? (name ++ rest) = none := by
    simp only [unsupported?, List.any_cons, List.any_nil,
      afterKeyword?_name hname hrest (show "ahdl_include".toList ∈ keywords by decide),
      afterKeyword?_name hname hrest (show "library".toList ∈ keywords by decide),
      afterKeyword?_name hname hrest (show "endlibrary".toList ∈ keywords by decide)]
    rfl
  rw [directive?, hfile, hsection, hglobal, hunsupported]
  rfl

/-- A call with parentheses has them right behind its name. -/
theorem parenAfterWord_name : parenAfterWord (name ++ rest) = false := by
  have hparen : '(' ∉ name := fun h => absurd (hname.word _ h) (by decide)
  have htake : ∀ u, (name ++ u).takeWhile (· != '(') = name ++ u.takeWhile (· != '(') := by
    intro u
    refine List.takeWhile_append_of_pos fun c hc => ?_
    simp only [bne_iff_ne, ne_eq]
    rintro rfl
    exact hparen hc
  rw [parenAfterWord]
  obtain rfl | ⟨c, r, rfl, hc, hne⟩ := hrest
  · rw [List.append_nil, List.contains_eq_mem, decide_eq_false hparen, Bool.false_and]
  · obtain ⟨a, u, rfl, ha, -⟩ := hname.exists_cons
    have hspace := Param.not_isSpace_of_isNameStart ha
    have hcut : ((a :: u) ++ ' ' :: c :: r).takeWhile (· != '(') =
        (a :: u) ++ ' ' :: c :: r.takeWhile (· != '(') := by
      rw [htake]
      simp [hne]
    have hblank : ' ' ∈ trim ((a :: u) ++ ' ' :: c :: r.takeWhile (· != '(')) := by
      rw [trim, List.cons_append, trimStart_cons_of_not_isSpace hspace]
      have happend : a :: (u ++ ' ' :: c :: r.takeWhile (· != '(')) =
          (a :: u ++ [' ']) ++ c :: r.takeWhile (· != '(') := by simp
      rw [happend, trimEnd_append_cons hc]
      simp
    rw [hcut, List.any_eq_true.mpr ⟨' ', hblank, rfl⟩, Bool.not_true, Bool.and_false]

end Readers
end Name
end Head

/-- A statement that starts with a plain name is a call without parentheses, or it is copied. -/
theorem Statement.kind_name {s : Statement} {name rest : Text} (hname : Head.IsPlainName name)
    (hrest : Head.Follows rest) (h : s.head.content = name ++ rest) (symbols : Symbols)
    (o : Options) (d : Dialect) :
    s.kind symbols o d =
      ((Head.bareCall? symbols o (d = .spectre) s).map Kind.deviceCall).getD .other := by
  have hbrace : name ++ rest ≠ ['}'] := by
    obtain ⟨a, r, rfl, ha, -⟩ := hname.exists_cons
    rintro heq
    rw [(List.cons.inj heq).1] at ha
    cases ha
  have hparen : Head.parenCall? s = none := by
    rw [Head.parenCall?, h, Head.parenAfterWord_name hname hrest]
    rfl
  simp only [Statement.kind, h, Head.simulator?_name hname hrest,
    Head.isParameters_name hname hrest, Head.isStatistics_name hname hrest,
    Head.model?_name hname hrest, Head.bin?_name hname rest, hbrace,
    Head.close?_name hname hrest, Head.subcircuit?_name hname hrest,
    Head.directive?_name hname hrest, hparen]
  cases Head.bareCall? symbols o (d = .spectre) s <;> cases d <;> rfl

section Dotted

/-- A dotted text that states neither parameters nor a model. -/
structure Head.IsLateDotted (t : Text) : Prop where
  dotted : ∃ r, t = '.' :: r
  parameters : afterFolded? ".param".toList t = none
  model : afterFolded? ".model".toList t = none

variable {s : Statement} {t r : Text}

/-- A head that starts with no letter or digit is no call with parentheses. -/
theorem Head.parenCall?_eq_none (hcode : s.head.isCode = true)
    (h : s.head.content.head?.any isAsciiWord = false) (hne : s.head.content ≠ []) :
    Head.parenCall? s = none := by
  have hjoined : ∀ k, 1 ≤ k → Head.parenParts? (s.joined k) = none := by
    intro k hk
    obtain ⟨n, rfl⟩ := Nat.exists_eq_succ_of_ne_zero (Nat.one_le_iff_ne_zero.mp hk)
    have hhead : (s.joined (n + 1)).head?.any isAsciiWord = false := by
      rw [Statement.joined_add_one hcode, List.head?_append_of_ne_nil _ hne, h]
    rw [Head.parenParts?, hhead]
    rfl
  rw [Head.parenCall?]
  split
  · split
    · rfl
    · next k hk => rw [hjoined k (Head.linesUntil?_some hk).1]
  · rfl

theorem Statement.kind_lateDotted (hcode : s.head.isCode = true)
    (h : Head.IsLateDotted s.head.content) (symbols : Symbols) (o : Options) (d : Dialect) :
    s.kind symbols o d = Kind.firstOf
      [ (Head.close? (d = .spectre) s.head.content).map .subcircuitClose,
        (Head.subcircuit? (d = .spectre) s.head.content).map .subcircuitOpen ] := by
  obtain ⟨⟨r, hr⟩, hparam, hmodel⟩ := h
  have hsimulator : Head.simulator? s.head.content = none := by rw [hr]; rfl
  have hparameters : ∀ spectre, Head.isParameters spectre s.head.content = false := by
    intro spectre
    rw [Head.isParameters, hparam, hr]
    cases spectre <;> rfl
  have hstatistics : Head.isStatistics s.head.content = false := by rw [hr]; rfl
  have hnone : ∀ spectre, Head.model? spectre s.head.content = none := by
    intro spectre
    rw [Head.model?, Head.dottedModel?, hmodel, hr]
    cases spectre <;> rfl
  have hbin : Head.bin? s.head.content = none := by
    rw [hr]
    exact Head.bin?_cons (by decide) (by decide) (by decide) r
  have hbrace : s.head.content ≠ ['}'] := by
    rw [hr]
    simp
  have hdirective : Head.directive? s.head.content = none := by rw [hr]; rfl
  have hletter : s.head.content.head?.any Head.isAsciiWord = false := by rw [hr]; rfl
  have hparen := Head.parenCall?_eq_none hcode hletter (by rw [hr]; simp)
  have hbare : ∀ spectre, Head.bareCall? symbols o spectre s = none := by
    intro spectre
    rw [Head.bareCall?, hletter]
    rfl
  simp only [kind, hsimulator, hparameters, hstatistics, hnone, hbin, hbrace, hdirective, hparen,
    hbare, Option.map_none, Bool.and_false, decide_false, ite_self]
  cases Head.close? (d = .spectre) s.head.content <;>
    cases Head.subcircuit? (d = .spectre) s.head.content <;> cases d <;> rfl

/-- The dotted words that directives are written with. -/
def Head.commands : List Text :=
  [".include".toList, ".lib".toList, ".endl".toList, ".global".toList]

/-- A directive is written as a dotted command or as a comment. -/
theorem Head.directive?_written (h : Head.directive? t = some r) :
    (∃ x, r = '*' :: x) ∨ ∃ command ∈ Head.commands, ∃ x, r = command ++ x := by
  rw [Head.directive?, Option.or_eq_some_iff, Option.or_eq_some_iff, Option.or_eq_some_iff] at h
  obtain h | ⟨-, h | ⟨-, h | ⟨-, h⟩⟩⟩ := h
  · obtain ⟨a, -, h⟩ := Option.bind_eq_some_iff.mp h
    obtain ⟨⟨file, part⟩, -, rfl⟩ := Option.map_eq_some_iff.mp h
    cases part with
    | none => exact .inr ⟨".include".toList, by decide, ' ' :: file, rfl⟩
    | some name => exact .inr ⟨".lib".toList, by decide, ' ' :: (file ++ ' ' :: name), rfl⟩
  · rw [Head.librarySection?, Option.or_eq_some_iff] at h
    obtain h | ⟨-, h⟩ := h
    · obtain ⟨x, -, rfl⟩ := Option.map_eq_some_iff.mp h
      refine .inr ⟨".lib".toList, by decide, ?_⟩
      dsimp only
      cases Head.token? (trimStart x) with
      | some name => exact ⟨' ' :: name, rfl⟩
      | none => exact ⟨[], (List.append_nil _).symm⟩
    · obtain ⟨x, -, rfl⟩ := Option.map_eq_some_iff.mp h
      refine .inr ⟨".endl".toList, by decide, ?_⟩
      dsimp only
      cases Head.token? (trimStart x) with
      | some name => exact ⟨' ' :: name, rfl⟩
      | none => exact ⟨[], (List.append_nil _).symm⟩
  · obtain ⟨x, -, rfl⟩ := Option.map_eq_some_iff.mp h
    split
    · exact .inl ⟨_, rfl⟩
    · exact .inr ⟨".global".toList, by decide, ' ' :: spaced _, rfl⟩
  · rw [Head.unsupported?] at h
    split at h
    · cases h
      exact .inl ⟨_, rfl⟩
    · cases h

/-- A word in front stays as it is. -/
theorem Text.trim_ink_append {w : Text} (h : IsInk w) (x : Text) :
    trim (w ++ x) = w ++ trimEnd x := by
  obtain ⟨u, c, rfl⟩ := (List.eq_nil_or_concat' w).resolve_left h.1
  have hstart : StartsInInk ((u ++ [c]) ++ x) :=
    StartsInInk.append (fun a ha => h.2 a (List.mem_of_mem_head? ha)) h.1 x
  rw [trim, hstart.trimStart, List.append_assoc, List.singleton_append,
    trimEnd_append_cons (h.2 c (by simp)), List.append_assoc]
  rfl

theorem Statement.isCopied_directive {command x : Text} (hcommand : command ∈ Head.commands)
    {tail : List Text} (hs : IsStatement (command ++ x) tail) (cx : Context) (d : Dialect) :
    Statement.IsCopied cx d (command ++ x) tail := by
  have hreads := readsAs_ofTexts (command ++ x) tail
  have hcontent : (ofTexts (command ++ x) tail).head.content = command ++ trimEnd x := by
    have hall : ∀ command ∈ Head.commands,
        (!command.isEmpty && command.all (!isSpace ·)) = true := by
      decide
    rw [hreads.content hs, trim_ink_append ((isInk_iff _).mpr (hall _ hcommand))]
  have hdotted : Head.IsLateDotted (command ++ trimEnd x) ∧
      ∀ spectre, Head.close? spectre (command ++ trimEnd x) = none ∧
        Head.subcircuit? spectre (command ++ trimEnd x) = none := by
    simp only [Head.commands, List.mem_cons, List.not_mem_nil, or_false] at hcommand
    obtain rfl | rfl | rfl | rfl := hcommand
    all_goals exact ⟨⟨⟨_, rfl⟩, rfl, rfl⟩, fun spectre => by cases spectre <;> exact ⟨rfl, rfl⟩⟩
  rw [Statement.IsCopied, kind_lateDotted (hreads.isCode hs) (hcontent ▸ hdotted.1), hcontent,
    (hdotted.2 _).1, (hdotted.2 _).2]
  rfl

end Dotted

end SpiceDeck
