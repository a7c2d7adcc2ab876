import SpiceDeck.Proofs.Statement.CodePart
import SpiceDeck.Proofs.Symbols.Declared

/-!
A line that declares a model, as it stands in the text and as the content of a statement.
In the content a comment has become a remark and a backslash is gone, so that a name or a
type that goes on in one of them may have ended in the other. Main statement: where both
readers find the same name, the types that they find are of the same family.
-/

namespace SpiceDeck
open Text

namespace Family

/-- Characters of the part of a type that tells its family. -/
def tells (c : Char) : Bool := !(isSpace c || ['{', '(', '/', '\\', '$'].contains c)

theorem ofKeyword_tells (keyword : Text) :
    ofKeyword (keyword.takeWhile tells) = ofKeyword keyword := by
  apply ofKeyword_takeWhile
  intro stem hstem c hc
  have hstems : ∀ stem ∈ stems, stem.1.all Char.isLower = true := by decide
  have hlower := List.all_eq_true.mp (hstems stem hstem) _ hc
  have halpha : c.isAlpha = true := by
    change (c.isUpper || c.isLower) = true
    cases hup : c.isUpper with
    | true => rfl
    | false =>
        have hsame : c.toLower = c := by
          delta Char.toLower
          delta Char.isUpper at hup
          grind
        rw [hsame] at hlower
        rw [hlower, Bool.or_true]
  have hspace : isSpace c = false := by
    apply Head.isSpace_of_isAsciiWord
    simp [Head.isAsciiWord, Char.isAlphanum, halpha]
  have hmark : ['{', '(', '/', '\\', '$'].any Char.isAlpha = false := by decide
  simp only [tells, hspace, Bool.false_or, Bool.not_eq_true', List.contains_eq_mem,
    decide_eq_false_iff_not]
  intro hmem
  have hany := List.any_eq_true.mpr ⟨c, hmem, halpha⟩
  rw [hmark] at hany
  cases hany

/-- Where a type ends makes no difference behind the part that tells its family. -/
theorem ofKeyword_cut {p : Char → Bool} (hp : ∀ c, tells c = true → p c = true) (t : Text) :
    ofKeyword (t.takeWhile p) = ofKeyword (t.takeWhile tells) := by
  rw [← ofKeyword_tells (t.takeWhile p), List.takeWhile_takeWhile]
  congr 2
  funext c
  cases h : tells c with
  | true => simp [hp c h]
  | false => simp

end Family

namespace Text

theorem token_append {t : Text} (h : afterToken t = []) (u : Text) :
    token (t ++ u) = t ++ token u ∧ afterToken (t ++ u) = afterToken u := by
  have hall : ∀ c ∈ t, (!isSpace c) = true := List.dropWhile_eq_nil_iff.mp h
  exact ⟨List.takeWhile_append_of_pos hall, List.dropWhile_append_of_pos hall⟩

def firstWord (t : Text) : Text := token (trimStart t)

/-- The text from its second word on. -/
def fromSecondWord (t : Text) : Text := trimStart (afterToken (trimStart t))

theorem firstWord_of_blank {p : Text} (h : trimStart p = []) (u : Text) :
    firstWord (p ++ u) = firstWord u := by
  have hblank : ∀ c ∈ p, isSpace c = true := List.dropWhile_eq_nil_iff.mp h
  rw [firstWord, trimStart, List.dropWhile_append_of_pos hblank]
  rfl

/-- A remark is no comment, and neither is a backslash. -/
theorem firstWord_remark_ne {w : Text} (hw : EndsCode w) (x : Text) :
    lower (firstWord (remark x)) ≠ lower (firstWord w) := by
  have hmark : firstWord (remark x) = '$' :: token x := rfl
  rw [hmark]
  cases h : trimStart w with
  | nil => simp [firstWord, h, lower, token]
  | cons c r =>
      have hspace : isSpace c = false := not_of_dropWhile_eq_cons h
      have hne : '$'.toLower ≠ c.toLower := by
        obtain rfl | rfl := hw.of_cons h
        · decide
        · decide
      intro heq
      simp only [firstWord, h, token, hspace, lower, List.map_cons, List.takeWhile_cons_of_pos,
        Bool.not_false] at heq
      exact hne (List.cons.inj heq).1

theorem takeWhile_tells_of_endsCode {w : Text} (h : EndsCode w) :
    (trimStart w).takeWhile Family.tells = [] := by
  cases hw : trimStart w with
  | nil => rfl
  | cons c r =>
      have hstop : Family.tells c = false := by
        obtain rfl | rfl := h.of_cons hw
        · decide
        · decide
      rw [List.takeWhile_cons_of_neg (by simp [hstop])]

/-- The code ends with its first word: no type follows if the word ends there too. -/
theorem takeWhile_tells_of_word {q z w : Text} (hq : afterToken q = [])
    (hz : z = [] ∨ ∃ x, z = remark x) (hw : EndsCode w)
    (hname : lower (token (q ++ z)) = lower (token (q ++ w))) :
    (trimStart (afterToken (q ++ z))).takeWhile Family.tells = [] ∧
      (trimStart (afterToken (q ++ w))).takeWhile Family.tells = [] := by
  obtain ⟨hzname, hzrest⟩ := token_append hq z
  obtain ⟨hwname, hwrest⟩ := token_append hq w
  have hend : token z = [] ∧ (trimStart (afterToken z)).takeWhile Family.tells = [] := by
    obtain rfl | ⟨x, rfl⟩ := hz
    · exact ⟨rfl, rfl⟩
    · exact ⟨rfl, rfl⟩
  have hword : token w = [] := by
    have hlength := congrArg List.length hname
    simp only [hzname, hwname, hend.1, lower, List.length_map, List.length_append,
      List.length_nil] at hlength
    apply List.length_eq_zero_iff.mp
    omega
  have hafter : afterToken w = w := by
    have hsplit := token_append_afterToken w
    rwa [hword, List.nil_append] at hsplit
  rw [hzrest, hwrest, hafter]
  exact ⟨hend.2, takeWhile_tells_of_endsCode hw⟩

/-- The code goes on behind its first word: the type starts in it, and ends in it. -/
theorem takeWhile_tells_append {q u : Text} (hink : EndsInInk q) (hq : afterToken q ≠ [])
    (hu : ∀ c ∈ u.head?, Family.tells c = false) :
    (trimStart (afterToken (q ++ u))).takeWhile Family.tells =
      (trimStart (afterToken q)).takeWhile Family.tells := by
  obtain ⟨b, r, hrest⟩ := List.exists_cons_of_ne_nil hq
  have hlast : EndsInInk (afterToken q) := hink.suffix (List.dropWhile_suffix _)
  obtain ⟨c, r', htype⟩ := List.exists_cons_of_ne_nil (trimStart_ne_nil hlast hq)
  have hmore : afterToken (q ++ u) = afterToken q ++ u := dropWhile_append_cons hrest u
  have hstart : trimStart (afterToken q ++ u) = trimStart (afterToken q) ++ u :=
    dropWhile_append_cons htype u
  rw [hmore, hstart, takeWhile_append_stop hu]

/-- With the same code in front and the same name, the types agree as far as they tell their
family. -/
theorem takeWhile_fromSecondWord {p z w : Text} (hp : EndsInInk p)
    (hz : z = [] ∨ ∃ x, z = remark x) (hw : EndsCode w)
    (hname : sameName (firstWord (p ++ z)) (firstWord (p ++ w)) = true)
    (hne : firstWord (p ++ z) ≠ []) :
    (fromSecondWord (p ++ z)).takeWhile Family.tells =
      (fromSecondWord (p ++ w)).takeWhile Family.tells := by
  have hlower : lower (firstWord (p ++ z)) = lower (firstWord (p ++ w)) := eq_of_beq hname
  by_cases hstart : trimStart p = []
  · exfalso
    rw [firstWord_of_blank hstart] at hne
    rw [firstWord_of_blank hstart, firstWord_of_blank hstart] at hlower
    obtain rfl | ⟨x, rfl⟩ := hz
    · exact hne rfl
    · exact firstWord_remark_ne hw x hlower
  · obtain ⟨a, r, har⟩ := List.exists_cons_of_ne_nil hstart
    have hcode : ∀ u, trimStart (p ++ u) = trimStart p ++ u := dropWhile_append_cons har
    have hink : EndsInInk (trimStart p) := endsInInk_trimStart hp
    simp only [firstWord, fromSecondWord, hcode] at hlower ⊢
    by_cases hrest : afterToken (trimStart p) = []
    · obtain ⟨hzend, hwend⟩ := takeWhile_tells_of_word hrest hz hw hlower
      rw [hzend, hwend]
    · have hzstop : ∀ c ∈ z.head?, Family.tells c = false := by
        intro c hc
        obtain rfl | ⟨x, rfl⟩ := hz
        · cases hc
        · cases hc
          decide
      have hwstop : ∀ c ∈ w.head?, Family.tells c = false := by
        intro c hc
        obtain hspace | rfl | rfl := hw.head? c hc
        · simp [Family.tells, hspace]
        · decide
        · decide
      rw [takeWhile_tells_append hink hrest hzstop, takeWhile_tells_append hink hrest hwstop]

end Text

namespace Symbols

/-- What follows the keyword of a model. -/
def afterModel? (t : Text) : Option Text :=
  (after? "model".toList t).or (afterFolded? ".model".toList t)

theorem afterModel?_suffix {t r : Text} (h : afterModel? t = some r) : r <:+ t := by
  obtain h | ⟨-, h⟩ := Option.or_eq_some_iff.mp h
  · exact Param.after?_suffix h
  · exact Param.afterFolded?_suffix h

theorem afterFolded?_append_some {lit t r : Text} (h : afterFolded? lit t = some r) (u : Text) :
    afterFolded? lit (t ++ u) = some (r ++ u) := by
  induction lit generalizing t with
  | nil =>
      cases h
      rfl
  | cons l ls ih =>
      cases t with
      | nil => cases h
      | cons c t =>
          simp only [List.cons_append, afterFolded?] at h ⊢
          split at h
          · next hc => rw [if_pos hc, ih h]
          · cases h

theorem afterModel?_append {t r : Text} (h : afterModel? t = some r) (u : Text) :
    afterModel? (t ++ u) = some (r ++ u) := by
  obtain h | ⟨-, h⟩ := Option.or_eq_some_iff.mp h
  · rw [afterModel?, after?_append_some h u, Option.some_or]
  · have hdotted := afterFolded?_append_some h u
    have hplain : after? "model".toList (t ++ u) = none :=
      after?_eq_none (begins_of_afterFolded? hdotted) (by decide)
    rw [afterModel?, hplain, hdotted, Option.none_or]

/-- The keyword stands before the remark. -/
theorem exists_afterModel? {t z r : Text} (hz : z = [] ∨ ∃ x, z = remark x)
    (h : afterModel? (t ++ z) = some r) : ∃ q, afterModel? t = some q ∧ r = q ++ z := by
  obtain rfl | ⟨x, rfl⟩ := hz
  · rw [List.append_nil] at h
    exact ⟨r, h, (List.append_nil r).symm⟩
  · rw [afterModel?, Param.after?_append_remark _ (by decide),
      Param.afterFolded?_append_remark _ (by decide), ← Option.map_or] at h
    obtain ⟨q, hq, rfl⟩ := Option.map_eq_some_iff.mp h
    exact ⟨q, hq, rfl⟩

theorem eq_of_afterSpaces? {t r : Text} (h : afterSpaces? t = some r) : r = trimStart t := by
  rw [afterSpaces?] at h
  split at h
  · exact (Option.some.inj h).symm
  · cases h

theorem eq_of_wordBefore? {stops : List Char} {t w : Text} (h : wordBefore? stops t = some w) :
    w = t.takeWhile fun c => !(isSpace c || stops.contains c) := by
  rw [wordBefore?] at h
  split at h
  · cases h
  · next hw =>
      cases h
      rfl

/-- The name and the type of a line are its first two words behind the keyword. -/
theorem modelDeclared?_some {t name type : Text} (h : modelDeclared? t = some (name, type)) :
    ∃ r, afterModel? t = some r ∧ name = firstWord r ∧
      Family.ofKeyword type = Family.ofKeyword ((fromSecondWord r).takeWhile Family.tells) := by
  simp only [modelDeclared?] at h
  obtain ⟨r', h', h⟩ := Option.bind_eq_some_iff.mp h
  obtain ⟨r, hr, hspaces⟩ := Option.bind_eq_some_iff.mp h'
  cases eq_of_afterSpaces? hspaces
  refine ⟨r, hr, ?_⟩
  split at h
  · next hname htype =>
      cases h
      obtain ⟨u, hu, htype⟩ := Option.bind_eq_some_iff.mp htype
      cases eq_of_afterSpaces? hu
      constructor
      · rw [eq_of_wordBefore? hname]
        simp only [List.contains_nil, Bool.or_false]
        rfl
      · rw [eq_of_wordBefore? htype]
        apply Family.ofKeyword_cut
        intro c hc
        simp only [Family.tells, List.contains_cons, List.contains_nil] at hc ⊢
        grind
  · cases h

end Symbols

namespace Head

open Symbols

theorem nameAndType?_some {stop : Char} (hstop : stop = '{' ∨ stop = '(')
    {r name keyword rest : Text} (h : nameAndType? stop r = some (name, keyword, rest)) :
    name = firstWord r ∧ name ≠ [] ∧
      Family.ofKeyword keyword = Family.ofKeyword ((fromSecondWord r).takeWhile Family.tells) := by
  simp only [nameAndType?] at h
  split at h
  · cases h
  · next u hu =>
      split at h
      · cases h
      · next v hv =>
          split at h
          · cases h
          · next hne =>
              cases h
              cases eq_of_afterSpaces? hu
              cases eq_of_afterSpaces? hv
              simp only [Bool.or_eq_true, not_or, List.isEmpty_iff] at hne
              refine ⟨rfl, hne.1, ?_⟩
              apply Family.ofKeyword_cut
              intro c hc
              simp only [Family.tells, List.contains_cons, List.contains_nil] at hc
              grind

theorem model?_some {spectre : Bool} {t : Text} {head : ModelOpening}
    (h : model? spectre t = some head) :
    ∃ r, afterModel? t = some r ∧ head.name = firstWord r ∧ head.name ≠ [] ∧
      Family.ofKeyword head.keyword =
        Family.ofKeyword ((fromSecondWord r).takeWhile Family.tells) := by
  simp only [model?, Option.or_eq_some_iff] at h
  obtain h | ⟨-, h⟩ := h
  · split at h
    · obtain ⟨r, rest, hr, hparts⟩ := bracedModel?_some h
      refine ⟨r, ?_, nameAndType?_some (.inl rfl) hparts⟩
      rw [afterModel?, hr, Option.some_or]
    · cases h
  · obtain ⟨r, rest, hr, hparts⟩ := dottedModel?_some h
    have hplain : after? "model".toList t = none :=
      after?_eq_none (begins_of_afterFolded? hr) (by decide)
    refine ⟨r, ?_, nameAndType?_some (.inr rfl) hparts⟩
    rw [afterModel?, hplain, hr, Option.none_or]

end Head

namespace Line

open Symbols

theorem exists_cons_of_startsAs {t : Text} (h : StartsAs modelStarts t) :
    ∃ c r, t = c :: r ∧ (fold c = 'm' ∨ fold c = '.') := by
  obtain ⟨start, hstart, hbegins⟩ := h
  cases t with
  | nil =>
      have hne : ∀ start ∈ modelStarts, start ≠ [] := by decide
      exact absurd (List.prefix_nil.mp hbegins) (hne start hstart)
  | cons c r =>
      refine ⟨c, r, rfl, ?_⟩
      have hheads : ∀ start ∈ modelStarts, start.head? = some 'm' ∨ start.head? = some '.' := by
        decide
      obtain ⟨u, hu⟩ := hbegins
      obtain h | h := hheads start hstart
      all_goals
        cases start with
        | nil => cases h
        | cons d ds =>
            cases h
            have hcons := (List.cons.inj hu).1
            simp [← hcons]

/-- Where the text of a line and the content of the statement on it name the same model,
the family is the same too. -/
theorem ofKeyword_declaredModel? {raw name type : Text} {n : Nat} {joined spectre : Bool}
    {head : ModelOpening} (hcode : isSilent raw = false)
    (hdeclared : declaredModel? raw = some (name, type))
    (hmodel : Head.model? spectre (read n joined raw).1.content = some head)
    (hname : sameName head.name name = true) :
    Family.ofKeyword type = Family.ofKeyword head.keyword := by
  have hline : modelDeclared? (trim raw) = some (name, type) := by
    rw [declaredModel?] at hdeclared
    split at hdeclared
    · cases hdeclared
    · exact hdeclared
  obtain ⟨a, r, har, ha⟩ := exists_cons_of_startsAs (startsAs_of_modelDeclared? hline)
  obtain ⟨code, z, w, htext, hraw, hink, hz, hw⟩ := exists_code raw
  have htrim : trim raw = trimStart (code ++ w) := by
    rw [trim, ← trimStart_trimEnd, hraw]
  cases hstart : trimStart code with
  | nil =>
      -- without code before it, a comment or a backslash would declare the model
      exfalso
      have hblank : ∀ c ∈ code, isSpace c = true := List.dropWhile_eq_nil_iff.mp hstart
      rw [trimStart, List.dropWhile_append_of_pos hblank] at htrim
      have hmark : a = '/' ∨ a = '\\' := by
        apply hw a
        rw [trimStart, ← htrim, har]
        rfl
      obtain rfl | rfl := hmark
      all_goals exact absurd ha (by decide)
  | cons b q =>
      have happend : ∀ u, trimStart (code ++ u) = trimStart code ++ u :=
        dropWhile_append_cons hstart
      have hfirst : b = a := by
        rw [happend, hstart, har] at htrim
        exact (List.cons.inj htrim).1.symm
      have htext : trim (read n joined raw).1.text = trimStart code ++ z := by
        have hlast := endsInInk_dropBackslash (endsInInk_markComment raw)
        rw [read_code hcode, text, hlast.trim, htext, happend]
      have hcontent : (read n joined raw).1.content = trimStart code ++ z := by
        rw [content_other, htext]
        intro _ u hu
        rw [htext, hstart, hfirst] at hu
        cases (List.cons.inj hu).1
        exact absurd ha (by decide)
      rw [hcontent] at hmodel
      rw [htrim, happend] at hline
      obtain ⟨r, hr, hheadName, hne, hkeyword⟩ := Head.model?_some hmodel
      obtain ⟨r', hr', hlineName, htype⟩ := modelDeclared?_some hline
      obtain ⟨p, hp, rfl⟩ := exists_afterModel? hz hr
      rw [afterModel?_append hp w] at hr'
      cases hr'
      rw [hheadName] at hne
      rw [hheadName, hlineName] at hname
      have hend : EndsInInk p := (endsInInk_trimStart hink).suffix (afterModel?_suffix hp)
      rw [htype, hkeyword, takeWhile_fromSecondWord hend hz hw hname hne]

end Line

end SpiceDeck
