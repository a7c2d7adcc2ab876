import SpiceDeck.Proofs.Remark.Kept
import SpiceDeck.Scope.Step

/-!
Statements whose lines differ in their remarks alone. A parameter statement, a call and
the lines of a block are read alike, as long as each remark stands behind a line that
takes it.
-/

namespace SpiceDeck
open Text

namespace Line

/-- The first line is the second with a remark behind its code. -/
structure Remarked (x : Text) (l m : Line) : Prop where
  number : l.number = m.number
  body : ∃ t continues, m.body = .code t continues ∧ l.body = .code (t ++ remark x) continues
  inked : EndsInInk m.text
  blank : isBlank m.text = false
  comment : EndsInInk x
  feed : '\n' ∉ x

/-- Lines that differ in their remarks alone. -/
def Alongside (l m : Line) : Prop := l = m ∨ ∃ x, Remarked x l m

theorem content_plus {l : Line} {r : Text} (hc : l.continues = true)
    (h : trim l.text = '+' :: r) : l.content = trimStart r := by
  simp only [content, hc, h, if_true]

theorem content_other {l : Line} (h : l.continues = true → ∀ r, trim l.text ≠ '+' :: r) :
    l.content = trim l.text := by
  simp only [content]
  split
  · next hc =>
      split
      · next hr => exact absurd hr (h hc _)
      · rfl
  · rfl

namespace Remarked
variable {x : Text} {l m : Line}

theorem isCode (h : Remarked x l m) : l.isCode = true ∧ m.isCode = true := by
  obtain ⟨t, continues, hm, hl⟩ := h.body
  simp only [Line.isCode, hl, hm, and_self]

theorem continues (h : Remarked x l m) : l.continues = m.continues := by
  obtain ⟨t, continues, hm, hl⟩ := h.body
  simp only [Line.continues, hl, hm]

theorem text (h : Remarked x l m) : l.text = m.text ++ remark x := by
  obtain ⟨t, continues, hm, hl⟩ := h.body
  simp only [Line.text, hl, hm]

/-- Without the `+` of a continuation, the remark is still behind the code. -/
theorem content (h : Remarked x l m) :
    l.content = trimStart (m.content ++ remark x) ∧ EndsInInk m.content := by
  have hink := endsInInk_trimStart h.inked
  have hl : trim l.text = trimStart (m.text ++ remark x) := by
    rw [h.text]
    exact (h.comment.remark m.text).trim
  obtain ⟨c, r, hcr⟩ := List.exists_cons_of_ne_nil (Param.isBlank_eq_false_iff.mp h.blank)
  have hm := h.inked.trim.trans hcr
  have hfirst : trimStart (c :: r) = c :: r := by rw [← hcr, trimStart_trimStart]
  rw [trimStart_append_remark_cons hcr] at hl
  rw [hcr] at hink
  by_cases hplus : m.continues = true ∧ c = '+'
  · obtain ⟨hc, rfl⟩ := hplus
    rw [content_plus hc hm, content_plus (h.continues.trans hc) hl]
    refine ⟨(trimStart_trimStart_append_remark r x).symm, ?_⟩
    exact endsInInk_trimStart (hink.suffix (List.suffix_cons _ _))
  · have hother : ∀ s : Text, m.continues = true → ∀ r, c :: s ≠ '+' :: r :=
      fun s hc r heq => hplus ⟨hc, (List.cons.inj heq).1⟩
    have hcl : l.content = trim l.text := content_other (by rw [hl, h.continues]; exact hother _)
    have hcm : m.content = trim m.text := content_other (by rw [hm]; exact hother r)
    rw [hcl, hcm, hl, hm]
    exact ⟨(trimStart_append_remark_cons hfirst x).symm, hink⟩

theorem behind (h : Remarked x l m) : Behind x l.content m.content := by
  rw [h.content.1]
  exact .trimStart x m.content

end Remarked

namespace Alongside
variable {l m : Line}

theorem refl (l : Line) : l.Alongside l := .inl rfl

theorem number (h : l.Alongside m) : l.number = m.number := by
  obtain rfl | ⟨x, h⟩ := h
  · rfl
  · exact h.number

theorem isCode (h : l.Alongside m) : l.isCode = m.isCode := by
  obtain rfl | ⟨x, h⟩ := h
  · rfl
  · exact h.isCode.1.trans h.isCode.2.symm

theorem eq_of_passive (h : l.Alongside m) (hm : m.isCode = false) : l = m := by
  obtain rfl | ⟨x, h⟩ := h
  · rfl
  · rw [h.isCode.2] at hm
    cases hm

theorem verbatim (h : l.Alongside m) : Text.Alongside l.verbatim m.verbatim := by
  obtain rfl | ⟨x, h⟩ := h
  · exact .refl _
  · have htext := alongside_remark h.blank x
    rw [← h.text] at htext
    exact htext

theorem map_verbatim {ls ms : List Line} (h : List.Forall₂ Line.Alongside ls ms) :
    List.Forall₂ Text.Alongside (ls.map Line.verbatim) (ms.map Line.verbatim) :=
  List.forall₂_map_left_iff.mpr (List.forall₂_map_right_iff.mpr (h.imp fun _ _ h => h.verbatim))

end Alongside

end Line

namespace Param

theorem marker_readAssignments (o : Options) (t : Text) (place : Placement) (carry : Carry) :
    (readAssignments o t place carry).marker = .none := by
  simp only [readAssignments]
  split
  · split <;> rfl
  · rfl

/-- Whether the lines that continue a list take the remarks that the first ones have. -/
def takesRemarks (o : Options) (place : Placement) (carry : Carry) :
    List Line → List Line → Bool
  | l :: r, m :: s =>
      if m.isCode then
        let line := readContinuation o m.text place carry
        (l == m || line.takesRemark) && takesRemarks o place line.carry r s
      else takesRemarks o place carry r s
  | _, _ => true

theorem takesRemarks_refl (o : Options) (place : Placement) (carry : Carry) (ls : List Line) :
    takesRemarks o place carry ls ls = true := by
  induction ls generalizing carry with
  | nil => rfl
  | cons l r ih =>
      simp only [takesRemarks, beq_self_eq_true, Bool.true_or, Bool.true_and, ih, ite_self]

theorem readContinuation_alongside (o : Options) (place : Placement) (carry : Carry) {l m : Line}
    (h : l.Alongside m)
    (hl : (l == m || (readContinuation o m.text place carry).takesRemark) = true) :
    (readContinuation o l.text place carry).Alongside (readContinuation o m.text place carry) := by
  obtain rfl | ⟨x, h⟩ := h
  · exact readContinuation_refl o _ place carry
  · obtain heq | htakes := Bool.or_eq_true_iff.mp hl
    · rw [eq_of_beq heq]
      exact readContinuation_refl o _ place carry
    · refine readContinuation_behind o place carry h.inked h.comment ?_ htakes
      rw [h.text]
      exact .refl x m.text

theorem tail_alongside (o : Options) (place : Placement) (carry : Carry) {ls ms : List Line}
    (h : List.Forall₂ Line.Alongside ls ms) (hl : takesRemarks o place carry ls ms = true) :
    List.Forall₂ (Continuation.Rel ParamLine.Marked) (tail o place carry ls)
      (tail o place carry ms) := by
  induction h generalizing carry with
  | nil => exact .nil
  | @cons l m _ _ h _ ih =>
      simp only [takesRemarks] at hl
      cases hm : m.isCode with
      | false =>
          have heq := h.eq_of_passive hm
          rw [hm] at hl
          simp only [tail, heq, hm]
          exact .cons (.verbatim (.refl _)) (ih carry hl)
      | true =>
          simp only [hm, if_true, Bool.and_eq_true] at hl
          have hline := readContinuation_alongside o place carry h hl.1
          simp only [tail, h.isCode, hm, if_true, hline.carry]
          refine .cons (.params ⟨hline, ?_⟩) (ih _ hl.2)
          rintro ⟨⟩

theorem dropCode_alongside (n : Nat) {ls ms : List Line} (h : List.Forall₂ Line.Alongside ls ms) :
    List.Forall₂ Line.Alongside (dropCode n ls) (dropCode n ms) := by
  induction h generalizing n with
  | nil => exact .nil
  | cons h hrest ih =>
      simp only [dropCode, h.isCode]
      split
      · cases n with
        | zero => exact .cons h hrest
        | succ n => exact ih n
      · exact .cons h (ih n)

end Param

namespace Statement

/-- Statements that differ in their remarks alone. -/
structure Alongside (s t : Statement) : Prop where
  head : s.head.Alongside t.head
  tail : List.Forall₂ Line.Alongside s.tail t.tail

namespace Alongside
variable {s t : Statement}

theorem number (h : s.Alongside t) : s.number = t.number := h.head.number

theorem refl (s : Statement) : s.Alongside s :=
  ⟨.refl s.head, List.forall₂_same.mpr fun l _ => .refl l⟩

theorem lines (h : s.Alongside t) : List.Forall₂ Line.Alongside s.lines t.lines :=
  .cons h.head h.tail

theorem verbatim (h : s.Alongside t) : List.Forall₂ Text.Alongside s.verbatim t.verbatim :=
  Line.Alongside.map_verbatim h.lines

end Alongside

end Statement

namespace Scope

/-- Whether a parameter statement takes the remarks that the first statement has. -/
def parametersTakeRemarks (o : Options) (place : Param.Placement) (s t : Statement) : Bool :=
  match Param.readStatement? o t.head.content place .closed with
  | none => true
  | some head =>
      (s.head == t.head || head.takesRemark) &&
        Param.takesRemarks o (if head.marker = .param then .topLevel else place) head.carry s.tail
          t.tail

theorem marker_readStatement? {o : Options} {t : Text} {place : Param.Placement} {carry : Carry}
    {m : ParamLine} (h : Param.readStatement? o t place carry = some m) : m.marker ≠ .none := by
  simp only [Param.readStatement?] at h
  split at h
  · cases h
    rintro ⟨⟩
  · split at h
    · cases h
      simp only [ParamLine.withMarker]
      split <;> rintro ⟨⟩
    · cases h

theorem readStatement?_alongside (o : Options) (place : Param.Placement) {s t : Statement}
    (h : s.Alongside t) (hr : parametersTakeRemarks o place s t = true) :
    Option.Rel ParamLine.Alongside (Param.readStatement? o s.head.content place .closed)
      (Param.readStatement? o t.head.content place .closed) := by
  have hsame : s.head = t.head ∨ (∃ x, Line.Remarked x s.head t.head) ∧
      ∀ m ∈ Param.readStatement? o t.head.content place .closed, m.takesRemark = true := by
    obtain heq | hx := h.head
    · exact .inl heq
    · by_cases heq : s.head = t.head
      · exact .inl heq
      · refine .inr ⟨hx, ?_⟩
        intro m hm
        rw [parametersTakeRemarks, Option.mem_def.mp hm] at hr
        simp only [Bool.and_eq_true, Bool.or_eq_true, beq_iff_eq, heq, false_or] at hr
        exact hr.1
  obtain heq | ⟨⟨x, hx⟩, htakes⟩ := hsame
  · rw [heq]
    cases ht : Param.readStatement? o t.head.content place .closed with
    | none => exact .none
    | some m => exact .some (Param.readStatement?_refl ht)
  · exact Param.readStatement?_behind o place .closed hx.content.2 hx.comment hx.behind htakes

theorem parameterLines_alongside (o : Options) (place : Param.Placement) {s t : Statement}
    (h : s.Alongside t) (hr : parametersTakeRemarks o place s t = true) :
    (parameterLines o s place).1 = (parameterLines o t place).1 ∧
      List.Forall₂ Text.Alongside (parameterLines o s place).2.1 (parameterLines o t place).2.1 ∧
      (parameterLines o s place).2.2 = (parameterLines o t place).2.2 := by
  have hread := readStatement?_alongside o place h hr
  simp only [parameterLines]
  simp only [parametersTakeRemarks] at hr
  cases ht : Param.readStatement? o t.head.content place .closed with
  | none =>
      rw [ht] at hread
      cases hs : Param.readStatement? o s.head.content place .closed with
      | some l => rw [hs] at hread; cases hread
      | none => exact ⟨rfl, h.verbatim, rfl⟩
  | some m =>
      rw [ht] at hread hr
      cases hs : Param.readStatement? o s.head.content place .closed with
      | none => rw [hs] at hread; cases hread
      | some l =>
          rw [hs] at hread
          obtain ⟨hlm⟩ := hread
          rw [Bool.and_eq_true] at hr
          have hlines : List.Forall₂ (Continuation.Rel ParamLine.Marked)
              (.params l :: Param.tail o (if l.marker = .param then .topLevel else place) l.carry
                s.tail)
              (.params m :: Param.tail o (if m.marker = .param then .topLevel else place) m.carry
                t.tail) := by
            rw [hlm.marker, hlm.carry]
            exact .cons (.params ⟨hlm, marker_readStatement? ht⟩)
              (Param.tail_alongside o _ m.carry h.tail hr.2)
          refine ⟨hlm.marker, ?_, ?_⟩
          · exact Continuation.rel_render (Continuation.rel_close (fun h => h.close) hlines)
          · have hcarried := Continuation.rel_carried (fun h => h.toAlongside) hlines
            simp only [hcarried, h.number]

end Scope

namespace Text

instance (t : Text) : Decidable (EndsInInk t) :=
  decidable_of_iff (t.getLast?.all (!isSpace ·) = true) (by simp [EndsInInk, Option.all_eq_true])

/-- Whether the first text is the second, which ends in no blank, with a remark of one line
behind it. -/
def isRemarked (a t : Text) : Bool :=
  EndsInInk a && EndsInInk t && !a.contains '\n' && startsWith a (trimStart (t ++ remark []))

theorem exists_behind {a t : Text} (h : isRemarked a t = true) :
    EndsInInk t ∧ ∃ x, EndsInInk x ∧ '\n' ∉ x ∧ Behind x a t := by
  simp only [isRemarked, Bool.and_eq_true, decide_eq_true_eq, Bool.not_eq_true'] at h
  obtain ⟨⟨⟨ha, ht⟩, hfeed⟩, hstart⟩ := h
  obtain ⟨x, hx⟩ := Option.isSome_iff_exists.mp hstart
  have hsuffix := Param.after?_suffix hx
  have hmem : '\n' ∉ a := by simpa using hfeed
  refine ⟨ht, x, ha.suffix hsuffix, fun hn => hmem (hsuffix.subset hn), ?_⟩
  have happend := Param.after?_append hx
  rw [Behind, happend]
  cases ht : trimStart t with
  | nil =>
      rw [trimStart_append_remark_nil ht, trimStart_append_remark_nil ht]
      rfl
  | cons c r =>
      have hc : isSpace c = false := not_of_dropWhile_eq_cons ht
      rw [trimStart_append_remark_cons ht, trimStart_append_remark_cons ht]
      simp [trimStart, hc, remark]

theorem endsInInk_trimEnd (t : Text) : EndsInInk (trimEnd t) := by
  intro c hc
  rw [trimEnd, List.getLast?_reverse] at hc
  cases hd : t.reverse.dropWhile isSpace with
  | nil => rw [hd] at hc; cases hc
  | cons d r =>
      rw [hd] at hc
      cases hc
      exact not_of_dropWhile_eq_cons hd

theorem endsInInk_trim (t : Text) : EndsInInk (trim t) := endsInInk_trimEnd (trimStart t)

theorem endsInInk_blank_trim {t : Text} (h : trim t ≠ []) : EndsInInk (' ' :: trim t) := by
  intro c hc
  rw [← List.singleton_append, List.getLast?_append_of_ne_nil _ h] at hc
  exact endsInInk_trim t c hc

theorem isBlank_of_head? {t : Text} {c : Char} (h : c ∈ t.head?) (hc : isSpace c = false) :
    isBlank t = false := by
  cases t with
  | nil => cases h
  | cons d r =>
      cases h
      rw [isBlank, List.all_cons, hc, Bool.false_and]

end Text

namespace Head

theorem isSpace_of_isAsciiWord {c : Char} (h : isAsciiWord c = true) : isSpace c = false := by
  have hrange : 0x30 ≤ c.toNat ∧ c.toNat < 0x7B := by
    simp only [isAsciiWord, Char.isAlphanum] at h
    delta Char.isAlpha Char.isUpper Char.isLower at h
    simp only [Char.isDigit, Bool.or_eq_true, Bool.and_eq_true, decide_eq_true_eq, beq_iff_eq,
      UInt32.le_iff_toNat_le] at h
    obtain ((h | h) | h) | rfl := h
    · simp at h; omega
    · simp at h; omega
    · simp at h; omega
    · decide
  simp only [isSpace, spaceRanges, inRanges]
  simp
  omega

theorem parenParts?_some {t name pins rest : Text} (h : parenParts? t = some (name, pins, rest)) :
    isBlank name = false := by
  simp only [parenParts?] at h
  split at h
  · next hhead =>
      obtain ⟨c, hc, hword⟩ := (Option.any_eq_true _ _).mp hhead
      split at h
      · split at h
        · cases h
          have hspace := isSpace_of_isAsciiWord hword
          have hparen : (c == '(') = false := by
            rw [beq_eq_false_iff_ne]
            rintro rfl
            cases hword
          refine isBlank_of_head? (c := c) ?_ hspace
          cases t with
          | nil => cases hc
          | cons d r =>
              cases hc
              simp [hspace, hparen]
        · cases h
      · cases h
  · cases h

theorem parenCall?_some {s : Statement} {head : CallOpening} (h : parenCall? s = some head) :
    isBlank head.name = false := by
  simp only [parenCall?] at h
  split at h
  · split at h
    · cases h
    · split at h
      · cases h
      · split at h
        · cases h
        · next hparts =>
            split at h
            · cases h
            · cases h
              exact parenParts?_some hparts
  · cases h

theorem isBlank_of_mem_words {t w v : Text} (h : w ∈ words t) (hv : withoutSlash? w = some v) :
    isBlank v = false := by
  obtain ⟨hcut, hne⟩ := List.mem_filter.mp h
  have hink : ∀ c ∈ w, isSpace c = false := not_of_mem_cut hcut
  have hvw : v ≠ [] ∧ ∀ c ∈ v, c ∈ w := by
    simp only [withoutSlash?] at hv
    split at hv
    · cases hv
    · next hslash =>
        cases hv
        exact ⟨fun hnil => hslash (by rw [hnil]), fun c hc => List.mem_cons_of_mem _ hc⟩
    · cases hv
      exact ⟨by simpa using hne, fun c hc => hc⟩
  obtain ⟨c, r, rfl⟩ := List.exists_cons_of_ne_nil hvw.1
  exact isBlank_of_head? rfl (hink c (hvw.2 c List.mem_cons_self))

theorem bareCall?_some {symbols : Symbols} {o : Options} {spectre : Bool} {s : Statement}
    {head : CallOpening} (h : bareCall? symbols o spectre s = some head) :
    isBlank head.name = false := by
  simp only [bareCall?] at h
  split at h
  · split at h
    · next name token tokens hwords =>
        split at h
        · cases h
          have hmem := hwords ▸ List.mem_cons_self (a := name) (l := token :: tokens)
          obtain ⟨w, hw, hslash⟩ := List.mem_filterMap.mp hmem
          exact isBlank_of_mem_words hw hslash
        · cases h
    · cases h
  · cases h

end Head

theorem Statement.Kind.mem_of_firstOf {kinds : List (Option Statement.Kind)} {kind : Statement.Kind}
    (h : Statement.Kind.firstOf kinds = kind) (hne : kind ≠ .other) : some kind ∈ kinds := by
  induction kinds with
  | nil => exact absurd h.symm hne
  | cons k r ih =>
      cases k with
      | none => exact List.mem_cons_of_mem _ (ih h)
      | some k =>
          have hk : k = kind := h
          rw [hk]
          exact List.mem_cons_self

theorem Statement.kind_deviceCall {s : Statement} {symbols : Symbols} {o : Options} {d : Dialect}
    {head : CallOpening} (h : s.kind symbols o d = .deviceCall head) :
    isBlank head.name = false := by
  have hmem := Statement.Kind.mem_of_firstOf h nofun
  have hcall : d = .spectre ∧ Head.parenCall? s = some head ∨
      Head.bareCall? symbols o (d = .spectre) s = some head := by
    simpa [eq_comm (a := some (Statement.Kind.deviceCall head))] using hmem
  obtain ⟨-, h⟩ | h := hcall
  · exact Head.parenCall?_some h
  · exact Head.bareCall?_some h

namespace Call

/-- Whether a call takes the remarks that the first statement has. -/
def takesRemarks (o : Options) (head head' : CallOpening) (s t : Statement) : Bool :=
  let params := Param.readAssignments o head'.params .deviceCall .closed
  { head with params := head'.params } == head' &&
    (head.params == head'.params || isRemarked head.params head'.params && params.takesRemark) &&
    Param.takesRemarks o .deviceCall params.carry (Param.dropCode head'.consumed s.lines)
      (Param.dropCode head'.consumed t.lines)

theorem takesRemarks_refl (o : Options) (head : CallOpening) (s : Statement) :
    takesRemarks o head head s s = true := by
  simp [takesRemarks, Param.takesRemarks_refl]

theorem ofHead_alongside (o : Options) {head head' : CallOpening} {s t : Statement}
    (h : s.Alongside t) (hname : isBlank head'.name = false)
    (hr : takesRemarks o head head' s t = true) :
    (ofHead o head s).Alongside (ofHead o head' t) := by
  simp only [takesRemarks, Bool.and_eq_true, Bool.or_eq_true, beq_iff_eq] at hr
  obtain ⟨⟨hhead, hparams⟩, htail⟩ := hr
  have hp : (Param.readAssignments o head.params .deviceCall .closed).Alongside
      (Param.readAssignments o head'.params .deviceCall .closed) := by
    obtain heq | ⟨hremarked, htakes⟩ := hparams
    · rw [heq]
      exact Param.readAssignments_refl o _ _ _
    · obtain ⟨hink, x, hx, -, hbehind⟩ := exists_behind hremarked
      exact Param.readAssignments_behind o .deviceCall .closed hink hx hbehind htakes
  have hn := congrArg CallOpening.name hhead
  have hpins := congrArg CallOpening.pins hhead
  have hreference := congrArg CallOpening.reference hhead
  have hconsumed := congrArg CallOpening.consumed hhead
  have hlines := Param.dropCode_alongside head'.consumed h.lines
  constructor
  case name => exact hn
  case pins => exact hpins
  case reference => exact hreference
  case line => exact h.number
  case params => exact hp
  case unmarked => exact Param.marker_readAssignments o head'.params _ _
  case tail =>
      simp only at hconsumed
      simp only [ofHead, hconsumed, hp.carry]
      exact Param.tail_alongside o .deviceCall _ hlines htail
  case named => exact hname

end Call

end SpiceDeck
