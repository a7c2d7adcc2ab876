import SpiceDeck.Proofs.Remark.Statements

/-!
Model blocks whose lines differ in their remarks alone. A line of a block takes a remark
unless the block ends on it, with the remark or without, or no value of the line is left
once its polarity has gone into the type.
-/

namespace SpiceDeck
open Text

namespace Head

theorem contains_feed_append_remark {x : Text} (hx : '\n' ∉ x) (t : Text) :
    (trimStart (t ++ remark x)).contains '\n' = (trimStart t).contains '\n' := by
  cases ht : trimStart t with
  | nil =>
      rw [trimStart_append_remark_nil ht]
      simp [hx]
  | cons c r =>
      rw [trimStart_append_remark_cons ht]
      simp [remark, hx]

/-- A remark behind the header of a bin belongs to its parameters. -/
theorem bin?_behind {x a t : Text} (ht : EndsInInk t) (hx : EndsInInk x) (hfeed : '\n' ∉ x)
    (h : Behind x a t) (hne : trimStart t ≠ []) :
    bin? a = (bin? t).map fun (index, rest) => (index, trimStart (rest ++ remark x)) := by
  obtain ⟨c, r, hcr⟩ := List.exists_cons_of_ne_nil hne
  have ha := h.trim hx
  rw [trimStart_append_remark_cons hcr, ← List.cons_append] at ha
  have hdrop : ((c :: r) ++ remark x).dropWhile isDigit = (c :: r).dropWhile isDigit ++ remark x :=
    dropWhile_append_blank rfl _ _
  have htake : ((c :: r) ++ remark x).takeWhile isDigit = (c :: r).takeWhile isDigit :=
    takeWhile_append_blank rfl _ _
  simp only [bin?, ha, ht.trim, hcr, hdrop, htake]
  cases hd : trimStart ((c :: r).dropWhile isDigit) with
  | nil =>
      rw [trimStart_append_remark_nil hd]
      rfl
  | cons e s =>
      rw [trimStart_append_remark_cons hd]
      by_cases he : e = ':'
      · subst he
        simp only [contains_feed_append_remark hfeed]
        cases toNat? ((c :: r).takeWhile isDigit) with
        | none => rfl
        | some n =>
            simp only
            split
            · simp only [Option.map_some, trimStart_trimStart_append_remark]
            · rfl
      · simp [he]

theorem bin?_suffix {t rest : Text} {index : Nat} (h : bin? t = some (index, rest)) :
    rest <:+ trim t := by
  simp only [bin?] at h
  split at h
  · next r hr =>
      split at h
      · split at h
        · cases h
          have hcolon : ':' :: r <:+ (trim t).dropWhile isDigit := by
            rw [← hr]
            exact List.dropWhile_suffix isSpace
          exact (List.dropWhile_suffix isSpace).trans ((List.suffix_cons ':' r).trans
            (hcolon.trans (List.dropWhile_suffix isDigit)))
        · cases h
      · cases h
  · cases h

end Head

/-- Whether the line has more than comments. -/
def ParamLine.hasValue (l : ParamLine) : Bool := l.pieces.any (!·.isComment)

theorem ParamLine.Alongside.isEmpty {l m : ParamLine} (h : l.Alongside m)
    (hm : m.hasValue = true) : l.isEmpty = m.isEmpty := by
  obtain ⟨vs, cs, ds, hl, hp, -, -, hd⟩ := h.pieces
  cases vs with
  | cons v vs => rw [ParamLine.isEmpty, ParamLine.isEmpty, hl, hp]; rfl
  | nil =>
      rw [ParamLine.hasValue, hp, List.nil_append] at hm
      obtain ⟨p, hmem, hvalue⟩ := List.any_eq_true.mp hm
      have hremark := hd p hmem
      cases p with
      | assign _ _ | fragment _ => cases hremark
      | comment _ => cases hvalue

namespace Model.Block

/-- Whether a body line takes a remark, as far as its text goes. -/
def takesText (o : Options) (b : Model.Block) (t : Text) : Bool :=
  match if b.carry.isOpen then none else Head.bin? t with
  | some (_, rest) => (Param.readAssignments o rest .modelBody .closed).takesRemark
  | none =>
      let params := Param.readContinuation o t .modelBody b.carry
      params.takesRemark && (Model.remainder params).hasValue

variable {a b : Model.Block}

theorem readText_bin {o : Options} {t rest : Text} {index : Nat}
    (h : (if b.carry.isOpen then none else Head.bin? t) = some (index, rest)) (line : Nat) :
    b.readText o t line =
      { b.openBin index (Param.readAssignments o rest .modelBody .closed) line with
        carry := (Param.readAssignments o rest .modelBody .closed).carry } := by
  simp only [readText, h]

theorem readText_params {o : Options} {t : Text}
    (h : (if b.carry.isOpen then none else Head.bin? t) = none) (line : Nat) :
    b.readText o t line =
      { b.modifyCurrent (·.addParams (Param.readContinuation o t .modelBody b.carry)) with
        carry := (Param.readContinuation o t .modelBody b.carry).carry } := by
  simp only [readText, h]

theorem Alongside.addParams (h : a.Alongside b) {l m : ParamLine} (hl : l.Alongside m)
    (hm : m.marker ≠ .none) (he : (remainder l).isEmpty = (remainder m).isEmpty) :
    Alongside { a.modifyCurrent (·.addParams l) with carry := l.carry }
      { b.modifyCurrent (·.addParams m) with carry := m.carry } := by
  have hmodify := h.modifyCurrent (f := (·.addParams l)) (g := (·.addParams m))
    (fun hmodel => hmodel.addParams hl hm he) (by
      intro n hn
      simp only [Model.addParams, Model.absorb]
      split <;> exact hn)
  exact { hmodify with carry := hl.carry }

theorem Alongside.addBin (h : a.Alongside b) (index : Nat) {l m : ParamLine} (hl : l.Alongside m)
    (hm : m.marker = .none) (line : Nat) :
    Alongside { a.openBin index l line with carry := l.carry }
      { b.openBin index m line with carry := m.carry } :=
  { h.openBin index hl hm line with carry := hl.carry }

theorem readText_refl (o : Options) (h : a.Alongside b) (t : Text) (line : Nat) :
    (a.readText o t line).Alongside (b.readText o t line) := by
  cases hbin : (if b.carry.isOpen then none else Head.bin? t) with
  | some p =>
      have hbin' : (if a.carry.isOpen then none else Head.bin? t) = some p := by rw [h.carry, hbin]
      rw [readText_bin hbin, readText_bin hbin']
      exact h.addBin p.1 (Param.readAssignments_refl o _ _ _)
        (Param.marker_readAssignments o _ _ _) line
  | none =>
      have hbin' : (if a.carry.isOpen then none else Head.bin? t) = none := by rw [h.carry, hbin]
      rw [readText_params hbin, readText_params hbin', h.carry]
      exact h.addParams (Param.readContinuation_refl o _ _ _) nofun rfl

theorem readText_behind (o : Options) (h : a.Alongside b) {x t' t : Text} (ht : EndsInInk t)
    (hx : EndsInInk x) (hfeed : '\n' ∉ x) (hb : Behind x t' t) (hne : trimStart t ≠ [])
    (hr : b.takesText o t = true) (line : Nat) :
    (a.readText o t' line).Alongside (b.readText o t line) := by
  simp only [takesText] at hr
  have hbehind := Head.bin?_behind ht hx hfeed hb hne
  cases hbin : (if b.carry.isOpen then none else Head.bin? t) with
  | some p =>
      obtain ⟨index, rest⟩ := p
      rw [hbin] at hr
      have hclosed : b.carry.isOpen = false := by
        cases hopen : b.carry.isOpen with
        | false => rfl
        | true => rw [hopen] at hbin; cases hbin
      have htext : Head.bin? t = some (index, rest) := by rwa [hclosed] at hbin
      have hbin' : (if a.carry.isOpen then none else Head.bin? t') =
          some (index, trimStart (rest ++ remark x)) := by
        rw [h.carry, hclosed, hbehind, htext]
        rfl
      have hink := (endsInInk_trim t).suffix (Head.bin?_suffix htext)
      rw [readText_bin hbin, readText_bin hbin']
      exact h.addBin index
        (Param.readAssignments_behind o .modelBody .closed hink hx (.trimStart x rest) hr)
        (Param.marker_readAssignments o _ _ _) line
  | none =>
      rw [hbin, Bool.and_eq_true] at hr
      have hbin' : (if a.carry.isOpen then none else Head.bin? t') = none := by
        rw [h.carry, hbehind]
        cases hopen : b.carry.isOpen with
        | true => rfl
        | false =>
            rw [hopen] at hbin
            have hnone : Head.bin? t = none := hbin
            rw [hnone]
            rfl
      have hparams := Param.readContinuation_behind o .modelBody b.carry ht hx hb hr.1
      rw [readText_params hbin, readText_params hbin', h.carry]
      exact h.addParams hparams nofun (hparams.remainder.isEmpty hr.2)

/-- Whether a body line takes the remark with which it is the first text. -/
def takesBehind (o : Options) (b : Model.Block) (a t : Text) : Bool :=
  !(splitClose b.carry a).2 && !(splitClose b.carry t).2 && !isBlank t && b.takesText o (trim t)

theorem splitClose_open {carry : Carry} {t : Text} (h : (splitClose carry t).2 = false) :
    splitClose carry t = (t, false) := by
  cases carry with
  | closed | bare _ | brace _ | quote _ =>
      simp only [splitClose] at h ⊢
      split at h
      · cases h
      · next hc => rw [if_neg hc]

theorem readLine_refl (o : Options) (h : a.Alongside b) (t : Text) (line : Nat) :
    (a.readLine o t line).1.Alongside (b.readLine o t line).1 ∧
      (a.readLine o t line).2 = (b.readLine o t line).2 := by
  simp only [readLine, h.carry, and_true]
  split
  · exact h
  · exact readText_refl o h _ _

theorem readLine_behind (o : Options) (h : a.Alongside b) {x t' t : Text} (ht : EndsInInk t)
    (hx : EndsInInk x) (hfeed : '\n' ∉ x) (hb : Behind x t' t) (hr : b.takesBehind o t' t = true)
    (line : Nat) :
    (a.readLine o t' line).1.Alongside (b.readLine o t line).1 ∧
      (a.readLine o t' line).2 = (b.readLine o t line).2 := by
  simp only [takesBehind, Bool.and_eq_true, Bool.not_eq_true'] at hr
  obtain ⟨⟨⟨hopen, hopen'⟩, hblank⟩, htakes⟩ := hr
  have hm : trimStart t ≠ [] := Param.isBlank_eq_false_iff.mp hblank
  have hl : trimStart (t ++ remark x) ≠ [] := by
    obtain ⟨c, r, hcr⟩ := List.exists_cons_of_ne_nil hm
    rw [trimStart_append_remark_cons hcr]
    exact List.cons_ne_nil _ _
  rw [ht.trim] at htakes
  simp only [readLine, h.carry, splitClose_open hopen, splitClose_open hopen', hb.trim hx, ht.trim,
    List.isEmpty_eq_false_iff.mpr hm, List.isEmpty_eq_false_iff.mpr hl, Bool.false_eq_true,
    if_false, and_true]
  refine readText_behind o h (endsInInk_trimStart ht) hx hfeed ?_ ?_ htakes line
  · rw [Behind, trimStart_trimStart, trimStart_trimStart_append_remark]
  · rwa [trimStart_trimStart]

/-- Whether a body line takes the remark that the first line has. -/
def takesRemark (o : Options) (b : Model.Block) (l m : Line) : Bool :=
  l == m || b.takesBehind o l.content m.content

theorem readLine_alongside (o : Options) (h : a.Alongside b) {l m : Line} (hl : l.Alongside m)
    (hr : b.takesRemark o l m = true) :
    (a.readLine o l.content l.number).1.Alongside (b.readLine o m.content m.number).1 ∧
      (a.readLine o l.content l.number).2 = (b.readLine o m.content m.number).2 := by
  rw [hl.number]
  simp only [takesRemark, Bool.or_eq_true, beq_iff_eq] at hr
  obtain rfl | hr := hr
  · exact readLine_refl o h _ _
  · obtain rfl | ⟨x, hx⟩ := hl
    · exact readLine_refl o h _ _
    · exact readLine_behind o h hx.content.2 hx.comment hx.feed hx.behind hr m.number

def takesRemarks (o : Options) (b : Model.Block) : List Line → List Line → Bool
  | l :: r, m :: s =>
      if m.isCode then
        b.takesRemark o l m && ((b.readLine o m.content m.number).2 ||
          takesRemarks o (b.readLine o m.content m.number).1 r s)
      else takesRemarks o (b.modifyCurrent (·.addText m.verbatim)) r s
  | _, _ => true

theorem takesRemarks_refl (o : Options) (b : Model.Block) (ls : List Line) :
    b.takesRemarks o ls ls = true := by
  induction ls generalizing b with
  | nil => rfl
  | cons l r ih =>
      simp only [takesRemarks, takesRemark, beq_self_eq_true, Bool.true_or, Bool.true_and, ih,
        Bool.or_true, ite_self]

theorem Alongside.addText (h : a.Alongside b) {xs ys : List Text}
    (hl : List.Forall₂ Text.Alongside xs ys) :
    (a.modifyCurrent (·.addTexts xs)).Alongside (b.modifyCurrent (·.addTexts ys)) :=
  h.modifyCurrent (fun hm => hm.addTexts hl) fun hn => hn

theorem readLines_alongside (o : Options) (h : a.Alongside b) {ls ms : List Line}
    (hl : List.Forall₂ Line.Alongside ls ms) (hr : b.takesRemarks o ls ms = true) :
    (a.readLines o ls).1.Alongside (b.readLines o ms).1 ∧
      Option.Rel (List.Forall₂ Line.Alongside) (a.readLines o ls).2 (b.readLines o ms).2 := by
  induction hl generalizing a b with
  | nil => exact ⟨h, .none⟩
  | @cons l m _ _ hlm hrest ih =>
      simp only [takesRemarks] at hr
      cases hm : m.isCode with
      | false =>
          have heq := hlm.eq_of_passive hm
          subst heq
          rw [hm] at hr
          simp only [readLines, hm]
          exact ih (h.addText (.cons (.refl l.verbatim) .nil)) hr
      | true =>
          simp only [hm, if_true, Bool.and_eq_true, Bool.or_eq_true] at hr
          obtain ⟨hblock, hclosed⟩ := readLine_alongside o h hlm hr.1
          simp only [readLines, hlm.isCode, hm, if_true, hclosed]
          cases hc : (b.readLine o m.content m.number).2 with
          | true => exact ⟨hblock, .some hrest⟩
          | false =>
              rw [hc] at hr
              exact ih hblock (hr.2.resolve_left Bool.false_ne_true)

def headTakesRemarks (o : Options) (head head' : ModelOpening) (s t : Statement) : Bool :=
  let b := new head'.name head'.keyword t.number
  (head.rest == head'.rest ||
      isRemarked head.rest head'.rest && b.takesBehind o head.rest head'.rest) &&
    ((b.readLine o head'.rest t.number).2 ||
      (b.readLine o head'.rest t.number).1.takesRemarks o s.tail t.tail)

theorem headTakesRemarks_refl (o : Options) (head : ModelOpening) (s : Statement) :
    headTakesRemarks o head head s s = true := by
  simp [headTakesRemarks, takesRemarks_refl]

theorem ofHead_alongside (o : Options) {head head' : ModelOpening} {s t : Statement}
    (h : s.Alongside t) (hname : head.name = head'.name) (hkeyword : head.keyword = head'.keyword)
    (hr : headTakesRemarks o head head' s t = true) :
    (ofHead o head s).1.Alongside (ofHead o head' t).1 ∧
      Option.Rel (List.Forall₂ Line.Alongside) (ofHead o head s).2 (ofHead o head' t).2 := by
  simp only [headTakesRemarks, Bool.and_eq_true, Bool.or_eq_true, beq_iff_eq] at hr
  obtain ⟨hrest, htail⟩ := hr
  generalize hb : new head'.name head'.keyword t.number = b at hrest htail
  have hnew : b.Alongside b := by
    rw [← hb]
    exact ⟨rfl, rfl, rfl, ⟨rfl, rfl, rfl, rfl, .none, nofun, .nil⟩, rfl, .nil⟩
  have hline : (b.readLine o head.rest t.number).1.Alongside
      (b.readLine o head'.rest t.number).1 ∧
      (b.readLine o head.rest t.number).2 = (b.readLine o head'.rest t.number).2 := by
    obtain heq | ⟨hremarked, htakes⟩ := hrest
    · rw [heq]
      exact readLine_refl o hnew head'.rest t.number
    · obtain ⟨hink, x, hx, hfeed, hbehind⟩ := exists_behind hremarked
      exact readLine_behind o hnew hink hx hfeed hbehind htakes t.number
  simp only [ofHead, hname, hkeyword, h.number, hb, hline.2]
  split
  · exact ⟨hline.1, .some h.tail⟩
  · next hopen => exact readLines_alongside o hline.1 h.tail (htail.resolve_left hopen)

end Model.Block

namespace Model

/-- Whether the parts of a model take the remarks that the first ones have. -/
def takesRemarks (o : Options) (carry : Carry) : List Part → List Part → Bool
  | .code a :: r, .code b :: s =>
      let params := Param.readContinuation o b .modelBody carry
      (a == b || isRemarked a b && params.takesRemark && (remainder params).hasValue) &&
        takesRemarks o params.carry r s
  | .passive a :: r, .passive b :: s => a == b && takesRemarks o carry r s
  | [], [] => true
  | _, _ => false

theorem takesRemarks_refl (o : Options) (carry : Carry) (ps : List Part) :
    takesRemarks o carry ps ps = true := by
  induction ps generalizing carry with
  | nil => rfl
  | cons p r ih =>
      cases p with
      | code t => simp [takesRemarks, ih]
      | passive t => simp [takesRemarks, ih]

theorem readContinuation_alongside (o : Options) (carry : Carry) {a b : Text}
    (h : (a == b || isRemarked a b && (Param.readContinuation o b .modelBody carry).takesRemark &&
      (remainder (Param.readContinuation o b .modelBody carry)).hasValue) = true) :
    (Param.readContinuation o a .modelBody carry).Alongside
        (Param.readContinuation o b .modelBody carry) ∧
      (remainder (Param.readContinuation o a .modelBody carry)).isEmpty =
        (remainder (Param.readContinuation o b .modelBody carry)).isEmpty := by
  simp only [Bool.or_eq_true, beq_iff_eq, Bool.and_eq_true] at h
  obtain rfl | ⟨⟨hremarked, htakes⟩, hvalue⟩ := h
  · exact ⟨Param.readContinuation_refl o _ _ _, rfl⟩
  · obtain ⟨hink, x, hx, -, hbehind⟩ := exists_behind hremarked
    have hparams := Param.readContinuation_behind o .modelBody carry hink hx hbehind htakes
    exact ⟨hparams, hparams.remainder.isEmpty hvalue⟩

theorem readParts_alongside (o : Options) {m n : Model} (h : m.Alongside n) {carry : Carry}
    {ps qs : List Part} (hr : takesRemarks o carry ps qs = true) :
    (readParts o m carry ps).Alongside (readParts o n carry qs) := by
  fun_induction takesRemarks o carry ps qs generalizing m n with
  | case1 carry a r b s params =>
      rename_i ih
      rw [Bool.and_eq_true] at hr
      obtain ⟨hparams, hempty⟩ := readContinuation_alongside o carry hr.1
      simp only [readParts, hparams.carry]
      exact ih (h.addParams hparams (by rintro ⟨⟩) hempty) hr.2
  | case2 carry a r b s ih =>
      rw [Bool.and_eq_true, beq_iff_eq] at hr
      simp only [readParts, hr.1]
      exact ih (h.addTexts (alongside_refl [b])) hr.2
  | case3 carry => exact h
  | case4 carry ps qs => cases hr

/-- The lines of a model that is no block, without the parenthesis that closes its list. -/
def parts (head : ModelOpening) (s : Statement) : List Part :=
  let all := .code head.rest :: s.tail.map Part.ofLine
  if head.parenthesized then Part.closeList all else all

def readHead (o : Options) (m : Model) : List Part → Model
  | .code t :: r =>
      let params := Param.readAssignments o t .modelBody .closed
      readParts o (m.withParams params) params.carry r
  | parts => readParts o m .closed parts

theorem ofHead_eq (o : Options) (head : ModelOpening) (s : Statement) :
    ofHead o head s = readHead o (new head.name head.keyword s.number) (parts head s) := rfl

/-- Whether a model that is no block takes the remarks that the first parts have. -/
def headTakesRemarks (o : Options) : List Part → List Part → Bool
  | .code a :: r, .code b :: s =>
      let params := Param.readAssignments o b .modelBody .closed
      (a == b || isRemarked a b && params.takesRemark) && takesRemarks o params.carry r s
  | ps, qs => takesRemarks o .closed ps qs

theorem headTakesRemarks_refl (o : Options) (ps : List Part) :
    headTakesRemarks o ps ps = true := by
  cases ps with
  | nil => rfl
  | cons p r =>
      cases p with
      | code t => simp [headTakesRemarks, takesRemarks_refl]
      | passive t => exact takesRemarks_refl o .closed _

theorem readHead_alongside (o : Options) {m n : Model} (h : m.Alongside n) {ps qs : List Part}
    (hr : headTakesRemarks o ps qs = true) :
    (readHead o m ps).Alongside (readHead o n qs) := by
  cases ps with
  | nil =>
      cases qs with
      | nil => exact h
      | cons q qs => cases hr
  | cons p ps =>
      cases qs with
      | nil => cases p <;> cases hr
      | cons q qs =>
          cases p with
          | passive a =>
              cases q with
              | code b => cases hr
              | passive b => exact readParts_alongside o h hr
          | code a =>
              cases q with
              | passive b => cases hr
              | code b =>
                  simp only [headTakesRemarks, Bool.and_eq_true, Bool.or_eq_true,
                    beq_iff_eq] at hr
                  obtain ⟨hhead, htail⟩ := hr
                  have hparams : (Param.readAssignments o a .modelBody .closed).Alongside
                      (Param.readAssignments o b .modelBody .closed) := by
                    obtain rfl | ⟨hremarked, htakes⟩ := hhead
                    · exact Param.readAssignments_refl o _ _ _
                    · obtain ⟨hink, x, hx, -, hbehind⟩ := exists_behind hremarked
                      exact Param.readAssignments_behind o .modelBody .closed hink hx hbehind htakes
                  simp only [readHead, hparams.carry]
                  exact readParts_alongside o
                    (h.withParams hparams (Param.marker_readAssignments o _ _ _)) htail

theorem ofHead_alongside (o : Options) {head head' : ModelOpening} {s t : Statement}
    (h : s.Alongside t) (hname : head.name = head'.name) (hkeyword : head.keyword = head'.keyword)
    (hr : headTakesRemarks o (parts head s) (parts head' t) = true) :
    (ofHead o head s).Alongside (ofHead o head' t) := by
  have hnew : (new head'.name head'.keyword t.number).Alongside
      (new head'.name head'.keyword t.number) :=
    ⟨rfl, rfl, rfl, rfl, .none, nofun, .nil⟩
  rw [ofHead_eq, ofHead_eq, hname, hkeyword, h.number]
  exact readHead_alongside o hnew hr

end Model

end SpiceDeck
