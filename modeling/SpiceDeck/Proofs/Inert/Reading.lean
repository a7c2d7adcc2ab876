import SpiceDeck.Proofs.Inert.Strip
import SpiceDeck.Statement.Recognise

/-!
Statements without their comments and blank lines. What a statement is and what its
readers make of it depends on its code lines alone: reading and stripping commute.
-/

namespace SpiceDeck
open Text

namespace Line

def renumber (ρ : Nat → Nat) (l : Line) : Line := { l with number := ρ l.number }

@[simp] theorem isCode_renumber (ρ : Nat → Nat) (l : Line) : (l.renumber ρ).isCode = l.isCode := rfl

@[simp] theorem continues_renumber (ρ : Nat → Nat) (l : Line) :
    (l.renumber ρ).continues = l.continues := rfl

@[simp] theorem text_renumber (ρ : Nat → Nat) (l : Line) : (l.renumber ρ).text = l.text := rfl

@[simp] theorem content_renumber (ρ : Nat → Nat) (l : Line) :
    (l.renumber ρ).content = l.content := rfl

/-- The code lines under new numbers. -/
def strip (ρ : Nat → Nat) (lines : List Line) : List Line := (lines.filter isCode).map (renumber ρ)

/-- Every line that is no code is inert where it is copied. -/
def Quiet (lines : List Line) : Prop := ∀ l ∈ lines, l.isCode = false → isInert l.verbatim = true

theorem Quiet.tail {l : Line} {r : List Line} (h : Quiet (l :: r)) : Quiet r :=
  fun x hx => h x (List.mem_cons_of_mem l hx)

@[simp] theorem strip_nil (ρ : Nat → Nat) : strip ρ [] = [] := rfl

theorem strip_code {l : Line} (h : l.isCode = true) (ρ : Nat → Nat) (r : List Line) :
    strip ρ (l :: r) = l.renumber ρ :: strip ρ r := by
  simp [strip, h]

theorem strip_passive {l : Line} (h : l.isCode = false) (ρ : Nat → Nat) (r : List Line) :
    strip ρ (l :: r) = strip ρ r := by
  simp [strip, h]

theorem active_map_strip {ρ : Nat → Nat} {f : Line → Text} (hf : ∀ l, f (l.renumber ρ) = f l)
    {lines : List Line} (h : ∀ l ∈ lines, l.isCode = false → isInert (f l) = true) :
    active ((strip ρ lines).map f) = active (lines.map f) := by
  induction lines with
  | nil => rfl
  | cons l r ih =>
      have hr := ih fun x hx => h x (List.mem_cons_of_mem l hx)
      cases hl : l.isCode with
      | true =>
          rw [strip_code hl, List.map_cons, hf]
          exact active_cons_congr (f l) hr
      | false =>
          rw [strip_passive hl, hr, List.map_cons, active_cons_inert (h l List.mem_cons_self hl)]

end Line

namespace Statement

def strip (ρ : Nat → Nat) (s : Statement) : Statement :=
  { head := s.head.renumber ρ, tail := Line.strip ρ s.tail }

/-- A statement as grouping builds it. -/
structure Quiet (s : Statement) : Prop where
  head : s.head.isCode = true
  tail : Line.Quiet s.tail

theorem Quiet.lines {s : Statement} (h : s.Quiet) : Line.Quiet s.lines := by
  intro l hl hcode
  obtain rfl | hl := List.mem_cons.mp hl
  · rw [h.head] at hcode
    cases hcode
  · exact h.tail l hl hcode

@[simp] theorem number_strip (ρ : Nat → Nat) (s : Statement) :
    (s.strip ρ).number = ρ s.number := rfl

theorem lines_strip (ρ : Nat → Nat) {s : Statement} (h : s.Quiet) :
    (s.strip ρ).lines = Line.strip ρ s.lines :=
  (Line.strip_code h.head ρ s.tail).symm

theorem codeLines_strip (ρ : Nat → Nat) {s : Statement} (h : s.Quiet) :
    (s.strip ρ).codeLines = s.codeLines.map (Line.renumber ρ) := by
  rw [codeLines, lines_strip ρ h, Line.strip, List.filter_map, codeLines]
  have hf : Line.isCode ∘ Line.renumber ρ = Line.isCode := rfl
  rw [hf, List.filter_filter]
  simp

theorem joined_strip (ρ : Nat → Nat) {s : Statement} (h : s.Quiet) (n : Nat) :
    (s.strip ρ).joined n = s.joined n := by
  have hf : Line.content ∘ Line.renumber ρ = Line.content := rfl
  rw [joined, joined, codeLines_strip ρ h, ← List.map_take, List.map_map, hf]

theorem linesUntil?_strip (ρ : Nat → Nat) {s : Statement} (h : s.Quiet) (pass : Text → Bool)
    (k n : Nat) : Head.linesUntil? (s.strip ρ) pass k n = Head.linesUntil? s pass k n := by
  induction n generalizing k with
  | zero => rfl
  | succ n ih => simp only [Head.linesUntil?, joined_strip ρ h, ih]

theorem parenCall?_strip (ρ : Nat → Nat) {s : Statement} (h : s.Quiet) :
    Head.parenCall? (s.strip ρ) = Head.parenCall? s := by
  have hhead : (s.strip ρ).head.content = s.head.content := rfl
  have hlen : (s.strip ρ).codeLines.length = s.codeLines.length := by
    rw [codeLines_strip ρ h, List.length_map]
  simp only [Head.parenCall?, hhead, hlen, linesUntil?_strip ρ h, joined_strip ρ h]

theorem bareCall?_strip (ρ : Nat → Nat) {s : Statement} (h : s.Quiet) (symbols : Symbols)
    (o : Options) (spectre : Bool) :
    Head.bareCall? symbols o spectre (s.strip ρ) = Head.bareCall? symbols o spectre s := by
  have hhead : (s.strip ρ).head.content = s.head.content := rfl
  have hlen : (s.strip ρ).codeLines.length = s.codeLines.length := by
    rw [codeLines_strip ρ h, List.length_map]
  simp only [Head.bareCall?, hhead, hlen, linesUntil?_strip ρ h, joined_strip ρ h]

theorem kind_strip (ρ : Nat → Nat) {s : Statement} (h : s.Quiet) (symbols : Symbols) (o : Options)
    (d : Dialect) : (s.strip ρ).kind symbols o d = s.kind symbols o d := by
  have hhead : (s.strip ρ).head.content = s.head.content := rfl
  simp only [kind, hhead, parenCall?_strip ρ h, bareCall?_strip ρ h]

end Statement

namespace Param

theorem tail_strip (ρ : Nat → Nat) (o : Options) (place : Placement) (carry : Carry)
    {lines : List Line} (h : Line.Quiet lines) :
    tail o place carry (Line.strip ρ lines) = Continuation.strip (tail o place carry lines) := by
  induction lines generalizing carry with
  | nil => rfl
  | cons l r ih =>
      cases hl : l.isCode with
      | true =>
          rw [Line.strip_code hl]
          simp only [tail, Line.isCode_renumber, hl, if_true, Line.text_renumber, ih _ h.tail,
            Continuation.strip_params]
      | false =>
          rw [Line.strip_passive hl, ih _ h.tail, tail, hl]
          exact (Continuation.strip_verbatim (h l List.mem_cons_self hl) _).symm

theorem dropCode_strip (ρ : Nat → Nat) (n : Nat) (lines : List Line) :
    dropCode n (Line.strip ρ lines) = Line.strip ρ (dropCode n lines) := by
  induction lines generalizing n with
  | nil => rfl
  | cons l r ih =>
      cases hl : l.isCode with
      | true =>
          rw [Line.strip_code hl]
          cases n with
          | zero => simp only [dropCode, Line.isCode_renumber, hl, if_true, Line.strip_code hl]
          | succ n => simp only [dropCode, Line.isCode_renumber, hl, if_true, ih]
      | false =>
          have hd : dropCode n (l :: r) = l :: dropCode n r := by simp [dropCode, hl]
          rw [Line.strip_passive hl, ih, hd, Line.strip_passive hl]

theorem quiet_dropCode {n : Nat} {lines : List Line} (h : Line.Quiet lines) :
    Line.Quiet (dropCode n lines) := by
  induction lines generalizing n with
  | nil => exact h
  | cons l r ih =>
      simp only [dropCode]
      split
      · cases n with
        | zero => exact h
        | succ n => exact ih h.tail
      · intro x hx
        obtain rfl | hx := List.mem_cons.mp hx
        · exact h x List.mem_cons_self
        · exact ih h.tail x hx

end Param

theorem Call.ofHead_strip (ρ : Nat → Nat) (o : Options) (head : CallOpening) {s : Statement}
    (h : s.Quiet) : Call.ofHead o head (s.strip ρ) = (Call.ofHead o head s).strip ρ := by
  simp only [Call.ofHead, Call.strip, Statement.lines_strip ρ h, Param.dropCode_strip,
    Param.tail_strip ρ _ _ _ (Param.quiet_dropCode h.lines), Statement.number_strip]

namespace Header

def strip (h : Header) : Header := { h with tail := Continuation.strip h.tail }

@[simp] theorem carried_strip (h : Header) :
    Continuation.carried h.strip.tail = Continuation.carried h.tail :=
  Continuation.carried_strip h.tail

@[simp] theorem strip_pushPins (h : Header) (pins : List Text) :
    (h.pushPins pins).strip = h.strip.pushPins pins := rfl

@[simp] theorem strip_push_params (h : Header) (l : ParamLine) :
    (h.push (.params l)).strip = h.strip.push (.params l) := by
  simp [push, strip]

theorem strip_push_verbatim {t : Text} (ht : isInert t = true) (h : Header) :
    (h.push (.verbatim t)).strip = h.strip := by
  simp [push, strip, Continuation.strip_verbatim ht]

theorem readPins_strip (o : Options) (h : Header) (t : Text) :
    h.strip.readPins o t = ((h.readPins o t).1.strip, (h.readPins o t).2) := by
  simp only [readPins, ← strip_pushPins]
  split
  · rfl
  · split
    · rfl
    · simp

theorem readLines_strip (ρ : Nat → Nat) (o : Options) (h : Header) (closed : Bool)
    {lines : List Line} (hq : Line.Quiet lines) :
    h.strip.readLines o closed (Line.strip ρ lines) =
      ((h.readLines o closed lines).1.strip, (h.readLines o closed lines).2) := by
  induction lines generalizing h closed with
  | nil => rfl
  | cons l r ih =>
      cases hl : l.isCode with
      | true =>
          rw [Line.strip_code hl]
          simp only [readLines, Line.isCode_renumber, hl, Bool.not_true, Bool.false_eq_true,
            if_false, Line.text_renumber, Line.content_renumber, carried_strip, readPins_strip,
            ← strip_push_params]
          split
          · exact ih _ _ hq.tail
          · exact ih _ _ hq.tail
      | false =>
          rw [Line.strip_passive hl, ← strip_push_verbatim (hq l List.mem_cons_self hl) h,
            ih _ _ hq.tail]
          simp only [readLines, hl]
          rfl

theorem readBare_strip (o : Options) (h : Header) (inParams : Bool) (t : Text) :
    h.strip.readBare o inParams t =
      ((h.readBare o inParams t).1.strip, (h.readBare o inParams t).2) := by
  have hpins : h.strip.pins = h.pins := rfl
  have hite : ∀ (b : Bool) (p : List Text),
      (if b = true then h.strip else h.strip.pushPins p) =
        (if b = true then h else h.pushPins p).strip := by
    intro b p
    cases b <;> rfl
  simp only [readBare, carried_strip, hpins, hite, ← strip_push_params]
  generalize (if (inParams || (Continuation.carried h.tail).isOpen) = true then ([], t)
    else (Param.cutAtAssignment? t).getD (t, [])) = parts
  split <;> rfl

theorem readBareLines_strip (ρ : Nat → Nat) (o : Options) (h : Header) (inParams : Bool)
    {lines : List Line} (hq : Line.Quiet lines) :
    h.strip.readBareLines o inParams (Line.strip ρ lines) =
      (h.readBareLines o inParams lines).strip := by
  induction lines generalizing h inParams with
  | nil => rfl
  | cons l r ih =>
      cases hl : l.isCode with
      | true =>
          rw [Line.strip_code hl]
          simp only [readBareLines, Line.isCode_renumber, hl, if_true, Line.content_renumber,
            readBare_strip, ih _ _ hq.tail]
      | false =>
          rw [Line.strip_passive hl, ← strip_push_verbatim (hq l List.mem_cons_self hl) h,
            ih _ _ hq.tail]
          simp only [readBareLines, hl]
          rfl

theorem ofHead_strip (ρ : Nat → Nat) (o : Options) (head : SubcircuitOpening) {lines : List Line}
    (hq : Line.Quiet lines) :
    ofHead o head (Line.strip ρ lines) =
      ((ofHead o head lines).1.strip, (ofHead o head lines).2) := by
  have hpins : ∀ t, (readPins o { pins := [] } t).1.strip = (readPins o { pins := [] } t).1 :=
    fun t => (congrArg Prod.fst (readPins_strip o { pins := [] } t)).symm
  have hbare : ∀ t, (readBare o { pins := [] } false t).1.strip =
      (readBare o { pins := [] } false t).1 :=
    fun t => (congrArg Prod.fst (readBare_strip o { pins := [] } false t)).symm
  simp only [ofHead]
  split
  · have h := readLines_strip ρ o (readPins o { pins := [] } head.rest).1
      (readPins o { pins := [] } head.rest).2 hq
    rwa [hpins] at h
  all_goals
    have h := readBareLines_strip ρ o (readBare o { pins := [] } false head.rest).1
      (readBare o { pins := [] } false head.rest).2 hq
    rw [hbare] at h
    rw [h]

end Header

namespace Model.Block

theorem readText_strip (ρ : Nat → Nat) (o : Options) (b : Model.Block) (t : Text) (line : Nat) :
    (b.strip ρ).readText o t (ρ line) = (b.readText o t line).strip ρ := by
  have hparams :
      (b.modifyCurrent (·.addParams (Param.readContinuation o t .modelBody b.carry))).strip ρ =
        (b.strip ρ).modifyCurrent (·.addParams (Param.readContinuation o t .modelBody b.carry)) :=
    strip_modifyCurrent (fun m => Model.strip_addParams ρ m _) b
  cases hc : b.carry.isOpen with
  | true =>
      simp only [readText, carry_strip, hc, if_true, ← hparams]
      rfl
  | false =>
      simp only [readText, carry_strip, hc, Bool.false_eq_true, if_false, ← hparams]
      cases Head.bin? t with
      | some bin =>
          simp only [← strip_openBin]
          rfl
      | none => rfl

theorem readLine_strip (ρ : Nat → Nat) (o : Options) (b : Model.Block) (t : Text) (line : Nat) :
    (b.strip ρ).readLine o t (ρ line) =
      ((b.readLine o t line).1.strip ρ, (b.readLine o t line).2) := by
  simp only [readLine, carry_strip, readText_strip]
  split <;> rfl

theorem readLines_strip (ρ : Nat → Nat) (o : Options) (b : Model.Block) {lines : List Line}
    (h : Line.Quiet lines) :
    (b.strip ρ).readLines o (Line.strip ρ lines) =
      ((b.readLines o lines).1.strip ρ, (b.readLines o lines).2.map (Line.strip ρ)) := by
  induction lines generalizing b with
  | nil => rfl
  | cons l r ih =>
      cases hl : l.isCode with
      | true =>
          have hnum : (l.renumber ρ).number = ρ l.number := rfl
          rw [Line.strip_code hl]
          simp only [readLines, Line.isCode_renumber, hl, if_true, Line.content_renumber, hnum,
            readLine_strip]
          split
          · rfl
          · exact ih _ h.tail
      | false =>
          rw [Line.strip_passive hl, ← strip_addText (h l List.mem_cons_self hl), ih _ h.tail]
          simp only [readLines, hl]
          rfl

theorem ofHead_strip (ρ : Nat → Nat) (o : Options) (head : ModelOpening) {s : Statement}
    (h : s.Quiet) :
    ofHead o head (s.strip ρ) =
      ((ofHead o head s).1.strip ρ, (ofHead o head s).2.map (Line.strip ρ)) := by
  have hnew := readLine_strip ρ o (new head.name head.keyword s.number) head.rest s.number
  simp only [strip_new] at hnew
  simp only [ofHead, Statement.number_strip, hnew]
  split
  · rfl
  · exact readLines_strip ρ o _ h.tail

/-- The lines that a block leaves are the last ones of those it was given. -/
theorem suffix_readLines {o : Options} {b : Model.Block} {lines rest : List Line}
    (hr : (b.readLines o lines).2 = some rest) : rest <:+ lines := by
  induction lines generalizing b with
  | nil => cases hr
  | cons l r ih =>
      simp only [readLines] at hr
      split at hr
      · split at hr
        · cases hr
          exact List.suffix_cons l _
        · exact (ih hr).trans (List.suffix_cons l r)
      · exact (ih hr).trans (List.suffix_cons l r)

theorem suffix_ofHead {o : Options} {head : ModelOpening} {s : Statement} {rest : List Line}
    (hr : (ofHead o head s).2 = some rest) : rest <:+ s.tail := by
  simp only [ofHead] at hr
  split at hr
  · cases hr
    exact List.suffix_rfl
  · exact suffix_readLines hr

theorem quiet_readLines {o : Options} {b : Model.Block} {lines rest : List Line}
    (h : Line.Quiet lines) (hr : (b.readLines o lines).2 = some rest) : Line.Quiet rest :=
  fun l hl => h l ((suffix_readLines hr).subset hl)

theorem quiet_ofHead {o : Options} {head : ModelOpening} {s : Statement} {rest : List Line}
    (h : s.Quiet) (hr : (ofHead o head s).2 = some rest) : Line.Quiet rest :=
  fun l hl => h.tail l ((suffix_ofHead hr).subset hl)

end Model.Block

namespace Model.Part

def isCode : Part → Bool
  | .code _ => true
  | .passive _ => false

def strip (ps : List Part) : List Part := ps.filter isCode

/-- Every part that is only copied is inert. -/
def Quiet (ps : List Part) : Prop := ∀ t, .passive t ∈ ps → isInert t = true

theorem map_ofLine_strip (ρ : Nat → Nat) (lines : List Line) :
    (Line.strip ρ lines).map ofLine = strip (lines.map ofLine) := by
  induction lines with
  | nil => rfl
  | cons l r ih =>
      cases hl : l.isCode with
      | true =>
          have hof : ofLine l = .code l.content := by simp [ofLine, hl]
          have hof' : ofLine (l.renumber ρ) = .code l.content := by simp [ofLine, hl]
          rw [Line.strip_code hl, List.map_cons, List.map_cons, ih, hof, hof']
          rfl
      | false =>
          have hof : ofLine l = .passive l.verbatim := by simp [ofLine, hl]
          rw [Line.strip_passive hl, List.map_cons, ih, hof]
          rfl

theorem quiet_map_ofLine {lines : List Line} (h : Line.Quiet lines) : Quiet (lines.map ofLine) := by
  intro t ht
  obtain ⟨l, hl, hof⟩ := List.mem_map.mp ht
  simp only [ofLine] at hof
  split at hof
  · cases hof
  · next hcode =>
      cases hof
      exact h l hl (by simpa using hcode)

@[simp] theorem countAll_strip (c : Char) (ps : List Part) :
    countAll c (strip ps) = countAll c ps := by
  induction ps with
  | nil => rfl
  | cons p r ih =>
      cases p with
      | code t => exact congrArg (t.count c + ·) ih
      | passive t => exact ih

theorem dropParen_strip (ps : List Part) : dropParen (strip ps) = strip (dropParen ps) := by
  induction ps with
  | nil => rfl
  | cons p r ih =>
      cases p with
      | code t =>
          have hcode : strip (.code t :: r) = .code t :: strip r := rfl
          rw [hcode, dropParen, dropParen]
          split
          · rfl
          · exact congrArg (.code t :: ·) ih
      | passive t => exact ih

theorem closeList_strip (ps : List Part) : closeList (strip ps) = strip (closeList ps) := by
  have hrev : ∀ l : List Part, (strip l).reverse = strip l.reverse :=
    fun l => List.filter_reverse.symm
  simp only [closeList, countAll_strip, hrev, dropParen_strip]
  split <;> rfl

theorem mem_of_passive_mem_dropParen {t : Text} {ps : List Part} (h : .passive t ∈ dropParen ps) :
    .passive t ∈ ps := by
  induction ps with
  | nil => exact h
  | cons p r ih =>
      cases p with
      | code u =>
          simp only [dropParen] at h
          split at h <;> simp_all
      | passive u =>
          obtain h | h := List.mem_cons.mp h
          · rw [h]
            exact List.mem_cons_self
          · exact List.mem_cons_of_mem _ (ih h)

theorem Quiet.closeList {ps : List Part} (h : Quiet ps) : Quiet (closeList ps) := by
  simp only [Part.closeList]
  split
  · intro t ht
    rw [List.mem_reverse] at ht
    exact h t (List.mem_reverse.mp (mem_of_passive_mem_dropParen ht))
  · exact h

theorem dropParen_append_code (ps : List Part) (t : Text) :
    ∃ r u, dropParen (ps ++ [.code t]) = r ++ [.code u] := by
  induction ps with
  | nil =>
      simp only [List.nil_append, dropParen]
      split
      · exact ⟨[], _, rfl⟩
      · exact ⟨[], t, rfl⟩
  | cons p ps ih =>
      obtain ⟨r, u, hr⟩ := ih
      cases p with
      | code v =>
          simp only [List.cons_append, dropParen]
          split
          · exact ⟨_ :: ps, t, rfl⟩
          · exact ⟨.code v :: r, u, by rw [hr]; rfl⟩
      | passive v => exact ⟨.passive v :: r, u, by rw [List.cons_append, dropParen, hr]; rfl⟩

/-- Ending the list leaves a first part to read where one was. -/
theorem closeList_code (t : Text) (ps : List Part) :
    ∃ u r, closeList (.code t :: ps) = .code u :: r := by
  simp only [closeList]
  split
  · obtain ⟨r, u, hr⟩ := dropParen_append_code ps.reverse t
    exact ⟨u, r.reverse, by rw [List.reverse_cons, hr, List.reverse_append]; rfl⟩
  · exact ⟨t, ps, rfl⟩

end Model.Part

namespace Model

theorem readParts_strip (ρ : Nat → Nat) (o : Options) (m : Model) (carry : Carry) {ps : List Part}
    (h : Part.Quiet ps) :
    readParts o (m.strip ρ) carry (Part.strip ps) = (readParts o m carry ps).strip ρ := by
  induction ps generalizing m carry with
  | nil => rfl
  | cons p r ih =>
      have hr : Part.Quiet r := fun t ht => h t (List.mem_cons_of_mem p ht)
      cases p with
      | code t =>
          have hcode : Part.strip (.code t :: r) = .code t :: Part.strip r := rfl
          rw [hcode, readParts, readParts, ← strip_addParams]
          exact ih _ _ hr
      | passive t =>
          have hstrip : Part.strip (.passive t :: r) = Part.strip r := rfl
          rw [hstrip, readParts, ← strip_addText (h t List.mem_cons_self) ρ m]
          exact ih _ _ hr

theorem ofHead_strip (ρ : Nat → Nat) (o : Options) (head : ModelOpening) {s : Statement}
    (h : s.Quiet) : ofHead o head (s.strip ρ) = (ofHead o head s).strip ρ := by
  obtain ⟨t, r, hparts, hquiet, hstrip⟩ : ∃ t r,
      (if head.parenthesized then Part.closeList (.code head.rest :: s.tail.map Part.ofLine)
        else .code head.rest :: s.tail.map Part.ofLine) = .code t :: r ∧ Part.Quiet r ∧
      (if head.parenthesized then
          Part.closeList (.code head.rest :: (s.strip ρ).tail.map Part.ofLine)
        else .code head.rest :: (s.strip ρ).tail.map Part.ofLine) = .code t :: Part.strip r := by
    have hq : Part.Quiet (.code head.rest :: s.tail.map Part.ofLine) := by
      intro t ht
      obtain ht | ht := List.mem_cons.mp ht
      · cases ht
      · exact Part.quiet_map_ofLine h.tail t ht
    have htail : (Part.code head.rest :: (s.strip ρ).tail.map Part.ofLine) =
        Part.strip (.code head.rest :: s.tail.map Part.ofLine) :=
      congrArg (Part.code head.rest :: ·) (Part.map_ofLine_strip ρ s.tail)
    rw [htail]
    cases head.parenthesized with
    | false => exact ⟨_, _, rfl, fun t ht => hq t (List.mem_cons_of_mem _ ht), rfl⟩
    | true =>
        obtain ⟨u, r, hu⟩ := Part.closeList_code head.rest (s.tail.map Part.ofLine)
        have hqu := hq.closeList
        rw [hu] at hqu
        refine ⟨u, r, hu, fun t ht => hqu t (List.mem_cons_of_mem _ ht), ?_⟩
        simp only [if_true, Part.closeList_strip, hu]
        rfl
  simp only [ofHead, hparts, hstrip, Statement.number_strip, ← strip_new, ← strip_withParams]
  exact readParts_strip ρ o _ _ hquiet

end Model

end SpiceDeck
