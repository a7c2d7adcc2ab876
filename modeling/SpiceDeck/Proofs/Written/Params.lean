import SpiceDeck.Proofs.Model.ParameterList
import SpiceDeck.Proofs.Param.Idempotence
import SpiceDeck.Proofs.Written.Lines

/-!
Parameter lines that are written and read again. The words of a line read back, and so do the
lines below it, with the comments between them. Main statements: lines that are read one after
the other and closed at the end are written in such words, and a parameter statement of them
is written again as it stands.
-/

namespace SpiceDeck
open Text

namespace Param
open Source

variable {o : Options} {c c' c₀ : Carry} {ws raws : List Text} {ls : List Line} {t : Text}

/-- The words of a line are read back as they are written. -/
def ReadsBack (o : Options) (c₀ : Carry) (ws : List Text) (c : Carry) : Prop :=
  RereadsLine o c₀ ws c (apart ws)

/-- A line with its marker. -/
def marked (m : Marker) (ws : List Text) : Text := m.render ++ setOff (spaced ws)

theorem eq_spaced_of_apart {us : List Text} (h : apart us = apart ws) : spaced us = spaced ws := by
  rw [spaced_eq_tail, spaced_eq_tail, h]

theorem ReadsBack.render (h : ReadsBack o c₀ ws c) (place : Placement) {m : Marker}
    (hm : m ≠ .none) :
    ((readAssignments o (spaced ws) place c₀).withMarker m).render = marked m ws := by
  obtain ⟨-, hpieces, -⟩ := RereadsLine.readAssignments h place
  rw [render_marked (l := (readAssignments o (spaced ws) place c₀).withMarker m) hm]
  exact congrArg (fun u => m.render ++ setOff u) (eq_spaced_of_apart hpieces)

theorem ReadsBack.carry (h : ReadsBack o c₀ ws c) (place : Placement) :
    (readAssignments o (spaced ws) place c₀).carry = c :=
  (RereadsLine.readAssignments h place).1

theorem ReadsBack.readContinuation (h : ReadsBack o c₀ ws c) (place : Placement) :
    readContinuation o (marked .plus ws) place c₀ =
      (readAssignments o (spaced ws) place c₀).withMarker .plus :=
  readContinuation_written o place c₀ (RereadsLine.trim h)

theorem isSilent_plus (t : Text) : isSilent ('+' :: t) = false := by
  have hplus : isSpace '+' = false := by decide
  simp [isSilent, trimStart, hplus]

theorem startsInInk_of_trim {t : Text} (h : trim t = t) : StartsInInk t := by
  intro a ha
  rw [← h] at ha
  exact head?_trim a ha

theorem trimStart_setOff {t : Text} (h : trim t = t) : trimStart (setOff t) = t := by
  rw [setOff]
  split
  · next hempty =>
      rw [List.isEmpty_iff.mp hempty]
      rfl
  · exact (startsInInk_of_trim h).trimStart

/-- The content of a line that is written behind a plus sign. -/
theorem code_marked_plus {l : Line} (htrim : trim (spaced ws) = spaced ws)
    (hl : l.body = Line.settledBody (marked .plus ws)) :
    l.isCode = true ∧ l.content = spaced ws := by
  have hsilent : isSilent (marked .plus ws) = false := isSilent_plus _
  have hmarked : trim (marked .plus ws) = marked .plus ws :=
    trim_marked (by decide) (startsInInk_cons rfl _) (endsInInk_concat rfl []) htrim
  have hcontinues : l.continues = true := by
    rw [Line.continues_settledBody hl, hsilent]
    rfl
  have htext : l.text = marked .plus ws := Line.verbatim_settledBody hl
  refine ⟨by rw [Line.isCode_settledBody hl, hsilent]; rfl, ?_⟩
  rw [Line.content, hcontinues, htext, hmarked]
  exact trimStart_setOff htrim

/-- Lines that are written below a line with the given carry: comments and blank lines, and
lines of parameters that go on with it until nothing is open. -/
inductive Below (o : Options) : Carry → List Text → Prop where
  | nil : Below o .closed []
  | silent {c : Carry} {t : Text} {r : List Text} : isSilent t = true → Below o c r →
      Below o c (t :: r)
  | params {c c' : Carry} {ws r : List Text} : ReadsBack o c ws c' → Below o c' r →
      Below o c (marked .plus ws :: r)

theorem Below.continued (h : Below o c raws) :
    ∀ t ∈ raws, isSilent t = true ∨ (trimStart t).head? = some '+' := by
  induction h with
  | nil => nofun
  | silent ht _ ih => exact List.forall_mem_cons.mpr ⟨.inl ht, ih⟩
  | params _ _ ih => exact List.forall_mem_cons.mpr ⟨.inr rfl, ih⟩

theorem below_silent (h : ∀ t ∈ raws, isSilent t = true) : Below o .closed raws := by
  induction raws with
  | nil => exact .nil
  | cons t r ih =>
      obtain ⟨ht, hr⟩ := List.forall_mem_cons.mp h
      exact .silent ht (ih hr)

/-- Comments at the end are no part of the statement. -/
theorem Below.split (h : Below o c raws) :
    ∃ tail after, raws = tail ++ after ∧ Below o c tail ∧
      (∀ t ∈ tail.getLast?, isSilent t = false) ∧ ∀ t ∈ after, isSilent t = true := by
  induction h with
  | nil => exact ⟨[], [], rfl, .nil, nofun, nofun⟩
  | @silent c t r ht _ ih =>
      obtain ⟨tail, after, rfl, htail, hlast, hafter⟩ := ih
      cases tail with
      | nil =>
          exact ⟨[], t :: after, rfl, htail, nofun, List.forall_mem_cons.mpr ⟨ht, hafter⟩⟩
      | cons x r =>
          refine ⟨t :: x :: r, after, rfl, .silent ht htail, ?_, hafter⟩
          rwa [List.getLast?_cons_cons]
  | @params c c' ws r hws _ ih =>
      obtain ⟨tail, after, rfl, htail, hlast, hafter⟩ := ih
      refine ⟨marked .plus ws :: tail, after, rfl, .params hws htail, ?_, hafter⟩
      cases tail with
      | nil =>
          rintro x ⟨⟩
          exact isSilent_plus _
      | cons x r => rwa [List.getLast?_cons_cons]

/-- The lines below are read back as they are written. -/
theorem Below.tail (h : Below o c raws) (hls : ls.map Line.body = raws.map Line.settledBody)
    (place : Placement) :
    (tail o place c ls).map Continuation.render = raws ∧
      lastCarry c ((tail o place c ls).filterMap Continuation.params?) = .closed := by
  induction h generalizing ls with
  | nil =>
      rw [List.map_eq_nil_iff.mp hls]
      exact ⟨rfl, rfl⟩
  | @silent c t r ht _ ih =>
      obtain ⟨l, ls, rfl, hl, hr⟩ := List.map_eq_cons_iff.mp hls
      obtain ⟨hrender, hcarry⟩ := ih hr
      have hcode : l.isCode = false := by rw [Line.isCode_settledBody hl, ht]; rfl
      simp only [Param.tail, hcode, Bool.false_eq_true, if_false, List.map_cons, hrender,
        Continuation.render, Line.verbatim_settledBody hl]
      exact ⟨trivial, hcarry⟩
  | @params c c' ws r hws _ ih =>
      obtain ⟨l, ls, rfl, hl, hr⟩ := List.map_eq_cons_iff.mp hls
      obtain ⟨hrender, hcarry⟩ := ih hr
      have hcode : l.isCode = true := by rw [Line.isCode_settledBody hl, marked,
        Marker.render, List.cons_append, isSilent_plus]; rfl
      have htext : l.text = marked .plus ws := Line.verbatim_settledBody hl
      have hnext : ((readAssignments o (spaced ws) place c).withMarker .plus).carry = c' :=
        hws.carry place
      simp only [Param.tail, hcode, if_true, htext, hws.readContinuation place, hnext,
        List.map_cons, Continuation.render, hws.render place (m := .plus) (by decide), hrender]
      refine ⟨trivial, ?_⟩
      simp only [List.filterMap_cons, Continuation.params?, lastCarry_cons, hnext, hcarry]

theorem carried_eq (ls : List Continuation) :
    Continuation.carried ls = lastCarry .closed (ls.filterMap Continuation.params?) := by
  rw [Continuation.carried, lastCarry]
  cases (ls.filterMap Continuation.params?).getLast? <;> rfl

theorem carried_cons (l : ParamLine) (ls : List Continuation) :
    Continuation.carried (.params l :: ls) =
      lastCarry l.carry (ls.filterMap Continuation.params?) := by
  rw [carried_eq, ← lastCarry_cons .closed]
  rfl

/-- What lines leave open does not depend on what is open before them, if one of them has
parameters. -/
theorem carried_eq_lastCarry {ls : List Continuation}
    (h : (ls.filterMap Continuation.params?).isEmpty = false) (c : Carry) :
    Continuation.carried ls = lastCarry c (ls.filterMap Continuation.params?) := by
  obtain ⟨before, l, hl⟩ := (List.eq_nil_or_concat' _).resolve_left (List.isEmpty_eq_false_iff.mp h)
  rw [carried_eq, hl, lastCarry, lastCarry, List.getLast?_concat]
  rfl

theorem paramLine_close {l : ParamLine} (h : l.carry = .closed) : l.close = l := by
  simp [ParamLine.close, ParamLine.isOpen, h, Carry.isOpen]

theorem close_of_carried {ls : List Continuation} (h : Continuation.carried ls = .closed) :
    Continuation.close ls = ls := by
  rw [Continuation.close, Continuation.modifyLast, Model.modifyFirst_eq_self, List.reverse_reverse]
  intro l hl
  rw [List.filterMap_reverse, List.head?_reverse] at hl
  refine paramLine_close ?_
  rw [carried_eq, lastCarry, Option.mem_def.mp hl] at h
  exact h

end Param

section Statement
variable {o : Options} {s : Statement} {head : Text} {c : Carry} {tail ws : List Text}

/-- The first line of a parameter statement is no comment and starts a statement. -/
theorem isStatement_param (ws : List Text) (htail : Param.Below o c tail)
    (hends : ∀ t ∈ tail.getLast?, isSilent t = false) :
    IsStatement (Param.marked .param ws) tail := by
  have hdot : isSpace '.' = false := by decide
  have hstart : trimStart (Param.marked .param ws) = Param.marked .param ws := by
    simp [Param.marked, Marker.render, trimStart, hdot]
  refine ⟨?_, ?_, htail.continued, hends⟩
  · rw [isSilent, hstart]
    rfl
  · rw [hstart]
    simp [Param.marked, Marker.render]

theorem trim_param (hws : Param.ReadsBack o .closed ws c) :
    trim (Param.marked .param ws) = Param.marked .param ws :=
  Param.trim_marked (by decide) (startsInInk_cons rfl _) (endsInInk_concat rfl ".para".toList)
    (Param.RereadsLine.trim hws)

theorem kind_param (symbols : Symbols) (o : Options) (d : Dialect) (ws : List Text)
    (h : s.head.content = Param.marked .param ws) : s.kind symbols o d = .parameters := by
  have hsimulator : Head.simulator? (Param.marked .param ws) = none := rfl
  have hfold : afterFolded? ".param".toList (Param.marked .param ws) =
      some (setOff (spaced ws)) := rfl
  have hspace : (setOff (spaced ws)).head?.all isSpace = true := by
    rw [setOff]
    split <;> rfl
  have hparam : Head.isParameters (d = .spectre) (Param.marked .param ws) = true := by
    rw [Head.isParameters, hfold]
    simp only [hspace, Bool.true_or]
  simp only [Statement.kind, h, hsimulator, hparam, Option.map_none, if_true,
    Statement.Kind.firstOf]

/-- A written parameter statement is written again as it stands. -/
theorem Scope.parameterLines_written (h : s.ReadsAs (Param.marked .param ws) tail)
    (hs : IsStatement (Param.marked .param ws) tail) (hws : Param.ReadsBack o .closed ws c)
    (htail : Param.Below o c tail) (place : Param.Placement) :
    parameterLines o s place = (.param, Param.marked .param ws :: tail, {}) := by
  have hcontent : s.head.content = Param.marked .param ws := by
    rw [h.content hs, trim_param hws]
  obtain ⟨hrender, hcarry⟩ := htail.tail h.tail .topLevel
  have hhead : Param.readStatement? o s.head.content place .closed =
      some ((Param.readAssignments o (spaced ws) .topLevel .closed).withMarker .param) := by
    rw [hcontent]
    exact Param.readStatement?_written o place .closed (Param.RereadsLine.trim hws)
  have hfirst : ((Param.readAssignments o (spaced ws) .topLevel .closed).withMarker .param).carry =
      c := hws.carry .topLevel
  have hmarker : ((Param.readAssignments o (spaced ws) .topLevel .closed).withMarker
      .param).marker = .param := rfl
  have hcarried : Continuation.carried
      (.params ((Param.readAssignments o (spaced ws) .topLevel .closed).withMarker .param) ::
        Param.tail o .topLevel c s.tail) = .closed := by
    rw [Param.carried_cons, hfirst, hcarry]
  simp only [parameterLines, hhead, hmarker, if_true, hfirst, Param.close_of_carried hcarried,
    hcarried, List.map_cons, Continuation.render, hrender,
    hws.render .topLevel (m := .param) (by decide)]
  rfl

end Statement

end SpiceDeck
