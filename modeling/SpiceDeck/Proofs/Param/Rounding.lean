import SpiceDeck.Proofs.Param.Composed
import SpiceDeck.Proofs.Param.Parentheses

/-!
Calls of `round` in expressions. Every part of a value stands in the text as an expression, inside
braces that an earlier line has opened, or in quotes; the line writes expressions with their calls
spelled and copies the rest. Main statement: the written expressions are free of calls if and only
if no call stands inside braces that an earlier line has opened.
-/

namespace SpiceDeck
namespace Param
open Text

/-- How a part of a value stands in the text. -/
inductive Standing where
  | expression
  /-- Inside braces that an earlier line has opened. -/
  | insideBraces
  | quoted
  deriving DecidableEq, Repr

/-- The part of a value that stands on one line, as the text has it. -/
structure Part where
  standing : Standing
  text : Text
  deriving DecidableEq, Repr

namespace Part

/-- The text up to and with its first quote, or all of it. -/
def quoted (mark : Char) (t : Text) : Text :=
  match splitAfter? mark t with
  | some (inside, _) => inside
  | none => t

def begun (t : Text) : Part :=
  match t with
  | [] => ⟨.expression, []⟩
  | c :: r =>
      if c = '{' then
        match splitBraced 0 t with
        | .ok (braced, after) =>
            if startsWithOperator after then
              let text := '(' :: braced.tail.dropLast ++ [')']
              ⟨.expression, (readExpression text (parensOpen 0 text) after).text⟩
            else ⟨.expression, braced⟩
        | .error _ => ⟨.expression, t⟩
      else if c = '"' || c = '\x27' then ⟨.quoted, c :: quoted c r⟩
      else ⟨.expression, (readExpression [] 0 t).text⟩

/-- What goes on with the value that an earlier line left open. -/
def resumed (carry : Carry) (t : Text) : Part :=
  match carry with
  | .closed => ⟨.quoted, []⟩
  | .brace depth =>
      match splitBraced depth t with
      | .ok (inside, _) => ⟨.insideBraces, inside⟩
      | .error _ => ⟨.insideBraces, t⟩
  | .quote mark => ⟨.quoted, quoted mark t⟩
  | .bare depth =>
      if t.isEmpty || startsWith t ['$'] || startsAssignment t then ⟨.expression, []⟩
      else ⟨.expression, (readExpression [] depth t).text⟩

/-- What the line writes for a part. A number may stand for an expression, but for none with a
call in it. -/
def Writes (p : Part) (v : Value) : Prop :=
  match p.standing with
  | .expression =>
      v.text = spellRound p.text ∨ v.form = .numeric ∧ occurs roundCall false p.text = false
  | .insideBraces | .quoted => v.text = p.text

/-- A call stands inside braces that an earlier line has opened. -/
def strandsCall (p : Part) : Bool :=
  p.standing = .insideBraces && occurs roundCall false p.text

end Part

/-- The parts of values in an assignment list. A name alone has no text of its own. -/
def partsInList (o : Options) (passing : Bool) (t : Text) : List Part :=
  match _h : trimStart t with
  | [] => []
  | c :: r =>
      match _ha : assignment? (c :: r) with
      | some (name, after) =>
          if startsWith after ['$'] || startsAssignment after then partsInList o false after
          else
            let read := readValue o name after
            .begun after :: if read.carry.isOpen then [] else partsInList o false read.rest
      | none =>
          if passing && isName (token (c :: r)) then
            ⟨.expression, []⟩ :: partsInList o passing (afterToken (c :: r))
          else []
termination_by t.length
decreasing_by
  all_goals
    have h1 := length_trimStart_le t
    rw [_h] at h1
  · have := length_assignment?_lt _ha
    omega
  · have h2 := length_assignment?_lt _ha
    have h3 := length_readValue_le o name after
    omega
  · have := length_afterToken_lt _h
    omega

def lineParts (o : Options) (t : Text) (place : Placement) (carry : Carry) : List Part :=
  if carry.isOpen then
    let read := resumeValue carry (trim t)
    .resumed carry (trim t) ::
      if read.carry.isOpen then [] else partsInList o (place = .subcircuitLocal) read.rest
  else partsInList o (place = .subcircuitLocal) (trim t)

/-- The expression that a piece writes, bare or in braces, on a line with the given carry. -/
def expression? (carry : Carry) : Piece → Option Value
  | .assign _ v =>
      if v.form = .bare || v.form = .delimited && v.text.head? = some '{' then some v else none
  | .fragment v =>
      match carry with
      | .bare _ | .brace _ => some v
      | .closed | .quote _ => none
  | .comment _ => none

/-- The expressions that the lines write, in whole or in part. -/
def expressions (carry : Carry) : List ParamLine → List Value
  | [] => []
  | l :: r => l.pieces.filterMap (expression? carry) ++ expressions l.carry r

section Calls
variable {o : Options} {name t : Text} {v : Value} {parts : List Part} {pieces : List Piece}

theorem not_occurs_of_spellRound (h : '(' ∉ spellRound t) : occurs roundCall false t = false := by
  obtain heq | hmem := spellRound_eq_or t
  · rw [← heq]
    exact occurs_spellRound t
  · exact absurd hmem h

theorem not_mem_of_switchNumber? {n : Text} (h : switchNumber? o name t = some n) : '(' ∉ t := by
  intro hmem
  have hlower : '(' ∈ lower t := List.mem_map.mpr ⟨'(', hmem, by decide⟩
  have hother : ∀ w : Text, '(' ∉ lower w → sameName t w = false := by
    intro w hw
    rw [sameName, beq_eq_false_iff_ne]
    intro heq
    exact hw (heq ▸ hlower)
  rw [switchNumber?, hother "yes".toList (by decide), hother "no".toList (by decide)] at h
  split at h
  · cases h
  · cases h

theorem not_mem_of_multiple? {var n : Text} (h : multiple? var t = some n) : '(' ∉ t := by
  intro hmem
  cases List.all_eq_true.mp (all_isProductChar_of_multiple? h) '(' hmem

/-- An expression is written with its calls spelled, or is a number and has none. -/
theorem freshValue_writes (o : Options) (name t : Text) (depth : Nat) :
    (freshValue o name t depth).1.text = spellRound t ∨
      (freshValue o name t depth).1.form = .numeric ∧ occurs roundCall false t = false := by
  simp only [freshValue]
  split
  · next h => exact .inr ⟨rfl, not_occurs_of_spellRound (not_mem_of_switchNumber? h)⟩
  · split
    · next h => exact .inr ⟨rfl, not_occurs_of_spellRound (not_mem_of_isNumeric h rfl)⟩
    · split
      · next h => exact .inr ⟨rfl, not_occurs_of_spellRound (not_mem_of_multiple? h)⟩
      · exact .inl rfl

theorem bracedValue_writes (o : Options) (u : Text) :
    (bracedValue o ('{' :: (u ++ ['}']))).text = spellRound ('{' :: (u ++ ['}'])) ∨
      (bracedValue o ('{' :: (u ++ ['}']))).form = .numeric ∧
        occurs roundCall false ('{' :: (u ++ ['}'])) = false := by
  simp only [bracedValue, List.tail_cons, List.dropLast_concat]
  split
  · next n h =>
      refine .inr ⟨rfl, not_occurs_of_not_mem ?_⟩
      have hu : '(' ∉ u := by
        intro hmem
        rw [multiple?_of_mem _ hmem rfl] at h
        cases h
      simp [hu]
  · exact .inl rfl

/-- The braces around an expression are no part of a call. -/
theorem not_occurs_render (h : occurs roundCall false v.text = false) :
    occurs roundCall false v.render = false := by
  obtain ⟨text, form, fromPrevious, onNext⟩ := v
  cases form with
  | numeric | delimited => exact h
  | bare =>
      have hclosed : occurs roundCall false (text ++ if onNext then [] else ['}']) = false := by
        refine occurs_append h (List.all_eq_true.mp ?_)
        cases onNext <;> rfl
      cases fromPrevious with
      | true => exact hclosed
      | false => exact hclosed

/-- A value that starts on the line is an expression or stands in quotes. -/
theorem readValue_writes (o : Options) (name t : Text) :
    (Part.begun t).standing = .expression ∧
        ((readValue o name t).value.text = spellRound (Part.begun t).text ∨
          (readValue o name t).value.form = .numeric ∧
            occurs roundCall false (Part.begun t).text = false) ∨
      (Part.begun t).standing = .quoted ∧ (readValue o name t).value.form = .delimited ∧
        (readValue o name t).value.text = (Part.begun t).text ∧
        (Part.begun t).text.head? ≠ some '{' := by
  cases t with
  | nil => exact .inl ⟨rfl, freshValue_writes o name [] 0⟩
  | cons c r =>
      simp only [readValue, Part.begun]
      split
      · next hc =>
          subst hc
          rw [splitBraced_open]
          cases hs : splitBraced 1 r with
          | error depth => exact .inl ⟨rfl, .inl rfl⟩
          | ok parts =>
              obtain ⟨u, hu, -, -⟩ := splitBraced_ok Nat.one_pos hs
              simp only [Except.map, hu]
              split
              · exact .inl ⟨rfl, freshValue_writes o name _ _⟩
              · exact .inl ⟨rfl, bracedValue_writes o u⟩
      · next hc =>
          split
          · refine .inr ⟨rfl, ?_⟩
            simp only [readQuoted, Part.quoted]
            cases splitAfter? c r with
            | some parts => exact ⟨rfl, rfl, by simpa using hc⟩
            | none => exact ⟨rfl, rfl, by simpa using hc⟩
          · exact .inl ⟨rfl, freshValue_writes o name _ _⟩

/-- What the line writes for the parts of an assignment list. -/
structure Spells (parts : List Part) (pieces : List Piece) : Prop where
  writes : List.Forall₂ Part.Writes parts (pieces.filterMap value?)
  clean : ∀ c, ∀ v ∈ pieces.filterMap (expression? c), occurs roundCall false v.render = false
  begun : ∀ p ∈ parts, p.strandsCall = false

theorem Spells.nil : Spells [] [] where
  writes := .nil
  clean := fun _ => List.forall_mem_nil _
  begun := List.forall_mem_nil _

theorem Spells.append_comment (h : Spells parts pieces) (x : Text) :
    Spells parts (pieces ++ [.comment x]) := by
  have hsame {β : Type} (f : Piece → Option β) (hf : f (.comment x) = none) :
      (pieces ++ [Piece.comment x]).filterMap f = pieces.filterMap f := by
    rw [List.filterMap_append, List.filterMap_cons_none hf, List.filterMap_nil, List.append_nil]
  refine ⟨?_, fun c => ?_, h.begun⟩
  · rw [hsame value? rfl]
    exact h.writes
  · rw [hsame (expression? c) rfl]
    exact h.clean c

theorem Spells.assign (h : Spells parts pieces) {p : Part} (hwrites : p.Writes v)
    (hclean : ∀ w ∈ expression? .closed (.assign name v), occurs roundCall false w.render = false)
    (hbegun : p.strandsCall = false) : Spells (p :: parts) (.assign name v :: pieces) where
  writes := .cons hwrites h.writes
  clean := by
    intro c w hw
    have hsame : expression? c (.assign name v) = expression? .closed (.assign name v) := rfl
    rw [List.filterMap_cons, hsame] at hw
    cases hv : expression? .closed (.assign name v) with
    | none =>
        rw [hv] at hw
        exact h.clean c w hw
    | some u =>
        rw [hv] at hw
        obtain rfl | hw := List.mem_cons.mp hw
        · exact hclean w hv
        · exact h.clean c w hw
  begun := List.forall_mem_cons.mpr ⟨hbegun, h.begun⟩

theorem Spells.assign_readValue (h : Spells parts pieces) (o : Options) (name t : Text) :
    Spells (.begun t :: parts) (.assign name (readValue o name t).value :: pieces) := by
  obtain ⟨hs, hv⟩ | ⟨hs, hform, htext, hhead⟩ := readValue_writes o name t
  · refine h.assign (by rw [Part.Writes, hs]; exact hv) ?_ (by rw [Part.strandsCall, hs]; rfl)
    intro w hw
    simp only [expression?] at hw
    split at hw
    · next hexpr =>
        cases hw
        obtain hspelt | ⟨hnumeric, -⟩ := hv
        · apply not_occurs_render
          rw [hspelt]
          exact occurs_spellRound _
        · simp [hnumeric] at hexpr
    · cases hw
  · refine h.assign (by rw [Part.Writes, hs]; exact htext) ?_ (by rw [Part.strandsCall, hs]; rfl)
    intro w hw
    simp [expression?, hform, htext, hhead] at hw

theorem spells_readList (o : Options) (passing : Bool) (t : Text) :
    Spells (partsInList o passing t) (readList o passing t).pieces := by
  fun_induction partsInList o passing t with
  | case1 passing t h =>
      rw [readList_nil o passing h]
      exact .nil
  | case2 passing t c r h name after ha hempty ih =>
      rw [readList_assignment o passing h ha, if_pos hempty]
      exact ih
  | case3 passing t c r h name after ha hempty read ih =>
      rw [readList_assignment o passing h ha, if_neg hempty]
      split
      · exact Spells.nil.assign_readValue o name after
      · exact ih.assign_readValue o name after
  | case4 passing t c r h ha hname ih =>
      rw [readList_word o passing h ha, if_pos hname]
      exact ih.assign (.inr ⟨rfl, rfl⟩) (by rintro w ⟨⟩) rfl
  | case5 passing t c r h ha hname =>
      rw [readList_word o passing h ha, if_neg hname]
      exact Spells.nil.append_comment _

theorem Spells.allPieces {l : Listing} (h : Spells parts l.pieces) : Spells parts l.allPieces := by
  rw [Listing.allPieces]
  split
  · exact h
  · exact h.append_comment _

/-- What the line writes for a part that goes on with an earlier value. -/
theorem resumeValue_writes (c : Carry) (t : Text) :
    (Part.resumed c t).Writes (resumeValue c t).value ∧
      ((∀ v ∈ expression? c (.fragment (resumeValue c t).value),
          occurs roundCall false v.render = false) ↔
        (Part.resumed c t).strandsCall = false) := by
  cases c with
  | closed =>
      refine ⟨rfl, iff_of_true ?_ rfl⟩
      rintro v ⟨⟩
  | quote mark =>
      simp only [resumeValue, Part.resumed, Part.quoted]
      cases splitAfter? mark t with
      | some parts | none =>
          refine ⟨rfl, iff_of_true ?_ rfl⟩
          rintro v ⟨⟩
  | brace depth =>
      simp only [resumeValue, Part.resumed]
      cases splitBraced depth t with
      | ok parts => exact ⟨rfl, by simp [expression?, Part.strandsCall]; rfl⟩
      | error left => exact ⟨rfl, by simp [expression?, Part.strandsCall]; rfl⟩
  | bare depth =>
      simp only [resumeValue, Part.resumed]
      split
      · exact ⟨.inl rfl, iff_of_true (by rintro v ⟨⟩; rfl) rfl⟩
      · refine ⟨.inl rfl, iff_of_true ?_ rfl⟩
        rintro v ⟨⟩
        exact not_occurs_render (occurs_spellRound _)

theorem Spells.resume (h : Spells parts pieces) (c : Carry) (t : Text) :
    List.Forall₂ Part.Writes (.resumed c t :: parts)
        ((.fragment (resumeValue c t).value :: pieces).filterMap value?) ∧
      ((∀ v ∈ (.fragment (resumeValue c t).value :: pieces).filterMap (expression? c),
          occurs roundCall false v.render = false) ↔
        ∀ p ∈ .resumed c t :: parts, p.strandsCall = false) := by
  obtain ⟨hwrites, hclean⟩ := resumeValue_writes c t
  refine ⟨.cons hwrites h.writes, ?_⟩
  rw [List.forall_mem_cons, and_iff_left h.begun, ← hclean, List.filterMap_cons]
  cases expression? c (.fragment (resumeValue c t).value) with
  | none => exact iff_of_true (h.clean c) nofun
  | some v =>
      rw [List.forall_mem_cons, and_iff_left (h.clean c)]
      simp

/-- The expressions that a line writes are free of calls exactly if the line strands none. -/
theorem spells_readAssignments (o : Options) (t : Text) (place : Placement) (c : Carry) :
    List.Forall₂ Part.Writes (lineParts o t place c)
        ((readAssignments o t place c).pieces.filterMap value?) ∧
      ((∀ v ∈ (readAssignments o t place c).pieces.filterMap (expression? c),
          occurs roundCall false v.render = false) ↔
        ∀ p ∈ lineParts o t place c, p.strandsCall = false) := by
  simp only [readAssignments, lineParts]
  split
  · split
    · exact Spells.nil.resume c (trim t)
    · rw [allPieces_cons]
      exact (spells_readList o _ _).allPieces.resume c (trim t)
  · have hlist := (spells_readList o (place = .subcircuitLocal) (trim t)).allPieces
    exact ⟨hlist.writes, iff_of_true (hlist.clean c) hlist.begun⟩

end Calls

namespace Source

def parts (o : Options) (c : Carry) : List Source → List Part
  | [] => []
  | s :: r =>
      match s.read? o c with
      | some line => lineParts o s.body s.bodyPlace c ++ parts o line.carry r
      | none => parts o c r

theorem spells_readAll (o : Options) (c : Carry) (lines : List Source) :
    List.Forall₂ Part.Writes (parts o c lines)
        (((readAll o c lines).flatMap ParamLine.pieces).filterMap value?) ∧
      ((∀ v ∈ expressions c (readAll o c lines), occurs roundCall false v.render = false) ↔
        ∀ p ∈ parts o c lines, p.strandsCall = false) := by
  induction lines generalizing c with
  | nil => exact ⟨.nil, iff_of_true (List.forall_mem_nil _) (List.forall_mem_nil _)⟩
  | cons s r ih =>
      cases hs : s.read? o c with
      | none =>
          simp only [readAll, parts, hs]
          exact ih c
      | some line =>
          obtain ⟨hp, -⟩ := read?_body hs
          obtain ⟨hwrites, hclean⟩ := spells_readAssignments o s.body s.bodyPlace c
          rw [← hp] at hwrites hclean
          obtain ⟨hwrites', hclean'⟩ := ih line.carry
          simp only [readAll, parts, hs, expressions]
          rw [List.flatMap_cons, List.filterMap_append]
          refine ⟨List.rel_append hwrites hwrites', ?_⟩
          rw [List.forall_mem_append, List.forall_mem_append, hclean, hclean']

/-- An expression is written with its calls of `round` spelled, but what stands inside braces that
an earlier line has opened is copied. So the written expressions, bare or in braces, are free of
calls if and only if no call stands inside such braces. -/
theorem round_spelled_iff (o : Options) (c : Carry) (lines : List Source) :
    List.Forall₂ Part.Writes (parts o c lines)
        (((readAll o c lines).flatMap ParamLine.pieces).filterMap value?) ∧
      ((∀ v ∈ expressions c (readAll o c lines), occurs roundCall false v.render = false) ↔
        ∀ p ∈ parts o c lines,
          p.standing = .insideBraces → occurs roundCall false p.text = false) := by
  obtain ⟨hwrites, hclean⟩ := spells_readAll o c lines
  refine ⟨hwrites, hclean.trans ?_⟩
  simp [Part.strandsCall]

/-- The second line goes on inside braces, and its call stays. -/
example : (readAll {} .closed
      [⟨.statement, ".param a=\x7bround(x) +".toList, .topLevel⟩,
        ⟨.continuation, "+ round(y)\x7d b=round(z)".toList, .topLevel⟩]).map ParamLine.render =
    [".param a=\x7bfloor(0.5+x) +".toList, "+ round(y)\x7d b=\x7bfloor(0.5+z)\x7d".toList] := by
  decide +kernel

end Source

end Param
end SpiceDeck
