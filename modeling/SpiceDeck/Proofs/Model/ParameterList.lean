import SpiceDeck.Proofs.Scope.BlockEnd
import SpiceDeck.Proofs.Subcircuit.HeaderLines

/-!
Parameter lists of models. A list in parentheses is read like the same list without them:
if the parentheses inside it are in balance, then what closes it is the parenthesis at its
very end. Lines behind it that hold no parameters change nothing but add their comments.
-/

namespace SpiceDeck
open Text

namespace Text

theorem trimStart_concat {c : Char} (hc : isSpace c = false) (t : Text) :
    trimStart (t ++ [c]) = trimStart t ++ [c] := by
  refine dropWhile_append_stop ?_ t
  intro a ha
  cases ha
  exact hc

theorem trim_trim (t : Text) : trim (trim t) = trim t := by
  rw [trim, trim, trimStart_trimEnd, trimEnd_trimEnd, trimStart_trimStart]

end Text

namespace Model

namespace Part

theorem countAll_append (c : Char) (ps qs : List Part) :
    countAll c (ps ++ qs) = countAll c ps + countAll c qs := by
  induction ps with
  | nil => exact (Nat.zero_add _).symm
  | cons p r ih =>
      cases p with
      | passive t => exact ih
      | code t => simp only [List.cons_append, countAll, ih, Nat.add_assoc]

/-- The parenthesis that closes a list is the last one, if those in the list are in
balance. -/
theorem closeList_concat (ps : List Part) {t : Text}
    (h : countAll '(' (ps ++ [.code (trimEnd t)]) = countAll ')' (ps ++ [.code (trimEnd t)])) :
    closeList (ps ++ [.code (t ++ [')'])]) = ps ++ [.code (trimEnd t)] := by
  have hcount : countAll '(' (ps ++ [.code (t ++ [')'])]) <
      countAll ')' (ps ++ [.code (t ++ [')'])]) := by
    simp only [countAll_append, countAll, count_trimEnd (c := '(') rfl,
      count_trimEnd (c := ')') rfl] at h
    simp only [countAll_append, countAll, List.count_append]
    have hopen : [')'].count '(' = 0 := by decide
    have hclose : [')'].count ')' = 1 := by decide
    omega
  have hend : trimEnd (t ++ [')']) = t ++ [')'] := trimEnd_append_cons rfl t []
  rw [closeList, if_pos hcount, List.reverse_concat, dropParen, hend,
    if_pos (List.getLast?_concat ..), List.dropLast_concat, List.reverse_cons, List.reverse_reverse]

def carryAfter (o : Options) (carry : Carry) : Part → Carry
  | .code t => (Param.readContinuation o t .modelBody carry).carry
  | .passive _ => carry

theorem foldl_carryAfter_passive (o : Options) (carry : Carry) (ts : List Text) :
    (ts.map passive).foldl (carryAfter o) carry = carry := by
  induction ts with
  | nil => rfl
  | cons t r ih => exact ih

end Part

variable {o : Options} {m : Model} {carry : Carry}

theorem readParts_append (o : Options) (m : Model) (carry : Carry) (ps qs : List Part) :
    readParts o m carry (ps ++ qs) =
      readParts o (readParts o m carry ps) (ps.foldl (Part.carryAfter o) carry) qs := by
  induction ps generalizing m carry with
  | nil => rfl
  | cons p r ih =>
      cases p with
      | passive t => exact ih (m.addText t) carry
      | code t => exact ih _ _

theorem readParts_passive (o : Options) (m : Model) (carry : Carry) (ts : List Text) :
    readParts o m carry (ts.map .passive) = m.addTexts ts := by
  induction ts generalizing m with
  | nil => rw [addTexts_nil]; rfl
  | cons t r ih =>
      rw [addTexts_cons]
      exact ih (m.addText t)

theorem carry_remainder (l : ParamLine) : (remainder l).carry = l.carry := by
  simp only [remainder]
  split <;> rfl

theorem tail_absorb (m : Model) (l : ParamLine) : (m.absorb l).tail = m.tail := by
  simp only [absorb]
  split <;> rfl

theorem isOpen_withParams (h : m.tail = []) (l : ParamLine) :
    (m.withParams l).isOpen = l.carry.isOpen := by
  have htail : (m.withParams l).tail = [] := (tail_absorb m l).trans h
  have hlines : (m.withParams l).paramLines = [remainder l] := by
    rw [paramLines, htail]
    rfl
  rw [isOpen, hlines]
  exact congrArg Carry.isOpen (carry_remainder l)

theorem isOpen_addParams (m : Model) (l : ParamLine) :
    (m.addParams l).isOpen = l.carry.isOpen := by
  have hlines : (m.addParams l).paramLines =
      (m.absorb l).params.toList ++ m.tail.filterMap Continuation.params? ++ [remainder l] := by
    simp only [paramLines, addParams, List.filterMap_append, List.append_assoc]
    rfl
  rw [isOpen, hlines, List.getLast?_concat]
  exact congrArg Carry.isOpen (carry_remainder l)

theorem isOpen_addTexts (m : Model) (ts : List Text) : (m.addTexts ts).isOpen = m.isOpen := by
  have hlines : (m.addTexts ts).paramLines = m.paramLines := by
    simp [paramLines, addTexts, Continuation.params?, Function.comp_def]
  rw [isOpen, hlines, isOpen]

/-- Whether a model is left open is what its last part leaves. -/
theorem isOpen_readParts (h : m.isOpen = carry.isOpen) (ps : List Part) :
    (readParts o m carry ps).isOpen = (ps.foldl (Part.carryAfter o) carry).isOpen := by
  induction ps generalizing m carry with
  | nil => exact h
  | cons p r ih =>
      cases p with
      | passive t =>
          apply ih
          rw [← h]
          exact isOpen_addTexts m [t]
      | code t => exact ih (isOpen_addParams m _)

theorem modifyFirst_eq_self {f : ParamLine → ParamLine} {ls : List Continuation}
    (h : ∀ l ∈ (ls.filterMap Continuation.params?).head?, f l = l) :
    Continuation.modifyFirst f ls = ls := by
  induction ls with
  | nil => rfl
  | cons l r ih =>
      cases l with
      | verbatim t => exact congrArg (.verbatim t :: ·) (ih h)
      | params l => rw [Continuation.modifyFirst, h l rfl]

theorem close_of_not_isOpen (h : m.isOpen = false) : m.close = m := by
  have hline : ∀ l : ParamLine, l.isOpen = false → l.close = l := by
    intro l hl
    rw [ParamLine.close, hl]
    rfl
  simp only [close]
  split
  · next hempty =>
      rw [List.isEmpty_iff] at hempty
      have hparams : m.params.map ParamLine.close = m.params := by
        cases hp : m.params with
        | none => rfl
        | some l =>
            have hl : l.isOpen = false := by simpa [isOpen, paramLines, hempty, hp] using h
            rw [Option.map_some, hline l hl]
      rw [hparams]
  · next hne =>
      rw [List.isEmpty_iff] at hne
      have htail : Continuation.close m.tail = m.tail := by
        rw [Continuation.close, Continuation.modifyLast, modifyFirst_eq_self, List.reverse_reverse]
        intro l hl
        rw [List.filterMap_reverse, List.head?_reverse] at hl
        apply hline
        rw [isOpen, paramLines, List.getLast?_append_of_ne_nil _ hne, hl] at h
        exact h
      rw [htail]

/-- A continuation without parameters is read as an empty line. -/
theorem readContinuation_nil (o : Options) :
    Param.readContinuation o [] .modelBody .closed = { marker := .plus } := by
  have hlist : Param.readList o false (trim []) = {} := Param.readList_nil o false rfl
  have hline : Param.readContinuation o [] .modelBody .closed =
      { marker := .plus
        pieces := (Param.readList o false (trim [])).allPieces
        carry := (Param.readList o false (trim [])).carry } := rfl
  rw [hline, hlist]
  rfl

/-- Comments and a line without parameters at the end of a model, which add nothing but
the comments to what is written. -/
theorem readParts_nil (o : Options) (m : Model) (ts : List Text) :
    readParts o m .closed (ts.map .passive ++ [.code []]) =
      (m.addTexts ts).addParams { marker := .plus } := by
  rw [readParts_append, Part.foldl_carryAfter_passive, readParts_passive]
  simp only [readParts, readContinuation_nil]

theorem addParams_nil (m : Model) :
    m.addParams { marker := .plus } =
      { m with tail := m.tail ++ [.params { marker := .plus }] } := rfl

theorem render_addParams_nil (m : Model) (ts : List Text) :
    ((m.addTexts ts).addParams { marker := .plus }).render = m.render ++ ts := by
  simp [render, addParams_nil, addTexts, ParamLine.isEmpty, name]

end Model
end SpiceDeck
