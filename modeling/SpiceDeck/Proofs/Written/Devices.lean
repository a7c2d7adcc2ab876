import SpiceDeck.Proofs.Written.Inside
import SpiceDeck.Proofs.Written.Readings

/-!
Written calls that are read again. A call is written with its letter and without a keyword that
the simulator knows. Main statement: it is read as a call of the same device or, where its last
word is not known, copied, and in both cases written again as it stands.
-/

namespace SpiceDeck
open Text

section CodeLines
variable {s s' : Statement} {after : List Text}

theorem Statement.codeLines_ofTexts_append (head : Text) (tail : List Text)
    (hafter : ∀ t ∈ after, isSilent t = true) :
    (ofTexts head (tail ++ after)).codeLines = (ofTexts head tail).codeLines := by
  have hnone : ((after.map fun t => (⟨0, Line.settledBody t⟩ : Line)).filter Line.isCode) = [] := by
    refine List.filter_eq_nil_iff.mpr fun l hl => ?_
    obtain ⟨t, ht, rfl⟩ := List.mem_map.mp hl
    rw [Line.isCode_settledBody rfl, hafter t ht]
    decide
  simp only [codeLines, lines, ofTexts, List.map_append, ← List.cons_append, List.filter_append,
    hnone, List.append_nil]

theorem Head.linesUntil?_codeLines (h : s.codeLines = s'.codeLines) (pass : Text → Bool)
    (k n : Nat) : Head.linesUntil? s pass k n = Head.linesUntil? s' pass k n := by
  induction n generalizing k with
  | zero => rfl
  | succ n ih => rw [linesUntil?, linesUntil?, Statement.joined, h, ih, Statement.joined]

/-- Comments make no difference to a call. -/
theorem Head.bareCall?_codeLines (h : s.codeLines = s'.codeLines) (hhead : s.head = s'.head)
    (symbols : Symbols) (o : Options) (spectre : Bool) :
    Head.bareCall? symbols o spectre s = Head.bareCall? symbols o spectre s' := by
  have hjoined : s.joined = s'.joined := by
    funext n
    rw [Statement.joined, h, Statement.joined]
  simp only [bareCall?, hhead, h, hjoined, linesUntil?_codeLines h]

end CodeLines

namespace Call
variable {cx : Context} {d : Dialect} {family? : Text → Option Family} {r : Resolution} {c : Call}
  {reference : Text} {K : Subcircuit → Prop}

/-- The words of the parameters on the head line. -/
def words (c : Call) : List Text := c.params.pieces.map Piece.render

/-- The parameters start with an assignment, so that they are told apart from the words before. -/
def StartsApart (c : Call) : Prop :=
  Param.startsAssignment (spaced c.words) = true ∨ c.words = [] ∧
    ∀ l ∈ (c.tail.filterMap Continuation.params?).head?,
      Param.startsAssignment (spaced (l.pieces.map Piece.render)) = true

instance (c : Call) : Decidable c.StartsApart := inferInstanceAs (Decidable (_ ∨ _ ∧ _))

/-- The call keeps its form where its last word is known: its parameters start on the head line,
which they would be moved to, and the word asks for the letter that the call is written with. -/
structure KeepsForm (cx : Context) (family? : Text → Option Family) (r : Resolution) (c : Call)
    (reference : Text) : Prop where
  here : c.words = [] → c.tail.filterMap Continuation.params? = []
  letter :
    let name := withLetter r.letter c.name
    withLetter (Resolution.find cx.symbols cx.options name reference (family? reference)).letter
      name = name
  keeps : (Resolution.find cx.symbols cx.options (withLetter r.letter c.name) reference
    (family? reference)).dropReference = false

instance (cx : Context) (family? : Text → Option Family) (r : Resolution) (c : Call)
    (reference : Text) : Decidable (KeepsForm cx family? r c reference) :=
  decidable_of_iff
    ((c.words = [] → c.tail.filterMap Continuation.params? = []) ∧
      (let name := withLetter r.letter c.name
       withLetter (Resolution.find cx.symbols cx.options name reference (family? reference)).letter
         name = name) ∧
      (Resolution.find cx.symbols cx.options (withLetter r.letter c.name) reference
        (family? reference)).dropReference = false)
    ⟨fun h => ⟨h.1, h.2.1, h.2.2⟩, fun h => ⟨h.here, h.letter, h.keeps⟩⟩

/-- The words in front of the parameters can be told apart, and if the last one is known, then the
call keeps its form. -/
structure Repeats (cx : Context) (d : Dialect) (family? : Text → Option Family) (r : Resolution)
    (c : Call) : Prop where
  name : Head.IsPlainName (withLetter r.letter c.name)
  parts : ∀ u ∈ c.parts r, Head.IsPart u
  starts : c.StartsApart
  form : ∀ reference ∈ (c.parts r).getLast?, cx.isDevice d reference = true →
    KeepsForm cx family? r c reference

instance (cx : Context) (d : Dialect) (family? : Text → Option Family) (r : Resolution) (c : Call) :
    Decidable (Repeats cx d family? r c) :=
  decidable_of_iff
    (Head.IsPlainName (withLetter r.letter c.name) ∧ (∀ u ∈ c.parts r, Head.IsPart u) ∧
      c.StartsApart ∧ ∀ reference ∈ (c.parts r).getLast?, cx.isDevice d reference = true →
        KeepsForm cx family? r c reference)
    ⟨fun h => ⟨h.1, h.2.1, h.2.2.1, h.2.2.2⟩, fun h => ⟨h.name, h.parts, h.starts, h.form⟩⟩

theorem IsSound.head_eq (h : c.IsSound cx.options) (r : Resolution) :
    c.head r = written (withLetter r.letter c.name) (c.parts r) c.words :=
  (List.cons.inj (render_eq h.marker r)).1

theorem StartsApart.startsAt (h : c.StartsApart) {o : Options} {c₁ : Carry}
    (hws : Param.ReadsBack o .closed c.words c₁) (hback : Param.Back o c₁ c.tail) {s : Statement}
    (htail : s.tail.map Line.body = (c.tail.map Continuation.render).map Line.settledBody) :
    ∃ n vs, StartsAt s c.words n vs ∧ trim (spaced vs) = spaced vs := by
  have hcontents := hback.contents htail
  obtain hstart | ⟨hnil, hbelow⟩ := h
  · exact ⟨1, c.words, .head (hws.assigns hstart), Param.RereadsLine.trim hws⟩
  · rw [hnil] at hws ⊢
    obtain ⟨-, rfl⟩ := Param.ReadsBack.closed_of_nil hws
    cases hparams : c.tail.filterMap Continuation.params? with
    | nil =>
        rw [hparams] at hcontents
        exact ⟨1, [], .nowhere hcontents, rfl⟩
    | cons l r =>
        rw [hparams] at hcontents hbelow
        obtain ⟨c₂, hl⟩ := hback.first hparams
        exact ⟨2, _, .below (hl.assigns (hbelow l rfl)) hcontents, Param.RereadsLine.trim hl⟩

/-- A written call whose last word is not known is copied. -/
theorem IsSound.isCopied (h : c.IsSound cx.options) (hr : c.Repeats cx d family? r)
    (hunknown : ∀ reference ∈ (c.parts r).getLast?, cx.isDevice d reference = false) :
    ∃ tail after, c.render r = (c.head r :: tail) ++ after ∧ IsStatement (c.head r) tail ∧
      Statement.IsCopied cx d (c.head r) tail ∧ ∀ t ∈ after, isSilent t = true := by
  obtain ⟨c₁, hws, hback⟩ := h.reads
  obtain ⟨tail, after, htail, hbelow, hends, hafter⟩ := hback.toBelow.split
  have hst : IsStatement (c.head r) tail := by
    rw [h.head_eq]
    exact isStatement_written hr.name _ hbelow hends
  refine ⟨tail, after, by rw [render, htail]; rfl, hst, ?_, hafter⟩
  have hreads := Statement.readsAs_ofTexts (c.head r) tail
  have hcontent : (Statement.ofTexts (c.head r) tail).head.content =
      written (withLetter r.letter c.name) (c.parts r) c.words := by
    rw [hreads.content hst, h.head_eq]
    exact trim_written hr.name.isInk hr.parts hws
  have hall := Statement.readsAs_ofTexts (c.head r) (c.tail.map Continuation.render)
  obtain ⟨n, vs, hstarts, htrim⟩ := hr.starts.startsAt hws hback hall.tail
  have hnone : (c.parts r).getLast?.filter (cx.isDevice d) = none :=
    Option.filter_eq_none_iff.mpr fun u hu => by rw [hunknown u hu]; decide
  have hcall : Head.bareCall? cx.symbols cx.options (d = .spectre)
      (Statement.ofTexts (c.head r) tail) = none := by
    rw [← Head.bareCall?_codeLines (Statement.codeLines_ofTexts_append _ tail hafter) rfl, ← htail,
      bareCall?_written hstarts hr.name hr.parts htrim (hreads.isCode hst) hcontent, hnone]
    rfl
  rw [Statement.IsCopied, Statement.kind_name hr.name (follows hr.parts hws)
    (hcontent.trans (written_eq_append _ _ _)), hcall]
  rfl

theorem IsSound.written (h : c.IsSound cx.options) (hr : c.Repeats cx d family? r)
    (hlast : (c.parts r).getLast? = some reference) (hknown : cx.isDevice d reference = true) :
    Written cx d family? (c.head r) (c.tail.map Continuation.render) := by
  obtain ⟨c₁, hws, hback⟩ := h.reads
  have hform := hr.form reference hlast hknown
  have hparts := hr.parts
  obtain ⟨pins, hpins⟩ := List.getLast?_eq_some_iff.mp hlast
  have hapart : Param.Assigns c.words ∨
      c.words = [] ∧ ∀ t ∈ c.tail.map Continuation.render, isSilent t = true := by
    obtain hstart | ⟨hnil, -⟩ := hr.starts
    · exact .inl (hws.assigns hstart)
    · exact .inr ⟨hnil, hback.silent_of_params (hform.here hnil)⟩
  rw [h.head_eq, hpins]
  rw [hpins] at hparts
  exact .mk hr.name (fun p hp => hparts p (List.mem_append_left _ hp)) (hparts _ (by simp)) hws
    hback.toBelow hapart hknown rfl hform.letter hform.keeps

/-- A written call is a copied statement, or it is read as the call that it was. -/
theorem IsSound.copied_or_written (h : c.IsSound cx.options) (hr : c.Repeats cx d family? r) :
    (∃ tail after, c.render r = (c.head r :: tail) ++ after ∧ IsStatement (c.head r) tail ∧
      Statement.IsCopied cx d (c.head r) tail ∧ ∀ t ∈ after, isSilent t = true) ∨
    Written cx d family? (c.head r) (c.tail.map Continuation.render) := by
  by_cases hknown : ∃ reference ∈ (c.parts r).getLast?, cx.isDevice d reference = true
  · obtain ⟨reference, hlast, hdevice⟩ := hknown
    exact .inr (h.written hr hlast hdevice)
  · refine .inl (h.isCopied hr fun reference hlast => ?_)
    exact Bool.eq_false_iff.mpr fun hdevice => hknown ⟨reference, hlast, hdevice⟩

end Call

namespace Scope
open Call
variable {cx : Context} {d : Dialect} {family? : Text → Option Family} {r : Resolution} {c : Call}

theorem writesAgain_render (h : c.IsSound cx.options) (hr : c.Repeats cx d (fun _ => none) r) :
    WritesAgain cx d (c.render r) := by
  obtain ⟨tail, after, heq, hst, hcopied, hafter⟩ | hwritten := h.copied_or_written hr
  · rw [heq]
    exact (writesAgain_copied hst hcopied).append (writesAgain_silent hafter)
  · exact writesAgain_call hwritten

theorem addsLines_render (h : c.IsSound cx.options) (hr : c.Repeats cx d family? r) :
    AddsLines cx d family? Subcircuit.InUpper (c.render r) := by
  obtain ⟨tail, after, heq, hst, hcopied, hafter⟩ | hwritten := h.copied_or_written hr
  · rw [heq]
    exact (addsLines_copied Subcircuit.isAbove_inUpper hst hcopied).append
      (addsLines_silent Subcircuit.isAbove_inUpper hafter)
  · exact addsLines_call hwritten

end Scope
end SpiceDeck
