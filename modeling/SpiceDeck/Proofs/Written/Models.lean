import SpiceDeck.Proofs.Deck.Renaming
import SpiceDeck.Proofs.Model.Bins
import SpiceDeck.Proofs.Model.OpenLine
import SpiceDeck.Proofs.Model.Parenthesized
import SpiceDeck.Proofs.Written.Calls

/-!
Written models that are read again. A written value never looks like the name of a polarity,
so the type that is written is the one that is read. Main statement: a model that is written
is read as a model of the same name and type, and is written the same way.
-/

namespace SpiceDeck
open Text

namespace Polarity
variable {t : Text} {o : Options} {c c' : Carry} {ws : List Text}

theorem ofText?_of_startsValue (h : Param.StartsValue t) : ofText? t = none := by
  obtain ⟨a, r, rfl, ha⟩ := h
  rw [← Option.not_isSome_iff_eq_none]
  intro hsome
  obtain hspace | hletter := (mem_of_ofText? hsome).2 a List.mem_cons_self
  · rw [(Param.isValueStart_ne ha).1] at hspace
    cases hspace
  · simp only [Param.isValueStart, Bool.or_eq_true, List.contains_iff_mem] at ha
    obtain hdigit | hsign := ha
    · have hbounds := isDigit_bounds hdigit
      obtain hlower | ⟨hupper, -⟩ := toLower_cases a
      · rw [hlower] at hletter
        have hnone : "nmosp".toList.all (!isDigit ·) = true := by decide
        simp only [List.all_eq_true, Bool.not_eq_true'] at hnone
        rw [hnone a hletter] at hdigit
        cases hdigit
      · omega
    · have hnone : ("+-.\x7b\x22\x27".toList.all fun a => decide (a.toLower ∉ "nmosp".toList)) =
          true := by
        decide
      exact of_decide_eq_true (List.all_eq_true.mp hnone a hsign) hletter

theorem onLine?_written (h : Param.ReadsBack o c ws c') (place : Param.Placement) (m : Marker) :
    onLine? ((Param.readAssignments o (spaced ws) place c).withMarker m) = none := by
  rw [onLine?, List.findSome?_eq_none_iff]
  intro p hp
  cases p with
  | fragment v | comment t => rfl
  | assign name v =>
      have hv := (Param.RereadsLine.readAssignments h place).2.2 name v hp
      simp only [ofText?_of_startsValue hv, ite_self]

end Polarity

/-- The type that is written stands for itself. -/
theorem ModelType.emitted_ofKeyword_emitted (keyword : Text) (p : Option Polarity) :
    (ofKeyword (given keyword p).emitted).emitted = (given keyword p).emitted := by
  have hwritten : writtenType (writtenType keyword) = writtenType keyword := by
    have hshort : ∀ x ∈ shortTypes, writtenType x.2 = x.2 := by decide
    cases hw : shortTypes.lookup (lower keyword) with
    | none =>
        have hself : writtenType keyword = keyword := by rw [writtenType, hw]; rfl
        rw [hself, hself]
    | some w =>
        obtain ⟨before, after, heq, -⟩ := List.lookup_eq_some_iff.mp hw
        have hw' : writtenType keyword = w := by rw [writtenType, hw]; rfl
        rw [hw']
        exact hshort (lower keyword, w) (by rw [heq]; simp)
  rw [emitted_given]
  cases hlacks : lacksPolarity keyword with
  | false =>
      rw [if_neg Bool.false_ne_true, ofKeyword, lacksPolarity_writtenType hlacks,
        if_neg Bool.false_ne_true]
      exact hwritten
  | true =>
      rw [if_pos rfl]
      cases p with
      | none =>
          rw [Option.map_none, Option.getD_none, ofKeyword, hlacks, if_pos rfl]
          rfl
      | some q =>
          have hq : ∀ q : Polarity, (ofKeyword q.keyword).emitted = q.keyword := by
            intro q
            cases q <;> decide
          exact hq q

namespace Param
variable {o : Options} {c c' : Carry} {ws : List Text}

/-- A line has something on it exactly if something is written on it. -/
theorem ReadsBack.isEmpty_readAssignments (h : ReadsBack o c ws c') (place : Placement) :
    (readAssignments o (spaced ws) place c).isEmpty = ws.isEmpty := by
  obtain ⟨-, hpieces, -⟩ := RereadsLine.readAssignments h place
  rw [ParamLine.isEmpty]
  cases hps : (readAssignments o (spaced ws) place c).pieces with
  | nil =>
      rw [hps] at hpieces
      cases ws with
      | nil => rfl
      | cons w r => cases hpieces
  | cons p ps =>
      rw [hps] at hpieces
      cases ws with
      | nil => cases hpieces
      | cons w r => rfl

end Param

namespace Model

/-- The head of a model as it is written. -/
def written (name type : Text) (ws : List Text) : Text :=
  ".model ".toList ++ name ++ ' ' :: type ++ setOff (spaced ws)

theorem tailLines_params {l : ParamLine} (h : l.isEmpty = false) (r : List Continuation) :
    tailLines (.params l :: r) = l.render :: tailLines r := by
  simp only [tailLines, List.filterMap_cons, h, Bool.false_eq_true, if_false]

section Reading
variable {o : Options} {c c' : Carry} {name type : Text} {ws tail : List Text} {m : Model}
  {ls : List Line}

theorem written_eq (name type : Text) (ws : List Text) :
    written name type ws =
      ".model".toList ++ ' ' :: (name ++ ' ' :: (type ++ setOff (spaced ws))) := by
  have hkeyword : ".model ".toList = ".model".toList ++ [' '] := rfl
  unfold written
  simp only [hkeyword, List.append_assoc, List.cons_append, List.nil_append]

theorem dottedModel?_written (hname : IsInk name) (htype : IsInk type) (hopen : '(' ∉ type)
    (hws : Param.ReadsBack o .closed ws c) :
    Head.dottedModel? (written name type ws) =
      some { name, keyword := type, rest := spaced ws } := by
  rw [written_eq]
  cases hspaced : spaced ws with
  | cons a r =>
      have htrim : trim (a :: r) = a :: r := hspaced ▸ Param.RereadsLine.trim hws
      have ha : a ≠ '(' := (hws.head?_spaced a (by rw [hspaced]; rfl)).2.2
      have hset : setOff (a :: r) = ' ' :: a :: r := rfl
      rw [hset, Head.dottedModel?_eq hname htype hopen htrim, if_neg ha]
  | nil =>
      have hfirst : ∀ c ∈ name, (!isSpace c) = true := fun c hc => by simp [hname.2 c hc]
      have hsecond : ∀ c ∈ type, (!(isSpace c || c == '(')) = true := by
        intro c hc
        have hne : c ≠ '(' := fun heq => hopen (heq ▸ hc)
        simp [htype.2 c hc, hne]
      have hn : name.isEmpty = false := List.isEmpty_eq_false_iff.mpr hname.1
      have hk : type.isEmpty = false := List.isEmpty_eq_false_iff.mpr htype.1
      have hspaces := Head.afterSpaces?_ink htype []
      rw [List.append_nil] at hspaces
      have hparts : Head.nameAndType? '(' (' ' :: (name ++ ' ' :: type)) =
          some (name, type, []) := by
        simp only [Head.nameAndType?, Head.afterSpaces?_ink hname, token, afterToken,
          Head.cut_word hfirst rfl, hspaces, List.takeWhile_eq_self_iff.mpr hsecond,
          List.dropWhile_eq_nil_iff.mpr hsecond, hn, hk, Bool.or_false, Bool.false_eq_true,
          if_false]
        rfl
      have hset : type ++ setOff [] = type := List.append_nil type
      have hafter : afterFolded? ".model".toList (".model".toList ++ ' ' :: (name ++ ' ' :: type)) =
          some (' ' :: (name ++ ' ' :: type)) := rfl
      rw [hset, Head.dottedModel?, hafter, Option.bind_some, hparts]
      rfl

theorem trim_written (htype : IsInk type) (hws : Param.ReadsBack o .closed ws c) :
    trim (written name type ws) = written name type ws := by
  have hends : EndsInInk (".model ".toList ++ name ++ ' ' :: type) := by
    have htypeEnds : EndsInInk type := fun a ha => htype.2 a (List.mem_of_getLast? ha)
    have hsplit : ".model ".toList ++ name ++ ' ' :: type =
        (".model ".toList ++ name ++ [' ']) ++ type := by simp
    rw [hsplit]
    exact htypeEnds.append htype.1 _
  exact Param.trim_marked (by simp) (startsInInk_cons rfl _) hends (Param.RereadsLine.trim hws)

theorem isStatement_written (name type : Text) (ws : List Text) (htail : Param.Below o c tail)
    (hends : ∀ t ∈ tail.getLast?, isSilent t = false) :
    IsStatement (written name type ws) tail := by
  refine ⟨rfl, ?_, htail.continued, hends⟩
  rintro ⟨⟩

/-- A line below a model that has something on it besides its plus sign, and no second one. -/
def IsFull (t : Text) : Bool := isSilent t || startsWith t "+ ".toList && !startsWith t "+ +".toList

theorem addParams_plain (m : Model) {l : ParamLine} (h : Polarity.onLine? l = none) :
    m.addParams l = { m with tail := m.tail ++ [.params l] } := by
  rw [addParams, absorb, remainder, h]

theorem withParams_plain (m : Model) {l : ParamLine} (h : Polarity.onLine? l = none) :
    m.withParams l = { m with params := some l } := by
  rw [withParams, absorb, remainder, h]

/-- A model takes the content of a line, from which a plus sign is taken once more. -/
theorem readContinuation_content (hws : Param.ReadsBack o c ws c')
    (hfull : IsFull (Param.marked .plus ws) = true) :
    ws ≠ [] ∧ ∀ l : Line, l.body = Line.settledBody (Param.marked .plus ws) →
      Param.readContinuation o l.content .modelBody c =
        (Param.readAssignments o (spaced ws) .modelBody c).withMarker .plus := by
  have htrim := Param.RereadsLine.trim hws
  rw [IsFull, Param.marked, Marker.render, List.cons_append, Param.isSilent_plus, Bool.false_or,
    Bool.and_eq_true, Bool.not_eq_true'] at hfull
  obtain ⟨hset, hplus⟩ := hfull
  cases hspaced : spaced ws with
  | nil =>
      rw [hspaced] at hset
      cases hset
  | cons a r =>
      have hne : a ≠ '+' := by
        rintro rfl
        rw [hspaced] at hplus
        cases hplus
      refine ⟨?_, ?_⟩
      · rintro rfl
        cases hspaced
      · intro l hl
        rw [(Param.code_marked_plus htrim hl).2, Param.readContinuation, htrim, hspaced]
        split
        · next heq => exact absurd (List.cons.inj heq).1 hne
        · rfl

/-- The lines below a model are read back as they are written. -/
theorem readParts_below (h : Param.Below o c tail) (hfull : ∀ t ∈ tail, IsFull t = true)
    (hls : ls.map Line.body = tail.map Line.settledBody) (m : Model) :
    ∃ cs, readParts o m c (ls.map Part.ofLine) = { m with tail := m.tail ++ cs } ∧
      tailLines cs = tail ∧
      Param.Source.lastCarry c (cs.filterMap Continuation.params?) = .closed := by
  induction h generalizing ls m with
  | nil =>
      rw [List.map_eq_nil_iff.mp hls]
      exact ⟨[], by rw [List.append_nil]; rfl, rfl, rfl⟩
  | @silent c t r ht _ ih =>
      obtain ⟨l, ls, rfl, hl, hr⟩ := List.map_eq_cons_iff.mp hls
      have hpart : Part.ofLine l = .passive t := by
        rw [Part.ofLine, Line.isCode_settledBody hl, ht, Line.verbatim_settledBody hl]
        rfl
      obtain ⟨cs, hread, hwritten, hlast⟩ :=
        ih (fun t ht => hfull t (List.mem_cons_of_mem _ ht)) hr (m.addText t)
      refine ⟨.verbatim t :: cs, ?_, congrArg (t :: ·) hwritten, hlast⟩
      rw [List.map_cons, hpart, readParts, hread, addText]
      simp
  | @params c c' ws r hws _ ih =>
      obtain ⟨l, ls, rfl, hl, hr⟩ := List.map_eq_cons_iff.mp hls
      obtain ⟨hfirst, hrest⟩ := List.forall_mem_cons.mp hfull
      obtain ⟨hne, hcontent⟩ := readContinuation_content hws hfirst
      have hcode := (Param.code_marked_plus (Param.RereadsLine.trim hws) hl).1
      have hpart : Part.ofLine l = .code l.content := by
        rw [Part.ofLine, hcode]
        rfl
      have hcarry : ((Param.readAssignments o (spaced ws) .modelBody c).withMarker .plus).carry =
          c' := hws.carry .modelBody
      obtain ⟨cs, hread, hwritten, hlast⟩ := ih hrest hr
        { m with tail := m.tail ++ [.params
          ((Param.readAssignments o (spaced ws) .modelBody c).withMarker .plus)] }
      refine ⟨.params ((Param.readAssignments o (spaced ws) .modelBody c).withMarker .plus) :: cs,
        ?_, ?_, ?_⟩
      · rw [List.map_cons, hpart, readParts, hcontent l hl,
          addParams_plain m (Polarity.onLine?_written hws .modelBody .plus), hcarry, hread]
        simp
      · have hempty := hws.isEmpty_readAssignments .modelBody
        rw [List.isEmpty_eq_false_iff.mpr hne] at hempty
        rw [tailLines_params (l := (Param.readAssignments o (spaced ws) .modelBody c).withMarker
          .plus) hempty, hws.render .modelBody (m := .plus) (by decide), hwritten]
      · change Param.Source.lastCarry c (_ :: _) = _
        rw [Param.Source.lastCarry_cons, hcarry, hlast]

/-- A model as it is written under the name and with the type. -/
inductive Written (o : Options) (name type : Text) : Text → List Text → Prop where
  | mk {ws : List Text} {c : Carry} {tail : List Text} (name_ink : IsInk name)
      (type_ink : IsInk type) (type_noParen : '(' ∉ type)
      (emitted : (ModelType.ofKeyword type).emitted = type)
      (params : Param.ReadsBack o .closed ws c) (below : Param.Below o c tail)
      (full : ∀ t ∈ tail, IsFull t = true) : Written o name type (written name type ws) tail

/-- Comments below the last parameters are no part of the statement. -/
theorem Written.split {head : Text} {raws : List Text} (h : Written o name type head raws) :
    ∃ tail after, raws = tail ++ after ∧ Written o name type head tail ∧ IsStatement head tail ∧
      ∀ t ∈ after, isSilent t = true := by
  obtain ⟨hname, htype, hopen, hemitted, hws, hbelow, hfull⟩ := h
  obtain ⟨tail, after, rfl, htail, hends, hafter⟩ := hbelow.split
  exact ⟨tail, after, rfl, ⟨hname, htype, hopen, hemitted, hws, htail,
    fun t ht => hfull t (List.mem_append_left _ ht)⟩, isStatement_written _ _ _ htail hends, hafter⟩

theorem headLine_eq {l : ParamLine} (hparams : m.params = some l) (hmarker : l.marker = .none)
    (hempty : l.isEmpty = true ↔ spaced (l.pieces.map Piece.render) = []) :
    m.headLine = written m.name m.type.emitted (l.pieces.map Piece.render) := by
  have hrender : l.render = spaced (l.pieces.map Piece.render) := by rw [ParamLine.render, hmarker]
  have hset : ∀ head : Text, (if l.isEmpty then head else head ++ ' ' :: l.render) =
      head ++ setOff (spaced (l.pieces.map Piece.render)) := by
    intro head
    rw [hrender, setOff]
    simp only [List.isEmpty_iff, ← hempty]
    split
    · exact (List.append_nil _).symm
    · rfl
  cases m
  cases hparams
  exact hset _

theorem close_of_lastCarry {l : ParamLine} (hparams : m.params = some l)
    (h : Param.Source.lastCarry l.carry (m.tail.filterMap Continuation.params?) = .closed) :
    m.close = m := by
  rw [close]
  split
  · next hempty =>
      rw [List.isEmpty_iff.mp hempty] at h
      rw [hparams, Option.map_some, Param.paramLine_close h, ← hparams]
  · next hne =>
      have hcarried := Param.carried_eq_lastCarry (by simpa using hne) l.carry
      rw [h] at hcarried
      rw [Param.close_of_carried hcarried]

/-- A written model is read as one of the same name and type, and is written the same way. -/
theorem Written.read {head : Text} {s : Statement} {cx : Context} (d : Dialect)
    (h : Written cx.options name type head tail) (hs : IsStatement head tail)
    (hreads : s.ReadsAs head tail) :
    ∃ opening, s.kind cx.symbols cx.options d = .model opening ∧ opening.braced = false ∧
      let m := (Model.ofHead cx.options opening s).close
      m.render = head :: tail ∧ m.base = name ∧ m.name = name ∧ m.type = .ofKeyword type := by
  obtain ⟨hname, htype, hopen, hemitted, hws, hbelow, hfull⟩ := h
  rename_i ws c
  have hcontent : s.head.content = written name type ws := by
    rw [hreads.content hs, trim_written htype hws]
  have hmodel := dottedModel?_written hname htype hopen hws
  let l := Param.readAssignments cx.options (spaced ws) .modelBody .closed
  have hcarry : l.carry = c := hws.carry .modelBody
  have honLine : Polarity.onLine? l = none :=
    Polarity.onLine?_written hws .modelBody l.marker
  refine ⟨{ name, keyword := type, rest := spaced ws }, ?_, rfl, ?_⟩
  · exact Statement.kind_dottedModel cx.symbols cx.options d (hcontent.trans (written_eq _ _ _))
      (by rw [hcontent, hmodel])
  · obtain ⟨cs, hread, hwritten, hlast⟩ := readParts_below hbelow hfull hreads.tail
      ((new name type s.number).withParams l)
    have hhead : Model.ofHead cx.options { name, keyword := type, rest := spaced ws } s =
        { new name type s.number with params := some l, tail := cs } := by
      change readParts cx.options ((new name type s.number).withParams l) l.carry _ = _
      rw [hcarry, hread, withParams_plain _ honLine]
      rfl
    have hclose : (Model.ofHead cx.options { name, keyword := type, rest := spaced ws } s).close =
        Model.ofHead cx.options { name, keyword := type, rest := spaced ws } s := by
      refine close_of_lastCarry (l := l) (by rw [hhead]) ?_
      rw [hcarry, hhead]
      exact hlast
    have hwords : spaced (l.pieces.map Piece.render) = spaced ws :=
      Param.eq_spaced_of_apart (Param.RereadsLine.readAssignments hws .modelBody).2.1
    rw [hclose, hhead]
    refine ⟨?_, rfl, rfl, rfl⟩
    have hempty : l.isEmpty = true ↔ spaced (l.pieces.map Piece.render) = [] := by
      rw [hwords, hws.spaced_eq_nil_iff, ← List.isEmpty_iff]
      exact Eq.congr_left (hws.isEmpty_readAssignments .modelBody)
    have hline := headLine_eq (m := { new name type s.number with params := some l, tail := cs })
      rfl (Param.marker_readAssignments _ _ _ _) hempty
    have htext : ∀ emitted, emitted = type →
        written name emitted (l.pieces.map Piece.render) = written name type ws := by
      rintro _ rfl
      unfold written
      rw [hwords]
    rw [render_eq, hline, hwritten]
    exact congrArg (· :: tail) (htext _ hemitted)

end Reading
end Model
end SpiceDeck
