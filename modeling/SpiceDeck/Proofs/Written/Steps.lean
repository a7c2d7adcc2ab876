import SpiceDeck.Proofs.Written.Regular

/-!
Steps of a regular conversion. What is open stays written in lines that read back, and what a
step writes outside of subcircuits is written again as it stands. Main statement: both hold of
every step that meets its conditions.
-/

namespace SpiceDeck
open Text

theorem Statement.directive?_of_kind {s : Statement} {symbols : Symbols} {o : Options} {d : Dialect}
    {text : Text} (h : s.kind symbols o d = .directive text) :
    Head.directive? s.head.content = some text := by
  have hmem := Kind.mem_of_firstOf h nofun
  cases d with
  | spectre => simpa [eq_comm (a := some (Kind.directive text))] using hmem
  | spice => simp [eq_comm (a := some (Kind.directive text))] at hmem

namespace Scope
variable {p : Rerun} {s : Statement} {scope : Scope} {sub : Subcircuit} {parent : Option Subcircuit}
  {block : Model.Block} {ts : List Text} {rest : List Line}

/-- What is open is written in lines that read back. -/
def IsSound (p : Rerun) : Scope → Prop
  | .top => True
  | .pins sub | .body sub => sub.IsSound p.second p.dialect
  | .model parent block =>
      (∀ sub ∈ parent, sub.IsSound p.second p.dialect) ∧ block.Runs p.options

/-- A step keeps what is open sound, and what it writes is written again. -/
structure Goes (p : Rerun) (x : Scope × Deck) : Prop where
  sound : x.1.IsSound p
  lines : WritesAgain p.second p.dialect x.2.lines

theorem goes_of_no_lines {x : Scope × Deck} (h : x.1.IsSound p) (hlines : x.2.lines = []) :
    Goes p x := ⟨h, by rw [hlines]; exact writesAgain_nil _ _⟩

theorem silent_map_verbatim (hsilent : Param.SilentApart rest) (h : Line.AllSilent rest) :
    ∀ t ∈ rest.map Line.verbatim, isSilent t = true := by
  intro t ht
  obtain ⟨l, hl, rfl⟩ := List.mem_map.mp ht
  exact hsilent l hl (h l hl)

theorem IsSound.copyAll (h : scope.IsSound p) (hts : ∀ t ∈ ts, isSilent t = true) :
    Goes p (scope.copyAll ts) := by
  cases scope with
  | top =>
      rw [copyAll_top]
      exact ⟨trivial, writesAgain_silent hts⟩
  | pins sub =>
      rw [copyAll_pins]
      exact goes_of_no_lines (Subcircuit.IsSound.addHeader h (Param.below_silent hts) _) rfl
  | body sub =>
      rw [copyAll_body]
      exact goes_of_no_lines (Subcircuit.IsSound.copyLines h (Parts.silent hts)) rfl
  | model parent block =>
      induction ts generalizing block with
      | nil => exact goes_of_no_lines h rfl
      | cons t r ih =>
          obtain ⟨ht, hr⟩ := List.forall_mem_cons.mp hts
          have hnext : IsSound p (.model parent (block.modifyCurrent (·.addText t))) :=
            ⟨h.1, h.2.addText ht⟩
          have hrest := ih hr _ hnext
          refine ⟨hrest.sound, ?_⟩
          have hnone : (copy t (.model parent block)).2.lines = [] := rfl
          rw [Scope.copyAll, Deck.lines_append, hnone, List.nil_append]
          exact hrest.lines

/-- Models are written as they will be read where the block is outside of subcircuits. -/
theorem endModel_sound (hparent : ∀ sub ∈ parent, sub.IsSound p.second p.dialect)
    (hblock : block.Runs p.options) (hr : block.Repeats p.options) :
    (around (endModel parent block).1).IsSound p ∧
      WritesAgain p.second p.dialect (endModel parent block).2.lines := by
  have hmodels := hblock.isSound_models hr
  cases parent with
  | some sub =>
      obtain ⟨hsome, hlines⟩ := endModel_some sub block
      rw [hsome, hlines]
      exact ⟨(hparent sub rfl).addModels fun m hm => ⟨hmodels m hm, hr.models m hm⟩,
        writesAgain_nil _ _⟩
  | none =>
      refine ⟨trivial, ?_⟩
      have hlines : (endModel none block).2.lines =
          block.closeValue.models.flatMap Model.render := by
        simp only [endModel, Deck.lines_append, lines_warnIf, List.nil_append]
        exact Segment.lines_concat_map (fun _ => rfl) _
      rw [hlines]
      have hrepeats := hr.models
      generalize block.closeValue.models = ms at hmodels hrepeats
      induction ms with
      | nil => exact writesAgain_nil _ _
      | cons m r ih =>
          obtain ⟨hm, hmr⟩ := List.forall_mem_cons.mp hmodels
          obtain ⟨hx, hxr⟩ := List.forall_mem_cons.mp hrepeats
          rw [List.flatMap_cons, Model.render_eq]
          exact (writesAgain_model (Model.IsSound.written hm hx)).append (ih hmr hxr)

theorem goes_leaveModel (hparent : ∀ sub ∈ parent, sub.IsSound p.second p.dialect)
    (hblock : block.Runs p.options) (hsilent : Param.SilentApart rest)
    (h : block.EndRepeats p.options rest) : Goes p (leaveModel parent block rest) := by
  obtain ⟨hsound, hlines⟩ := endModel_sound hparent hblock h.1
  have hrest := hsound.copyAll (silent_map_verbatim hsilent h.2)
  exact ⟨hrest.sound, hlines.append hrest.lines⟩

/-- What a block has read is kept, unless it ends there. -/
theorem goes_readBlock (hparent : ∀ sub ∈ parent, sub.IsSound p.second p.dialect)
    (x : Model.Block × Option (List Line)) :
    x.1.Runs p.options → (∀ rest ∈ x.2, Param.SilentApart rest) →
      (∀ rest ∈ x.2, x.1.EndRepeats p.options rest) →
      Goes p (match x with
        | (block, none) => (.model parent block, {})
        | (block, some rest) => leaveModel parent block rest) := by
  intro hblock hsilent h
  obtain ⟨block, rest | rest⟩ := x
  · exact goes_of_no_lines ⟨hparent, hblock⟩ rfl
  · exact goes_leaveModel hparent hblock (hsilent rest rfl) (h rest rfl)

theorem goes_enterModel (hparent : ∀ sub ∈ parent, sub.IsSound p.second p.dialect)
    (hsilent : Param.SilentApart s.tail) {head : ModelOpening}
    (h : if head.braced then s.BracedRepeats p head else s.ModelRepeats p head) :
    Goes p (enterModel p.options parent head s) := by
  cases hbraced : head.braced with
  | true =>
      rw [if_pos hbraced] at h
      rw [enterModel, if_pos hbraced]
      refine goes_readBlock hparent _ (Model.Block.runs_ofHead head hsilent h.1) ?_ h.2
      exact fun rest hrest l hl => hsilent l ((Model.Block.suffix_ofHead hrest).subset hl)
  | false =>
      rw [hbraced, if_neg Bool.false_ne_true] at h
      have hsound := Model.isSound_close_ofHead hsilent h.1
      simp only [enterModel, hbraced, Bool.false_eq_true, if_false]
      cases parent with
      | some sub =>
          exact goes_of_no_lines ((hparent sub rfl).addModel hsound h.2) (lines_warnIf _ _ _)
      | none =>
          refine ⟨trivial, ?_⟩
          simp only [Deck.lines_append, lines_warnIf, List.nil_append, Subcircuit.renderModel]
          rw [Model.render_eq]
          exact writesAgain_model (Model.IsSound.written hsound h.2)

theorem goes_enterSubcircuit (hsilent : Param.SilentApart s.tail) {head : SubcircuitOpening}
    (h : (Header.ofHead p.options head s.tail).1.Repeats p.options) :
    Goes p (enterSubcircuit p.options head s) := by
  have hbelow := (Header.extends_ofHead head hsilent).below rfl h
  have hsub := (Subcircuit.isSound_new p.second p.dialect head.name s.number).addHeader hbelow
    (Header.ofHead p.options head s.tail).1.pins
  refine goes_of_no_lines ?_ (lines_warnIf _ _ _)
  simp only [enterSubcircuit]
  split <;> exact hsub

theorem goes_directive {text : Text} (hsilent : Param.SilentApart s.tail)
    (hkind : Head.directive? s.head.content = some text) (h : s.DirectiveRepeats text) :
    Parts (Statement.IsCopied p.second p.dialect) (text :: s.tail.map Line.verbatim) := by
  obtain hst | ⟨htext, hrest⟩ := h
  · obtain ⟨x, rfl⟩ | ⟨command, hcommand, x, rfl⟩ := Head.directive?_written hkind
    · cases hst.code
    · exact .single hst (Statement.isCopied_directive hcommand hst _ _)
  · exact .silent (List.forall_mem_cons.mpr ⟨htext, silent_map_verbatim hsilent hrest⟩)

theorem parts_copied (h : s.StaysCopied p) :
    Parts (Statement.IsCopied p.second p.dialect) s.verbatim := by
  obtain ⟨⟨hst, hreads⟩, hkind⟩ := h
  rw [hreads.kind_eq] at hkind
  exact .single hst hkind

theorem marker_readStatement?_topLevel {o : Options} {t : Text} {c : Carry} {l : ParamLine}
    (h : Param.readStatement? o t .topLevel c = some l) : l.marker = .param := by
  simp only [Param.readStatement?] at h
  split at h
  · cases h
    rfl
  · split at h
    · cases h
      rfl
    · cases h

variable {kind : Statement.Kind}

theorem goes_stepTop_copied (hkind : kind.isCopied = true) (h : s.StaysCopied p) :
    Goes p (stepTop p.first s kind) := by
  obtain ⟨htop, hlines⟩ := stepTop_copied hkind p.first s
  refine ⟨by rw [htop]; trivial, ?_⟩
  rw [hlines]
  exact (parts_copied h).writesAgain

theorem goes_stepBody_copied (hsub : sub.IsSound p.second p.dialect) (hkind : kind.isCopied = true)
    (h : s.StaysCopied p) : Goes p (stepBody p.first sub s kind) := by
  obtain ⟨hbody, hlines⟩ := stepBody_copied hkind p.first sub s
  refine goes_of_no_lines ?_ hlines
  rw [hbody]
  exact hsub.copyLines (parts_copied h)

theorem goes_stepTop (hsilent : Param.SilentApart s.lines)
    (hdirective : ∀ text, kind = .directive text → Head.directive? s.head.content = some text)
    (h : TopRepeats p s kind) : Goes p (stepTop p.first s kind) := by
  have htail : Param.SilentApart s.tail := fun l hl => hsilent l (List.mem_cons_of_mem _ hl)
  cases kind with
  | parameters =>
      obtain ⟨head, hhead, hr⟩ := h
      obtain ⟨ws, c, raws, hws, hbelow, hmarker, hlines, hnone⟩ :=
        parameterLines_writes htail hhead hr
      rw [marker_readStatement?_topLevel hhead] at hlines
      refine ⟨trivial, ?_⟩
      have hdeck : (stepTop p.first s .parameters).2.lines =
          (parameterLines p.options s .topLevel).2.1 ++
            (parameterLines p.options s .topLevel).2.2.lines := rfl
      rw [hdeck, hlines, hnone, List.append_nil]
      exact writesAgain_parameters hws hbelow
  | model head => exact goes_enterModel (by rintro x hx; cases hx) htail h
  | subcircuitOpen head => exact goes_enterSubcircuit htail h
  | subcircuitClose name =>
      obtain ⟨⟨hst, hreads⟩, hkind⟩ := h
      rw [hreads.kind_eq] at hkind
      exact ⟨trivial, writesAgain_close hst hkind⟩
  | directive text => exact ⟨trivial, (goes_directive htail (hdirective text rfl) h).writesAgain⟩
  | deviceCall head =>
      exact ⟨trivial, writesAgain_render (Call.isSound_close_ofHead hsilent h.1) h.2⟩
  | binHeader _ _ | blockClose | other => exact goes_stepTop_copied rfl h
  | simulator _ | statistics =>
      have hother : Goes p (stepTop p.first s .other) := goes_stepTop_copied rfl h
      exact hother

theorem goes_stepBody (hsub : sub.IsSound p.second p.dialect) (hsilent : Param.SilentApart s.lines)
    (hdirective : ∀ text, kind = .directive text → Head.directive? s.head.content = some text)
    (h : BodyRepeats p s sub kind) : Goes p (stepBody p.first sub s kind) := by
  have htail : Param.SilentApart s.tail := fun l hl => hsilent l (List.mem_cons_of_mem _ hl)
  cases kind with
  | parameters =>
      obtain ⟨head, hhead, hr⟩ := h
      obtain ⟨ws, c, raws, hws, hbelow, hmarker, hlines, hnone⟩ :=
        parameterLines_writes htail hhead hr
      simp only [stepBody, Rerun.options_first, hlines]
      rw [hmarker]
      split
      · next hparam =>
          refine goes_of_no_lines (hsub.addBody fun _ => ?_) hnone
          rw [hparam]
          exact addsLines_parameters hws hbelow
      · next hplus =>
          obtain ⟨hkinds, -⟩ := Param.composed_readStatement? Param.sound_closed hhead
          refine goes_of_no_lines (hsub.addHeader ?_ sub.pins) hnone
          rw [hkinds.resolve_left hplus]
          exact .params hws hbelow
  | model head =>
      have hparent : ∀ x ∈ some sub, x.IsSound p.second p.dialect := by
        rintro x hx
        cases hx
        exact hsub
      exact goes_enterModel hparent htail h
  | subcircuitOpen head =>
      obtain ⟨⟨hst, hreads⟩, hkind⟩ := h
      rw [hreads.kind_eq] at hkind
      exact goes_of_no_lines (hsub.addBody fun _ => addsLines_opening hst hkind) rfl
  | subcircuitClose name =>
      obtain ⟨htop, hlines⟩ := stepBody_close p.first sub s name
      refine ⟨by rw [htop]; trivial, ?_⟩
      rw [hlines]
      exact (hsub.writesAgain h.1).append (writesAgain_silent (silent_map_verbatim htail h.2))
  | directive text =>
      exact goes_of_no_lines (hsub.addBody fun _ => (goes_directive htail (hdirective text rfl)
        h).addsLines Subcircuit.isAbove_inBody) rfl
  | deviceCall head =>
      have hcall := Call.isSound_close_ofHead hsilent h
      exact goes_of_no_lines (hsub.addCall hcall) (lines_warnIf _ _ _)
  | binHeader _ _ | blockClose | other => exact goes_stepBody_copied hsub rfl h
  | simulator _ | statistics =>
      have hother : Goes p (stepBody p.first sub s .other) := goes_stepBody_copied hsub rfl h
      exact hother

theorem goes_stepPins (hsub : sub.IsSound p.second p.dialect) (hsilent : Param.SilentApart s.lines)
    (h : PinsRepeat p s sub kind) : Goes p (stepPins p.first sub s kind) := by
  have hmore : (Header.readLines p.options { pins := sub.pins } false s.lines).1.Repeats p.options →
      Goes p (stepPins p.first sub s .other) := by
    intro hr
    have hextends : Header.Extends p.options { pins := sub.pins }
        (Header.readLines p.options { pins := sub.pins } false s.lines).1 :=
      Header.extends_readLines hsilent fun _ => rfl
    have hbelow := hextends.below rfl hr
    refine goes_of_no_lines ?_ (lines_warnIf _ _ _)
    have hnext := hsub.addHeader hbelow
      (Header.readLines p.options { pins := sub.pins } false s.lines).1.pins
    simp only [stepPins]
    split <;> exact hnext
  cases kind with
  | subcircuitClose name =>
      have hclose : BodyRepeats p s sub (.subcircuitClose name) := h
      exact goes_stepBody hsub hsilent (by rintro text ⟨⟩) hclose
  | simulator _ | parameters | statistics | model _ | binHeader _ _ | blockClose | subcircuitOpen _
  | directive _ | deviceCall _ | other => exact hmore h

theorem goes_interruptModel (hparent : ∀ sub ∈ parent, sub.IsSound p.second p.dialect)
    (hblock : block.Runs p.options) (hsilent : Param.SilentApart s.lines)
    (hdirective : ∀ text, kind = .directive text → Head.directive? s.head.content = some text)
    (h : InterruptRepeats p s parent block kind) :
    Goes p (interruptModel p.first parent block s kind) := by
  obtain ⟨hend, hlines⟩ := endModel_sound hparent hblock h.1
  have hstep : Goes p ((around (endModel parent block).1).step p.first s kind) := by
    have hr := h.2
    cases haround : (endModel parent block).1 with
    | none =>
        rw [haround] at hr
        exact goes_stepTop hsilent hdirective hr
    | some sub =>
        rw [haround] at hr hend
        exact goes_stepBody hend hsilent hdirective hr
  rw [interruptModel_eq]
  exact ⟨hstep.sound, hlines.append hstep.lines⟩

theorem goes_stepModel (hparent : ∀ sub ∈ parent, sub.IsSound p.second p.dialect)
    (hblock : block.Runs p.options) (hsilent : Param.SilentApart s.lines)
    (h : BlockRepeats p s parent block kind) : Goes p (stepModel p.first parent block s kind) := by
  have htail : Param.SilentApart s.tail := fun l hl => hsilent l (List.mem_cons_of_mem _ hl)
  have hread : LinesRepeat p s block → Goes p (stepModel p.first parent block s .other) := by
    intro hr
    refine goes_readBlock hparent _ (hblock.readLines hsilent hr.1) ?_ hr.2
    exact fun rest hrest l hl => hsilent l ((Model.Block.suffix_readLines hrest).subset hl)
  cases kind with
  | blockClose => exact goes_leaveModel hparent hblock htail h
  | subcircuitOpen _ | subcircuitClose _ | model _ =>
      exact goes_interruptModel hparent hblock hsilent (by rintro text ⟨⟩) h
  | simulator _ | parameters | statistics | binHeader _ _ | directive _ | deviceCall _ | other =>
      exact hread h

/-- A step that meets its conditions keeps what is open sound, and writes lines that are written
again. -/
theorem goes_step (h : scope.IsSound p) (hsilent : Param.SilentApart s.lines)
    (hdirective : ∀ text, kind = .directive text → Head.directive? s.head.content = some text)
    (hr : scope.StepRepeats p s kind) : Goes p (scope.step p.first s kind) := by
  cases scope with
  | top => exact goes_stepTop hsilent hdirective hr
  | pins sub => exact goes_stepPins h hsilent hr
  | body sub => exact goes_stepBody h hsilent hdirective hr
  | model parent block => exact goes_stepModel h.1 h.2 hsilent hr

theorem writesAgain_finishSubcircuit (h : sub.IsSound p.second p.dialect)
    (hr : sub.Repeats p.first p.second p.dialect) :
    WritesAgain p.second p.dialect (finishSubcircuit p.first sub).lines := by
  have hlines : (finishSubcircuit p.first sub).lines = Segment.lines p.first (.block sub) := by
    rw [finishSubcircuit, Deck.lines_append, Subcircuit.lines_close, Segment.lines_block]
    rfl
  rw [hlines]
  exact h.writesAgain hr

/-- What is open at the end is written in lines that are written again. -/
theorem IsSound.finish (h : scope.IsSound p) (hr : scope.EndRepeats p) :
    WritesAgain p.second p.dialect (scope.finish p.first).lines := by
  cases scope with
  | top => exact writesAgain_nil _ _
  | pins sub | body sub => exact writesAgain_finishSubcircuit h hr
  | model parent block =>
      obtain ⟨hend, hlines⟩ := endModel_sound h.1 h.2 hr.1
      have hrest := hr.2
      rw [finish_model]
      refine hlines.append ?_
      cases haround : (endModel parent block).1 with
      | none => exact writesAgain_nil _ _
      | some sub =>
          rw [haround] at hend hrest
          exact writesAgain_finishSubcircuit hend (hrest sub rfl)

end Scope
end SpiceDeck
