import SpiceDeck.Conversion
import SpiceDeck.Proofs.Inert.Kept

/-!
Line numbers label warnings and nothing else. `renumber` gives the lines of a value new
numbers; the lemmas say that it commutes with every reader and every step, so that a deck
under new numbers gives the same lines and the same warnings under the new numbers.
-/

namespace SpiceDeck
open Text

variable (ρ : Nat → Nat)

namespace Deck

def renumber (d : Deck) : Deck := { d with warnings := d.warnings.map (Warning.renumber ρ) }

@[simp] theorem renumber_append (a b : Deck) :
    (a ++ b).renumber ρ = a.renumber ρ ++ b.renumber ρ :=
  congrArg (Deck.mk _) List.map_append

@[simp] theorem renumber_ofLines (lines : List Text) : (ofLines lines).renumber ρ = ofLines lines :=
  rfl

@[simp] theorem renumber_empty : ({} : Deck).renumber ρ = {} := rfl

@[simp] theorem renumber_warn (c : Cause) (n : Nat) : (warn c n).renumber ρ = warn c (ρ n) := rfl

@[simp] theorem renumber_warnIf (b : Bool) (c : Cause) (n : Nat) :
    (warnIf b c n).renumber ρ = warnIf b c (ρ n) := by
  cases b <;> rfl

theorem renumber_concat_map {α : Type} {f g : α → Deck} {r : α → α}
    (h : ∀ a, g (r a) = (f a).renumber ρ) (l : List α) :
    concat ((l.map r).map g) = (concat (l.map f)).renumber ρ := by
  induction l with
  | nil => rfl
  | cons a l ih => simp only [List.map_cons, concat, h, ih, renumber_append]

end Deck

def Call.renumber (c : Call) : Call := { c with line := ρ c.line }

@[simp] theorem Call.close_renumber (c : Call) : (c.renumber ρ).close = c.close.renumber ρ := by
  simp only [close, apply_ite (renumber ρ)]
  rfl

namespace Model

def renumber (m : Model) : Model := { m with line := ρ m.line }

@[simp] theorem absorb_renumber (m : Model) (l : ParamLine) :
    (m.renumber ρ).absorb l = (m.absorb l).renumber ρ := by
  simp only [absorb]
  split <;> rfl

@[simp] theorem withParams_renumber (m : Model) (l : ParamLine) :
    (m.renumber ρ).withParams l = (m.withParams l).renumber ρ := by
  simp only [withParams, absorb_renumber]
  rfl

@[simp] theorem addParams_renumber (m : Model) (l : ParamLine) :
    (m.renumber ρ).addParams l = (m.addParams l).renumber ρ := by
  simp only [addParams, absorb_renumber]
  rfl

@[simp] theorem close_renumber (m : Model) : (m.renumber ρ).close = m.close.renumber ρ := by
  simp only [close, apply_ite (renumber ρ)]
  rfl

theorem warning?_renumber (m : Model) :
    (m.renumber ρ).warning? = m.warning?.map (Warning.renumber ρ) := by
  simp only [warning?, renumber]
  split <;> rfl

theorem readParts_renumber (o : Options) (m : Model) (carry : Carry) (ps : List Part) :
    readParts o (m.renumber ρ) carry ps = (readParts o m carry ps).renumber ρ := by
  induction ps generalizing m carry with
  | nil => rfl
  | cons p r ih =>
      cases p with
      | code t => simp only [readParts, addParams_renumber, ih]
      | passive t => exact ih (m.addText t) carry

end Model

namespace Model.Block

def renumber (b : Model.Block) : Model.Block :=
  { b with
    common := b.common.renumber ρ
    bins := b.bins.map fun (i, m) => (i, m.renumber ρ) }

@[simp] theorem currentModel_renumber (b : Model.Block) :
    (b.renumber ρ).currentModel = b.currentModel.renumber ρ := by
  simp only [currentModel, renumber]
  cases b.current with
  | none => rfl
  | some index =>
      simp only [Option.bind_some, lookup_map]
      cases b.bins.lookup index <;> rfl

theorem modifyCurrent_renumber {f : Model → Model} (h : ∀ m, f (m.renumber ρ) = (f m).renumber ρ)
    (b : Model.Block) : (b.renumber ρ).modifyCurrent f = (b.modifyCurrent f).renumber ρ := by
  cases hc : b.current with
  | none => simp only [modifyCurrent, renumber, hc, h]
  | some index =>
      simp only [modifyCurrent, renumber, hc, List.map_map, Model.Block.mk.injEq, true_and,
        and_true]
      refine List.map_congr_left ?_
      rintro ⟨i, m⟩ -
      simp only [Function.comp]
      split
      · rw [h]
      · rfl

theorem openBin_renumber (b : Model.Block) (index : Nat) (l : ParamLine) (n : Nat) :
    (b.renumber ρ).openBin index l (ρ n) = (b.openBin index l n).renumber ρ := by
  simp only [openBin, renumber, insertBin_map, ← Model.withParams_renumber]
  rfl

@[simp] theorem isOpen_renumber (b : Model.Block) : (b.renumber ρ).isOpen = b.isOpen := by
  simp only [isOpen, currentModel_renumber]
  rfl

@[simp] theorem closeValue_renumber (b : Model.Block) :
    (b.renumber ρ).closeValue = b.closeValue.renumber ρ := by
  have hcarry : (b.renumber ρ).carry = b.carry := rfl
  simp only [closeValue, hcarry, modifyCurrent_renumber ρ (Model.close_renumber ρ)]
  split <;> rfl

@[simp] theorem models_renumber (b : Model.Block) :
    (b.renumber ρ).models = b.models.map (Model.renumber ρ) := by
  have hempty : (b.renumber ρ).bins.isEmpty = b.bins.isEmpty := List.isEmpty_map
  simp only [models, hempty]
  split
  · rfl
  · rw [List.map_map, renumber, List.map_map]
    rfl

theorem readText_renumber (o : Options) (b : Model.Block) (t : Text) (n : Nat) :
    (b.renumber ρ).readText o t (ρ n) = (b.readText o t n).renumber ρ := by
  have hcarry : (b.renumber ρ).carry = b.carry := rfl
  have hparams := modifyCurrent_renumber ρ
    (f := (·.addParams (Param.readContinuation o t .modelBody b.carry)))
    (fun m => Model.addParams_renumber ρ m _) b
  simp only [readText, hcarry, hparams, openBin_renumber]
  split <;> rfl

theorem readLine_renumber (o : Options) (b : Model.Block) (t : Text) (n : Nat) :
    (b.renumber ρ).readLine o t (ρ n) =
      ((b.readLine o t n).1.renumber ρ, (b.readLine o t n).2) := by
  have hcarry : (b.renumber ρ).carry = b.carry := rfl
  simp only [readLine, hcarry, readText_renumber]
  split <;> rfl

theorem readLines_renumber (o : Options) (b : Model.Block) (lines : List Line) :
    (b.renumber ρ).readLines o (lines.map (Line.renumber ρ)) =
      ((b.readLines o lines).1.renumber ρ,
        (b.readLines o lines).2.map (List.map (Line.renumber ρ))) := by
  induction lines generalizing b with
  | nil => rfl
  | cons l r ih =>
      have hnumber : (l.renumber ρ).number = ρ l.number := rfl
      have hcopy := modifyCurrent_renumber ρ (f := (·.addText l.verbatim)) (fun _ => rfl) b
      have hverbatim : (l.renumber ρ).verbatim = l.verbatim := rfl
      simp only [List.map_cons, readLines, Line.isCode_renumber, Line.content_renumber, hnumber,
        readLine_renumber, hverbatim, hcopy]
      split
      · split
        · rfl
        · exact ih _
      · exact ih _

end Model.Block

namespace Statement

def renumber (s : Statement) : Statement :=
  { head := s.head.renumber ρ, tail := s.tail.map (Line.renumber ρ) }

@[simp] theorem number_renumber (s : Statement) : (s.renumber ρ).number = ρ s.number := rfl

@[simp] theorem lines_renumber (s : Statement) :
    (s.renumber ρ).lines = s.lines.map (Line.renumber ρ) := rfl

@[simp] theorem content_renumber (s : Statement) :
    (s.renumber ρ).head.content = s.head.content := rfl

theorem map_renumber {f : Line → Text} (hf : ∀ l, f (l.renumber ρ) = f l) (lines : List Line) :
    (lines.map (Line.renumber ρ)).map f = lines.map f := by
  rw [List.map_map]
  exact List.map_congr_left fun l _ => hf l

@[simp] theorem verbatim_tail_renumber (s : Statement) :
    (s.renumber ρ).tail.map Line.verbatim = s.tail.map Line.verbatim :=
  map_renumber ρ (fun _ => rfl) s.tail

@[simp] theorem verbatim_renumber (s : Statement) : (s.renumber ρ).verbatim = s.verbatim :=
  map_renumber ρ (fun _ => rfl) s.lines

@[simp] theorem codeLines_renumber (s : Statement) :
    (s.renumber ρ).codeLines = s.codeLines.map (Line.renumber ρ) := by
  rw [codeLines, lines_renumber, List.filter_map]
  rfl

@[simp] theorem joined_renumber (s : Statement) (n : Nat) :
    (s.renumber ρ).joined n = s.joined n := by
  rw [joined, codeLines_renumber, ← List.map_take, map_renumber ρ (fun _ => rfl), joined]

theorem linesUntil?_renumber (s : Statement) (pass : Text → Bool) (k n : Nat) :
    Head.linesUntil? (s.renumber ρ) pass k n = Head.linesUntil? s pass k n := by
  induction n generalizing k with
  | zero => rfl
  | succ n ih => simp only [Head.linesUntil?, joined_renumber, ih]

@[simp] theorem kind_renumber (s : Statement) (symbols : Symbols) (o : Options) (d : Dialect) :
    (s.renumber ρ).kind symbols o d = s.kind symbols o d := by
  have hparen : Head.parenCall? (s.renumber ρ) = Head.parenCall? s := by
    simp only [Head.parenCall?, content_renumber, codeLines_renumber, List.length_map,
      linesUntil?_renumber, joined_renumber]
  have hbare : ∀ spectre, Head.bareCall? symbols o spectre (s.renumber ρ) =
      Head.bareCall? symbols o spectre s := by
    intro spectre
    simp only [Head.bareCall?, content_renumber, codeLines_renumber, List.length_map,
      linesUntil?_renumber, joined_renumber]
  simp only [kind, content_renumber, hparen, hbare]
  rfl

end Statement

theorem Param.tail_renumber (o : Options) (place : Placement) (carry : Carry) (lines : List Line) :
    tail o place carry (lines.map (Line.renumber ρ)) = tail o place carry lines := by
  induction lines generalizing carry with
  | nil => rfl
  | cons l r ih =>
      have hverbatim : (l.renumber ρ).verbatim = l.verbatim := rfl
      simp only [List.map_cons, tail, Line.isCode_renumber, Line.text_renumber, hverbatim, ih]

theorem Param.dropCode_renumber (n : Nat) (lines : List Line) :
    dropCode n (lines.map (Line.renumber ρ)) = (dropCode n lines).map (Line.renumber ρ) := by
  induction lines generalizing n with
  | nil => rfl
  | cons l r ih =>
      cases hl : l.isCode with
      | true =>
          cases n with
          | zero => simp only [List.map_cons, dropCode, Line.isCode_renumber, hl, if_true]
          | succ n => simp only [List.map_cons, dropCode, Line.isCode_renumber, hl, if_true, ih]
      | false => simp [dropCode, hl, ih]

@[simp] theorem Call.ofHead_renumber (o : Options) (head : CallOpening) (s : Statement) :
    Call.ofHead o head (s.renumber ρ) = (Call.ofHead o head s).renumber ρ := by
  simp only [Call.ofHead, Statement.lines_renumber, Param.dropCode_renumber, Param.tail_renumber]
  rfl

@[simp] theorem Model.ofHead_renumber (o : Options) (head : ModelOpening) (s : Statement) :
    Model.ofHead o head (s.renumber ρ) = (Model.ofHead o head s).renumber ρ := by
  have hparts : (s.renumber ρ).tail.map Part.ofLine = s.tail.map Part.ofLine := by
    rw [Statement.renumber, List.map_map]
    exact List.map_congr_left fun l _ => rfl
  have hnew : Model.new head.name head.keyword (s.renumber ρ).number =
      (Model.new head.name head.keyword s.number).renumber ρ := rfl
  simp only [Model.ofHead, hparts, hnew, withParams_renumber, readParts_renumber]
  split <;> rfl

theorem Model.Block.ofHead_renumber (o : Options) (head : ModelOpening) (s : Statement) :
    Model.Block.ofHead o head (s.renumber ρ) =
      ((Model.Block.ofHead o head s).1.renumber ρ,
        (Model.Block.ofHead o head s).2.map (List.map (Line.renumber ρ))) := by
  have hnew : Model.Block.new head.name head.keyword (ρ s.number) =
      (Model.Block.new head.name head.keyword s.number).renumber ρ := rfl
  have htail : (s.renumber ρ).tail = s.tail.map (Line.renumber ρ) := rfl
  simp only [Model.Block.ofHead, Statement.number_renumber, hnew, readLine_renumber, htail,
    readLines_renumber]
  split <;> rfl

namespace Header

variable (o : Options)

theorem readLines_renumber (h : Header) (closed : Bool) (lines : List Line) :
    h.readLines o closed (lines.map (Line.renumber ρ)) = h.readLines o closed lines := by
  induction lines generalizing h closed with
  | nil => rfl
  | cons l r ih =>
      have hverbatim : (l.renumber ρ).verbatim = l.verbatim := rfl
      simp only [List.map_cons, readLines, Line.isCode_renumber, Line.text_renumber,
        Line.content_renumber, hverbatim, ih]

theorem readBareLines_renumber (h : Header) (inParams : Bool) (lines : List Line) :
    h.readBareLines o inParams (lines.map (Line.renumber ρ)) =
      h.readBareLines o inParams lines := by
  induction lines generalizing h inParams with
  | nil => rfl
  | cons l r ih =>
      have hverbatim : (l.renumber ρ).verbatim = l.verbatim := rfl
      simp only [List.map_cons, readBareLines, Line.isCode_renumber, Line.content_renumber,
        hverbatim, ih]

theorem ofHead_renumber (head : SubcircuitOpening) (lines : List Line) :
    ofHead o head (lines.map (Line.renumber ρ)) = ofHead o head lines := by
  simp only [ofHead, readLines_renumber, readBareLines_renumber]

end Header

/-- The entry with its item replaced. -/
def Entry.map {α β : Type} (f : α → β) : Entry α → Entry β
  | .item a => .item (f a)
  | .verbatim t => .verbatim t

theorem Entry.filterMap_item?_map {α β : Type} (f : α → β) (es : List (Entry α)) :
    (es.map (Entry.map f)).filterMap Entry.item? = (es.filterMap Entry.item?).map f := by
  induction es with
  | nil => rfl
  | cons e r ih =>
      cases e with
      | item a => exact congrArg (f a :: ·) ih
      | verbatim t => exact ih

namespace Subcircuit

def renumber (s : Subcircuit) : Subcircuit :=
  { s with
    line := ρ s.line
    calls := s.calls.map (Entry.map (Call.renumber ρ))
    models := s.models.map (Entry.map (Model.renumber ρ)) }

theorem insertModel_renumber (m : Model) (es : List (Entry Model)) :
    insertModel (m.renumber ρ) (es.map (Entry.map (Model.renumber ρ))) =
      (insertModel m es).map (Entry.map (Model.renumber ρ)) := by
  induction es with
  | nil => rfl
  | cons e r ih =>
      cases e with
      | verbatim t => exact congrArg (.verbatim t :: ·) ih
      | item old =>
          have hname : sameName (old.renumber ρ).name (m.renumber ρ).name =
              sameName old.name m.name := rfl
          simp only [List.map_cons, Entry.map, insertModel, hname]
          split
          · rfl
          · rw [ih]
            rfl

@[simp] theorem addModel_renumber (s : Subcircuit) (m : Model) :
    (s.renumber ρ).addModel (m.renumber ρ) = (s.addModel m).renumber ρ := by
  simp only [addModel, renumber, insertModel_renumber]

theorem addModels_renumber (s : Subcircuit) (ms : List Model) :
    (ms.map (Model.renumber ρ)).foldl addModel (s.renumber ρ) =
      (ms.foldl addModel s).renumber ρ := by
  induction ms generalizing s with
  | nil => rfl
  | cons m r ih =>
      simp only [List.map_cons, List.foldl_cons, addModel_renumber]
      exact ih (s.addModel m)

@[simp] theorem addCall_renumber (s : Subcircuit) (c : Call) :
    (s.renumber ρ).addCall (c.renumber ρ) = (s.addCall c).renumber ρ := by
  simp only [addCall, renumber, List.map_append]
  rfl

@[simp] theorem copyLines_renumber (s : Subcircuit) (lines : List Text) :
    (s.renumber ρ).copyLines lines = (s.copyLines lines).renumber ρ := by
  have hverbatim : ∀ {α : Type} (f : α → α),
      (lines.map Entry.verbatim).map (Entry.map f) = lines.map .verbatim := by
    intro α f
    rw [List.map_map]
    rfl
  simp only [copyLines, renumber, List.isEmpty_map]
  split
  · simp only [List.map_append, hverbatim]
  · split
    · simp only [List.map_append, hverbatim]
    · rfl

theorem modelFamily?_renumber (s : Subcircuit) (reference : Text) :
    (s.renumber ρ).modelFamily? reference = s.modelFamily? reference := by
  have hsame : (fun m : Model => sameName m.base reference) ∘ Model.renumber ρ =
      fun m => sameName m.base reference := rfl
  simp only [modelFamily?, renumber, Entry.filterMap_item?_map, List.find?_map, hsame,
    Option.map_map]
  rfl

theorem renderCall_renumber (symbols : Symbols) (o : Options) (s : Subcircuit) (e : Entry Call) :
    renderCall symbols o (s.renumber ρ) (e.map (Call.renumber ρ)) =
      (renderCall symbols o s e).renumber ρ := by
  cases e with
  | verbatim t => rfl
  | item c =>
      have hname : (c.renumber ρ).name = c.name := rfl
      have href : (c.renumber ρ).reference = c.reference := rfl
      simp only [Entry.map, renderCall, modelFamily?_renumber, hname, href]
      generalize Resolution.find symbols o c.name c.reference (s.modelFamily? c.reference) = r
      rw [Deck.renumber]
      cases r.warning <;> rfl

theorem renderModel_renumber (e : Entry Model) :
    renderModel (e.map (Model.renumber ρ)) = (renderModel e).renumber ρ := by
  cases e with
  | verbatim t => rfl
  | item m =>
      simp only [Entry.map, renderModel, Model.warning?_renumber, Deck.renumber]
      cases m.warning? <;> rfl

theorem render_renumber (symbols : Symbols) (o : Options) (s : Subcircuit) :
    (s.renumber ρ).render symbols o = (s.render symbols o).renumber ρ := by
  have hcalls : Deck.concat ((s.renumber ρ).calls.map (renderCall symbols o (s.renumber ρ))) =
      (Deck.concat (s.calls.map (renderCall symbols o s))).renumber ρ :=
    Deck.renumber_concat_map ρ (renderCall_renumber ρ symbols o s) s.calls
  have hmodels : Deck.concat ((s.renumber ρ).models.map renderModel) =
      (Deck.concat (s.models.map renderModel)).renumber ρ :=
    Deck.renumber_concat_map ρ (renderModel_renumber ρ) s.models
  simp only [render, hcalls, hmodels, Deck.renumber_append, Deck.renumber_ofLines]
  rfl

@[simp] theorem close_renumber (symbols : Symbols) (o : Options) (s : Subcircuit)
    (name : Option Text) (n : Nat) :
    (s.renumber ρ).close symbols o name (ρ n) = (s.close symbols o name n).renumber ρ := by
  cases name with
  | none => exact render_renumber ρ symbols o s
  | some name =>
      simp only [close, render_renumber, Deck.renumber_append, Deck.renumber_warnIf]
      rfl

end Subcircuit

namespace Scope

def renumber : Scope → Scope
  | .top => .top
  | .pins sub => .pins (sub.renumber ρ)
  | .body sub => .body (sub.renumber ρ)
  | .model parent b => .model (parent.map (Subcircuit.renumber ρ)) (b.renumber ρ)

/-- What a step gives, under new numbers. -/
def renumberStep (x : Scope × Deck) : Scope × Deck := (x.1.renumber ρ, x.2.renumber ρ)

theorem around_renumber (parent : Option Subcircuit) :
    around (parent.map (Subcircuit.renumber ρ)) = (around parent).renumber ρ := by
  cases parent <;> rfl

theorem copyAll_renumber (lines : List Text) (scope : Scope) :
    (scope.renumber ρ).copyAll lines = renumberStep ρ (scope.copyAll lines) := by
  cases scope with
  | top => simp only [renumber, copyAll_top]; rfl
  | pins sub => simp only [renumber, copyAll_pins]; rfl
  | body sub => simp only [renumber, copyAll_body, Subcircuit.copyLines_renumber]; rfl
  | model parent b =>
      have hadd := Model.Block.modifyCurrent_renumber ρ (f := (·.addTexts lines)) (fun _ => rfl) b
      simp only [renumber, copyAll_model, hadd]
      rfl

theorem endModel_renumber (parent : Option Subcircuit) (b : Model.Block) :
    endModel (parent.map (Subcircuit.renumber ρ)) (b.renumber ρ) =
      ((endModel parent b).1.map (Subcircuit.renumber ρ), (endModel parent b).2.renumber ρ) := by
  have hline : (b.currentModel.renumber ρ).line = ρ b.currentModel.line := rfl
  simp only [endModel, Model.Block.isOpen_renumber, Model.Block.currentModel_renumber, hline,
    Model.Block.closeValue_renumber, Model.Block.models_renumber]
  cases parent with
  | some sub =>
      simp only [Option.map_some, Subcircuit.addModels_renumber, Deck.renumber_warnIf]
  | none =>
      have hmodels := Deck.renumber_concat_map ρ
        (f := fun m => Subcircuit.renderModel (.item m))
        (g := fun m => Subcircuit.renderModel (.item m)) (r := Model.renumber ρ)
        (fun m => Subcircuit.renderModel_renumber ρ (.item m)) b.closeValue.models
      simp only [Option.map_none, Deck.renumber_append, Deck.renumber_warnIf]
      exact congrArg (fun d => (none, Deck.warnIf _ _ _ ++ d)) hmodels

theorem leaveModel_renumber (parent : Option Subcircuit) (b : Model.Block) (rest : List Line) :
    leaveModel (parent.map (Subcircuit.renumber ρ)) (b.renumber ρ) (rest.map (Line.renumber ρ)) =
      renumberStep ρ (leaveModel parent b rest) := by
  simp only [renumberStep, leaveModel, endModel_renumber, around_renumber,
    Statement.map_renumber ρ (f := Line.verbatim) (fun _ => rfl), copyAll_renumber,
    Deck.renumber_append]

/-- A block is read on, and perhaps to its end. -/
theorem readBlock_renumber (parent : Option Subcircuit) (x : Model.Block × Option (List Line)) :
    (match ((x.1.renumber ρ, x.2.map (List.map (Line.renumber ρ))) :
        Model.Block × Option (List Line)) with
      | (block, none) => ((.model (parent.map (Subcircuit.renumber ρ)) block, {}) : Scope × Deck)
      | (block, some rest) => leaveModel (parent.map (Subcircuit.renumber ρ)) block rest) =
      renumberStep ρ (match x with
        | (block, none) => (.model parent block, {})
        | (block, some rest) => leaveModel parent block rest) := by
  obtain ⟨b, rest⟩ := x
  cases rest with
  | none => rfl
  | some rest => exact leaveModel_renumber ρ parent b rest

theorem enterModel_renumber (o : Options) (parent : Option Subcircuit) (head : ModelOpening)
    (s : Statement) :
    enterModel o (parent.map (Subcircuit.renumber ρ)) head (s.renumber ρ) =
      renumberStep ρ (enterModel o parent head s) := by
  have hopen : ((Model.ofHead o head s).renumber ρ).isOpen = (Model.ofHead o head s).isOpen := rfl
  simp only [enterModel, Model.Block.ofHead_renumber, Model.ofHead_renumber, hopen,
    Statement.number_renumber, Model.close_renumber]
  split
  · exact readBlock_renumber ρ parent _
  · cases parent with
    | some sub =>
        simp only [renumberStep, Option.map_some, Subcircuit.addModel_renumber,
          Deck.renumber_warnIf]
        rfl
    | none =>
        have hmodel := Subcircuit.renderModel_renumber ρ (.item (Model.ofHead o head s).close)
        simp only [renumberStep, Option.map_none, Deck.renumber_append, Deck.renumber_warnIf,
          ← hmodel]
        rfl

theorem parameterLines_renumber (o : Options) (s : Statement) (place : Param.Placement) :
    parameterLines o (s.renumber ρ) place =
      ((parameterLines o s place).1, (parameterLines o s place).2.1,
        (parameterLines o s place).2.2.renumber ρ) := by
  have htail : ∀ place carry, Param.tail o place carry (s.renumber ρ).tail =
      Param.tail o place carry s.tail :=
    fun place carry => Param.tail_renumber ρ o place carry s.tail
  simp only [parameterLines, Statement.content_renumber, Statement.verbatim_renumber, htail,
    Statement.number_renumber]
  split
  · rfl
  · simp only [Deck.renumber_warnIf]

theorem oddStatement_renumber (s : Statement) :
    oddStatement (s.renumber ρ) = (oddStatement s).renumber ρ := by
  simp only [oddStatement, Deck.renumber_warnIf]
  rfl

theorem enterSubcircuit_renumber (o : Options) (head : SubcircuitOpening) (s : Statement) :
    enterSubcircuit o head (s.renumber ρ) = renumberStep ρ (enterSubcircuit o head s) := by
  have hheader : Header.ofHead o head (s.renumber ρ).tail = Header.ofHead o head s.tail :=
    Header.ofHead_renumber ρ o head s.tail
  simp only [renumberStep, enterSubcircuit, hheader, Subcircuit.withHeader, Deck.renumber_warnIf,
    Statement.number_renumber]
  split <;> rfl

theorem stepTop_renumber (cx : Context) (s : Statement) (kind : Statement.Kind) :
    stepTop cx (s.renumber ρ) kind = renumberStep ρ (stepTop cx s kind) := by
  cases kind with
  | parameters =>
      simp only [renumberStep, stepTop, parameterLines_renumber, Deck.renumber_append,
        Deck.renumber_ofLines]
      rfl
  | model head => exact enterModel_renumber ρ cx.options none head s
  | subcircuitOpen head => exact enterSubcircuit_renumber ρ cx.options head s
  | subcircuitClose _ | binHeader _ _ | blockClose | directive _ =>
      simp only [renumberStep, stepTop, strayBlockPart, Deck.renumber_append, Deck.renumber_warn,
        Deck.renumber_ofLines, Statement.verbatim_renumber, Statement.verbatim_tail_renumber,
        Statement.content_renumber, Statement.number_renumber]
      rfl
  | deviceCall head =>
      have hcall := congrArg (fun d : Deck => d.warnings) (Deck.renumber_warnIf ρ
        (Call.ofHead cx.options head s).isOpen .unclosedValue s.number)
      simp only [renumberStep, stepTop, Call.ofHead_renumber, Call.close_renumber,
        Statement.number_renumber]
      generalize hr : Resolution.find cx.symbols cx.options (Call.ofHead cx.options head s).name
        (Call.ofHead cx.options head s).reference none = r
      have hr' : Resolution.find cx.symbols cx.options
          ((Call.ofHead cx.options head s).renumber ρ).name
          ((Call.ofHead cx.options head s).renumber ρ).reference none = r := hr
      rw [hr']
      simp only [Deck.renumber, List.map_append, Prod.mk.injEq] at hcall ⊢
      rw [hcall]
      cases hw : r.warning <;> exact ⟨rfl, rfl⟩
  | other | simulator _ | statistics =>
      simp only [renumberStep, stepTop, oddStatement_renumber, Deck.renumber_append,
        Deck.renumber_ofLines, Statement.verbatim_renumber]
      rfl

theorem stepBody_renumber (cx : Context) (sub : Subcircuit) (s : Statement)
    (kind : Statement.Kind) :
    stepBody cx (sub.renumber ρ) (s.renumber ρ) kind = renumberStep ρ (stepBody cx sub s kind) := by
  cases kind with
  | parameters =>
      simp only [renumberStep, stepBody, parameterLines_renumber]
      split <;> rfl
  | model head => exact enterModel_renumber ρ cx.options (some sub) head s
  | subcircuitClose name =>
      simp only [renumberStep, stepBody, Statement.number_renumber, Subcircuit.close_renumber,
        Statement.verbatim_tail_renumber, Deck.renumber_append, Deck.renumber_ofLines]
      rfl
  | deviceCall head =>
      have hopen : ((Call.ofHead cx.options head s).renumber ρ).isOpen =
          (Call.ofHead cx.options head s).isOpen := rfl
      simp only [renumberStep, stepBody, Call.ofHead_renumber, Call.close_renumber,
        Subcircuit.addCall_renumber, hopen, Statement.number_renumber, Deck.renumber_warnIf]
      rfl
  | subcircuitOpen _ | directive _ =>
      simp only [renumberStep, stepBody, Statement.verbatim_renumber,
        Statement.verbatim_tail_renumber, Statement.number_renumber, Deck.renumber_warn,
        Deck.renumber_empty]
      rfl
  | binHeader _ _ | blockClose | other | simulator _ | statistics =>
      simp only [renumberStep, stepBody, Subcircuit.foldl_copyLine, Statement.verbatim_renumber,
        Subcircuit.copyLines_renumber, oddStatement_renumber, strayBlockPart,
        Statement.content_renumber, Statement.number_renumber, Deck.renumber_warn]
      rfl

theorem stepPins_renumber (cx : Context) (sub : Subcircuit) (s : Statement)
    (kind : Statement.Kind) :
    stepPins cx (sub.renumber ρ) (s.renumber ρ) kind = renumberStep ρ (stepPins cx sub s kind) := by
  cases kind with
  | subcircuitClose name => exact stepBody_renumber ρ cx sub s (.subcircuitClose name)
  | simulator _ | parameters | statistics | model _ | binHeader _ _ | blockClose
  | subcircuitOpen _ | directive _ | deviceCall _ | other =>
      have hpins : (sub.renumber ρ).pins = sub.pins := rfl
      simp only [renumberStep, stepPins, hpins, Statement.lines_renumber, Header.readLines_renumber,
        Subcircuit.withHeader, Deck.renumber_warnIf, Statement.number_renumber]
      split <;> rfl

theorem interruptModel_renumber (cx : Context) (parent : Option Subcircuit) (b : Model.Block)
    (s : Statement) (kind : Statement.Kind) :
    interruptModel cx (parent.map (Subcircuit.renumber ρ)) (b.renumber ρ) (s.renumber ρ) kind =
      renumberStep ρ (interruptModel cx parent b s kind) := by
  have hname : (b.renumber ρ).name = b.name := rfl
  have haround : ∀ parent : Option Subcircuit,
      ((around parent).renumber ρ).step cx (s.renumber ρ) kind =
        renumberStep ρ ((around parent).step cx s kind) := by
    intro parent
    cases parent with
    | none => exact stepTop_renumber ρ cx s kind
    | some sub => exact stepBody_renumber ρ cx sub s kind
  simp only [renumberStep, interruptModel_eq, endModel_renumber, around_renumber, haround, hname,
    Statement.number_renumber, Deck.renumber_append, Deck.renumber_warn]

theorem step_renumber (cx : Context) (s : Statement) (kind : Statement.Kind) (scope : Scope) :
    (scope.renumber ρ).step cx (s.renumber ρ) kind = renumberStep ρ (scope.step cx s kind) := by
  cases scope with
  | top => exact stepTop_renumber ρ cx s kind
  | pins sub => exact stepPins_renumber ρ cx sub s kind
  | body sub => exact stepBody_renumber ρ cx sub s kind
  | model parent b =>
      cases kind with
      | blockClose => exact leaveModel_renumber ρ parent b s.tail
      | subcircuitOpen _ | subcircuitClose _ | model _ =>
          exact interruptModel_renumber ρ cx parent b s _
      | simulator _ | parameters | statistics | binHeader _ _ | directive _ | deviceCall _
      | other =>
          simp only [renumber, step, stepModel, Statement.lines_renumber,
            Model.Block.readLines_renumber]
          exact readBlock_renumber ρ parent _

theorem finishSubcircuit_renumber (cx : Context) (sub : Subcircuit) :
    finishSubcircuit cx (sub.renumber ρ) = (finishSubcircuit cx sub).renumber ρ := by
  have hclose : (sub.renumber ρ).close cx.symbols cx.options none 0 =
      (sub.close cx.symbols cx.options none 0).renumber ρ :=
    Subcircuit.render_renumber ρ cx.symbols cx.options sub
  simp only [finishSubcircuit, hclose, Deck.renumber_append, Deck.renumber_warn]
  rfl

theorem finish_renumber (cx : Context) (scope : Scope) :
    (scope.renumber ρ).finish cx = (scope.finish cx).renumber ρ := by
  cases scope with
  | top => rfl
  | pins sub | body sub => exact finishSubcircuit_renumber ρ cx sub
  | model parent b =>
      have haround : ∀ parent : Option Subcircuit,
          ((around parent).renumber ρ).finish cx = ((around parent).finish cx).renumber ρ := by
        intro parent
        cases parent with
        | none => rfl
        | some sub => exact finishSubcircuit_renumber ρ cx sub
      have hscope : (Scope.model parent b).renumber ρ =
          .model (parent.map (Subcircuit.renumber ρ)) (b.renumber ρ) := rfl
      rw [hscope, finish_model, finish_model, endModel_renumber, around_renumber, haround,
        Deck.renumber_append, Deck.renumber_append]
      rfl

end Scope

def Item.renumber : Item → Item
  | .line l => .line (l.renumber ρ)
  | .statement s => .statement (s.renumber ρ)

namespace Session

def renumber (a : Session) : Session := { a with scope := a.scope.renumber ρ }

theorem mute_renumber (a : Session) (s : Statement) :
    (a.renumber ρ).mute (s.renumber ρ) =
      ((a.mute s).1.renumber ρ, (a.mute s).2.renumber ρ) := by
  have hcode : ((s.codeLines.map (Line.renumber ρ)).flatMap fun l => l.text) =
      s.codeLines.flatMap fun l => l.text := by
    rw [List.flatMap_map]
    rfl
  have hcopy := Scope.copyAll_renumber ρ (s.lines.map commented) a.scope
  simp only [mute, Statement.codeLines_renumber, hcode, Statement.lines_renumber,
    Statement.map_renumber ρ (f := commented) (fun _ => rfl)]
  simp only [renumber, hcopy]
  rfl

theorem push_renumber (cx : Context) (a : Session) (item : Item) :
    (a.renumber ρ).push cx (item.renumber ρ) =
      ((a.push cx item).1.renumber ρ, (a.push cx item).2.renumber ρ) := by
  have hstatistics : (a.renumber ρ).statistics = a.statistics := rfl
  have hdialect : (a.renumber ρ).dialect = a.dialect := rfl
  cases item with
  | line l =>
      have hcopy := Scope.copyAll_renumber ρ [l.verbatim] a.scope
      simp only [← Scope.copy_eq_copyAll] at hcopy
      have hverbatim : (l.renumber ρ).verbatim = l.verbatim := rfl
      have hscope : (a.renumber ρ).scope = a.scope.renumber ρ := rfl
      simp only [Item.renumber, push, hverbatim, hscope, hcopy]
      rfl
  | statement s =>
      simp only [Item.renumber, push, pushStatement, hstatistics, hdialect, Statement.kind_renumber]
      split
      · exact mute_renumber ρ a s
      · split
        · rfl
        · exact mute_renumber ρ a s
        · have hscope : (a.renumber ρ).scope = a.scope.renumber ρ := rfl
          simp only [hscope, Scope.step_renumber]
          rfl

/-- The numbers of the lines come up in warnings alone. -/
theorem run_renumber (cx : Context) (a : Session) (items : List Item) :
    (a.renumber ρ).run cx (items.map (Item.renumber ρ)) = (a.run cx items).renumber ρ := by
  induction items generalizing a with
  | nil => exact Scope.finish_renumber ρ cx a.scope
  | cons item r ih =>
      simp only [List.map_cons, run, push_renumber, ih, Deck.renumber_append]

end Session

end SpiceDeck
