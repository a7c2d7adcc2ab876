import SpiceDeck.Proofs.Inert.Kept

/-!
One step of two decks that differ in comments, blank lines and line numbers alone.
What is open in them is alike before a statement and after it, and so is what the
statement adds to the output.
-/

namespace SpiceDeck
open Text

/-- The code lines of alike lists are the same; their other lines are inert. -/
structure Line.Alike (ρ : Nat → Nat) (xs ys : List Line) : Prop where
  strip : Line.strip id xs = Line.strip ρ ys
  left : Line.Quiet xs
  right : Line.Quiet ys

/-- Texts that depend on the body of a line, and that leave inert lines inert. -/
theorem Line.Alike.map {ρ : Nat → Nat} {xs ys : List Line} (h : Line.Alike ρ xs ys)
    {f : Line → Text} (hf : ∀ (ρ : Nat → Nat) l, f (l.renumber ρ) = f l)
    (hpassive : ∀ l, l.isCode = false → f l = l.verbatim) :
    active (xs.map f) = active (ys.map f) := by
  have hq : ∀ {lines : List Line}, Line.Quiet lines →
      ∀ l ∈ lines, l.isCode = false → isInert (f l) = true := by
    intro lines hlines l hl hcode
    rw [hpassive l hcode]
    exact hlines l hl hcode
  rw [← Line.active_map_strip (hf id) (hq h.left), h.strip,
    Line.active_map_strip (hf ρ) (hq h.right)]

theorem Line.Alike.verbatim {ρ : Nat → Nat} {xs ys : List Line} (h : Line.Alike ρ xs ys) :
    active (xs.map Line.verbatim) = active (ys.map Line.verbatim) :=
  h.map (fun _ _ => rfl) fun _ _ => rfl

namespace Statement

/-- Statements that differ in inert lines and in line numbers alone. -/
structure Alike (ρ : Nat → Nat) (s t : Statement) : Prop where
  strip : s.strip id = t.strip ρ
  left : s.Quiet
  right : t.Quiet

namespace Alike

variable {ρ : Nat → Nat} {s t : Statement}

theorem number (h : Alike ρ s t) : s.number = ρ t.number := by
  have hs := congrArg Statement.number h.strip
  exact hs

theorem content (h : Alike ρ s t) : s.head.content = t.head.content := by
  have hs := congrArg (fun s : Statement => s.head.content) h.strip
  exact hs

theorem kind (h : Alike ρ s t) (symbols : Symbols) (o : Options) (d : Dialect) :
    s.kind symbols o d = t.kind symbols o d := by
  rw [← kind_strip id h.left, h.strip, kind_strip ρ h.right]

theorem tail (h : Alike ρ s t) : Line.Alike ρ s.tail t.tail := by
  have hs := congrArg Statement.tail h.strip
  exact ⟨hs, h.left.tail, h.right.tail⟩

theorem lines (h : Alike ρ s t) : Line.Alike ρ s.lines t.lines := by
  refine ⟨?_, h.left.lines, h.right.lines⟩
  rw [← lines_strip id h.left, h.strip, lines_strip ρ h.right]

theorem verbatim (h : Alike ρ s t) : active s.verbatim = active t.verbatim := h.lines.verbatim

theorem call (h : Alike ρ s t) (o : Options) (head : CallOpening) :
    (Call.ofHead o head s).strip id = (Call.ofHead o head t).strip ρ := by
  rw [← Call.ofHead_strip id o head h.left, h.strip, Call.ofHead_strip ρ o head h.right]

theorem model (h : Alike ρ s t) (o : Options) (head : ModelOpening) :
    (Model.ofHead o head s).strip id = (Model.ofHead o head t).strip ρ := by
  rw [← Model.ofHead_strip id o head h.left, h.strip, Model.ofHead_strip ρ o head h.right]

end Alike

end Statement

namespace Scope

/-- Scopes that differ in inert lines and in line numbers alone. -/
inductive Alike (ρ : Nat → Nat) : Scope → Scope → Prop where
  | top : Alike ρ .top .top
  | pins {a b : Subcircuit} (h : a.Alike ρ b) : Alike ρ (.pins a) (.pins b)
  | body {a b : Subcircuit} (h : a.Alike ρ b) : Alike ρ (.body a) (.body b)
  | model {p q : Option Subcircuit} {a b : Model.Block} (hp : Option.Rel (Subcircuit.Alike ρ) p q)
      (h : a.strip id = b.strip ρ) : Alike ρ (.model p a) (.model q b)

/-- Steps after which the scopes are alike and that add alike output. -/
structure AlikeAfter (ρ : Nat → Nat) (x y : Scope × Deck) : Prop where
  scope : Alike ρ x.1 y.1
  deck : x.2.strip id = y.2.strip ρ

variable {ρ : Nat → Nat} {s t : Statement}

theorem Alike.around {p q : Option Subcircuit} (h : Option.Rel (Subcircuit.Alike ρ) p q) :
    Alike ρ (around p) (around q) := by
  cases h with
  | none => exact .top
  | some h => exact .body h

theorem Alike.copyAll {a b : Scope} (h : Alike ρ a b) {xs ys : List Text}
    (hl : active xs = active ys) : AlikeAfter ρ (a.copyAll xs) (b.copyAll ys) := by
  cases h with
  | top =>
      rw [copyAll_top, copyAll_top]
      exact ⟨.top, congrArg Deck.ofLines hl⟩
  | pins h =>
      rw [copyAll_pins, copyAll_pins]
      exact ⟨.pins (h.addHeader h.pins hl), rfl⟩
  | body h =>
      rw [copyAll_body, copyAll_body]
      exact ⟨.body (h.copyLines hl), rfl⟩
  | model hp h =>
      rw [copyAll_model, copyAll_model]
      refine ⟨.model hp ?_, rfl⟩
      have hadd : ∀ (ρ : Nat → Nat) (b : Model.Block) (lines : List Text),
          (b.modifyCurrent (·.addTexts lines)).strip ρ =
            (b.strip ρ).modifyCurrent (·.addTexts (active lines)) :=
        fun ρ b lines =>
          Model.Block.strip_modifyCurrent (fun m => Model.strip_addTexts ρ m lines) b
      rw [hadd, hadd, h, hl]

theorem parameterLines_alike (h : s.Alike ρ t) (o : Options) (place : Param.Placement) :
    (parameterLines o s place).1 = (parameterLines o t place).1 ∧
      active (parameterLines o s place).2.1 = active (parameterLines o t place).2.1 ∧
      (parameterLines o s place).2.2.strip id = (parameterLines o t place).2.2.strip ρ := by
  simp only [parameterLines, h.content]
  cases Param.readStatement? o t.head.content place .closed with
  | none => exact ⟨rfl, h.verbatim, rfl⟩
  | some head =>
      have htail : ∀ place,
          Continuation.strip (.params head :: Param.tail o place head.carry s.tail) =
            Continuation.strip (.params head :: Param.tail o place head.carry t.tail) := by
        intro place
        rw [Continuation.strip_params, Continuation.strip_params,
          ← Param.tail_strip id o place head.carry h.left.tail, h.tail.strip,
          Param.tail_strip ρ o place head.carry h.right.tail]
      refine ⟨rfl, Continuation.active_close_congr (htail _), ?_⟩
      rw [Deck.strip_warnIf, Deck.strip_warnIf, Continuation.carried_congr (htail _), h.number]
      rfl

theorem withHeader_alike {a b : Subcircuit} (h : a.Alike ρ b) {x y : Header}
    (hh : x.strip = y.strip) (n : Nat) :
    (a.withHeader x (ρ n)).1.Alike ρ (b.withHeader y n).1 ∧
      (a.withHeader x (ρ n)).2.strip id = (b.withHeader y n).2.strip ρ := by
  have hpins : x.pins = y.pins := by
    have hs := congrArg Header.pins hh
    exact hs
  have htail : Continuation.strip x.tail = Continuation.strip y.tail := congrArg Header.tail hh
  refine ⟨h.addHeader hpins (Continuation.active_close_congr htail), ?_⟩
  simp only [Subcircuit.withHeader, Continuation.carried_congr htail, Deck.strip_warnIf, id_eq]

theorem enterSubcircuit_alike (h : s.Alike ρ t) (o : Options) (head : SubcircuitOpening) :
    AlikeAfter ρ (enterSubcircuit o head s) (enterSubcircuit o head t) := by
  have hread : ((Header.ofHead o head s.tail).1.strip, (Header.ofHead o head s.tail).2) =
      ((Header.ofHead o head t.tail).1.strip, (Header.ofHead o head t.tail).2) := by
    rw [← Header.ofHead_strip id o head h.left.tail, h.tail.strip,
      Header.ofHead_strip ρ o head h.right.tail]
  obtain ⟨hheader, hcomplete⟩ := Prod.mk.inj hread
  have hnew : Subcircuit.Alike ρ { name := head.name, line := s.number }
      { name := head.name, line := t.number } := by
    rw [h.number]
    exact ⟨rfl, rfl, rfl⟩
  obtain ⟨hsub, hdeck⟩ := withHeader_alike hnew hheader t.number
  rw [← h.number] at hsub hdeck
  simp only [enterSubcircuit, hcomplete]
  split
  · exact ⟨.body hsub, hdeck⟩
  · exact ⟨.pins hsub, hdeck⟩

theorem renderModel_alike {m n : Model} (h : m.strip id = n.strip ρ) :
    (Subcircuit.renderModel (.item m)).strip id = (Subcircuit.renderModel (.item n)).strip ρ := by
  rw [← Subcircuit.renderModel_strip, h, Subcircuit.renderModel_strip]

theorem endModel_alike {p q : Option Subcircuit} (hp : Option.Rel (Subcircuit.Alike ρ) p q)
    {a b : Model.Block} (h : a.strip id = b.strip ρ) :
    Option.Rel (Subcircuit.Alike ρ) (endModel p a).1 (endModel q b).1 ∧
      (endModel p a).2.strip id = (endModel q b).2.strip ρ := by
  have hopen : a.isOpen = b.isOpen := by
    rw [← Model.Block.isOpen_strip id, h, Model.Block.isOpen_strip]
  have hline : a.currentModel.line = ρ b.currentModel.line := by
    have hm : a.currentModel.strip id = b.currentModel.strip ρ := by
      rw [← Model.Block.currentModel_strip, h, Model.Block.currentModel_strip]
    exact congrArg Model.line hm
  have hmodels : a.closeValue.models.map (Model.strip id) =
      b.closeValue.models.map (Model.strip ρ) := by
    rw [← Model.Block.models_strip, Model.Block.strip_closeValue, h, ← Model.Block.strip_closeValue,
      Model.Block.models_strip]
  cases hp with
  | some hsub =>
      refine ⟨.some (hsub.addModels hmodels), ?_⟩
      simp only [endModel, Deck.strip_warnIf, hopen, hline, id_eq]
  | none =>
      refine ⟨.none, ?_⟩
      have hconcat : ∀ {ms ns : List Model}, ms.map (Model.strip id) = ns.map (Model.strip ρ) →
          (Deck.concat (ms.map fun m => Subcircuit.renderModel (.item m))).strip id =
            (Deck.concat (ns.map fun m => Subcircuit.renderModel (.item m))).strip ρ := by
        intro ms
        induction ms with
        | nil =>
            intro ns hm
            cases ns with
            | nil => rfl
            | cons n ns => cases hm
        | cons m ms ih =>
            intro ns hm
            cases ns with
            | nil => cases hm
            | cons n ns =>
                obtain ⟨hmn, hms⟩ := List.cons.inj hm
                simp only [List.map_cons, Deck.concat, Deck.strip_append, ih hms,
                  renderModel_alike hmn]
      simp only [endModel, Deck.strip_append, Deck.strip_warnIf, hopen, hline, id_eq,
        hconcat hmodels]

theorem leaveModel_alike {p q : Option Subcircuit} (hp : Option.Rel (Subcircuit.Alike ρ) p q)
    {a b : Model.Block} (h : a.strip id = b.strip ρ) {xs ys : List Line} (hl : Line.Alike ρ xs ys) :
    AlikeAfter ρ (leaveModel p a xs) (leaveModel q b ys) := by
  obtain ⟨hparent, hdeck⟩ := endModel_alike hp h
  have hcopy := (Alike.around hparent).copyAll hl.verbatim
  refine ⟨hcopy.scope, ?_⟩
  simp only [leaveModel, Deck.strip_append, hdeck, hcopy.deck]

/-- A block that takes lines up, or the scope around it once one of them closes it. -/
theorem readBlock_alike {p q : Option Subcircuit} (hp : Option.Rel (Subcircuit.Alike ρ) p q)
    (x y : Model.Block × Option (List Line)) :
    (∀ r, x.2 = some r → Line.Quiet r) → (∀ r, y.2 = some r → Line.Quiet r) →
    (x.1.strip id, x.2.map (Line.strip id)) = (y.1.strip ρ, y.2.map (Line.strip ρ)) →
    AlikeAfter ρ
      (match x with
        | (block, none) => (.model p block, {})
        | (block, some rest) => leaveModel p block rest)
      (match y with
        | (block, none) => (.model q block, {})
        | (block, some rest) => leaveModel q block rest) := by
  intro hx hy h
  obtain ⟨a, m⟩ := x
  obtain ⟨b, n⟩ := y
  obtain ⟨hblock, hrest⟩ := Prod.mk.inj h
  cases m with
  | none =>
      cases n with
      | none => exact ⟨.model hp hblock, rfl⟩
      | some r => cases hrest
  | some xs =>
      cases n with
      | none => cases hrest
      | some ys =>
          exact leaveModel_alike hp hblock ⟨Option.some.inj hrest, hx xs rfl, hy ys rfl⟩

theorem enterModel_alike {p q : Option Subcircuit} (hp : Option.Rel (Subcircuit.Alike ρ) p q)
    (h : s.Alike ρ t) (o : Options) (head : ModelOpening) :
    AlikeAfter ρ (enterModel o p head s) (enterModel o q head t) := by
  simp only [enterModel]
  split
  · refine readBlock_alike hp _ _ (fun r => Model.Block.quiet_ofHead h.left)
      (fun r => Model.Block.quiet_ofHead h.right) ?_
    rw [← Model.Block.ofHead_strip id o head h.left, h.strip,
      Model.Block.ofHead_strip ρ o head h.right]
  · have hm := h.model o head
    have hopen : (Model.ofHead o head s).isOpen = (Model.ofHead o head t).isOpen := by
      rw [← Model.isOpen_strip id, hm, Model.isOpen_strip]
    have hclose : (Model.ofHead o head s).close.strip id =
        (Model.ofHead o head t).close.strip ρ := by
      rw [Model.strip_close, hm, Model.strip_close]
    cases hp with
    | some hsub =>
        refine ⟨.body (hsub.addModel hclose), ?_⟩
        simp only [Deck.strip_warnIf, hopen, h.number, id_eq]
    | none =>
        refine ⟨.top, ?_⟩
        simp only [Deck.strip_append, Deck.strip_warnIf, hopen, h.number, id_eq,
          renderModel_alike hclose]

theorem oddStatement_alike (h : s.Alike ρ t) :
    (oddStatement s).strip id = (oddStatement t).strip ρ := by
  simp only [oddStatement, Deck.strip_warnIf, h.content, h.number, id_eq]

theorem strayBlockPart_alike (h : s.Alike ρ t) :
    (strayBlockPart s).strip id = (strayBlockPart t).strip ρ := by
  simp only [strayBlockPart, Deck.strip_warn, h.content, h.number, id_eq]

theorem stepTop_alike (cx : Context) (h : s.Alike ρ t) (kind : Statement.Kind) :
    AlikeAfter ρ (stepTop cx s kind) (stepTop cx t kind) := by
  have hverbatim : (Deck.ofLines s.verbatim).strip id = (Deck.ofLines t.verbatim).strip ρ :=
    congrArg Deck.ofLines h.verbatim
  cases kind with
  | parameters =>
      obtain ⟨-, hlines, hdeck⟩ := parameterLines_alike h cx.options .topLevel
      refine ⟨.top, ?_⟩
      simp only [stepTop, Deck.strip_append, Deck.strip_ofLines, hlines, hdeck]
  | model head => exact enterModel_alike .none h cx.options head
  | subcircuitOpen head => exact enterSubcircuit_alike h cx.options head
  | subcircuitClose name =>
      refine ⟨.top, ?_⟩
      simp only [stepTop, Deck.strip_append, Deck.strip_warn, hverbatim, h.number, id_eq]
  | binHeader _ _ | blockClose =>
      refine ⟨.top, ?_⟩
      simp only [stepTop, Deck.strip_append, hverbatim, strayBlockPart_alike h]
  | directive text => exact ⟨.top, congrArg Deck.ofLines (active_cons_congr text h.tail.verbatim)⟩
  | deviceCall head =>
      refine ⟨.top, ?_⟩
      have hcall := h.call cx.options head
      have hopen : (Call.ofHead cx.options head s).isOpen =
          (Call.ofHead cx.options head t).isOpen := by
        rw [← Call.isOpen_strip id, hcall, Call.isOpen_strip]
      have hlines : ∀ r, active ((Call.ofHead cx.options head s).close.render r) =
          active ((Call.ofHead cx.options head t).close.render r) := by
        intro r
        rw [← Call.active_render_strip id, Call.strip_close, hcall, ← Call.strip_close,
          Call.active_render_strip]
      have hname : (Call.ofHead cx.options head s).name =
          (Call.ofHead cx.options head t).name := rfl
      have href : (Call.ofHead cx.options head s).reference =
          (Call.ofHead cx.options head t).reference := rfl
      have hline : (Call.ofHead cx.options head s).line = ρ (Call.ofHead cx.options head t).line :=
        h.number
      simp only [stepTop, Deck.strip, hlines, hopen, hname, href, hline, h.number, List.map_append]
      refine congrArg _ (congr (congrArg _ ?_) ?_)
      · exact congrArg Deck.warnings
          ((Deck.strip_warnIf id _ _ _).trans (Deck.strip_warnIf ρ _ _ _).symm)
      · cases (Resolution.find cx.symbols cx.options (Call.ofHead cx.options head t).name
          (Call.ofHead cx.options head t).reference none).warning <;> rfl
  | other | simulator _ | statistics =>
      refine ⟨.top, ?_⟩
      simp only [stepTop, Deck.strip_append, hverbatim, oddStatement_alike h]

theorem stepBody_alike (cx : Context) {a b : Subcircuit} (hab : a.Alike ρ b) (h : s.Alike ρ t)
    (kind : Statement.Kind) : AlikeAfter ρ (stepBody cx a s kind) (stepBody cx b t kind) := by
  have htail : (Deck.ofLines (s.tail.map Line.verbatim)).strip id =
      (Deck.ofLines (t.tail.map Line.verbatim)).strip ρ :=
    congrArg Deck.ofLines h.tail.verbatim
  cases kind with
  | parameters =>
      obtain ⟨hmarker, hlines, hdeck⟩ := parameterLines_alike h cx.options .subcircuitLocal
      simp only [stepBody, hmarker]
      split
      · exact ⟨.body (hab.addBody hlines), hdeck⟩
      · exact ⟨.body (hab.addHeader hab.pins hlines), hdeck⟩
  | model head => exact enterModel_alike (.some hab) h cx.options head
  | subcircuitOpen head =>
      refine ⟨.body (hab.addBody h.verbatim), ?_⟩
      simp only [stepBody, Deck.strip_warn, hab.name, h.number, id_eq]
  | subcircuitClose name =>
      refine ⟨.top, ?_⟩
      simp only [stepBody, Deck.strip_append, htail, h.number, hab.close]
  | binHeader _ _ | blockClose =>
      simp only [stepBody, Subcircuit.foldl_copyLine]
      exact ⟨.body (hab.copyLines h.verbatim), strayBlockPart_alike h⟩
  | directive text =>
      exact ⟨.body (hab.addBody (active_cons_congr text h.tail.verbatim)), rfl⟩
  | deviceCall head =>
      have hcall := h.call cx.options head
      have hclose : (Call.ofHead cx.options head s).close.strip id =
          (Call.ofHead cx.options head t).close.strip ρ := by
        rw [Call.strip_close, hcall, Call.strip_close]
      refine ⟨.body (hab.addCall hclose), ?_⟩
      simp only [stepBody, Deck.strip_warnIf, h.number, id_eq]
      rw [← Call.isOpen_strip id, hcall, Call.isOpen_strip]
  | other | simulator _ | statistics =>
      simp only [stepBody, Subcircuit.foldl_copyLine]
      exact ⟨.body (hab.copyLines h.verbatim), oddStatement_alike h⟩

theorem stepPins_alike (cx : Context) {a b : Subcircuit} (hab : a.Alike ρ b) (h : s.Alike ρ t)
    (kind : Statement.Kind) : AlikeAfter ρ (stepPins cx a s kind) (stepPins cx b t kind) := by
  have hread : ∀ h' : Header, h'.strip = h' →
      ((h'.readLines cx.options false s.lines).1.strip, (h'.readLines cx.options false s.lines).2) =
        ((h'.readLines cx.options false t.lines).1.strip,
          (h'.readLines cx.options false t.lines).2) := by
    intro h' hs
    rw [← Header.readLines_strip id cx.options h' false h.lines.left, h.lines.strip,
      Header.readLines_strip ρ cx.options h' false h.lines.right]
  cases kind with
  | subcircuitClose name => exact stepBody_alike cx hab h (.subcircuitClose name)
  | simulator _ | parameters | statistics | model _ | binHeader _ _ | blockClose
  | subcircuitOpen _ | directive _ | deviceCall _ | other =>
      obtain ⟨hheader, hcomplete⟩ := Prod.mk.inj (hread { pins := b.pins } rfl)
      obtain ⟨hsub, hdeck⟩ := withHeader_alike hab hheader t.number
      rw [← h.number] at hsub hdeck
      simp only [stepPins, hab.pins, hcomplete]
      split
      · exact ⟨.body hsub, hdeck⟩
      · exact ⟨.pins hsub, hdeck⟩

theorem step_around_alike (cx : Context) {p q : Option Subcircuit}
    (hp : Option.Rel (Subcircuit.Alike ρ) p q) (h : s.Alike ρ t) (kind : Statement.Kind) :
    AlikeAfter ρ ((around p).step cx s kind) ((around q).step cx t kind) := by
  cases hp with
  | none => exact stepTop_alike cx h kind
  | some hsub => exact stepBody_alike cx hsub h kind

theorem alike_name {a b : Model.Block} (h : a.strip id = b.strip ρ) : a.name = b.name := by
  rw [← Model.Block.name_strip id, h, Model.Block.name_strip]

theorem interruptModel_alike (cx : Context) {p q : Option Subcircuit}
    (hp : Option.Rel (Subcircuit.Alike ρ) p q) {a b : Model.Block} (hab : a.strip id = b.strip ρ)
    (h : s.Alike ρ t) (kind : Statement.Kind) :
    AlikeAfter ρ (interruptModel cx p a s kind) (interruptModel cx q b t kind) := by
  obtain ⟨hparent, hdeck⟩ := endModel_alike hp hab
  have hstep := step_around_alike cx hparent h kind
  rw [interruptModel_eq, interruptModel_eq]
  refine ⟨hstep.scope, ?_⟩
  simp only [Deck.strip_append, Deck.strip_warn, alike_name hab, h.number, id_eq, hdeck, hstep.deck]

theorem stepModel_alike (cx : Context) {p q : Option Subcircuit}
    (hp : Option.Rel (Subcircuit.Alike ρ) p q) {a b : Model.Block} (hab : a.strip id = b.strip ρ)
    (h : s.Alike ρ t) (kind : Statement.Kind) :
    AlikeAfter ρ (stepModel cx p a s kind) (stepModel cx q b t kind) := by
  cases kind with
  | blockClose => exact leaveModel_alike hp hab h.tail
  | subcircuitOpen _ | subcircuitClose _ | model _ => exact interruptModel_alike cx hp hab h _
  | simulator _ | parameters | statistics | binHeader _ _ | directive _ | deviceCall _ | other =>
      refine readBlock_alike hp _ _ (fun r => Model.Block.quiet_readLines h.lines.left)
        (fun r => Model.Block.quiet_readLines h.lines.right) ?_
      rw [← Model.Block.readLines_strip id cx.options a h.lines.left, h.lines.strip, hab,
        Model.Block.readLines_strip ρ cx.options b h.lines.right]

theorem Alike.step (cx : Context) {a b : Scope} (hab : Alike ρ a b) (h : s.Alike ρ t)
    (kind : Statement.Kind) : AlikeAfter ρ (a.step cx s kind) (b.step cx t kind) := by
  cases hab with
  | top => exact stepTop_alike cx h kind
  | pins hab => exact stepPins_alike cx hab h kind
  | body hab => exact stepBody_alike cx hab h kind
  | model hp hab => exact stepModel_alike cx hp hab h kind

theorem finishSubcircuit_alike (cx : Context) {a b : Subcircuit} (h : a.Alike ρ b) :
    (finishSubcircuit cx a).strip id = (finishSubcircuit cx b).strip ρ := by
  have hclose : ∀ (c : Subcircuit) (n : Nat), c.close cx.symbols cx.options none n =
      c.render cx.symbols cx.options := fun _ _ => rfl
  simp only [finishSubcircuit, hclose, Deck.strip_append, Deck.strip_warn, h.name, h.line, h.render,
    id_eq]

theorem finish_around_alike (cx : Context) {p q : Option Subcircuit}
    (hp : Option.Rel (Subcircuit.Alike ρ) p q) :
    ((around p).finish cx).strip id = ((around q).finish cx).strip ρ := by
  cases hp with
  | none => rfl
  | some hsub => exact finishSubcircuit_alike cx hsub

theorem Alike.finish (cx : Context) {a b : Scope} (h : Alike ρ a b) :
    (a.finish cx).strip id = (b.finish cx).strip ρ := by
  cases h with
  | top => rfl
  | pins h | body h => exact finishSubcircuit_alike cx h
  | @model p q a b hp h =>
      have hline : a.common.line = ρ b.common.line := congrArg (·.common.line) h
      obtain ⟨hparent, hdeck⟩ := endModel_alike hp h
      have hfinish := finish_around_alike cx hparent
      rw [finish_model, finish_model]
      simp only [Deck.strip_append, Deck.strip_warn, alike_name h, hline, id_eq, hdeck, hfinish]

end Scope

end SpiceDeck
