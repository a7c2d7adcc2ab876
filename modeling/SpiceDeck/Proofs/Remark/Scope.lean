import SpiceDeck.Conversion
import SpiceDeck.Proofs.Remark.Blocks

/-!
Runs of two decks that differ in their remarks alone. Where a statement takes its
remarks, what is open differs in remarks alone before the statement and after it, and so
does what the statement adds to the output.
-/

namespace SpiceDeck
open Text

theorem Line.head?_content {l : Line} : ∀ c ∈ l.content.head?, isSpace c = false := by
  simp only [Line.content]
  split
  · split
    · exact Param.head?_trimStart
    · exact Param.head?_trim
  · exact Param.head?_trim

namespace Scope

/-- Scopes that differ in their remarks alone. -/
inductive Alongside : Scope → Scope → Prop where
  | top : Alongside .top .top
  | pins {a b : Subcircuit} (h : a.Alongside b) : Alongside (.pins a) (.pins b)
  | body {a b : Subcircuit} (h : a.Alongside b) : Alongside (.body a) (.body b)
  | model {p q : Option Subcircuit} {a b : Model.Block} (hp : Option.Rel Subcircuit.Alongside p q)
      (h : a.Alongside b) : Alongside (.model p a) (.model q b)

/-- Steps after which the scopes, and what has been added, differ in remarks alone. -/
structure AlongsideAfter (x y : Scope × Deck) : Prop where
  scope : Alongside x.1 y.1
  deck : x.2.Alongside y.2

variable {s t : Statement} {p q : Option Subcircuit} {a b : Subcircuit} {m n : Model.Block}

theorem Alongside.around (h : Option.Rel Subcircuit.Alongside p q) :
    Alongside (around p) (around q) := by
  cases h with
  | none => exact .top
  | some h => exact .body h

theorem Alongside.copyAll {a b : Scope} (h : Alongside a b) {xs ys : List Text}
    (hl : List.Forall₂ Text.Alongside xs ys) : AlongsideAfter (a.copyAll xs) (b.copyAll ys) := by
  cases h with
  | top =>
      rw [copyAll_top, copyAll_top]
      exact ⟨.top, .ofLines hl⟩
  | pins h =>
      rw [copyAll_pins, copyAll_pins]
      exact ⟨.pins (h.addHeader h.pins hl), .refl _⟩
  | body h =>
      rw [copyAll_body, copyAll_body]
      exact ⟨.body (h.copyLines hl), .refl _⟩
  | model hp h =>
      rw [copyAll_model, copyAll_model]
      exact ⟨.model hp (h.addText hl), .refl _⟩

theorem endModel_alongside (hp : Option.Rel Subcircuit.Alongside p q) (h : m.Alongside n) :
    Option.Rel Subcircuit.Alongside (endModel p m).1 (endModel q n).1 ∧
      (endModel p m).2.Alongside (endModel q n).2 := by
  have hmodels := h.closeValue.models
  cases hp with
  | some hsub =>
      refine ⟨.some (hsub.addModels hmodels), ?_⟩
      simp only [endModel, h.isOpen, h.currentModel.line]
      exact .refl _
  | none =>
      refine ⟨.none, ?_⟩
      simp only [endModel, h.isOpen, h.currentModel.line]
      refine .append (.refl _) (.concat ?_)
      refine List.forall₂_map_left_iff.mpr (List.forall₂_map_right_iff.mpr ?_)
      exact hmodels.imp fun _ _ hm => Subcircuit.Alongside.renderModel (.item hm)

theorem leaveModel_alongside (hp : Option.Rel Subcircuit.Alongside p q) (h : m.Alongside n)
    {ls ms : List Line} (hl : List.Forall₂ Line.Alongside ls ms) :
    AlongsideAfter (leaveModel p m ls) (leaveModel q n ms) := by
  obtain ⟨hparent, hdeck⟩ := endModel_alongside hp h
  have hcopy := (Alongside.around hparent).copyAll (Line.Alongside.map_verbatim hl)
  exact ⟨hcopy.scope, hdeck.append hcopy.deck⟩

/-- A block that takes lines up, or the scope around it once one of them closes it. -/
theorem readBlock_alongside (hp : Option.Rel Subcircuit.Alongside p q)
    (x y : Model.Block × Option (List Line)) :
    x.1.Alongside y.1 → Option.Rel (List.Forall₂ Line.Alongside) x.2 y.2 →
    AlongsideAfter
      (match x with
        | (block, none) => (.model p block, {})
        | (block, some rest) => leaveModel p block rest)
      (match y with
        | (block, none) => (.model q block, {})
        | (block, some rest) => leaveModel q block rest) := by
  intro hblock hrest
  obtain ⟨_, u⟩ := x
  obtain ⟨_, v⟩ := y
  cases hrest with
  | none => exact ⟨.model hp hblock, .refl _⟩
  | some hl => exact leaveModel_alongside hp hblock hl

/-- Whether a model takes the remarks that the first statement has. -/
def modelTakesRemarks (o : Options) (head head' : ModelOpening) (s t : Statement) : Bool :=
  head.name == head'.name && head.keyword == head'.keyword && head.braced == head'.braced &&
    if head'.braced then Model.Block.headTakesRemarks o head head' s t
    else Model.headTakesRemarks o (Model.parts head s) (Model.parts head' t)

theorem modelTakesRemarks_refl (o : Options) (head : ModelOpening) (s : Statement) :
    modelTakesRemarks o head head s s = true := by
  simp [modelTakesRemarks, Model.Block.headTakesRemarks_refl, Model.headTakesRemarks_refl]

theorem enterModel_alongside (hp : Option.Rel Subcircuit.Alongside p q) (o : Options)
    {head head' : ModelOpening} (h : s.Alongside t)
    (hr : modelTakesRemarks o head head' s t = true) :
    AlongsideAfter (enterModel o p head s) (enterModel o q head' t) := by
  simp only [modelTakesRemarks, Bool.and_eq_true, beq_iff_eq] at hr
  obtain ⟨⟨⟨hname, hkeyword⟩, hbraced⟩, hr⟩ := hr
  simp only [enterModel, hbraced]
  split
  · next hb =>
      rw [if_pos hb] at hr
      obtain ⟨hblock, hrest⟩ := Model.Block.ofHead_alongside o h hname hkeyword hr
      exact readBlock_alongside hp _ _ hblock hrest
  · next hb =>
      rw [if_neg hb] at hr
      have hm := Model.ofHead_alongside o h hname hkeyword hr
      have hwarning : Deck.warnIf (Model.ofHead o head s).isOpen .unclosedValue s.number =
          Deck.warnIf (Model.ofHead o head' t).isOpen .unclosedValue t.number := by
        rw [hm.isOpen, h.number]
      cases hp with
      | some hsub =>
          simp only [hwarning]
          exact ⟨.body (hsub.addModel hm.close), .refl _⟩
      | none =>
          simp only [hwarning]
          exact ⟨.top, .append (.refl _) (Subcircuit.Alongside.renderModel (.item hm.close))⟩

theorem enterModel_same (hp : Option.Rel Subcircuit.Alongside p q) (o : Options)
    (head : ModelOpening) (s : Statement) :
    AlongsideAfter (enterModel o p head s) (enterModel o q head s) :=
  enterModel_alongside hp o (.refl s) (modelTakesRemarks_refl o head s)

theorem enterSubcircuit_refl (o : Options) (head : SubcircuitOpening) (s : Statement) :
    AlongsideAfter (enterSubcircuit o head s) (enterSubcircuit o head s) := by
  refine ⟨?_, .refl _⟩
  simp only [enterSubcircuit]
  have hsub : ∀ (header : Header) (n : Nat),
      (Subcircuit.withHeader { name := head.name, line := s.number } header n).1.Alongside
        (Subcircuit.withHeader { name := head.name, line := s.number } header n).1 :=
    fun header n => ⟨rfl, rfl, rfl, alongside_refl _, .nil, .nil, .nil⟩
  split
  · exact .body (hsub _ _)
  · exact .pins (hsub _ _)

theorem stepTop_same (cx : Context) (s : Statement) (kind : Statement.Kind) :
    AlongsideAfter (stepTop cx s kind) (stepTop cx s kind) := by
  cases kind with
  | model head => exact enterModel_same .none cx.options head s
  | subcircuitOpen head => exact enterSubcircuit_refl cx.options head s
  | simulator _ | parameters | statistics | binHeader _ _ | blockClose | subcircuitClose _
  | directive _ | deviceCall _ | other => exact ⟨.top, .refl _⟩

theorem call_refl {cx : Context} {d : Dialect} {head : CallOpening}
    (h : s.kind cx.symbols cx.options d = .deviceCall head) :
    (Call.ofHead cx.options head s).Alongside (Call.ofHead cx.options head s) := by
  exact Call.ofHead_alongside cx.options (.refl s) (Statement.kind_deviceCall h)
    (Call.takesRemarks_refl cx.options head s)

theorem stepBody_same (cx : Context) (hab : a.Alongside b) (s : Statement) (d : Dialect) :
    AlongsideAfter (stepBody cx a s (s.kind cx.symbols cx.options d))
      (stepBody cx b s (s.kind cx.symbols cx.options d)) := by
  have hrefl := Statement.Alongside.refl s
  cases hk : s.kind cx.symbols cx.options d with
  | parameters =>
      simp only [stepBody]
      split
      · exact ⟨.body (hab.addBody (alongside_refl _)), .refl _⟩
      · exact ⟨.body (hab.addHeader hab.pins (alongside_refl _)), .refl _⟩
  | model head => exact enterModel_same (.some hab) cx.options head s
  | subcircuitOpen head =>
      refine ⟨.body (hab.addBody (alongside_refl _)), ?_⟩
      simp only [stepBody, hab.name]
      exact .refl _
  | subcircuitClose name =>
      exact ⟨.top, (hab.close cx.symbols cx.options name s.number).append (.refl _)⟩
  | directive text => exact ⟨.body (hab.addBody (alongside_refl _)), .refl _⟩
  | deviceCall head => exact ⟨.body (hab.addCall (call_refl hk).close), .refl _⟩
  | binHeader _ _ | blockClose | other | simulator _ | statistics =>
      simp only [stepBody, Subcircuit.foldl_copyLine]
      exact ⟨.body (hab.copyLines (alongside_refl _)), .refl _⟩

/-- Whether a statement outside of blocks and headers takes the remarks that the first
statement has. -/
def takesPlain (cx : Context) (place : Param.Placement) (s t : Statement) :
    Statement.Kind → Statement.Kind → Bool
  | .parameters, .parameters => parametersTakeRemarks cx.options place s t
  | .deviceCall head, .deviceCall head' => Call.takesRemarks cx.options head head' s t
  | .model head, .model head' => modelTakesRemarks cx.options head head' s t
  | .subcircuitClose name, .subcircuitClose name' => name == name'
  | .directive text, .directive text' => text == text'
  | .other, .other => s.head == t.head ||
      t.head.content.head?.any fun c => c.isAlpha || c == '.' || c == '_'
  | _, _ => false

/-- The pairs of kinds that take remarks. -/
theorem takesPlain_cases {cx : Context} {place : Param.Placement} {k k' : Statement.Kind}
    (h : takesPlain cx place s t k k' = true) :
    (k = .parameters ∧ k' = .parameters ∧ parametersTakeRemarks cx.options place s t = true) ∨
      (∃ head head', k = .deviceCall head ∧ k' = .deviceCall head' ∧
        Call.takesRemarks cx.options head head' s t = true) ∨
      (∃ head head', k = .model head ∧ k' = .model head' ∧
        modelTakesRemarks cx.options head head' s t = true) ∨
      (∃ name, k = .subcircuitClose name ∧ k' = .subcircuitClose name) ∨
      (∃ text, k = .directive text ∧ k' = .directive text) ∨
      (k = .other ∧ k' = .other ∧ (s.head == t.head ||
        t.head.content.head?.any fun c => c.isAlpha || c == '.' || c == '_') = true) := by
  simp only [takesPlain] at h
  split at h
  · exact .inl ⟨rfl, rfl, h⟩
  · exact .inr (.inl ⟨_, _, rfl, rfl, h⟩)
  · exact .inr (.inr (.inl ⟨_, _, rfl, rfl, h⟩))
  · exact .inr (.inr (.inr (.inl ⟨_, rfl, by rw [eq_of_beq h]⟩)))
  · exact .inr (.inr (.inr (.inr (.inl ⟨_, rfl, by rw [eq_of_beq h]⟩))))
  · exact .inr (.inr (.inr (.inr (.inr ⟨rfl, rfl, h⟩))))
  · cases h

theorem oddStatement_alongside (h : s.Alongside t)
    (hr : (s.head == t.head ||
      t.head.content.head?.any fun c => c.isAlpha || c == '.' || c == '_') = true) :
    oddStatement s = oddStatement t := by
  by_cases heq : s.head = t.head
  · simp only [oddStatement, heq, h.number]
  · obtain hsame | ⟨x, hx⟩ := h.head
    · exact absurd hsame heq
    · simp only [Bool.or_eq_true, beq_iff_eq, heq, false_or] at hr
      obtain ⟨c, hc, -⟩ := (Option.any_eq_true _ _).mp hr
      have hhead : s.head.content.head? = t.head.content.head? := by
        have hne : t.head.content ≠ [] := by
          intro hnil
          rw [hnil] at hc
          cases hc
        rw [hx.content.1, Param.trimStart_append_remark_of_head hne Line.head?_content,
          head?_append_remark hne]
      simp only [oddStatement, hhead, hr, Bool.not_true]
      rfl

theorem stepTop_remarked (cx : Context) (h : s.Alongside t) {d : Dialect}
    (hr : takesPlain cx .topLevel s t (s.kind cx.symbols cx.options d)
      (t.kind cx.symbols cx.options d) = true) :
    AlongsideAfter (stepTop cx s (s.kind cx.symbols cx.options d))
      (stepTop cx t (t.kind cx.symbols cx.options d)) := by
  obtain ⟨hs, ht, hr⟩ | ⟨head, head', hs, ht, hr⟩ | ⟨head, head', hs, ht, hr⟩ | ⟨name, hs, ht⟩ |
    ⟨text, hs, ht⟩ | ⟨hs, ht, hr⟩ := takesPlain_cases hr
  · obtain ⟨-, hlines, hdeck⟩ := parameterLines_alongside cx.options .topLevel h hr
    rw [hs, ht]
    simp only [stepTop, hdeck]
    exact ⟨.top, .append (.ofLines hlines) (.refl _)⟩
  · have hcall := Call.ofHead_alongside cx.options h (Statement.kind_deviceCall ht) hr
    rw [hs, ht]
    simp only [stepTop, hcall.name, hcall.reference, hcall.line, hcall.isOpen, h.number]
    exact ⟨.top, ⟨hcall.close.render _, rfl⟩⟩
  · rw [hs, ht]
    exact enterModel_alongside .none cx.options h hr
  · rw [hs, ht]
    simp only [stepTop, h.number]
    exact ⟨.top, .append (.refl _) (.ofLines h.verbatim)⟩
  · rw [hs, ht]
    exact ⟨.top, .ofLines (.cons (.refl text) (Line.Alongside.map_verbatim h.tail))⟩
  · rw [hs, ht]
    simp only [stepTop, oddStatement_alongside h hr]
    exact ⟨.top, .append (.refl _) (.ofLines h.verbatim)⟩

theorem stepBody_close_alongside (cx : Context) (hab : a.Alongside b) (h : s.Alongside t)
    (name : Option Text) :
    AlongsideAfter (stepBody cx a s (.subcircuitClose name))
      (stepBody cx b t (.subcircuitClose name)) := by
  simp only [stepBody, h.number]
  exact ⟨.top, (hab.close cx.symbols cx.options name t.number).append
    (.ofLines (Line.Alongside.map_verbatim h.tail))⟩

theorem stepBody_remarked (cx : Context) (hab : a.Alongside b) (h : s.Alongside t) {d : Dialect}
    (hr : takesPlain cx .subcircuitLocal s t (s.kind cx.symbols cx.options d)
      (t.kind cx.symbols cx.options d) = true) :
    AlongsideAfter (stepBody cx a s (s.kind cx.symbols cx.options d))
      (stepBody cx b t (t.kind cx.symbols cx.options d)) := by
  obtain ⟨hs, ht, hr⟩ | ⟨head, head', hs, ht, hr⟩ | ⟨head, head', hs, ht, hr⟩ | ⟨name, hs, ht⟩ |
    ⟨text, hs, ht⟩ | ⟨hs, ht, hr⟩ := takesPlain_cases hr
  · obtain ⟨hmarker, hlines, hdeck⟩ := parameterLines_alongside cx.options .subcircuitLocal h hr
    rw [hs, ht]
    simp only [stepBody, hmarker, hdeck]
    split
    · exact ⟨.body (hab.addBody hlines), .refl _⟩
    · exact ⟨.body (hab.addHeader hab.pins hlines), .refl _⟩
  · have hcall := Call.ofHead_alongside cx.options h (Statement.kind_deviceCall ht) hr
    rw [hs, ht]
    simp only [stepBody, hcall.isOpen, h.number]
    exact ⟨.body (hab.addCall hcall.close), .refl _⟩
  · rw [hs, ht]
    exact enterModel_alongside (.some hab) cx.options h hr
  · rw [hs, ht]
    exact stepBody_close_alongside cx hab h name
  · rw [hs, ht]
    exact ⟨.body (hab.addBody (.cons (.refl text) (Line.Alongside.map_verbatim h.tail))), .refl _⟩
  · rw [hs, ht]
    simp only [stepBody, Subcircuit.foldl_copyLine, oddStatement_alongside h hr]
    exact ⟨.body (hab.copyLines h.verbatim), .refl _⟩

/-- Whether a statement of the given kind is a line of a block. -/
def isBlockLine : Statement.Kind → Bool
  | .parameters | .binHeader _ _ | .directive _ | .deviceCall _ | .other => true
  | .simulator _ | .statistics | .model _ | .blockClose | .subcircuitClose _
  | .subcircuitOpen _ => false

/-- Whether a statement takes, where it stands, the remarks that the first statement has. -/
def takesRemarks (cx : Context) (s t : Statement) (k k' : Statement.Kind) : Scope → Bool
  | .top => takesPlain cx .topLevel s t k k'
  | .body _ => takesPlain cx .subcircuitLocal s t k k'
  | .pins _ =>
      match k, k' with
      | .subcircuitClose name, .subcircuitClose name' => name == name'
      | _, _ => false
  | .model _ block =>
      match k, k' with
      | .blockClose, .blockClose => true
      | .subcircuitClose name, .subcircuitClose name' => name == name'
      | .model head, .model head' => modelTakesRemarks cx.options head head' s t
      | _, _ => isBlockLine k && isBlockLine k' && block.takesRemarks cx.options s.lines t.lines

theorem stepPins_same (cx : Context) (hab : a.Alongside b) (s : Statement)
    (kind : Statement.Kind) : AlongsideAfter (stepPins cx a s kind) (stepPins cx b s kind) := by
  cases kind with
  | subcircuitClose name => exact stepBody_close_alongside cx hab (.refl s) name
  | simulator _ | parameters | statistics | model _ | binHeader _ _ | blockClose
  | subcircuitOpen _ | directive _ | deviceCall _ | other =>
      simp only [stepPins, hab.pins]
      refine ⟨?_, .refl _⟩
      split
      · exact .body (hab.addHeader rfl (alongside_refl _))
      · exact .pins (hab.addHeader rfl (alongside_refl _))

theorem step_around_same (cx : Context) (hp : Option.Rel Subcircuit.Alongside p q) (s : Statement)
    (d : Dialect) :
    AlongsideAfter ((around p).step cx s (s.kind cx.symbols cx.options d))
      ((around q).step cx s (s.kind cx.symbols cx.options d)) := by
  cases hp with
  | none => exact stepTop_same cx s _
  | some hsub => exact stepBody_same cx hsub s d

theorem interruptModel_alongside (cx : Context) (hp : Option.Rel Subcircuit.Alongside p q)
    (hmn : m.Alongside n) (h : s.Alongside t) {k k' : Statement.Kind} (hk : k.name = k'.name)
    (hstep : ∀ {p q : Option Subcircuit}, Option.Rel Subcircuit.Alongside p q →
      AlongsideAfter ((around p).step cx s k) ((around q).step cx t k')) :
    AlongsideAfter (interruptModel cx p m s k) (interruptModel cx q n t k') := by
  obtain ⟨hparent, hdeck⟩ := endModel_alongside hp hmn
  have hnext := hstep hparent
  rw [interruptModel_eq, interruptModel_eq, hmn.name, h.number, hk]
  exact ⟨hnext.scope, ((Deck.Alongside.refl _).append hdeck).append hnext.deck⟩

theorem stepModel_same (cx : Context) (hp : Option.Rel Subcircuit.Alongside p q)
    (hmn : m.Alongside n) (s : Statement) (d : Dialect) :
    AlongsideAfter (stepModel cx p m s (s.kind cx.symbols cx.options d))
      (stepModel cx q n s (s.kind cx.symbols cx.options d)) := by
  have hrefl := Statement.Alongside.refl s
  have hstep : ∀ {p q : Option Subcircuit}, Option.Rel Subcircuit.Alongside p q →
      AlongsideAfter ((around p).step cx s (s.kind cx.symbols cx.options d))
        ((around q).step cx s (s.kind cx.symbols cx.options d)) :=
    fun hp => step_around_same cx hp s d
  -- what closes the block, what interrupts it, and what it reads as lines of its own
  cases hk : s.kind cx.symbols cx.options d with
  | blockClose => exact leaveModel_alongside hp hmn hrefl.tail
  | subcircuitOpen _ | subcircuitClose _ | model _ =>
      rw [hk] at hstep
      exact interruptModel_alongside cx hp hmn hrefl rfl hstep
  | simulator _ | parameters | statistics | binHeader _ _ | directive _ | deviceCall _ | other =>
      obtain ⟨hblock, hrest⟩ := Model.Block.readLines_alongside cx.options hmn hrefl.lines
        (Model.Block.takesRemarks_refl cx.options n s.lines)
      exact readBlock_alongside hp _ _ hblock hrest

theorem stepModel_line (cx : Context) {kind : Statement.Kind} (h : isBlockLine kind = true)
    (p : Option Subcircuit) (m : Model.Block) (s : Statement) :
    stepModel cx p m s kind =
      match m.readLines cx.options s.lines with
      | (block, none) => (.model p block, {})
      | (block, some rest) => leaveModel p block rest := by
  cases kind with
  | parameters | binHeader _ _ | directive _ | deviceCall _ | other => rfl
  | simulator _ | statistics | model _ | blockClose | subcircuitClose _ | subcircuitOpen _ =>
      cases h

theorem stepModel_remarked (cx : Context) (hp : Option.Rel Subcircuit.Alongside p q)
    (hmn : m.Alongside n) (h : s.Alongside t) {k k' : Statement.Kind}
    (hr : (Scope.model q n).takesRemarks cx s t k k' = true) :
    AlongsideAfter (stepModel cx p m s k) (stepModel cx q n t k') := by
  simp only [takesRemarks] at hr
  split at hr
  · exact leaveModel_alongside hp hmn h.tail
  · next name name' =>
      cases eq_of_beq hr
      refine interruptModel_alongside cx hp hmn h rfl ?_
      intro p q hp
      cases hp with
      | none =>
          refine ⟨.top, ?_⟩
          simp only [around, step, stepTop, h.number]
          exact .append (.refl _) (.ofLines h.verbatim)
      | some hsub => exact stepBody_close_alongside cx hsub h name
  · next head head' =>
      refine interruptModel_alongside cx hp hmn h rfl ?_
      intro p q hp
      cases hp with
      | none => exact enterModel_alongside .none cx.options h hr
      | some hsub => exact enterModel_alongside (.some hsub) cx.options h hr
  · simp only [Bool.and_eq_true] at hr
    obtain ⟨⟨hk, hk'⟩, hr⟩ := hr
    obtain ⟨hblock, hrest⟩ := Model.Block.readLines_alongside cx.options hmn h.lines hr
    rw [stepModel_line cx hk, stepModel_line cx hk']
    exact readBlock_alongside hp _ _ hblock hrest

theorem Alongside.step (cx : Context) {a b : Scope} (hab : Alongside a b) (h : s.Alongside t)
    {d : Dialect}
    (hr : s = t ∨ b.takesRemarks cx s t (s.kind cx.symbols cx.options d)
      (t.kind cx.symbols cx.options d) = true) :
    AlongsideAfter (a.step cx s (s.kind cx.symbols cx.options d))
      (b.step cx t (t.kind cx.symbols cx.options d)) := by
  obtain rfl | hr := hr
  · cases hab with
    | top => exact stepTop_same cx s _
    | pins hab => exact stepPins_same cx hab s _
    | body hab => exact stepBody_same cx hab s d
    | model hp hab => exact stepModel_same cx hp hab s d
  · cases hab with
    | top => exact stepTop_remarked cx h hr
    | body hab => exact stepBody_remarked cx hab h hr
    | model hp hab => exact stepModel_remarked cx hp hab h hr
    | pins hab =>
        simp only [takesRemarks] at hr
        split at hr
        · next name name' hs ht =>
            cases eq_of_beq hr
            rw [hs, ht]
            exact stepBody_close_alongside cx hab h name
        · cases hr

theorem finishSubcircuit_alongside (cx : Context) (h : a.Alongside b) :
    (finishSubcircuit cx a).Alongside (finishSubcircuit cx b) := by
  simp only [finishSubcircuit, h.name, h.line]
  exact .append (.refl _) (h.close cx.symbols cx.options none 0)

theorem finish_around_alongside (cx : Context) (hp : Option.Rel Subcircuit.Alongside p q) :
    ((around p).finish cx).Alongside ((around q).finish cx) := by
  cases hp with
  | none => exact .refl _
  | some h => exact finishSubcircuit_alongside cx h

theorem Alongside.finish (cx : Context) {a b : Scope} (h : Alongside a b) :
    (a.finish cx).Alongside (b.finish cx) := by
  cases h with
  | top => exact .refl _
  | pins h | body h => exact finishSubcircuit_alongside cx h
  | model hp h =>
      obtain ⟨hparent, hdeck⟩ := endModel_alongside hp h
      rw [finish_model, finish_model, h.name, h.common.line]
      exact ((Deck.Alongside.refl _).append hdeck).append (finish_around_alongside cx hparent)

end Scope

/-- Items that differ in their remarks alone. -/
inductive Item.Alongside : Item → Item → Prop where
  | line (l : Line) : Alongside (.line l) (.line l)
  | statement {s t : Statement} (h : s.Alongside t) : Alongside (.statement s) (.statement t)

namespace Session

/-- Sessions that differ in their remarks alone. -/
structure Alongside (a b : Session) : Prop where
  dialect : a.dialect = b.dialect
  scope : a.scope.Alongside b.scope
  statistics : a.statistics = b.statistics

/-- The code of a statement that is copied as comments. -/
def mutedCode (s : Statement) : Text := s.codeLines.flatMap fun l => l.text

/-- Whether a statement takes, in the given session, the remarks that the first statement
has: it is the same kind of statement with them and without, and its lines take them. -/
def takesRemarks (cx : Context) (a : Session) (s t : Statement) : Bool :=
  let balanced := (mutedCode s).count '{' == (mutedCode t).count '{' &&
    (mutedCode s).count '}' == (mutedCode t).count '}'
  if 0 < a.statistics then balanced
  else match s.kind cx.symbols cx.options a.dialect, t.kind cx.symbols cx.options a.dialect with
    | .simulator lang, .simulator lang' => lang == lang'
    | .statistics, .statistics => balanced
    | k, k' => a.scope.takesRemarks cx s t k k'

variable {a b : Session} {s t : Statement}

theorem commented_alongside {l m : Line} (h : l.Alongside m) :
    Text.Alongside (commented l) (commented m) := by
  obtain rfl | ⟨x, hx⟩ := h
  · exact .refl _
  · obtain ⟨c, r, hcr⟩ := List.exists_cons_of_ne_nil (Param.isBlank_eq_false_iff.mp hx.blank)
    have hl : trim l.text = c :: r ++ remark x := by
      rw [hx.text, (hx.comment.remark m.text).trim, trimStart_append_remark_cons hcr]
      rfl
    have hstar : isBlank ("* ".toList ++ (c :: r)) = false := isBlank_append (by decide) _
    simp only [commented, hx.isCode.1, hx.isCode.2, if_true, hl, hx.inked.trim, hcr]
    rw [← List.append_assoc]
    exact alongside_remark hstar x

theorem mute_alongside (hab : a.Alongside b) (h : s.Alongside t)
    (hopen : (mutedCode s).count '{' = (mutedCode t).count '{')
    (hclose : (mutedCode s).count '}' = (mutedCode t).count '}') :
    (a.mute s).1.Alongside (b.mute t).1 ∧ (a.mute s).2.Alongside (b.mute t).2 := by
  have hlines : List.Forall₂ Text.Alongside (s.lines.map commented) (t.lines.map commented) :=
    List.forall₂_map_left_iff.mpr (List.forall₂_map_right_iff.mpr
      (h.lines.imp fun _ _ h => commented_alongside h))
  have hcopy := hab.scope.copyAll hlines
  refine ⟨⟨hab.dialect, hcopy.scope, ?_⟩, hcopy.deck⟩
  simp only [mutedCode] at hopen hclose
  simp only [mute, hopen, hclose, hab.statistics]

/-- A statement that goes to the scope. -/
def reachesScope : Statement.Kind → Bool
  | .simulator _ | .statistics => false
  | .parameters | .model _ | .binHeader _ _ | .blockClose | .subcircuitClose _
  | .subcircuitOpen _ | .directive _ | .deviceCall _ | .other => true

theorem pushStatement_step (cx : Context) {a : Session} (ha : ¬0 < a.statistics) {s : Statement}
    (hk : reachesScope (s.kind cx.symbols cx.options a.dialect) = true) :
    a.pushStatement cx s =
      ({ a with
          scope := (a.scope.step cx s (s.kind cx.symbols cx.options a.dialect)).1 },
        (a.scope.step cx s (s.kind cx.symbols cx.options a.dialect)).2) := by
  simp only [pushStatement, if_neg ha]
  split
  · next hs => rw [hs] at hk; cases hk
  · next hs => rw [hs] at hk; cases hk
  · rfl

theorem reachesScope_of_takesRemarks {cx : Context} {k k' : Statement.Kind} {scope : Scope}
    (h : scope.takesRemarks cx s t k k' = true) :
    reachesScope k = true ∧ reachesScope k' = true := by
  have hplain : ∀ {place : Param.Placement}, Scope.takesPlain cx place s t k k' = true →
      reachesScope k = true ∧ reachesScope k' = true := by
    intro place h
    obtain ⟨rfl, rfl, -⟩ | ⟨_, _, rfl, rfl, -⟩ | ⟨_, _, rfl, rfl, -⟩ | ⟨_, rfl, rfl⟩ |
      ⟨_, rfl, rfl⟩ | ⟨rfl, rfl, -⟩ := Scope.takesPlain_cases h <;> exact ⟨rfl, rfl⟩
  have hline : ∀ {kind : Statement.Kind}, Scope.isBlockLine kind = true →
      reachesScope kind = true := by
    intro kind h
    cases kind with
    | simulator _ | statistics => cases h
    | parameters | model _ | binHeader _ _ | blockClose | subcircuitClose _ | subcircuitOpen _
    | directive _ | deviceCall _ | other => rfl
  cases scope with
  | top => exact hplain h
  | body sub => exact hplain h
  | pins sub =>
      simp only [Scope.takesRemarks] at h
      split at h
      · exact ⟨rfl, rfl⟩
      · cases h
  | model parent block =>
      simp only [Scope.takesRemarks] at h
      split at h
      · exact ⟨rfl, rfl⟩
      · exact ⟨rfl, rfl⟩
      · exact ⟨rfl, rfl⟩
      · simp only [Bool.and_eq_true] at h
        exact ⟨hline h.1.1, hline h.1.2⟩

theorem pushStatement_same (cx : Context) (hab : a.Alongside b) (s : Statement) :
    (a.pushStatement cx s).1.Alongside (b.pushStatement cx s).1 ∧
      (a.pushStatement cx s).2.Alongside (b.pushStatement cx s).2 := by
  simp only [pushStatement, hab.statistics, hab.dialect]
  split
  · exact mute_alongside hab (.refl s) rfl rfl
  · split
    · exact ⟨⟨rfl, hab.scope, rfl⟩, .refl _⟩
    · exact mute_alongside hab (.refl s) rfl rfl
    · have hstep := hab.scope.step cx (.refl s) (d := b.dialect) (.inl rfl)
      exact ⟨⟨rfl, hstep.scope, rfl⟩, hstep.deck⟩

theorem pushStatement_alongside (cx : Context) (hab : a.Alongside b) (h : s.Alongside t)
    (hr : s = t ∨ b.takesRemarks cx s t = true) :
    (a.pushStatement cx s).1.Alongside (b.pushStatement cx t).1 ∧
      (a.pushStatement cx s).2.Alongside (b.pushStatement cx t).2 := by
  obtain rfl | hr := hr
  · exact pushStatement_same cx hab s
  · simp only [takesRemarks] at hr
    split at hr
    · next hstat =>
        simp only [Bool.and_eq_true, beq_iff_eq] at hr
        simp only [pushStatement, hab.statistics, hstat, if_true]
        exact mute_alongside hab h hr.1 hr.2
    · next hstat =>
        split at hr
        · next lang lang' hs ht =>
            cases eq_of_beq hr
            simp only [pushStatement, hab.statistics, hab.dialect, hstat, if_false, hs, ht]
            exact ⟨⟨rfl, hab.scope, rfl⟩, .refl _⟩
        · next hs ht =>
            simp only [Bool.and_eq_true, beq_iff_eq] at hr
            simp only [pushStatement, hab.statistics, hab.dialect, hstat, if_false, hs, ht]
            exact mute_alongside hab h hr.1 hr.2
        · obtain ⟨hs, ht⟩ := reachesScope_of_takesRemarks hr
          have hstep := hab.scope.step cx h (.inr hr)
          rw [pushStatement_step cx (hab.statistics ▸ hstat) (hab.dialect ▸ hs),
            pushStatement_step cx hstat ht, hab.dialect]
          exact ⟨⟨rfl, hstep.scope, hab.statistics⟩, hstep.deck⟩

theorem push_line_alongside (cx : Context) (hab : a.Alongside b) (l : Line) :
    (a.push cx (.line l)).1.Alongside (b.push cx (.line l)).1 ∧
      (a.push cx (.line l)).2.Alongside (b.push cx (.line l)).2 := by
  have hcopy := hab.scope.copyAll (alongside_refl [l.verbatim])
  rw [← Scope.copy_eq_copyAll, ← Scope.copy_eq_copyAll] at hcopy
  exact ⟨⟨hab.dialect, hcopy.scope, hab.statistics⟩, hcopy.deck⟩

/-- Whether every statement of a run takes the remarks that the first items have. -/
def runTakesRemarks (cx : Context) (a : Session) : List Item → List Item → Bool
  | x :: xs, y :: ys =>
      (match x, y with
        | .statement s, .statement t => s == t || a.takesRemarks cx s t
        | _, _ => true) && runTakesRemarks cx (a.push cx y).1 xs ys
  | _, _ => true

theorem run_alongside (cx : Context) {xs ys : List Item} (hi : List.Forall₂ Item.Alongside xs ys)
    (hab : a.Alongside b) (hr : b.runTakesRemarks cx xs ys = true) :
    (a.run cx xs).Alongside (b.run cx ys) := by
  induction hi generalizing a b with
  | nil => exact hab.scope.finish cx
  | cons h _ ih =>
      simp only [runTakesRemarks, Bool.and_eq_true] at hr
      cases h with
      | line l =>
          obtain ⟨hnext, hdeck⟩ := push_line_alongside cx hab l
          exact hdeck.append (ih hnext hr.2)
      | statement hs =>
          rw [Bool.or_eq_true, beq_iff_eq] at hr
          obtain ⟨hnext, hdeck⟩ := pushStatement_alongside cx hab hs hr.1
          exact hdeck.append (ih hnext hr.2)

end Session

end SpiceDeck
