import SpiceDeck.Proofs.Scope.Calls
import SpiceDeck.Proofs.Scope.Kept

/-!
What happens to the subcircuits of a run: each is entered, keeps what the statements and
the copied lines give to it, and is left. Whatever closes it finds all of that in it.
-/

namespace SpiceDeck
open Text

namespace Header

/-- The header with pins in front of its own. -/
def afterPins (pins : List (List Text)) (h : Header) : Header := { h with pins := pins ++ h.pins }

theorem readPins_afterPins (o : Options) (pins : List (List Text)) (h : Header) (t : Text) :
    (h.afterPins pins).readPins o t = ((h.readPins o t).1.afterPins pins, (h.readPins o t).2) := by
  simp only [readPins, pushPins, afterPins, List.append_assoc]
  split
  · rfl
  · split <;> rfl

theorem readLines_afterPins (o : Options) (pins : List (List Text)) (h : Header) (closed : Bool)
    (lines : List Line) :
    (h.afterPins pins).readLines o closed lines =
      ((h.readLines o closed lines).1.afterPins pins, (h.readLines o closed lines).2) := by
  induction lines generalizing h closed with
  | nil => rfl
  | cons l r ih =>
      simp only [readLines, readPins_afterPins]
      split
      · exact ih (h.push _) closed
      · split
        · exact ih (h.push _) closed
        · exact ih _ _

/-- What the lines of a header give to a subcircuit. -/
def kept (h : Header) : List Kept :=
  h.pins.map .pins ++ ((Continuation.close h.tail).map Continuation.render).map .header

end Header

/-- What happens to the subcircuits of a run. -/
inductive Track where
  | enter (name : Text) (line : Nat)
  | keep (k : Kept)
  | leave
  deriving DecidableEq

namespace Scope

/-- What a model block that is read on is given, with the lines after its end. -/
def blockKept : List Model.Block.Part × Option (List Line) → List Kept
  | (ps, none) => ps.map .part
  | (ps, some rest) => ps.map .part ++ (rest.map Line.verbatim).map .line

def modelKept (o : Options) (head : ModelOpening) (s : Statement) : List Kept :=
  if head.braced then
    .block head.name head.keyword s.number :: blockKept (Model.Block.partsOfHead o head s)
  else [.model (Model.ofHead o head s).close]

/-- What a statement gives to a body. -/
def bodyKept (cx : Context) (s : Statement) : Statement.Kind → List Kept
  | .parameters =>
      let (marker, lines, _) := parameterLines cx.options s .subcircuitLocal
      if marker = .param then lines.map .line else lines.map .header
  | .model head => modelKept cx.options head s
  | .deviceCall head => [.call (Call.ofHead cx.options head s).close]
  | .directive text => (text :: s.tail.map Line.verbatim).map .line
  | .subcircuitClose _ => []
  | .subcircuitOpen _ | .binHeader _ _ | .blockClose | .other | .simulator _ | .statistics =>
      s.verbatim.map .line

/-- What a statement gives to a subcircuit. In a pin list all but a close is taken for
more of the header, in a model block most is taken for more of the block. -/
def kept (cx : Context) (s : Statement) (kind : Statement.Kind) : Scope → List Kept
  | .top | .model none _ => []
  | .body _ => bodyKept cx s kind
  | .pins _ =>
      match kind with
      | .subcircuitClose _ => []
      | _ => (Header.readLines cx.options { pins := [] } false s.lines).1.kept
  | .model (some _) b =>
      match kind with
      | .blockClose => (s.tail.map Line.verbatim).map .line
      | .subcircuitOpen _ | .subcircuitClose _ | .model _ => bodyKept cx s kind
      | _ => blockKept (Model.Block.partsOf cx.options b.carry s.lines)

/-- What lines that are only copied give to a subcircuit. -/
def copied (lines : List Text) : Scope → List Kept
  | .top | .model none _ => []
  | .body _ => lines.map .line
  | .pins _ => lines.map .header
  | .model (some _) _ => (lines.map fun t => .line (.verbatim t)).map .part

def tracks (cx : Context) (s : Statement) (kind : Statement.Kind) (scope : Scope) : List Track :=
  match scope.held, kind with
  | some _, .subcircuitClose _ => (scope.kept cx s kind).map .keep ++ [.leave]
  | some _, _ => (scope.kept cx s kind).map .keep
  | none, .subcircuitOpen head =>
      .enter head.name s.number :: (Header.ofHead cx.options head s.tail).1.kept.map .keep
  | none, _ => []

/-- The open subcircuit was entered under this name on this line and keeps what is
given, together with the model block that is open in it. -/
def Holds (name : Text) (line : Nat) (ks : List Kept) : Scope → Prop
  | .top | .model none _ => False
  | .pins sub | .body sub => sub.Keeps name line ks
  | .model (some sub) b =>
      ∃ (earlier : List Kept) (base keyword : Text) (n : Nat) (ps : List Model.Block.Part),
        ks = earlier ++ .block base keyword n :: ps.map .part ∧ sub.Keeps name line earlier ∧
          b = ps.foldl Model.Block.add (.new base keyword n)

variable {cx : Context} {s : Statement} {kind : Statement.Kind} {scope : Scope} {sub : Subcircuit}
  {name : Text} {line : Nat} {ks earlier : List Kept} {base keyword : Text} {n : Nat}
  {ps qs : List Model.Block.Part}

theorem holds_leaveModel (h : sub.Keeps name line earlier) (base keyword : Text) (n : Nat)
    (ps : List Model.Block.Part) (rest : List Line) :
    (leaveModel (some sub) (ps.foldl Model.Block.add (.new base keyword n)) rest).1.Holds name line
      (earlier ++ .block base keyword n :: ps.map .part ++ (rest.map Line.verbatim).map .line) := by
  rw [leaveModel_some, Model.Block.models_foldl_add]
  exact (h.addBlock base keyword n ps).copyLines _

/-- A block is read on, and perhaps to its end. -/
theorem holds_readBlock (h : sub.Keeps name line earlier) (base keyword : Text) (n : Nat)
    (ps : List Model.Block.Part) {x : List Model.Block.Part × Option (List Line)}
    {y : Model.Block × Option (List Line)}
    (hy : y = (x.1.foldl Model.Block.add (ps.foldl Model.Block.add (.new base keyword n)), x.2)) :
    (match y with
      | (block, none) => ((.model (some sub) block, {}) : Scope × Deck)
      | (block, some rest) => leaveModel (some sub) block rest).1.Holds name line
      (earlier ++ Kept.block base keyword n :: ps.map Kept.part ++ blockKept x) := by
  obtain ⟨qs, rest⟩ := x
  rw [hy, ← List.foldl_append]
  cases rest with
  | none => exact ⟨earlier, base, keyword, n, ps ++ qs, by simp [blockKept], h, rfl⟩
  | some rest =>
      have hleave := holds_leaveModel h base keyword n (ps ++ qs) rest
      simpa [blockKept] using hleave

theorem holds_enterModel (h : sub.Keeps name line ks) (o : Options) (head : ModelOpening)
    (s : Statement) :
    (enterModel o (some sub) head s).1.Holds name line (ks ++ modelKept o head s) := by
  simp only [enterModel, modelKept]
  split
  · have hread := holds_readBlock h head.name head.keyword s.number []
      (Model.Block.ofHead_eq_foldl_add o head s)
    rw [List.append_assoc] at hread
    exact hread
  · exact h.addModel _

theorem holds_stepBody (h : sub.Keeps name line ks) (hkind : ∀ n, kind ≠ .subcircuitClose n) :
    (stepBody cx sub s kind).1.Holds name line (ks ++ bodyKept cx s kind) := by
  cases kind with
  | subcircuitClose n => exact absurd rfl (hkind n)
  | deviceCall head => exact h.addCall _
  | model head => exact holds_enterModel h cx.options head s
  | parameters =>
      simp only [stepBody, bodyKept]
      split
      · exact h.addBody _
      · have hheader := h.addHeader [] (parameterLines cx.options s .subcircuitLocal).2.1
        rw [List.append_nil] at hheader
        exact hheader
  | subcircuitOpen _ | directive _ => exact h.addBody _
  | binHeader _ _ | blockClose | other | simulator _ | statistics =>
      simp only [stepBody, Subcircuit.foldl_copyLine, bodyKept]
      exact h.copyLines _

theorem holds_withHeader (h : sub.Keeps name line ks) (header : Header) (n : Nat) :
    (sub.withHeader (header.afterPins sub.pins) n).1.Keeps name line (ks ++ header.kept) :=
  h.addHeader header.pins _

theorem holds_stepPins (h : sub.Keeps name line ks) (hkind : ∀ n, kind ≠ .subcircuitClose n) :
    (stepPins cx sub s kind).1.Holds name line (ks ++ (Scope.pins sub).kept cx s kind) := by
  have hread : Header.readLines cx.options { pins := sub.pins } false s.lines =
      ((Header.readLines cx.options { pins := [] } false s.lines).1.afterPins sub.pins,
        (Header.readLines cx.options { pins := [] } false s.lines).2) := by
    rw [← Header.readLines_afterPins, Header.afterPins, List.append_nil]
  have hkeeps := holds_withHeader h (Header.readLines cx.options { pins := [] } false s.lines).1
    s.number
  cases kind with
  | subcircuitClose n => exact absurd rfl (hkind n)
  | simulator _ | parameters | statistics | model _ | binHeader _ _ | blockClose
  | subcircuitOpen _ | directive _ | deviceCall _ | other =>
      simp only [stepPins, hread]
      split
      · exact hkeeps
      · exact hkeeps

theorem holds_interruptModel (cx : Context) (h : sub.Keeps name line earlier)
    (hkind : ∀ n, kind ≠ .subcircuitClose n) :
    (interruptModel cx (some sub) (ps.foldl Model.Block.add (.new base keyword n)) s kind).1.Holds
      name line (earlier ++ .block base keyword n :: ps.map .part ++ bodyKept cx s kind) := by
  rw [interruptModel_eq, (endModel_some sub _).1, Model.Block.models_foldl_add]
  exact holds_stepBody (h.addBlock base keyword n ps) hkind

theorem holds_stepModel {b : Model.Block} (h : (Scope.model (some sub) b).Holds name line ks)
    (hkind : ∀ n, kind ≠ .subcircuitClose n) :
    (stepModel cx (some sub) b s kind).1.Holds name line
      (ks ++ (Scope.model (some sub) b).kept cx s kind) := by
  obtain ⟨earlier, base, keyword, n, ps, rfl, hs, rfl⟩ := h
  cases kind with
  | subcircuitClose n => exact absurd rfl (hkind n)
  | blockClose => exact holds_leaveModel hs base keyword n ps s.tail
  | subcircuitOpen _ | model _ => exact holds_interruptModel cx hs hkind
  | simulator _ | parameters | statistics | binHeader _ _ | directive _ | deviceCall _ | other =>
      exact holds_readBlock hs base keyword n ps
        (Model.Block.readLines_eq_foldl_add cx.options _ s.lines)

/-- A statement that does not close the open subcircuit adds to it. -/
theorem Holds.step (h : scope.Holds name line ks) (cx : Context) (s : Statement)
    (hkind : ∀ n, kind ≠ .subcircuitClose n) :
    (scope.step cx s kind).1.Holds name line (ks ++ scope.kept cx s kind) := by
  cases scope with
  | top => cases h
  | pins sub => exact holds_stepPins h hkind
  | body sub => exact holds_stepBody h hkind
  | model parent b =>
      cases parent with
      | none => cases h
      | some sub => exact holds_stepModel h hkind

theorem Holds.copyAll (h : scope.Holds name line ks) (lines : List Text) :
    (scope.copyAll lines).1.Holds name line (ks ++ scope.copied lines) := by
  cases scope with
  | top => cases h
  | pins sub =>
      rw [copyAll_pins]
      have hheader := Subcircuit.Keeps.addHeader h [] lines
      rw [List.append_nil] at hheader
      exact hheader
  | body sub =>
      rw [copyAll_body]
      exact Subcircuit.Keeps.copyLines h lines
  | model parent b =>
      cases parent with
      | none => cases h
      | some sub =>
          obtain ⟨earlier, base, keyword, n, ps, rfl, hs, rfl⟩ := h
          have hadd : ∀ b : Model.Block, b.modifyCurrent (·.addTexts lines) =
              (lines.map fun t => Model.Block.Part.line (.verbatim t)).foldl Model.Block.add b := by
            intro b
            induction lines generalizing b with
            | nil => simp only [Model.addTexts_nil, Model.Block.modifyCurrent_id]; rfl
            | cons t r ih =>
                rw [List.map_cons, List.foldl_cons, ← ih, ← Model.Block.addText_eq_add,
                  Model.Block.modifyCurrent_modifyCurrent]
                simp only [Model.addTexts_cons]
          rw [copyAll_model, hadd, ← List.foldl_append]
          exact ⟨earlier, base, keyword, n, _, by simp [copied], hs, rfl⟩

/-- What closes the open subcircuit finds in it all that was kept. -/
theorem Holds.ended (h : scope.Holds name line ks) :
    ∃ last, scope.ended = some last ∧ last.Keeps name line ks := by
  cases scope with
  | top => cases h
  | pins sub | body sub => exact ⟨sub, rfl, h⟩
  | model parent b =>
      cases parent with
      | none => cases h
      | some sub =>
          obtain ⟨earlier, base, keyword, n, ps, rfl, hs, rfl⟩ := h
          refine ⟨_, (endModel_some sub _).1, ?_⟩
          rw [Model.Block.models_foldl_add]
          exact hs.addBlock base keyword n ps

theorem Holds.held (h : scope.Holds name line ks) : ∃ sub, scope.held = some sub := by
  cases scope with
  | top => cases h
  | pins sub | body sub => exact ⟨sub, rfl⟩
  | model parent b =>
      cases parent with
      | none => cases h
      | some sub => exact ⟨sub, rfl⟩

/-- What was tracked since the open subcircuit was entered. -/
inductive Books (scope : Scope) : List Track → Prop where
  | closed (h : scope.held = none) : Books scope []
  | opened {name : Text} {line : Nat} {ks : List Kept} (h : scope.Holds name line ks) :
      Books scope (.enter name line :: ks.map .keep)

end Scope

end SpiceDeck
