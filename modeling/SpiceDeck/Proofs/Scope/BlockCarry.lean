import SpiceDeck.Proofs.Model.Carry
import SpiceDeck.Proofs.Scope.Closings
import SpiceDeck.Proofs.Scope.Unterminated

/-!
What the model blocks of a run leave open. Main statement: in every block that is open between two
items, and in every block that is closed, the carry describes the last parameter line; closing
reports a value exactly if the last parameter line read left one open, and then ends it.
-/

namespace SpiceDeck
open Text

namespace Deck

/-- What the deck reports of values that are not closed. -/
def openValues (d : Deck) : List Warning := d.warnings.filter fun w => w.cause = .unclosedValue

theorem openValues_append (a b : Deck) : (a ++ b).openValues = a.openValues ++ b.openValues :=
  List.filter_append _ _

theorem openValues_unclosedValue (b : Bool) (n : Nat) :
    (warnIf b .unclosedValue n).openValues = if b then [Cause.at .unclosedValue n] else [] := by
  cases b with
  | false => rfl
  | true => rfl

theorem openValues_models (ms : List Model) :
    (concat (ms.map fun m => Subcircuit.renderModel (.item m))).openValues = [] := by
  induction ms with
  | nil => rfl
  | cons m r ih =>
      have hmodel : (Subcircuit.renderModel (.item m)).openValues = [] := by
        simp only [Subcircuit.renderModel, openValues, Model.warning?]
        split <;> rfl
      rw [List.map_cons, concat, openValues_append, hmodel, ih]
      rfl

end Deck

namespace Scope
variable {o : Options} {s : Statement} {kind : Statement.Kind} {scope : Scope}

theorem openValues_endModel (parent : Option Subcircuit) (b : Model.Block) :
    (endModel parent b).2.openValues =
      if b.isOpen then [Cause.at .unclosedValue b.currentModel.line] else [] := by
  cases parent with
  | some sub => exact Deck.openValues_unclosedValue _ _
  | none =>
      simp only [endModel, Deck.openValues_append, Deck.openValues_models,
        Deck.openValues_unclosedValue, List.append_nil]

/-- The open block is one that reading gives. -/
def BlockRead (o : Options) (scope : Scope) : Prop :=
  ∀ c ∈ scope.openBlock, ∃ last, c.2.ReadTo o last

theorem BlockRead.of_not_isModel (h : scope.isModel = false) : scope.BlockRead o := by
  intro c hc
  cases scope with
  | top | pins _ | body _ => exact absurd hc List.not_mem_nil
  | model parent b => cases h

theorem BlockRead.copyAll (h : scope.BlockRead o) (lines : List Text) :
    (scope.copyAll lines).1.BlockRead o := by
  cases scope with
  | top | pins _ | body _ => exact .of_not_isModel (isModel_copyAll lines _)
  | model parent b =>
      obtain ⟨last, hlast⟩ := h (parent, b) List.mem_cons_self
      rw [copyAll_model]
      intro c hc
      cases List.mem_singleton.mp hc
      exact ⟨last, hlast.addTexts lines⟩

theorem readTo_opened? {p parent : Option Subcircuit} {head : ModelOpening} {b : Model.Block}
    {behind : Option (List Line)} (h : opened? o p head s = some (parent, b, behind)) :
    ∃ last, b.ReadTo o last := by
  unfold opened? at h
  split at h
  · obtain ⟨-, hread⟩ := Prod.mk.inj (Option.some.inj h)
    have hhead := Model.Block.readTo_ofHead o head s
    rw [hread] at hhead
    exact hhead
  · cases h

theorem BlockRead.readsInto? (h : scope.BlockRead o) {parent : Option Subcircuit} {b : Model.Block}
    {behind : Option (List Line)} (hread : readsInto? o s kind scope = some (parent, b, behind)) :
    ∃ last, b.ReadTo o last := by
  cases scope with
  | pins _ => cases hread
  | top | body _ =>
      cases kind with
      | model head => exact readTo_opened? hread
      | simulator _ | parameters | statistics | binHeader _ _ | blockClose | subcircuitClose _
      | subcircuitOpen _ | directive _ | deviceCall _ | other => cases hread
  | model p b₀ =>
      cases kind with
      | model head => exact readTo_opened? hread
      | blockClose | subcircuitClose _ | subcircuitOpen _ => cases hread
      | simulator _ | parameters | statistics | binHeader _ _ | directive _ | deviceCall _
      | other =>
          obtain ⟨last, hlast⟩ := h (p, b₀) List.mem_cons_self
          obtain ⟨-, hlines⟩ := Prod.mk.inj (Option.some.inj hread)
          have hnext := hlast.readLines s.lines
          rw [hlines] at hnext
          exact hnext

theorem BlockRead.step {cx : Context} (h : scope.BlockRead cx.options) (s : Statement)
    (kind : Statement.Kind) : (scope.step cx s kind).1.BlockRead cx.options := by
  cases hnext : (scope.step cx s kind).1 with
  | top | pins _ | body _ => exact .of_not_isModel rfl
  | model parent b =>
      intro c hc
      cases List.mem_singleton.mp hc
      exact h.readsInto? ((leaves_step cx s scope kind).eq_model_iff.mp hnext)

theorem BlockRead.closings (h : scope.BlockRead o) (s : Statement) (kind : Statement.Kind) :
    ∀ c ∈ scope.closings o s kind, ∃ last, c.2.ReadTo o last := by
  intro c hc
  obtain hc | hc := List.mem_append.mp hc
  · cases kind with
    | blockClose | model _ | subcircuitOpen _ | subcircuitClose _ => exact h c hc
    | simulator _ | parameters | statistics | binHeader _ _ | directive _ | deviceCall _
    | other => exact absurd hc List.not_mem_nil
  · match hread : Scope.readsInto? o s kind scope with
    | some (parent, b, some rest) =>
        rw [hread] at hc
        cases List.mem_singleton.mp hc
        exact h.readsInto? hread
    | some (_, _, none) | none =>
        rw [hread] at hc
        exact absurd hc List.not_mem_nil

end Scope

namespace Session
variable {cx : Context} {a : Session}

theorem blockRead_push (h : a.scope.BlockRead cx.options) (item : Item) :
    (a.push cx item).1.scope.BlockRead cx.options := by
  cases hd : a.dispatched? cx item with
  | some x =>
      rw [(push_of_dispatched hd).1]
      exact h.step x.1 x.2
  | none =>
      obtain ⟨lines, hscope, -⟩ := push_of_not_dispatched hd
      rw [hscope]
      exact h.copyAll lines

theorem readTo_itemClosings (h : a.scope.BlockRead cx.options) (item : Item) :
    ∀ c ∈ a.itemClosings cx item, ∃ last, c.2.ReadTo cx.options last := by
  unfold itemClosings
  cases a.dispatched? cx item with
  | some x => exact h.closings x.1 x.2
  | none => exact fun c hc => absurd hc List.not_mem_nil

/-- Every block that a run leaves open or closes is one that reading gives. -/
theorem readTo_run (h : a.scope.BlockRead cx.options) (items : List Item) :
    (a.last cx items).scope.BlockRead cx.options ∧
      ∀ c ∈ a.closings cx items, ∃ last, c.2.ReadTo cx.options last := by
  induction items generalizing a with
  | nil => exact ⟨h, h⟩
  | cons item r ih =>
      obtain ⟨hlast, hclosings⟩ := ih (blockRead_push h item)
      refine ⟨hlast, ?_⟩
      intro c hc
      obtain hc | hc := List.mem_append.mp hc
      · exact readTo_itemClosings h item c hc
      · exact hclosings c hc

/-- In every block that is open between two items, and in every block that the run closes, the
carry describes the last parameter line of the current model, and all other open values go on in
the next line of their model. The run closes each block that it opens. Closing reports a value
exactly if the last parameter line read left one open. It then supplies the delimiter, except that
an assignment that no line has given a text becomes a comment; otherwise it changes nothing. -/
theorem block_carry_fits (cx : Context) (d : Dialect) (items : List Item) :
    (∀ parent b, (({ dialect := d } : Session).last cx items).scope = .model parent b →
      b.CarryFits cx.options) ∧
    (({ dialect := d } : Session).closings cx items).map (fun c => (c.2.name, c.2.common.line)) =
      ({ dialect := d } : Session).blockOpenings cx items ∧
    (Scope.closingWarnings (({ dialect := d } : Session).closings cx items)).Sublist
      (({ dialect := d } : Session).run cx items).warnings ∧
    ∀ parent b, (parent, b) ∈ ({ dialect := d } : Session).closings cx items →
      b.CarryFits cx.options ∧ ∃ last, b.ReadTo cx.options last ∧
        (Scope.endModel parent b).2.openValues =
          (if last.any ParamLine.isOpen then [Cause.at .unclosedValue b.currentModel.line]
            else []) ∧
        (b.SuppliesDelimiter ↔ ∃ l ∈ last, l.isOpen = true ∧ l.endsVoid = false) ∧
        ((∃ l ∈ last, l.isOpen = true ∧ l.endsVoid = true) → b.DropsAssignment) ∧
        ((∀ l ∈ last, l.isOpen = false) → b.closeValue = b) := by
  have hstart : ({ dialect := d } : Session).scope.BlockRead cx.options := .of_not_isModel rfl
  obtain ⟨hlast, hclosings⟩ := readTo_run hstart items
  refine ⟨?_, origins_closings cx _ items, closingWarnings_run cx _ items, ?_⟩
  · intro parent b hscope
    have hopen : (parent, b) ∈ (({ dialect := d } : Session).last cx items).scope.openBlock := by
      rw [hscope]
      exact List.mem_cons_self
    obtain ⟨last, hread⟩ := hlast _ hopen
    exact hread.tracks.carryFits
  · intro parent b hb
    obtain ⟨last, hread⟩ := hclosings _ hb
    refine ⟨hread.tracks.carryFits, last, hread, ?_, hread.suppliesDelimiter_iff, ?_,
      hread.closeValue_eq_self⟩
    · rw [Scope.openValues_endModel, hread.isOpen_eq]
    · rintro ⟨l, rfl, hopen, hvoid⟩
      exact hread.dropsAssignment hopen hvoid

/-- A deck with a block of two bins. Values of the common part and of the first bin run over two
lines; that of the second bin is open where the block ends. -/
def binnedText : Text :=
  "model nch bsim4 \x7b\nu=\x7b1+\n+ 2\x7d\n0: w=1\nv=(2+\n+ 3)\n1: w=2 x=(4\n\x7d\n".toList

def binned : Model.Block :=
  ((Model.Block.new "nch".toList "bsim4".toList 1).readLines {}
    [⟨2, .code "u=\x7b1+".toList false⟩, ⟨3, .code "+ 2\x7d".toList true⟩,
      ⟨4, .code "0: w=1".toList false⟩, ⟨5, .code "v=(2+".toList false⟩,
      ⟨6, .code "+ 3)".toList true⟩, ⟨7, .code "1: w=2 x=(4".toList false⟩]).1

/-- What runs over two lines is settled when the block ends; the value of the second bin is
reported and ended. -/
theorem block_carry_fits_binned :
    (({ dialect := .spectre } : Session).last ⟨Symbols.scan binnedText, {}⟩
        (Item.ofText binnedText).dropLast).scope = .model none binned ∧
      binned.carry = .bare 1 ∧ binned.carry = binned.currentModel.carried ∧
      binned.bins.map Prod.fst = [0, 1] ∧ binned.common.IsSettled {} ∧
      (∀ m, (0, m) ∈ binned.bins → m.IsSettled {}) ∧
      (none, binned) ∈ ({ dialect := .spectre } : Session).closings ⟨Symbols.scan binnedText, {}⟩
        (Item.ofText binnedText) ∧
      binned.SuppliesDelimiter ∧
      ∃ last, binned.ReadTo {} last ∧ ∃ l ∈ last, l.isOpen = true ∧ l.endsVoid = false := by
  have hscope : (({ dialect := .spectre } : Session).last ⟨Symbols.scan binnedText, {}⟩
      (Item.ofText binnedText).dropLast).scope = .model none binned := by decide +kernel
  have hclosed : (none, binned) ∈ ({ dialect := .spectre } : Session).closings
      ⟨Symbols.scan binnedText, {}⟩ (Item.ofText binnedText) := by decide +kernel
  have hcurrent : binned.current = some 1 := by decide +kernel
  have hsupplies : binned.SuppliesDelimiter :=
    ⟨"x=\x7b(4".toList, ")\x7d".toList, nofun, by decide +kernel, by decide +kernel⟩
  have hfits := (block_carry_fits ⟨Symbols.scan binnedText, {}⟩ .spectre
    (Item.ofText binnedText).dropLast).1 none binned hscope
  obtain ⟨-, last, hread, -, hiff, -, -⟩ := (block_carry_fits ⟨Symbols.scan binnedText, {}⟩
    .spectre (Item.ofText binnedText)).2.2.2 none binned hclosed
  refine ⟨hscope, by decide +kernel, hfits.carry, by decide +kernel, hfits.common ?_, ?_, hclosed,
    hsupplies, last, hread, hiff.mp hsupplies⟩
  · rw [hcurrent]
    nofun
  · intro m hm
    refine hfits.bins (0, m) hm ?_
    rw [hcurrent]
    nofun

/-- A deck with a block whose last line names a parameter and gives it no text. -/
def voidText : Text := "model d1 diode \x7b\nis=\n\x7d\n".toList

def voidBlock : Model.Block :=
  ((Model.Block.new "d1".toList "diode".toList 1).readLines {} [⟨2, .code "is=".toList false⟩]).1

/-- An open value does not always get a delimiter: here the assignment becomes a comment. -/
theorem not_suppliesDelimiter_iff_isOpen :
    (Conversion.ofText {} .spectre voidText).content = ".model d1 d\n+ $ is=\n".toList ∧
      ¬ ∀ parent b, (parent, b) ∈ ({ dialect := .spectre } : Session).closings
          ⟨Symbols.scan voidText, {}⟩ (Item.ofText voidText) →
        ∀ last, b.ReadTo {} last → (b.SuppliesDelimiter ↔ ∃ l ∈ last, l.isOpen = true) := by
  refine ⟨by decide +kernel, ?_⟩
  intro hall
  have hclosed : (none, voidBlock) ∈ ({ dialect := .spectre } : Session).closings
      ⟨Symbols.scan voidText, {}⟩ (Item.ofText voidText) := by decide +kernel
  obtain ⟨last, hread⟩ : ∃ last, voidBlock.ReadTo {} last :=
    (Model.Block.ReadTo.new "d1".toList "diode".toList 1).readLines _
  have hopen : last.any ParamLine.isOpen = true := by
    rw [← hread.isOpen_eq]
    decide +kernel
  obtain ⟨text, delimiter, -, htext, hclose⟩ :=
    (hall none voidBlock hclosed last hread).mpr ((Option.any_eq_true _ _).mp hopen)
  have hbefore : voidBlock.lastPiece?.map Piece.render = some "is=\x7b".toList := by
    decide +kernel
  have hafter : voidBlock.closeValue.lastPiece?.map Piece.render = some "$ is=".toList := by
    decide +kernel
  rw [hbefore, Option.some.injEq] at htext
  rw [hafter, ← htext, Option.some.injEq] at hclose
  revert hclose
  simp

end Session
end SpiceDeck
