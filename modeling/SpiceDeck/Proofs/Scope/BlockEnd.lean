import SpiceDeck.Proofs.Remark.Statements
import SpiceDeck.Proofs.Scope.Calls
import SpiceDeck.Proofs.Text.Lines

/-!
The end of a model block. A line that ends in a brace closes the block in one of two ways: as a
line of the block that has more closing than opening braces, those of an open value included, or
as a statement that is nothing but a brace. Main statement: the exact condition under which such
a line closes the block. The two ways differ on a brace of its own in a value that is open.
-/

namespace SpiceDeck
open Text

namespace Text
variable {c : Char}

theorem count_trimStart (hc : isSpace c = false) (t : Text) :
    (trimStart t).count c = t.count c := by
  induction t with
  | nil => rfl
  | cons a r ih =>
      cases ha : isSpace a with
      | false => simp [trimStart, ha]
      | true =>
          have hne : a ≠ c := by
            rintro rfl
            rw [hc] at ha
            cases ha
          have htrim : trimStart (a :: r) = trimStart r := by simp [trimStart, ha]
          rw [htrim, ih, List.count_cons_of_ne hne]

theorem count_trimEnd (hc : isSpace c = false) (t : Text) : (trimEnd t).count c = t.count c := by
  rw [trimEnd, List.count_reverse]
  exact (count_trimStart hc t.reverse).trans List.count_reverse

theorem count_trim (hc : isSpace c = false) (t : Text) : (trim t).count c = t.count c := by
  rw [trim, count_trimEnd hc, count_trimStart hc]

theorem exists_trimStart_concat (hc : isSpace c = false) (u : Text) :
    ∃ v, trimStart (u ++ [c]) = v ++ [c] := by
  induction u with
  | nil => exact ⟨[], by simp [trimStart, hc]⟩
  | cons a u ih =>
      cases ha : isSpace a with
      | false => exact ⟨a :: u, by simp [trimStart, ha]⟩
      | true =>
          obtain ⟨v, hv⟩ := ih
          exact ⟨v, by rw [← hv]; simp [trimStart, ha]⟩

end Text

namespace Line
variable {l : Line} {c : Char}

theorem count_content (hc : isSpace c = false) (hplus : c ≠ '+') (l : Line) :
    l.content.count c = l.text.count c := by
  by_cases h : l.continues = true ∧ ∃ r, trim l.text = '+' :: r
  · obtain ⟨hcont, r, hr⟩ := h
    rw [content_plus hcont hr, count_trimStart hc, ← count_trim hc l.text, hr,
      List.count_cons_of_ne hplus.symm]
  · rw [content_other fun hcont r hr => h ⟨hcont, r, hr⟩, count_trim hc]

/-- The last character of a line is that of its content. -/
theorem exists_content_concat (hc : isSpace c = false) (hplus : c ≠ '+')
    (h : (trimEnd l.text).getLast? = some c) : ∃ u, l.content = u ++ [c] := by
  obtain ⟨u, hu⟩ := List.getLast?_eq_some_iff.mp h
  obtain ⟨v, hv⟩ := exists_trimStart_concat hc u
  have htrim : trim l.text = v ++ [c] := by rw [trim, ← trimStart_trimEnd, hu, hv]
  by_cases hcont : l.continues = true ∧ ∃ r, trim l.text = '+' :: r
  · obtain ⟨hcont, r, hr⟩ := hcont
    rw [content_plus hcont hr]
    rw [htrim] at hr
    cases v with
    | nil => exact absurd (List.cons.inj hr).1 hplus
    | cons a v =>
        rw [← (List.cons.inj hr).2]
        exact exists_trimStart_concat hc v
  · exact ⟨v, by rw [content_other fun hc r hr => hcont ⟨hc, r, hr⟩, htrim]⟩

end Line

def Carry.braces : Carry → Nat
  | .brace depth => depth
  | .closed | .bare _ | .quote _ => 0

/-- The line has more closing braces than there are to close. -/
def Line.Overdraws (carry : Carry) (l : Line) : Prop :=
  carry.braces + l.text.count '{' < l.text.count '}'

instance (carry : Carry) (l : Line) : Decidable (l.Overdraws carry) :=
  inferInstanceAs (Decidable (_ < _))

namespace Model.Block

theorem splitClose_closes {l : Line} (h : (trimEnd l.text).getLast? = some '}') (carry : Carry) :
    (splitClose carry l.content).2 = true ↔ l.Overdraws carry := by
  obtain ⟨u, hu⟩ := Line.exists_content_concat (by decide) (by decide) h
  have htrim : trimEnd l.content = l.content := by
    rw [hu, trimEnd_append_cons (by decide)]
    rfl
  have hlast : l.content.getLast? = some '}' := by rw [hu, List.getLast?_concat]
  have hopen := Line.count_content (c := '{') (by decide) (by decide) l
  have hclose := Line.count_content (c := '}') (by decide) (by decide) l
  have hsplit : ∀ n : Nat, (if l.content.getLast? = some '}' &&
      n + l.content.count '{' < l.content.count '}' then (l.content.dropLast, true)
      else (l.content, false)).2 = true ↔ n + l.text.count '{' < l.text.count '}' := by
    intro n
    by_cases hover : n + l.text.count '{' < l.text.count '}'
    · simp [hlast, hopen, hclose, hover]
    · simp [hlast, hopen, hclose, hover]
  unfold splitClose
  rw [htrim]
  cases carry with
  | brace depth => exact hsplit depth
  | closed | bare _ | quote _ => exact hsplit 0

/-- The lines behind those that leave the block open are read into it. -/
theorem readLines_append (o : Options) (b : Model.Block) (ls rest : List Line) :
    b.readLines o (ls ++ rest) =
      match b.readLines o ls with
      | (b, none) => b.readLines o rest
      | (b, some behind) => (b, some (behind ++ rest)) := by
  induction ls generalizing b with
  | nil => rfl
  | cons l ls ih =>
      simp only [List.cons_append, readLines]
      split
      · split
        · rfl
        · exact ih _
      · exact ih _

theorem readLines_snoc {o : Options} {b b' : Model.Block} {ls : List Line}
    (h : b.readLines o ls = (b', none)) (l : Line) :
    b.readLines o (ls ++ [l]) = b'.readLines o [l] := by
  rw [readLines_append, h]

theorem ofHead_snoc {o : Options} {b : Model.Block} {head : ModelOpening} {s : Statement}
    (h : ofHead o head s = (b, none)) (l : Line) :
    ofHead o head { s with tail := s.tail ++ [l] } = b.readLines o [l] := by
  unfold ofHead at h ⊢
  by_cases hclosed : ((new head.name head.keyword s.number).readLine o head.rest s.number).2 = true
  · simp [hclosed] at h
  · simp only [hclosed, Bool.false_eq_true, if_false] at h
    rw [← readLines_snoc h]
    exact if_neg hclosed

/-- A line that ends in a brace closes the block by the balance of braces. -/
theorem readLines_last {l : Line} (hcode : l.isCode = true)
    (h : (trimEnd l.text).getLast? = some '}') (o : Options) (b : Model.Block) :
    (b.readLines o [l]).2 = none ↔ ¬ l.Overdraws b.carry := by
  rw [← splitClose_closes h]
  simp only [readLines, hcode, if_true, readLine]
  by_cases hclosed : (splitClose b.carry l.content).2 = true
  · simp [hclosed]
  · simp [hclosed]

end Model.Block

namespace Statement

/-- A call, or a statement of no known form. These two depend on the whole statement. -/
def Kind.isCall : Kind → Bool
  | .deviceCall _ | .other => true
  | .simulator _ | .parameters | .statistics | .model _ | .binHeader _ _ | .blockClose
  | .subcircuitClose _ | .subcircuitOpen _ | .directive _ => false

/-- A statement that is handed on: it neither sets the dialect nor starts statistics. -/
def Kind.isActive : Kind → Bool
  | .simulator _ | .statistics => false
  | .parameters | .model _ | .binHeader _ _ | .blockClose | .subcircuitClose _
  | .subcircuitOpen _ | .directive _ | .deviceCall _ | .other => true

/-- A statement that may stand in a model block. -/
def Kind.isBody : Kind → Bool
  | .simulator _ | .statistics | .model _ | .subcircuitOpen _ | .subcircuitClose _ => false
  | .parameters | .binHeader _ _ | .blockClose | .directive _ | .deviceCall _ | .other => true

theorem Kind.isActive_of_isBody {kind : Kind} (h : kind.isBody = true) : kind.isActive = true := by
  cases kind with
  | simulator _ | statistics => cases h
  | parameters | model _ | binHeader _ _ | blockClose | subcircuitClose _ | subcircuitOpen _
  | directive _ | deviceCall _ | other => rfl

theorem Kind.isActive_congr {kind kind' : Kind}
    (h : kind = kind' ∨ kind.isCall = true ∧ kind'.isCall = true) (hactive : kind.isActive = true) :
    kind'.isActive = true := by
  obtain rfl | ⟨-, hcall⟩ := h
  · exact hactive
  · cases kind' with
    | simulator _ | statistics => cases hcall
    | parameters | model _ | binHeader _ _ | blockClose | subcircuitClose _ | subcircuitOpen _
    | directive _ | deviceCall _ | other => rfl

theorem Kind.firstOf_append (first a b : List (Option Kind)) :
    firstOf (first ++ a) = firstOf (first ++ b) ∨
      firstOf (first ++ a) = firstOf a ∧ firstOf (first ++ b) = firstOf b := by
  induction first with
  | nil => exact .inr ⟨rfl, rfl⟩
  | cons k first ih =>
      cases k with
      | none => exact ih
      | some k => exact .inl rfl

theorem Kind.isCall_firstOf (a b : Option CallOpening) :
    (firstOf [a.map .deviceCall, b.map .deviceCall]).isCall = true := by
  cases a with
  | some a => rfl
  | none =>
      cases b with
      | some b => rfl
      | none => rfl

/-- Every other kind is told by the head. -/
theorem kind_congr (symbols : Symbols) (o : Options) (d : Dialect) {s t : Statement}
    (h : s.head = t.head) :
    s.kind symbols o d = t.kind symbols o d ∨
      (s.kind symbols o d).isCall = true ∧ (t.kind symbols o d).isCall = true := by
  have hcalls : ∀ (spectre : Bool) (s : Statement), (Kind.firstOf
      [if spectre then (Head.parenCall? s).map .deviceCall else none,
        (Head.bareCall? symbols o spectre s).map .deviceCall]).isCall = true := by
    intro spectre s
    cases spectre with
    | true => exact Kind.isCall_firstOf _ _
    | false => exact Kind.isCall_firstOf none _
  unfold kind
  rw [h]
  obtain hsame | ⟨hs, ht⟩ := Kind.firstOf_append [_, _, _, _, _, _, _, _, _] _ _
  · exact .inl hsame
  · exact .inr ⟨(congrArg Kind.isCall hs).trans (hcalls _ s),
      (congrArg Kind.isCall ht).trans (hcalls _ t)⟩

theorem kind_eq_blockClose {symbols : Symbols} {o : Options} {d : Dialect} {s : Statement}
    (h : s.kind symbols o d = .blockClose) : d = .spectre ∧ s.head.content = ['}'] := by
  have hmem := Kind.mem_of_firstOf h nofun
  simpa [eq_comm (a := some Kind.blockClose)] using hmem

theorem kind_lone_brace (symbols : Symbols) (o : Options) {s : Statement}
    (h : s.head.content = ['}']) : s.kind symbols o .spectre = .blockClose := by
  unfold kind
  rw [h]
  rfl

end Statement

namespace Scope

def isModel : Scope → Bool
  | .model _ _ => true
  | .top | .pins _ | .body _ => false

/-- The block of a model statement, as far as its statement fills it. -/
def opened? (o : Options) (parent : Option Subcircuit) (head : ModelOpening) (s : Statement) :
    Option (Option Subcircuit × Model.Block × Option (List Line)) :=
  if head.braced then some (parent, Model.Block.ofHead o head s) else none

/-- The block that the lines of a statement are read into, with the place where it stands and the
lines behind its end. -/
def readsInto? (o : Options) (s : Statement) (kind : Statement.Kind) :
    Scope → Option (Option Subcircuit × Model.Block × Option (List Line))
  | .top =>
      match kind with
      | .model head => opened? o none head s
      | _ => none
  | .pins _ => none
  | .body sub =>
      match kind with
      | .model head => opened? o (some sub) head s
      | _ => none
  | .model parent b =>
      match kind with
      | .model head => opened? o (endModel parent b).1 head s
      | .blockClose | .subcircuitOpen _ | .subcircuitClose _ => none
      | .simulator _ | .parameters | .statistics | .binHeader _ _ | .directive _ | .deviceCall _
      | .other => some (parent, b.readLines o s.lines)

theorem isModel_copyAll (lines : List Text) (scope : Scope) :
    (scope.copyAll lines).1.isModel = scope.isModel := by
  cases scope with
  | top => rw [copyAll_top]
  | pins sub => rw [copyAll_pins]; rfl
  | body sub => rw [copyAll_body]; rfl
  | model parent b => rw [copyAll_model]; rfl

theorem isModel_around (parent : Option Subcircuit) : (around parent).isModel = false := by
  cases parent with
  | none => rfl
  | some sub => rfl

theorem isModel_leaveModel (parent : Option Subcircuit) (b : Model.Block) (rest : List Line) :
    (leaveModel parent b rest).1.isModel = false := by
  simp only [leaveModel, isModel_copyAll, isModel_around]

/-- The scope after a statement is that of the block it was read into, unless it closed it. -/
def Leaves (read : Option (Option Subcircuit × Model.Block × Option (List Line))) (scope : Scope) :
    Prop :=
  match read with
  | some (parent, b, none) => scope = .model parent b
  | some (_, _, some _) | none => scope.isModel = false

section Step
variable (cx : Context) (s : Statement)

theorem leaves_enterModel (o : Options) (parent : Option Subcircuit) (head : ModelOpening) :
    Leaves (opened? o parent head s) (enterModel o parent head s).1 := by
  unfold opened? enterModel
  split
  · cases Model.Block.ofHead o head s with
    | mk b behind =>
        cases behind with
        | none => rfl
        | some rest => exact isModel_leaveModel parent b rest
  · cases parent with
    | none => rfl
    | some sub => rfl

theorem leaves_stepTop (kind : Statement.Kind) :
    Leaves (readsInto? cx.options s kind .top) (stepTop cx s kind).1 := by
  cases kind with
  | model head => exact leaves_enterModel s cx.options none head
  | subcircuitOpen head =>
      change (enterSubcircuit cx.options head s).1.isModel = false
      unfold enterSubcircuit
      dsimp only
      split
      · rfl
      · rfl
  | simulator _ | parameters | statistics | binHeader _ _ | blockClose | subcircuitClose _
  | directive _ | deviceCall _ | other => rfl

theorem leaves_stepBody (sub : Subcircuit) (kind : Statement.Kind) :
    Leaves (readsInto? cx.options s kind (.body sub)) (stepBody cx sub s kind).1 := by
  cases kind with
  | model head => exact leaves_enterModel s cx.options (some sub) head
  | parameters =>
      change (stepBody cx sub s .parameters).1.isModel = false
      unfold stepBody
      dsimp only
      split
      · rfl
      · rfl
  | simulator _ | statistics | binHeader _ _ | blockClose | subcircuitClose _
  | subcircuitOpen _ | directive _ | deviceCall _ | other => rfl

theorem isModel_stepPins (sub : Subcircuit) (kind : Statement.Kind) :
    (stepPins cx sub s kind).1.isModel = false := by
  cases kind with
  | subcircuitClose _ => rfl
  | simulator _ | parameters | statistics | model _ | binHeader _ _ | blockClose
  | subcircuitOpen _ | directive _ | deviceCall _ | other =>
      unfold stepPins
      dsimp only
      split
      · rfl
      · rfl

/-- Outside of blocks only a model statement is read into one. -/
theorem readsInto?_around (o : Options) (parent : Option Subcircuit) (kind : Statement.Kind) :
    readsInto? o s kind (around parent) =
      match kind with
      | .model head => opened? o parent head s
      | _ => none := by
  cases parent with
  | none => rfl
  | some sub => rfl

theorem leaves_interruptModel (parent : Option Subcircuit) (b : Model.Block)
    (kind : Statement.Kind) :
    Leaves (readsInto? cx.options s kind (around (endModel parent b).1))
      (interruptModel cx parent b s kind).1 := by
  rw [interruptModel_eq]
  cases (endModel parent b).1 with
  | none => exact leaves_stepTop cx s kind
  | some sub => exact leaves_stepBody cx s sub kind

theorem leaves_stepModel (parent : Option Subcircuit) (b : Model.Block) (kind : Statement.Kind) :
    Leaves (readsInto? cx.options s kind (.model parent b)) (stepModel cx parent b s kind).1 := by
  have hinterrupt := leaves_interruptModel cx s parent b kind
  rw [readsInto?_around] at hinterrupt
  cases kind with
  | blockClose => exact isModel_leaveModel parent b s.tail
  | model _ | subcircuitOpen _ | subcircuitClose _ => exact hinterrupt
  | simulator _ | parameters | statistics | binHeader _ _ | directive _ | deviceCall _ | other =>
      unfold readsInto? stepModel
      dsimp only
      cases b.readLines cx.options s.lines with
      | mk b behind =>
          cases behind with
          | none => rfl
          | some rest => exact isModel_leaveModel parent b rest

theorem leaves_step (scope : Scope) (kind : Statement.Kind) :
    Leaves (readsInto? cx.options s kind scope) (scope.step cx s kind).1 := by
  cases scope with
  | top => exact leaves_stepTop cx s kind
  | pins sub => exact isModel_stepPins cx s sub kind
  | body sub => exact leaves_stepBody cx s sub kind
  | model parent b => exact leaves_stepModel cx s parent b kind

end Step

theorem Leaves.eq_model_iff {read : Option (Option Subcircuit × Model.Block × Option (List Line))}
    {scope : Scope} (h : Leaves read scope) {parent : Option Subcircuit} {b : Model.Block} :
    scope = .model parent b ↔ read = some (parent, b, none) := by
  match read, h with
  | some (p, b', none), h =>
      rw [show scope = .model p b' from h]
      simp
  | some (p, b', some rest), h =>
      refine iff_of_false ?_ (by simp)
      rintro rfl
      cases h
  | none, h =>
      refine iff_of_false ?_ nofun
      rintro rfl
      cases h

theorem Leaves.isModel_eq {read : Option (Option Subcircuit × Model.Block × Option (List Line))}
    {scope : Scope} (h : Leaves read scope) :
    scope.isModel = read.any fun read => read.2.2.isNone := by
  match read, h with
  | some (p, b, none), h =>
      rw [show scope = .model p b from h]
      rfl
  | some (_, _, some _), h | none, h => exact h

section Snoc
variable {o : Options} {s : Statement} {parent : Option Subcircuit} {b : Model.Block}

theorem opened?_snoc {p : Option Subcircuit} {head : ModelOpening}
    (h : opened? o p head s = some (parent, b, none)) (l : Line) :
    opened? o p head { s with tail := s.tail ++ [l] } = some (parent, b.readLines o [l]) := by
  unfold opened? at h ⊢
  split at h
  · rename_i hbraced
    obtain ⟨rfl, hread⟩ := Prod.mk.inj (Option.some.inj h)
    rw [if_pos hbraced, Model.Block.ofHead_snoc hread]
  · cases h

theorem readsInto?_congr {kind kind' : Statement.Kind}
    (h : kind = kind' ∨ kind.isCall = true ∧ kind'.isCall = true) (scope : Scope) :
    readsInto? o s kind scope = readsInto? o s kind' scope := by
  have hcall : ∀ kind : Statement.Kind, kind.isCall = true →
      readsInto? o s kind scope = readsInto? o s .other scope := by
    intro kind hcall
    cases kind with
    | deviceCall _ | other => cases scope <;> rfl
    | simulator _ | parameters | statistics | model _ | binHeader _ _ | blockClose
    | subcircuitClose _ | subcircuitOpen _ | directive _ => cases hcall
  obtain rfl | ⟨h, h'⟩ := h
  · rfl
  · rw [hcall kind h, hcall kind' h']

/-- The block that a statement fills takes a further line of the statement too. -/
theorem readsInto?_snoc {kind : Statement.Kind} {scope : Scope}
    (h : readsInto? o s kind scope = some (parent, b, none)) (l : Line) :
    readsInto? o { s with tail := s.tail ++ [l] } kind scope =
      some (parent, b.readLines o [l]) := by
  cases scope with
  | pins sub => cases h
  | top | body sub =>
      cases kind with
      | model head => exact opened?_snoc h l
      | simulator _ | parameters | statistics | binHeader _ _ | blockClose | subcircuitClose _
      | subcircuitOpen _ | directive _ | deviceCall _ | other => cases h
  | model p b₀ =>
      cases kind with
      | model head => exact opened?_snoc h l
      | blockClose | subcircuitClose _ | subcircuitOpen _ => cases h
      | simulator _ | parameters | statistics | binHeader _ _ | directive _ | deviceCall _
      | other =>
          obtain ⟨rfl, hread⟩ := Prod.mk.inj (Option.some.inj h)
          exact congrArg (fun read => some (p, read)) (Model.Block.readLines_snoc hread l)

end Snoc
end Scope

namespace Session
variable (cx : Context) (a : Session) {l : Line}

theorem isModel_push {s : Statement} {kind : Statement.Kind}
    (h : a.dispatched? cx (.statement s) = some (s, kind)) :
    (a.push cx (.statement s)).1.scope.isModel =
      (Scope.readsInto? cx.options s kind a.scope).any fun read => read.2.2.isNone := by
  rw [(push_of_dispatched h).1]
  exact (Scope.leaves_step cx s a.scope kind).isModel_eq

theorem isModel_push_copied {s : Statement} (h : a.dispatched? cx (.statement s) = none) :
    (a.push cx (.statement s)).1.scope.isModel = a.scope.isModel := by
  obtain ⟨lines, hscope, -⟩ := push_of_not_dispatched h
  rw [hscope, Scope.isModel_copyAll]

theorem dispatched?_of_active {s : Statement} (hs : a.statistics = 0)
    (h : (s.kind cx.symbols cx.options a.dialect).isActive = true) :
    a.dispatched? cx (.statement s) = some (s, s.kind cx.symbols cx.options a.dialect) := by
  rw [dispatched?, if_neg (by omega)]
  cases hk : s.kind cx.symbols cx.options a.dialect with
  | simulator _ | statistics =>
      rw [hk] at h
      cases h
  | parameters | model _ | binHeader _ _ | blockClose | subcircuitClose _ | subcircuitOpen _
  | directive _ | deviceCall _ | other => rfl

theorem dispatched?_muted {s : Statement} (hs : a.statistics ≠ 0) :
    a.dispatched? cx (.statement s) = none :=
  if_pos (Nat.pos_of_ne_zero hs)

/-- A statement of one line that ends in a brace. -/
theorem closes_alone_iff {parent : Option Subcircuit} {b : Model.Block}
    (hscope : a.scope = .model parent b) (hcode : l.isCode = true)
    (hlast : (trimEnd l.text).getLast? = some '}')
    (hkind : ((⟨l, []⟩ : Statement).kind cx.symbols cx.options a.dialect).isBody = true) :
    (a.push cx (.statement ⟨l, []⟩)).1.scope.isModel = false ↔
      a.statistics = 0 ∧
        (l.Overdraws b.carry ∨ (a.dialect = .spectre ∧ l.content = ['}'])) := by
  by_cases hs : a.statistics = 0
  · have hactive := Statement.Kind.isActive_of_isBody hkind
    rw [isModel_push cx a (dispatched?_of_active cx a hs hactive), hscope]
    by_cases hlone : a.dialect = .spectre ∧ l.content = ['}']
    · have hclose : (⟨l, []⟩ : Statement).kind cx.symbols cx.options a.dialect = .blockClose := by
        rw [hlone.1]
        exact Statement.kind_lone_brace cx.symbols cx.options hlone.2
      rw [hclose]
      exact iff_of_true rfl ⟨hs, .inr hlone⟩
    · have hread : Scope.readsInto? cx.options ⟨l, []⟩
          ((⟨l, []⟩ : Statement).kind cx.symbols cx.options a.dialect) (.model parent b) =
            some (parent, b.readLines cx.options [l]) := by
        cases hk : (⟨l, []⟩ : Statement).kind cx.symbols cx.options a.dialect with
        | blockClose => exact absurd (Statement.kind_eq_blockClose hk) hlone
        | simulator _ | statistics | model _ | subcircuitOpen _ | subcircuitClose _ =>
            rw [hk] at hkind
            cases hkind
        | parameters | binHeader _ _ | directive _ | deviceCall _ | other => rfl
      have hlines := Model.Block.readLines_last hcode hlast cx.options b
      rw [hread]
      simp only [Option.any_some, Option.isNone_eq_false_iff, hs, hlone, or_false, true_and]
      rw [Option.isSome_iff_ne_none, ne_eq, hlines, not_not]
  · rw [isModel_push_copied cx a (dispatched?_muted cx a hs), hscope]
    exact iff_of_false nofun fun h => hs h.1

/-- A further line of a statement, which ends in a brace. -/
theorem closes_continued_iff {head : Line} {tail : List Line} {parent : Option Subcircuit}
    {b : Model.Block} (hcode : l.isCode = true) (hlast : (trimEnd l.text).getLast? = some '}')
    (hkind : ((⟨head, tail⟩ : Statement).kind cx.symbols cx.options a.dialect).isActive = true)
    (hscope : (a.push cx (.statement ⟨head, tail⟩)).1.scope = .model parent b) :
    (a.push cx (.statement ⟨head, tail ++ [l]⟩)).1.scope.isModel = false ↔
      a.statistics = 0 ∧ l.Overdraws b.carry := by
  by_cases hs : a.statistics = 0
  · have hsame := Statement.kind_congr cx.symbols cx.options a.dialect
      (s := ⟨head, tail⟩) (t := ⟨head, tail ++ [l]⟩) rfl
    have hdispatched := dispatched?_of_active cx a hs hkind
    have hactive := Statement.Kind.isActive_congr hsame hkind
    rw [(push_of_dispatched hdispatched).1,
      (Scope.leaves_step cx ⟨head, tail⟩ a.scope _).eq_model_iff, Scope.readsInto?_congr hsame]
      at hscope
    have hlines := Model.Block.readLines_last hcode hlast cx.options b
    rw [isModel_push cx a (dispatched?_of_active cx a hs hactive),
      Scope.readsInto?_snoc hscope l]
    simp only [Option.any_some, Option.isNone_eq_false_iff, hs, true_and]
    rw [Option.isSome_iff_ne_none, ne_eq, hlines, not_not]
  · have hmodel : a.scope.isModel = true := by
      rw [← isModel_push_copied cx a (dispatched?_muted cx a hs), hscope]
      rfl
    rw [isModel_push_copied cx a (dispatched?_muted cx a hs), hmodel]
    exact iff_of_false nofun fun h => hs h.1

/-- A line that ends in a brace closes the model block by the balance of its braces alone, where
it continues a statement. As a statement of its own it closes the block also if it is nothing but
a brace and the dialect is Spectre, whatever value is open. No line does so in statistics. -/
theorem closes_block_iff (cx : Context) (l : Line) (hcode : l.isCode = true)
    (hlast : (trimEnd l.text).getLast? = some '}') :
    (∀ (a : Session) (parent : Option Subcircuit) (b : Model.Block),
      a.scope = .model parent b →
      ((⟨l, []⟩ : Statement).kind cx.symbols cx.options a.dialect).isBody = true →
        ((a.push cx (.statement ⟨l, []⟩)).1.scope.isModel = false ↔
          a.statistics = 0 ∧
            (l.Overdraws b.carry ∨ (a.dialect = .spectre ∧ l.content = ['}'])))) ∧
    (∀ (a : Session) (head : Line) (tail : List Line) (parent : Option Subcircuit)
      (b : Model.Block),
      ((⟨head, tail⟩ : Statement).kind cx.symbols cx.options a.dialect).isActive = true →
      (a.push cx (.statement ⟨head, tail⟩)).1.scope = .model parent b →
        ((a.push cx (.statement ⟨head, tail ++ [l]⟩)).1.scope.isModel = false ↔
          a.statistics = 0 ∧ l.Overdraws b.carry)) := by
  constructor
  · intro a parent b hscope hkind
    exact closes_alone_iff cx a hscope hcode hlast hkind
  · intro a head tail parent b hkind hscope
    exact closes_continued_iff cx a hcode hlast hkind hscope

/-- A session in a block whose last line leaves a value in braces open. -/
def valueOpen : Session where
  dialect := .spectre
  scope := .model none
    ((Model.Block.new "d1".toList "diode".toList 1).readLine {} "is=\x7b2*x".toList 2).1

/-- The brace of the value ends the block, unless it continues a statement. -/
theorem closes_block_valueOpen :
    (valueOpen.push ⟨{}, {}⟩ (.statement ⟨⟨3, .code "\x7d".toList false⟩, []⟩)).1.scope.isModel =
        false ∧
      (valueOpen.push ⟨{}, {}⟩ (.statement ⟨⟨3, .code "n=1".toList false⟩,
        [⟨4, .code "+ \x7d".toList true⟩]⟩)).1.scope.isModel ≠ false := by
  constructor
  · have halone := (closes_block_iff ⟨{}, {}⟩ ⟨3, .code "\x7d".toList false⟩ rfl rfl).1
    exact (halone valueOpen none _ rfl rfl).mpr ⟨rfl, .inr ⟨rfl, rfl⟩⟩
  · intro hclosed
    have hcontinued :=
      (closes_block_iff ⟨{}, {}⟩ ⟨4, .code "+ \x7d".toList true⟩ rfl (by decide)).2
    have hoverdraws := (hcontinued valueOpen ⟨3, .code "n=1".toList false⟩ [] none _
      (by decide +kernel) rfl).mp hclosed
    revert hoverdraws
    decide +kernel

end Session

end SpiceDeck
