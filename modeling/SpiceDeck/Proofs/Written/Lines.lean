import SpiceDeck.Proofs.Order.Permutation
import SpiceDeck.Proofs.Statement.Grouping

/-!
Written lines that are read again. Settled lines are read as they stand, each by itself.
They are given here part by part: comments, blank lines, and statements with what stands
below their heads. Main statement: an invariant that each part keeps is kept by all of them.
-/

namespace SpiceDeck
open Text

namespace Line
variable {raw : Text} {raws xs ys : List Text}

/-- What a settled line is read as. -/
def settledBody (raw : Text) : LineBody :=
  if isSilent raw then if raw.isEmpty then .blank else .comment raw
  else .code raw ((trimStart raw).head? == some '+')

theorem isSettled_silent (h : isSettled raw = true) (hs : isSilent raw = true) :
    trimEnd raw = raw ∧ (raw = [] ∨ ∃ r, raw = '*' :: r) := by
  simp only [isSettled, hs, if_true, Bool.and_eq_true, Bool.or_eq_true, List.isEmpty_iff,
    decide_eq_true_eq, beq_iff_eq, List.head?_eq_some_iff] at h
  exact ⟨h.1.trimEnd, h.2⟩

theorem isSettled_code (h : isSettled raw = true) (hs : isSilent raw = false) :
    trimEnd raw = raw ∧ splitComment? false raw = none ∧ raw.getLast? ≠ some '\\' := by
  simp only [isSettled, hs, Bool.false_eq_true, if_false, Bool.and_eq_true, decide_eq_true_eq,
    bne_iff_ne, Option.isNone_iff_eq_none] at h
  exact ⟨h.1.trimEnd, h.2.1, h.2.2⟩

theorem read_settled (h : isSettled raw = true) (n : Nat) :
    read n false raw = (⟨n, settledBody raw⟩, false) := by
  have hstar : isSpace '*' = false := by decide
  cases hs : isSilent raw with
  | true =>
      obtain ⟨hend, rfl | ⟨r, rfl⟩⟩ := isSettled_silent h hs
      · rfl
      · have hstart : trimStart ('*' :: r) = '*' :: r := by simp [trimStart, hstar]
        simp [read, hend, hstart, settledBody, hs]
  | false =>
      obtain ⟨hend, hcomment, hlast⟩ := isSettled_code h hs
      rw [read_code hs, joins, hend, markComment, hcomment, dropBackslash, if_neg hlast]
      simp [settledBody, hs]

theorem settledBody_cases (raw : Text) :
    (isSilent raw = true ∧ raw = [] ∧ settledBody raw = .blank) ∨
      (isSilent raw = true ∧ settledBody raw = .comment raw) ∨
      (isSilent raw = false ∧
        settledBody raw = .code raw ((trimStart raw).head? == some '+')) := by
  cases hs : isSilent raw with
  | true =>
      cases raw with
      | nil => exact .inl ⟨rfl, rfl, rfl⟩
      | cons c r => exact .inr (.inl ⟨rfl, by simp [settledBody, hs]⟩)
  | false => exact .inr (.inr ⟨rfl, by simp [settledBody, hs]⟩)

theorem verbatim_settledBody {l : Line} (h : l.body = settledBody raw) : l.verbatim = raw := by
  rw [verbatim, text, h]
  obtain ⟨-, rfl, hbody⟩ | ⟨-, hbody⟩ | ⟨-, hbody⟩ := settledBody_cases raw <;> rw [hbody]

theorem isCode_settledBody {l : Line} (h : l.body = settledBody raw) :
    l.isCode = !isSilent raw := by
  rw [isCode, h]
  obtain ⟨hs, -, hbody⟩ | ⟨hs, hbody⟩ | ⟨hs, hbody⟩ := settledBody_cases raw <;>
    rw [hbody, hs] <;> rfl

theorem continues_settledBody {l : Line} (h : l.body = settledBody raw) :
    l.continues = (!isSilent raw && (trimStart raw).head? == some '+') := by
  rw [continues, h]
  obtain ⟨hs, -, hbody⟩ | ⟨hs, hbody⟩ | ⟨hs, hbody⟩ := settledBody_cases raw <;>
    rw [hbody, hs] <;> rfl

/-- The lines are in their final form. -/
def Settled (raws : List Text) : Prop := ∀ raw ∈ raws, isSettled raw = true

theorem settled_cons : Settled (raw :: raws) ↔ isSettled raw = true ∧ Settled raws :=
  List.forall_mem_cons

theorem settled_append : Settled (xs ++ ys) ↔ Settled xs ∧ Settled ys := List.forall_mem_append

theorem Settled.joinedAfter (h : Settled raws) : joinedAfter false raws = false := by
  induction raws with
  | nil => rfl
  | cons raw r ih =>
      obtain ⟨hraw, hr⟩ := settled_cons.mp h
      have hread : (read 0 false raw).2 = false := by rw [read_settled hraw]
      rw [Line.joinedAfter, List.foldl_cons, hread]
      exact ih hr

theorem Settled.readFrom_append (h : Settled xs) (n : Nat) (ys : List Text) :
    readFrom n false (xs ++ ys) = readFrom n false xs ++ readFrom (n + xs.length) false ys := by
  rw [Line.readFrom_append, h.joinedAfter]

theorem Settled.readFrom_cons (h : isSettled raw = true) (n : Nat) (r : List Text) :
    readFrom n false (raw :: r) = ⟨n, settledBody raw⟩ :: readFrom (n + 1) false r := by
  rw [readFrom, read_settled h]

theorem Settled.map_body (h : Settled raws) (n : Nat) :
    (readFrom n false raws).map body = raws.map settledBody := by
  induction raws generalizing n with
  | nil => rfl
  | cons raw r ih =>
      obtain ⟨hraw, hr⟩ := settled_cons.mp h
      rw [Settled.readFrom_cons hraw, List.map_cons, List.map_cons, ih hr]

/-- What is told of a line from what it is read as. -/
theorem map_of_bodies {α : Type} {f : Line → α} {g : Text → α}
    (hf : ∀ {l : Line} {raw : Text}, l.body = settledBody raw → f l = g raw) {ls : List Line}
    (h : ls.map body = raws.map settledBody) : ls.map f = raws.map g := by
  induction ls generalizing raws with
  | nil =>
      rw [List.map_nil, eq_comm, List.map_eq_nil_iff] at h
      rw [h]
      rfl
  | cons l r ih =>
      cases raws with
      | nil => cases h
      | cons raw raws =>
          obtain ⟨hl, hr⟩ := List.cons.inj h
          rw [List.map_cons, List.map_cons, hf hl, ih hr]

/-- No statement above goes on in these lines. -/
def StartsAfresh (raws : List Text) : Prop :=
  ∀ raw ∈ raws.find? (!isSilent ·), (trimStart raw).head? ≠ some '+'

theorem startsAfresh_silent (h : ∀ t ∈ xs, isSilent t = true) : StartsAfresh xs := by
  intro raw hraw
  have hcode := List.find?_some hraw
  rw [h raw (List.mem_of_find?_eq_some hraw)] at hcode
  cases hcode

theorem StartsAfresh.append (hx : StartsAfresh xs) (hy : StartsAfresh ys) :
    StartsAfresh (xs ++ ys) := by
  intro raw hraw
  rw [List.find?_append] at hraw
  cases hfind : xs.find? (!isSilent ·) with
  | none =>
      rw [hfind, Option.none_or] at hraw
      exact hy raw hraw
  | some x =>
      rw [hfind, Option.some_or] at hraw
      exact hx raw (hfind.trans hraw)

theorem StartsAfresh.readFrom (h : StartsAfresh raws) (hs : Settled raws) (n : Nat) :
    startsAfresh (readFrom n false raws) = true := by
  induction raws generalizing n with
  | nil => rfl
  | cons raw r ih =>
      obtain ⟨hraw, hr⟩ := settled_cons.mp hs
      have hcode := isCode_settledBody (l := ⟨n, settledBody raw⟩) rfl
      rw [Settled.readFrom_cons hraw, startsAfresh]
      cases hsilent : isSilent raw with
      | true =>
          rw [List.find?_cons_of_neg (by rw [hcode, hsilent]; decide)]
          refine ih ?_ hr (n + 1)
          intro x hx
          exact h x (by rwa [List.find?_cons_of_neg (by rw [hsilent]; decide)])
      | false =>
          have hhead := h raw (by rw [List.find?_cons_of_pos (by rw [hsilent]; rfl)]; rfl)
          rw [List.find?_cons_of_pos (by rw [hcode, hsilent]; rfl), Option.all_some,
            continues_settledBody rfl, hsilent]
          simpa using hhead

end Line

/-- The lines of a statement as it is written: a head and below it comments, blank lines and
lines that continue it with a plus sign, one of which is the last. -/
structure IsStatement (head : Text) (tail : List Text) : Prop where
  code : isSilent head = false
  starts : (trimStart head).head? ≠ some '+'
  continued : ∀ t ∈ tail, isSilent t = true ∨ (trimStart t).head? = some '+'
  ends : ∀ t ∈ tail.getLast?, isSilent t = false

instance (head : Text) (tail : List Text) : Decidable (IsStatement head tail) :=
  decidable_of_iff
    (isSilent head = false ∧ (trimStart head).head? ≠ some '+' ∧
      (∀ t ∈ tail, isSilent t = true ∨ (trimStart t).head? = some '+') ∧
      ∀ t ∈ tail.getLast?, isSilent t = false)
    ⟨fun h => ⟨h.1, h.2.1, h.2.2.1, h.2.2.2⟩, fun h => ⟨h.code, h.starts, h.continued, h.ends⟩⟩

theorem IsStatement.startsAfresh {head : Text} {tail : List Text} (h : IsStatement head tail) :
    Line.StartsAfresh (head :: tail) := by
  intro raw hraw
  rw [List.find?_cons_of_pos (by rw [h.code]; rfl)] at hraw
  cases hraw
  exact h.starts

/-- The statement that is read from these lines, wherever they stand. -/
structure Statement.ReadsAs (s : Statement) (head : Text) (tail : List Text) : Prop where
  head : s.head.body = Line.settledBody head
  tail : s.tail.map Line.body = tail.map Line.settledBody

instance (s : Statement) (head : Text) (tail : List Text) : Decidable (s.ReadsAs head tail) :=
  decidable_of_iff (s.head.body = Line.settledBody head ∧
      s.tail.map Line.body = tail.map Line.settledBody)
    ⟨fun h => ⟨h.1, h.2⟩, fun h => ⟨h.head, h.tail⟩⟩

section ReadsAs
variable {s : Statement} {head : Text} {tail : List Text}

theorem Statement.ReadsAs.lines (h : s.ReadsAs head tail) :
    s.lines.map Line.body = (head :: tail).map Line.settledBody := by
  rw [Statement.lines, List.map_cons, h.head, h.tail, List.map_cons]

theorem Statement.ReadsAs.verbatim (h : s.ReadsAs head tail) : s.verbatim = head :: tail := by
  rw [Statement.verbatim, Line.map_of_bodies Line.verbatim_settledBody h.lines, List.map_id']

theorem Statement.ReadsAs.verbatim_tail (h : s.ReadsAs head tail) :
    s.tail.map Line.verbatim = tail := by
  rw [Line.map_of_bodies Line.verbatim_settledBody h.tail, List.map_id']

theorem Statement.ReadsAs.content (h : s.ReadsAs head tail) (hs : IsStatement head tail) :
    s.head.content = trim head := by
  have hcontinues : s.head.continues = false := by
    rw [Line.continues_settledBody h.head, hs.code]
    simpa using hs.starts
  have htext : s.head.text = head := Line.verbatim_settledBody h.head
  rw [Line.content, hcontinues, htext]
  rfl

theorem Statement.ReadsAs.isCode (h : s.ReadsAs head tail) (hs : IsStatement head tail) :
    s.head.isCode = true := by
  rw [Line.isCode_settledBody h.head, hs.code]
  rfl

end ReadsAs

/-- The items that are read from settled lines. -/
def Item.ofLines (n : Nat) (raws : List Text) : List Item := Item.group (Line.readFrom n false raws)

namespace Item
variable {raw head : Text} {raws tail xs ys : List Text}

theorem ofLines_append (hx : Line.Settled xs) (hy : Line.Settled ys)
    (hfresh : Line.StartsAfresh ys) (n : Nat) :
    ofLines n (xs ++ ys) = ofLines n xs ++ ofLines (n + xs.length) ys := by
  rw [ofLines, hx.readFrom_append, group_append _ (hfresh.readFrom hy _)]
  rfl

theorem ofLines_silent (h : isSilent raw = true) (hs : Line.isSettled raw = true) (n : Nat) :
    ofLines n [raw] = [.line ⟨n, Line.settledBody raw⟩] := by
  have hcode := Line.isCode_settledBody (l := ⟨n, Line.settledBody raw⟩) rfl
  rw [h] at hcode
  rw [ofLines, Line.Settled.readFrom_cons hs, group, hcode]
  rfl

theorem ofLines_statement (h : IsStatement head tail) (hs : Line.Settled (head :: tail)) (n : Nat) :
    ∃ s : Statement, ofLines n (head :: tail) = [.statement s] ∧ s.ReadsAs head tail := by
  obtain ⟨hhead, htail⟩ := Line.settled_cons.mp hs
  refine ⟨⟨⟨n, Line.settledBody head⟩, Line.readFrom (n + 1) false tail⟩, ?_, rfl,
    htail.map_body (n + 1)⟩
  have hcode := Line.isCode_settledBody (l := ⟨n, Line.settledBody head⟩) rfl
  rw [h.code] at hcode
  have hmem : ∀ l ∈ Line.readFrom (n + 1) false tail,
      ∃ t ∈ tail, l.body = Line.settledBody t := by
    intro l hl
    have hbody := List.mem_map_of_mem (f := Line.body) hl
    rw [htail.map_body, List.mem_map] at hbody
    obtain ⟨t, ht, heq⟩ := hbody
    exact ⟨t, ht, heq.symm⟩
  have hcontinues : ∀ {l : Line} {t : Text}, t ∈ tail → l.body = Line.settledBody t →
      isSilent t = false → l.continues = true := by
    intro l t ht hl hsilent
    rw [Line.continues_settledBody hl, hsilent,
      (h.continued t ht).resolve_left (by rw [hsilent]; decide)]
    rfl
  have hjoined : Statement.IsJoined
      ⟨⟨n, Line.settledBody head⟩, Line.readFrom (n + 1) false tail⟩ := by
    refine ⟨hcode, ?_, ?_⟩
    · intro l hl hlcode
      obtain ⟨t, ht, hbody⟩ := hmem l hl
      rw [Line.isCode_settledBody hbody, Bool.not_eq_true'] at hlcode
      exact hcontinues ht hbody hlcode
    · intro l hl
      have hbody := congrArg (Option.map Line.body) (Option.mem_def.mp hl)
      rw [← List.getLast?_map, htail.map_body, List.getLast?_map, Option.map_some,
        Option.map_eq_some_iff] at hbody
      obtain ⟨t, ht, heq⟩ := hbody
      exact hcontinues (List.mem_of_getLast? ht) heq.symm (h.ends t ht)
  rw [ofLines, Line.Settled.readFrom_cons hhead, group, hcode, Bool.not_false, if_pos rfl]
  have hgroup := groupAfter_joined hjoined []
  rw [List.append_nil] at hgroup
  rw [hgroup]
  rfl

end Item

/-- Lines part by part: comments, blank lines, and statements as `P` has them. -/
inductive Parts (P : Text → List Text → Prop) : List Text → Prop where
  | nil : Parts P []
  | line {t : Text} {r : List Text} : isSilent t = true → Parts P r → Parts P (t :: r)
  | statement {head : Text} {tail r : List Text} : IsStatement head tail → P head tail →
      Parts P r → Parts P (head :: (tail ++ r))

namespace Parts
variable {P : Text → List Text → Prop} {xs : List Text}

theorem silent (h : ∀ t ∈ xs, isSilent t = true) : Parts P xs := by
  induction xs with
  | nil => exact .nil
  | cons t r ih =>
      obtain ⟨ht, hr⟩ := List.forall_mem_cons.mp h
      exact .line ht (ih hr)

theorem single {head : Text} {tail : List Text} (hs : IsStatement head tail) (hp : P head tail) :
    Parts P (head :: tail) := by
  have h := Parts.statement hs hp .nil
  rwa [List.append_nil] at h

end Parts

namespace Session
variable {cx : Context} {a : Session}

/-- The lines that are written before the end of the deck is seen. -/
def emitted (cx : Context) (a : Session) : List Item → List Text
  | [] => []
  | item :: r => (a.push cx item).2.lines ++ emitted cx (a.push cx item).1 r

theorem last_append (cx : Context) (a : Session) (xs ys : List Item) :
    a.last cx (xs ++ ys) = (a.last cx xs).last cx ys := by
  induction xs generalizing a with
  | nil => rfl
  | cons item r ih => exact ih _

theorem emitted_append (cx : Context) (a : Session) (xs ys : List Item) :
    a.emitted cx (xs ++ ys) = a.emitted cx xs ++ (a.last cx xs).emitted cx ys := by
  induction xs generalizing a with
  | nil => rfl
  | cons item r ih => rw [List.cons_append, emitted, ih, emitted, List.append_assoc]; rfl

theorem lines_run (cx : Context) (a : Session) (items : List Item) :
    (a.run cx items).lines = a.emitted cx items ++ ((a.last cx items).scope.finish cx).lines := by
  induction items generalizing a with
  | nil => rfl
  | cons item r ih => rw [run, Deck.lines_append, ih, emitted, List.append_assoc]; rfl

end Session

/-- From one scope, reading the lines leads to the other and writes the given lines. -/
def Scope.Passes (cx : Context) (d : Dialect) (a : Scope) (n : Nat) (raws : List Text) (b : Scope)
    (out : List Text) : Prop :=
  Session.last cx ⟨d, a, 0⟩ (Item.ofLines n raws) = ⟨d, b, 0⟩ ∧
    Session.emitted cx ⟨d, a, 0⟩ (Item.ofLines n raws) = out

namespace Scope
variable {cx : Context} {d : Dialect} {a b c : Scope} {xs ys outX outY : List Text} {n : Nat}

theorem Passes.append (hx : Passes cx d a n xs b outX)
    (hy : Passes cx d b (n + xs.length) ys c outY) (hsx : Line.Settled xs)
    (hsy : Line.Settled ys) (hfresh : Line.StartsAfresh ys) :
    Passes cx d a n (xs ++ ys) c (outX ++ outY) := by
  refine ⟨?_, ?_⟩
  · rw [Item.ofLines_append hsx hsy hfresh, Session.last_append, hx.1, hy.1]
  · rw [Item.ofLines_append hsx hsy hfresh, Session.emitted_append, hx.1, hx.2, hy.2]

theorem passes_nil (cx : Context) (d : Dialect) (a : Scope) (n : Nat) :
    Passes cx d a n [] a [] := ⟨rfl, rfl⟩

theorem passes_silent (cx : Context) (d : Dialect) (a : Scope) (n : Nat) {raw : Text}
    (h : isSilent raw = true) (hs : Line.isSettled raw = true) :
    Passes cx d a n [raw] (a.copy raw).1 (a.copy raw).2.lines := by
  have hverbatim := Line.verbatim_settledBody (l := ⟨n, Line.settledBody raw⟩) rfl
  simp only [Passes, Item.ofLines_silent h hs, Session.last, Session.emitted, Session.push,
    hverbatim, List.append_nil]
  exact ⟨trivial, trivial⟩

/-- A statement of its own does what a step does at its kind. -/
theorem passes_statement (cx : Context) (d : Dialect) (a : Scope) {head : Text} {tail : List Text}
    {Q : Scope → List Text → Prop} (h : IsStatement head tail)
    (hs : Line.Settled (head :: tail)) (n : Nat)
    (hstep : ∀ s : Statement, s.ReadsAs head tail → ∃ kind,
      s.kind cx.symbols cx.options d = kind ∧ Session.reachesScope kind = true ∧
        Q (a.step cx s kind).1 (a.step cx s kind).2.lines) :
    ∃ b out, Passes cx d a n (head :: tail) b out ∧ Q b out := by
  obtain ⟨s, hitems, hreads⟩ := Item.ofLines_statement h hs n
  obtain ⟨kind, hkind, hreaches, hq⟩ := hstep s hreads
  subst hkind
  have hpush := Session.pushStatement_step cx (a := ⟨d, a, 0⟩) (Nat.lt_irrefl 0) hreaches
  refine ⟨_, _, ?_, hq⟩
  simp only [Passes, hitems, Session.last, Session.emitted, Session.push, hpush, List.append_nil]
  exact ⟨trivial, trivial⟩

end Scope

end SpiceDeck
