import SpiceDeck.Proofs.Order.Permutation
import SpiceDeck.Proofs.Statement.Grouping
import SpiceDeck.Proofs.Subcircuit.PinList

/-!
Decks of one statement that is broken over several lines, with comments and blank lines before,
between and behind them. None of the lines is joined to the next one by a backslash, so that
each is read by itself and the deck groups into the statement and the lines around it.
-/

namespace SpiceDeck
open Text

theorem Text.trimEnd_append (a : Text) {b : Text} (h : isBlank b = false) :
    trimEnd (a ++ b) = a ++ trimEnd b := by
  obtain ⟨c, r, hcr⟩ := List.exists_cons_of_ne_nil (Param.isBlank_eq_false_iff.mp h)
  have hc : isSpace c = false := not_of_dropWhile_eq_cons hcr
  have hb : b.takeWhile isSpace ++ c :: r = b := by
    rw [← hcr]
    exact List.takeWhile_append_dropWhile
  rw [← hb, ← List.append_assoc, trimEnd_append_cons hc, trimEnd_append_cons hc,
    List.append_assoc]

namespace Line
variable {raw a b : Text} {raws : List Text}

/-- None of the lines is joined to the next one by a backslash. -/
def Unjoined (raws : List Text) : Prop := ∀ raw ∈ raws, (read 0 false raw).2 = false

theorem Unjoined.joinedAfter (h : Unjoined raws) : joinedAfter false raws = false := by
  induction raws with
  | nil => rfl
  | cons raw r ih =>
      obtain ⟨hraw, hr⟩ := List.forall_mem_cons.mp h
      rw [Line.joinedAfter, List.foldl_cons, hraw]
      exact ih hr

/-- What does not depend on the numbers of lines can be told from each line alone. -/
theorem map_readFrom {α : Type} {f : Line → α} (hf : ∀ l n, f { l with number := n } = f l)
    (h : Unjoined raws) (n : Nat) :
    (readFrom n false raws).map f = raws.map fun raw => f (read 0 false raw).1 := by
  induction raws generalizing n with
  | nil => rfl
  | cons raw r ih =>
      obtain ⟨hraw, hr⟩ := List.forall_mem_cons.mp h
      simp only [readFrom, read_number raw n 0, hraw, List.map_cons, ih hr, hf]

theorem read_of_isSilent (h : isSilent raw = true) (n : Nat) (joined : Bool) :
    (read n joined raw).1.isCode = false ∧ (read n joined raw).2 = joined := by
  obtain ⟨hraw, -⟩ | ⟨r, hraw, -⟩ | ⟨r, hraw, -⟩ := copied_silent h
  · simp [read, hraw, isCode]
  · simp [read, hraw, isCode]
  · simp [read, hraw, isCode]

theorem unjoined_of_isSilent (h : ∀ raw ∈ raws, isSilent raw = true) : Unjoined raws :=
  fun raw hraw => (read_of_isSilent (h raw hraw) 0 false).2

theorem noComment_append (ha : ¬ "//".toList <:+: a) (hb : ¬ "//".toList <:+: b)
    (h : a.getLast? ≠ some '/' ∨ b.head? ≠ some '/') : ¬ "//".toList <:+: a ++ b := by
  intro hinfix
  obtain hinfix | hinfix | ⟨u, v, hu, hv, huv, hua, hvb⟩ := List.infix_append_iff_ne_nil.mp hinfix
  · exact ha hinfix
  · exact hb hinfix
  · have hchars : ∀ c ∈ u ++ v, c = '/' := by
      intro c hc
      rw [← huv] at hc
      exact List.eq_of_mem_replicate (n := 2) hc
    obtain ⟨x, rfl⟩ := hua
    obtain ⟨y, rfl⟩ := hvb
    rw [List.getLast?_append_of_ne_nil _ hu, List.getLast?_eq_some_getLast hu,
      List.head?_append_of_ne_nil _ hv, List.head?_eq_some_head hv,
      hchars _ (List.mem_append_left v (List.getLast_mem hu)),
      hchars _ (List.mem_append_right u (List.head_mem hv))] at h
    exact h.elim (absurd rfl) (absurd rfl)

/-- A text put in front of a line that is whole. -/
theorem IsWhole.append (ha : ¬ "//".toList <:+: a) (hb : IsWhole b)
    (hslash : a.getLast? ≠ some '/' ∨ b.head? ≠ some '/')
    (hend : isBlank b = false ∨ (trimEnd a).getLast? ≠ some '\\') : IsWhole (a ++ b) where
  noComment := noComment_append ha hb.noComment hslash
  noBackslash := by
    cases hblank : isBlank b with
    | true =>
        have hspace : ∀ c ∈ b, isSpace c = true := List.all_eq_true.mp hblank
        rw [trimEnd_append_blank a hspace]
        rw [hblank] at hend
        exact hend.resolve_left nofun
    | false =>
        have hne : trimEnd b ≠ [] := by
          intro hnil
          obtain ⟨blanks, hblanks, hb⟩ := exists_trimEnd_append b
          rw [hnil, List.nil_append] at hb
          rw [hb, isBlank, List.all_eq_true.mpr hblanks] at hblank
          cases hblank
        rw [trimEnd_append a hblank, List.getLast?_append_of_ne_nil _ hne]
        exact hb.noBackslash

end Line
/-- One statement with nothing but comments and blank lines around it. -/
theorem Item.group_statement {first last : List Line} {s : Statement}
    (hfirst : ∀ l ∈ first, l.isCode = false) (hs : s.IsJoined)
    (hlast : ∀ l ∈ last, l.isCode = false) :
    group (first ++ (s.lines ++ last)) = first.map .line ++ .statement s :: last.map .line := by
  have hlines : ∀ ls : List Line, (ls.map Item.line).flatMap lines = ls := by
    intro ls
    rw [List.flatMap_map]
    exact List.flatMap_singleton' ls
  have hitems : (first.map Item.line ++ .statement s :: last.map Item.line).flatMap lines =
      first ++ (s.lines ++ last) := by
    rw [List.flatMap_append, List.flatMap_cons, hlines, hlines]
    rfl
  rw [← hitems]
  apply group_flatMap_lines
  · rw [List.forall_mem_append, List.forall_mem_cons]
    exact ⟨isProper_of_mem_lines hfirst, hs, isProper_of_mem_lines hlast⟩
  · rw [List.filterMap_append, statements_lines, statements_cons, statements_lines]
    exact nofun
namespace Statement

/-- A deck of one statement that is broken over several lines, with comments and blank lines
before, between and behind them. -/
structure Source where
  before : List Text
  head : Text
  /-- The lines that continue the head, each without its plus sign, and what stands in front
  of each. -/
  more : List (List Text × Text)
  after : List Text
  head_dot : ∃ r, head = '.' :: r
  head_whole : Line.IsWhole head
  more_whole : ∀ x ∈ more, Line.IsWhole x.2
  silent : ∀ raw ∈ before ++ (more.flatMap Prod.fst ++ after), isSilent raw = true

namespace Source

def tailLines (more : List (List Text × Text)) : List Text :=
  more.flatMap fun x => x.1 ++ ['+' :: x.2]

def lines (x : Source) : List Text := x.before ++ x.head :: (tailLines x.more ++ x.after)

/-- What a model statement reads below its head. -/
def tailParts (more : List (List Text × Text)) : List Model.Part :=
  more.flatMap fun x =>
    (x.1.map fun raw => .passive (Line.copied raw)) ++ [.code (trim x.2)]

section Lines
variable {more : List (List Text × Text)} {raw : Text}

theorem read_plus {p : Text} (h : Line.IsWhole p) :
    Line.read 0 false ('+' :: p) = (Header.continuation 0 p, false) := by
  have hplus : Line.IsWhole ('+' :: p) :=
    Line.IsWhole.append (a := ['+']) (by decide) h (.inl (by decide)) (.inr (by decide))
  exact Header.read_tail 0 hplus

theorem mem_tailLines (h : raw ∈ tailLines more) :
    raw ∈ more.flatMap Prod.fst ∨ ∃ y ∈ more, raw = '+' :: y.2 := by
  obtain ⟨y, hy, hraw⟩ := List.mem_flatMap.mp h
  obtain hraw | hraw := List.mem_append.mp hraw
  · exact .inl (List.mem_flatMap_of_mem hy hraw)
  · exact .inr ⟨y, hy, List.mem_singleton.mp hraw⟩

theorem getLast?_tailLines (more : List (List Text × Text)) :
    (tailLines more).getLast? = more.getLast?.map fun y => '+' :: y.2 := by
  obtain rfl | ⟨init, y, rfl⟩ := List.eq_nil_or_concat' more
  · rfl
  · rw [tailLines, List.flatMap_append, List.flatMap_singleton, ← List.append_assoc,
      List.getLast?_concat, List.getLast?_concat]
    rfl

variable (hsilent : ∀ raw ∈ more.flatMap Prod.fst, isSilent raw = true)
  (hwhole : ∀ y ∈ more, Line.IsWhole y.2)
include hsilent hwhole

theorem unjoined_tailLines : Line.Unjoined (tailLines more) := by
  intro raw hraw
  obtain hmem | ⟨y, hy, rfl⟩ := mem_tailLines hraw
  · exact (Line.read_of_isSilent (hsilent raw hmem) 0 false).2
  · rw [read_plus (hwhole y hy)]

theorem map_ofLine_tailLines :
    ((tailLines more).map fun raw => Model.Part.ofLine (Line.read 0 false raw).1) =
      tailParts more := by
  rw [tailLines, tailParts, List.map_flatMap]
  refine List.flatMap_congr ?_
  intro y hy
  rw [List.map_append, List.map_singleton, read_plus (hwhole y hy)]
  congr 1
  · apply List.map_congr_left
    intro raw hraw
    have hcode := (Line.read_of_isSilent (hsilent raw (List.mem_flatMap_of_mem hy hraw)) 0 false).1
    rw [Model.Part.ofLine, hcode]
    rfl
  · rw [Model.Part.ofLine, Header.content_continuation]
    rfl

/-- Below the head all code continues it. -/
theorem continues_tailLines (hraw : raw ∈ tailLines more)
    (hcode : (Line.read 0 false raw).1.isCode = true) :
    (Line.read 0 false raw).1.continues = true := by
  obtain hmem | ⟨y, hy, rfl⟩ := mem_tailLines hraw
  · rw [(Line.read_of_isSilent (hsilent raw hmem) 0 false).1] at hcode
    cases hcode
  · rw [read_plus (hwhole y hy)]
    rfl

end Lines

variable {x : Source} {t : Text}

theorem silent_before (x : Source) : ∀ raw ∈ x.before, isSilent raw = true :=
  fun raw hraw => x.silent raw (List.mem_append_left _ hraw)

theorem silent_more (x : Source) : ∀ raw ∈ x.more.flatMap Prod.fst, isSilent raw = true :=
  fun raw hraw => x.silent raw (List.mem_append_right _ (List.mem_append_left _ hraw))

theorem silent_after (x : Source) : ∀ raw ∈ x.after, isSilent raw = true :=
  fun raw hraw => x.silent raw (List.mem_append_right _ (List.mem_append_right _ hraw))

theorem read_head (x : Source) (n : Nat) :
    Line.read n false x.head = (⟨n, .code (trimEnd x.head) false⟩, false) := by
  obtain ⟨r, hr⟩ := x.head_dot
  have hsilent : isSilent x.head = false := by
    rw [hr]
    rfl
  have hplus : ((trimStart x.head).head? == some '+') = false := by
    rw [hr]
    rfl
  rw [Line.read_whole x.head_whole hsilent, hplus]

theorem ofText_lines (h : Text.lines t = x.lines) :
    Line.ofText t = Line.readFrom 1 false x.before ++
      ⟨1 + x.before.length, .code (trimEnd x.head) false⟩ ::
        (Line.readFrom (1 + x.before.length + 1) false (tailLines x.more) ++
          Line.readFrom (1 + x.before.length + 1 + (tailLines x.more).length) false x.after) := by
  have hbefore := (Line.unjoined_of_isSilent x.silent_before).joinedAfter
  have htail := (unjoined_tailLines x.silent_more x.more_whole).joinedAfter
  rw [Line.ofText, h, lines, Line.readFrom_append, hbefore, Line.readFrom_cons (x.read_head _),
    Line.readFrom_append, htail]

theorem isCode_readFrom {raws : List Text} (h : ∀ raw ∈ raws, isSilent raw = true) (n : Nat) :
    ∀ l ∈ Line.readFrom n false raws, l.isCode = false := by
  have hcodes := Line.map_readFrom (f := Line.isCode) (fun _ _ => rfl)
    (Line.unjoined_of_isSilent h) n
  intro l hl
  have hmem := List.mem_map_of_mem (f := Line.isCode) hl
  rw [hcodes] at hmem
  obtain ⟨raw, hraw, heq⟩ := List.mem_map.mp hmem
  rw [← heq]
  exact (Line.read_of_isSilent (h raw hraw) 0 false).1

/-- The lines below the head and the head make up one statement. -/
theorem isJoined_tailLines (x : Source) {head : Line} (hhead : head.isCode = true) (n : Nat) :
    IsJoined ⟨head, Line.readFrom n false (tailLines x.more)⟩ where
  head := hhead
  continued := by
    have hboth := Line.map_readFrom (f := fun l => (l.isCode, l.continues)) (fun _ _ => rfl)
      (unjoined_tailLines x.silent_more x.more_whole) n
    intro l hl hcode
    have hmem := List.mem_map_of_mem (f := fun l : Line => (l.isCode, l.continues)) hl
    rw [hboth] at hmem
    obtain ⟨raw, hraw, heq⟩ := List.mem_map.mp hmem
    obtain ⟨hisCode, hcontinues⟩ := Prod.mk.inj heq
    rw [← hcontinues]
    exact continues_tailLines x.silent_more x.more_whole hraw (hisCode.trans hcode)
  ends := by
    have hlast := congrArg List.getLast? (Line.map_readFrom (f := Line.continues) (fun _ _ => rfl)
      (unjoined_tailLines x.silent_more x.more_whole) n)
    intro l hl
    rw [List.getLast?_map, List.getLast?_map, getLast?_tailLines, hl] at hlast
    cases hy : x.more.getLast? with
    | none =>
        rw [hy] at hlast
        cases hlast
    | some y =>
        have hwhole := x.more_whole y (List.mem_of_getLast? hy)
        rw [hy, Option.map_some, Option.map_some, Option.map_some, read_plus hwhole] at hlast
        exact Option.some.inj hlast

/-- The deck reads as its statement with the comments before and behind it. -/
theorem ofText_items (h : Text.lines t = x.lines) :
    ∃ (s : Statement) (first last : List Line),
      Item.ofText t = first.map .line ++ .statement s :: last.map .line ∧
        s.head.content = trim x.head ∧ s.number = 1 + x.before.length ∧
        s.tail.map Model.Part.ofLine = tailParts x.more ∧
        first.map Line.verbatim = x.before.map Line.copied ∧
        last.map Line.verbatim = x.after.map Line.copied := by
  refine ⟨⟨⟨1 + x.before.length, .code (trimEnd x.head) false⟩,
    Line.readFrom (1 + x.before.length + 1) false (tailLines x.more)⟩,
    Line.readFrom 1 false x.before,
    Line.readFrom (1 + x.before.length + 1 + (tailLines x.more).length) false x.after,
    ?_, ?_, rfl, ?_, Line.map_verbatim_readFrom .., Line.map_verbatim_readFrom ..⟩
  · rw [Item.ofText, ofText_lines h]
    exact Item.group_statement (isCode_readFrom x.silent_before 1) (x.isJoined_tailLines rfl _)
      (isCode_readFrom x.silent_after _)
  · have hcontent : Line.content ⟨1 + x.before.length, .code (trimEnd x.head) false⟩ =
        trim (trimEnd x.head) := rfl
    rw [hcontent, trim, trimStart_trimEnd, trimEnd_trimEnd, trim]
  · rw [Line.map_readFrom (fun _ _ => rfl) (unjoined_tailLines x.silent_more x.more_whole),
      map_ofLine_tailLines x.silent_more x.more_whole]

end Source

end Statement
theorem Session.run_lines (cx : Context) {a : Session} (h : a.scope = .top) (ls : List Line)
    (items : List Item) :
    a.run cx (ls.map .line ++ items) =
      Deck.ofLines (ls.map Line.verbatim) ++ a.run cx items := by
  induction ls with
  | nil => rfl
  | cons l r ih =>
      have hpush : a.push cx (.line l) = (a, Deck.ofLines [l.verbatim]) := by
        obtain ⟨d, scope, n⟩ := a
        cases h
        rfl
      rw [List.map_cons, List.cons_append, run, hpush]
      simp only [ih]
      rfl

end SpiceDeck
