import SpiceDeck.Proofs.Statement.Regrouping
import SpiceDeck.Proofs.Subcircuit.HeaderLines
import SpiceDeck.Proofs.Subcircuit.WrittenHeader

/-!
Pin lists over several lines. The header `subckt name ( pins )` may be broken between any two of
its words. Main statement: it is written with its name and its pins if and only if the opening
parenthesis stands on the head line.
-/

namespace SpiceDeck
open Text

namespace Text

theorem isInk_of_isWord {w : Text} (h : w ≠ [] ∧ w.all isWord = true) : IsInk w :=
  ⟨h.1, fun c hc => not_isSpace_of_isWord (List.all_eq_true.mp h.2 c hc)⟩

theorem eq_dot_of_afterFolded? {lit t r : Text} (h : afterFolded? ('.' :: lit) t = some r) :
    ∃ u, t = '.' :: u := by
  cases t with
  | nil => cases h
  | cons c u =>
      simp only [afterFolded?] at h
      split at h
      · next hc => exact ⟨u, by rw [eq_dot_of_fold hc.symm]⟩
      · cases h

theorem afterFolded?_eq_none {lit start t : Text} (h : start <+: t.map fold)
    (hdiffer : Symbols.Differ lit start) : afterFolded? lit t = none := by
  cases hr : afterFolded? lit t with
  | none => rfl
  | some r =>
      exfalso
      obtain hlit | hstart := List.prefix_or_prefix_of_prefix (begins_of_afterFolded? hr) h
      · exact hdiffer.1 hlit
      · exact hdiffer.2 hstart

end Text

namespace Head

theorem bin?_cons {c : Char} (hspace : isSpace c = false) (hdigit : isDigit c = false)
    (hcolon : c ≠ ':') (r : Text) : bin? (c :: r) = none := by
  have htrim : trim (c :: r) = c :: trimEnd r := by
    rw [trim, trimStart_cons_of_not_isSpace hspace, trimEnd_cons hspace]
  have hdrop : (trim (c :: r)).dropWhile isDigit = c :: trimEnd r := by
    rw [htrim, List.dropWhile_cons, hdigit]
    rfl
  simp only [bin?, hdrop, trimStart_cons_of_not_isSpace hspace]
  split
  · next heq => exact absurd (List.cons.inj heq).1 hcolon
  · rfl

/-- None of the readers answers that are asked before those for subcircuits. -/
structure Unclaimed (t : Text) : Prop where
  simulator : simulator? t = none
  parameters : isParameters true t = false
  statistics : isStatistics t = false
  model : model? true t = none
  bin : bin? t = none
  brace : t ≠ ['}']

theorem unclaimed_subckt (r : Text) : Unclaimed ("subckt".toList ++ r) :=
  ⟨rfl, rfl, rfl, rfl, bin?_cons rfl rfl (by decide) _, nofun⟩

theorem unclaimed_of_close? {t : Text} {name : Option Text} (h : close? true t = some name) :
    Unclaimed t := by
  obtain ⟨r, hr, -⟩ := Option.map_eq_some_iff.mp h
  obtain hdotted | ⟨-, hplain⟩ := Option.or_eq_some_iff.mp hr
  · split at hdotted
    · next x hx =>
        have hstart := begins_of_afterFolded? hx
        have hparam : afterFolded? ".param".toList t = none :=
          afterFolded?_eq_none hstart (by decide)
        have hmodel : afterFolded? ".model".toList t = none :=
          afterFolded?_eq_none hstart (by decide)
        obtain ⟨u, rfl⟩ := eq_dot_of_afterFolded? hx
        have hparameters : isParameters true ('.' :: u) = false := by
          rw [isParameters, hparam]
          rfl
        have hmodels : model? true ('.' :: u) = none := by
          rw [model?, dottedModel?, hmodel]
          rfl
        refine ⟨rfl, hparameters, rfl, hmodels, bin?_cons rfl rfl (by decide) u, ?_⟩
        rintro ⟨⟩
    · cases hdotted
  · simp only [if_true, afterKeyword?] at hplain
    split at hplain
    · next x hx =>
        rw [Param.after?_append hx]
        refine ⟨rfl, rfl, rfl, rfl, bin?_cons rfl rfl (by decide) _, ?_⟩
        rintro ⟨⟩
    · cases hplain

end Head

namespace Statement
variable {s : Statement}

theorem kind_subckt (symbols : Symbols) (o : Options) {r name rest : Text}
    (h : s.head.content = "subckt".toList ++ r)
    (hname : Head.subcircuitName? r = some (name, rest)) :
    s.kind symbols o .spectre =
      .subcircuitOpen ⟨name, rest, if startsWith rest ['('] then .paren else .bare⟩ := by
  have hfree := Head.unclaimed_subckt r
  have hclose : Head.close? true ("subckt".toList ++ r) = none := rfl
  have hopen : Head.subcircuit? true ("subckt".toList ++ r) =
      some ⟨name, rest, if startsWith rest ['('] then .paren else .bare⟩ := by
    change ((none : Option SubcircuitOpening).or ((Head.subcircuitName? r).map _)) = _
    rw [hname]
    rfl
  rw [← h] at hfree hclose hopen
  simp only [kind, decide_true, hfree.simulator, hfree.parameters, hfree.statistics, hfree.model,
    hfree.bin, hfree.brace, hclose, hopen, Option.map_none, Option.map_some]
  rfl

theorem kind_close (symbols : Symbols) (o : Options) {name : Option Text}
    (h : Head.close? true s.head.content = some name) :
    s.kind symbols o .spectre = .subcircuitClose name := by
  have hfree := Head.unclaimed_of_close? h
  simp only [kind, decide_true, hfree.simulator, hfree.parameters, hfree.statistics, hfree.model,
    hfree.bin, hfree.brace, h, Option.map_none, Option.map_some]
  rfl

end Statement

namespace Line
variable {raw : Text}

theorem isWhole_of_not_mem (hslash : '/' ∉ raw) (hback : '\\' ∉ raw) : IsWhole raw where
  noComment h := hslash (h.subset List.mem_cons_self)
  noBackslash h := hback ((trimEnd_begins raw).subset (List.mem_of_getLast? h))

theorem read_whole (h : IsWhole raw) (hsilent : isSilent raw = false) (n : Nat) :
    read n false raw =
      (⟨n, .code (trimEnd raw) ((trimStart raw).head? == some '+')⟩, false) := by
  rw [read_code hsilent, joins, markComment_of_isWhole h, dropBackslash, if_neg h.noBackslash]
  rfl

theorem readFrom_cons {n : Nat} {joined after : Bool} {l : Line}
    (h : read n joined raw = (l, after)) (r : List Text) :
    readFrom n joined (raw :: r) = l :: readFrom (n + 1) after r := by
  rw [readFrom, h]

end Line

namespace Header

/-- A header with its pins in parentheses, broken into a head line and the lines that continue
it. -/
structure Layout where
  gap : Text
  name : Text
  pins : List Text
  /-- The head line behind the name. -/
  rest : Text
  /-- The lines that continue it, each without its `+`. -/
  tails : List Text
  gap_blank : gap ≠ [] ∧ isBlank gap = true
  name_word : name ≠ [] ∧ name.all isWord = true
  pins_word : ∀ p ∈ pins, p ≠ [] ∧ p.all isWord = true
  broken : (rest :: tails).flatMap tokens = ['('] :: pins ++ [[')']]

namespace Layout
variable {t : Text} {c : Char}

def headLine (l : Layout) : Text := "subckt".toList ++ (l.gap ++ (l.name ++ l.rest))

theorem headLine_eq (l : Layout) :
    l.headLine = "subckt".toList ++ (l.gap ++ (l.name ++ l.rest)) := rfl

def lines (l : Layout) : List Text := l.headLine :: l.tails.map ('+' :: ·)

theorem gap_isSpace (l : Layout) (hc : c ∈ l.gap) : isSpace c = true :=
  List.all_eq_true.mp l.gap_blank.2 c hc

theorem name_isWord (l : Layout) (hc : c ∈ l.name) : isWord c = true :=
  List.all_eq_true.mp l.name_word.2 c hc

/-- The characters that make up a header and the marks of its lines. -/
def isHeaderChar (c : Char) : Bool := isBreak c || isWord c || c == '+'

theorem isHeaderChar_of_mem (l : Layout) (ht : t ∈ l.rest :: l.tails) (hc : c ∈ t) :
    isHeaderChar c = true := by
  obtain hspace | ⟨w, hw, hcw⟩ := mem_tokens hc
  · simp [isHeaderChar, isBreak, hspace]
  · have hmem := List.mem_flatMap_of_mem ht hw
    rw [l.broken] at hmem
    simp only [List.cons_append, List.mem_cons, List.mem_append, List.not_mem_nil,
      or_false] at hmem
    obtain rfl | hpin | rfl := hmem
    · cases List.mem_singleton.mp hcw
      rfl
    · simp [isHeaderChar, List.all_eq_true.mp (l.pins_word w hpin).2 c hcw]
    · cases List.mem_singleton.mp hcw
      rfl

theorem isHeaderChar_of_mem_headLine (l : Layout) (hc : c ∈ l.headLine) :
    isHeaderChar c = true := by
  rw [headLine_eq, List.mem_append, List.mem_append, List.mem_append] at hc
  obtain hc | hc | hc | hc := hc
  · have hkeyword : "subckt".toList.all isHeaderChar = true := by decide
    exact List.all_eq_true.mp hkeyword c hc
  · simp [isHeaderChar, isBreak, l.gap_isSpace hc]
  · simp [isHeaderChar, l.name_isWord hc]
  · exact l.isHeaderChar_of_mem List.mem_cons_self hc

/-- Nothing in a header means a comment or joins lines. -/
theorem isWhole_of_isHeaderChar (h : ∀ c ∈ t, isHeaderChar c = true) : Line.IsWhole t := by
  apply Line.isWhole_of_not_mem
  · intro hmem
    cases h '/' hmem
  · intro hmem
    cases h '\\' hmem

theorem isWhole_headLine (l : Layout) : Line.IsWhole l.headLine :=
  isWhole_of_isHeaderChar fun _ hc => l.isHeaderChar_of_mem_headLine hc

theorem isWhole_tail (l : Layout) (ht : t ∈ l.tails) : Line.IsWhole ('+' :: t) :=
  isWhole_of_isHeaderChar (List.forall_mem_cons.mpr
    ⟨rfl, fun _ hc => l.isHeaderChar_of_mem (List.mem_cons_of_mem _ ht) hc⟩)

theorem isPlain_trim (l : Layout) (ht : t ∈ l.tails) : IsPlain (trim t) := by
  intro c hc
  have hmem : c ∈ t := (List.dropWhile_suffix isSpace).subset ((trimEnd_begins _).subset hc)
  have hclass := l.isHeaderChar_of_mem (List.mem_cons_of_mem _ ht) hmem
  refine ⟨?_, ?_, ?_⟩
  · rintro rfl
    cases hclass
  · rintro rfl
    cases hclass
  · rintro rfl
    cases hclass

/-- The head line goes on behind the name with the opening parenthesis, or not at all. -/
theorem rest_cases (l : Layout) :
    (∃ ts, tokens l.rest = ['('] :: ts) ∨ ∀ c ∈ l.rest, isSpace c = true := by
  cases hrest : tokens l.rest with
  | nil => exact .inr (tokens_eq_nil_iff.mp hrest)
  | cons w ts =>
      have hbroken := l.broken
      rw [List.flatMap_cons, hrest] at hbroken
      obtain ⟨rfl, -⟩ := List.cons.inj hbroken
      exact .inl ⟨ts, rfl⟩

theorem trim_headLine (l : Layout) :
    trim l.headLine = "subckt".toList ++ (l.gap ++ (l.name ++ trimEnd l.rest)) := by
  obtain ⟨init, c, hname⟩ := (List.eq_nil_or_concat l.name).resolve_left l.name_word.1
  have hc : isSpace c = false := by
    apply not_isSpace_of_isWord
    apply l.name_isWord
    simp [hname]
  have happend : ∀ u, "subckt".toList ++ (l.gap ++ (l.name ++ u)) =
      ("subckt".toList ++ (l.gap ++ init)) ++ c :: u := by
    intro u
    simp [hname]
  have hstart : trimStart l.headLine = l.headLine := rfl
  rw [trim, hstart, headLine_eq, happend, happend]
  exact trimEnd_append_cons hc _ _

theorem stops_rest (l : Layout) : ∀ c ∈ (trimEnd l.rest).head?, (isSpace c || c == '(') = true := by
  intro c hc
  obtain ⟨more, hmore⟩ := trimEnd_begins l.rest
  obtain ⟨r, hr⟩ := List.head?_eq_some_iff.mp hc
  have hhead : l.rest.head? = some c := by
    rw [← hmore, hr]
    rfl
  cases hspace : isSpace c with
  | true => rfl
  | false =>
      obtain ⟨ts, hts⟩ | hblank := l.rest_cases
      · have hopen := head?_of_tokens hts fun d hd => by
          rw [hhead] at hd
          cases hd
          exact hspace
        rw [hhead] at hopen
        cases hopen
        rfl
      · rw [hblank c (List.mem_of_mem_head? hhead)] at hspace
        cases hspace

theorem afterSpaces?_gap (l : Layout) (u : Text) :
    afterSpaces? (l.gap ++ (l.name ++ u)) = some (l.name ++ u) := by
  obtain ⟨c, r, hgap⟩ := List.exists_cons_of_ne_nil l.gap_blank.1
  have hblank : (l.gap ++ (l.name ++ u)).head?.any isSpace = true := by
    rw [hgap]
    exact l.gap_isSpace (hgap ▸ List.mem_cons_self)
  have hstart : StartsInInk l.name :=
    fun c hc => not_isSpace_of_isWord (l.name_isWord (List.mem_of_mem_head? hc))
  rw [afterSpaces?, if_pos hblank, trimStart, List.dropWhile_append_of_pos fun _ => l.gap_isSpace]
  exact congrArg some (hstart.append l.name_word.1 u).trimStart

theorem subcircuitName?_rest (l : Layout) :
    Head.subcircuitName? (l.gap ++ (l.name ++ trimEnd l.rest)) = some (l.name, trim l.rest) := by
  have hword : ∀ c ∈ l.name, (!(isSpace c || c == '(')) = true := by
    intro c hc
    have hparen : c ≠ '(' := by
      rintro rfl
      cases l.name_isWord hc
    simp [not_isSpace_of_isWord (l.name_isWord hc), hparen]
  have hstop : ∀ c ∈ (trimEnd l.rest).head?, (!(isSpace c || c == '(')) = false := by
    intro c hc
    rw [l.stops_rest c hc]
    rfl
  have htake : l.name.takeWhile (fun c => !(isSpace c || c == '(')) = l.name :=
    List.takeWhile_eq_self_iff.mpr hword
  have hdrop : l.name.dropWhile (fun c => !(isSpace c || c == '(')) = [] :=
    List.dropWhile_eq_nil_iff.mpr hword
  have hname : l.name.isEmpty = false := List.isEmpty_eq_false_iff.mpr l.name_word.1
  simp only [Head.subcircuitName?, l.afterSpaces?_gap, takeWhile_append_stop hstop, htake,
    dropWhile_append_stop hstop, hdrop, hname, List.nil_append, Bool.false_eq_true, if_false]
  rw [trim, trimStart_trimEnd, trimEnd_trimEnd, trim]

end Layout

section Reading
variable {tails : List Text}

theorem read_tail (n : Nat) {t : Text} (h : Line.IsWhole ('+' :: t)) :
    Line.read n false ('+' :: t) = (continuation n t, false) := by
  rw [Line.read_whole h rfl, trimEnd_cons rfl]
  rfl

theorem readFrom_tails (h : ∀ t ∈ tails, Line.IsWhole ('+' :: t)) (n : Nat) (raws : List Text) :
    Line.readFrom n false (tails.map ('+' :: ·) ++ raws) =
      continuations n tails ++ Line.readFrom (n + tails.length) false raws := by
  induction tails generalizing n with
  | nil => rfl
  | cons t r ih =>
      obtain ⟨ht, hr⟩ := List.forall_mem_cons.mp h
      rw [List.map_cons, List.cons_append, Line.readFrom_cons (read_tail n ht), ih hr,
        List.length_cons, Nat.add_right_comm, Nat.add_assoc]
      rfl

theorem groupAfter_continuations (head : Line) (first : List Line) (n : Nat) (tails : List Text)
    (ls : List Line) :
    Item.groupAfter ⟨head, first⟩ [] (continuations n tails ++ ls) =
      Item.groupAfter ⟨head, first ++ continuations n tails⟩ [] ls := by
  induction tails generalizing n first with
  | nil => rw [continuations, List.nil_append, List.append_nil]
  | cons t r ih =>
      have hstep : Item.groupAfter ⟨head, first⟩ [] (continuations n (t :: r) ++ ls) =
          Item.groupAfter ⟨head, first ++ [] ++ [continuation n t]⟩ []
            (continuations (n + 1) r ++ ls) := rfl
      rw [hstep, ih, List.append_nil, List.append_assoc]
      rfl

/-- A line that starts a statement which closes a subcircuit. -/
def closesLine (raw : Text) : Bool :=
  let l := (Line.read 0 false raw).1
  l.isCode && !l.continues && (Head.close? true l.content).isSome

theorem closesLine_read {raw : Text} (h : closesLine raw = true) (n : Nat) :
    (Line.read n false raw).1.isCode = true ∧ (Line.read n false raw).1.continues = false ∧
      ∃ name, Head.close? true (Line.read n false raw).1.content = some name := by
  simp only [closesLine, Bool.and_eq_true, Bool.not_eq_true', Option.isSome_iff_exists] at h
  obtain ⟨⟨hcode, hcontinues⟩, hclose⟩ := h
  rw [Line.read_number raw n 0]
  exact ⟨hcode, hcontinues, hclose⟩

/-- The first two statements of a deck that opens a subcircuit and closes it. -/
theorem ofText_layout {l : Layout} {t closing : Text} {more : List Text}
    (h : Text.lines t = l.lines ++ closing :: more) (hclosing : closesLine closing = true) :
    ∃ x r name, Item.ofText t = .statement
          ⟨⟨1, .code (trimEnd l.headLine) false⟩, continuations 2 l.tails⟩ :: .statement x :: r ∧
      Head.close? true x.head.content = some name := by
  have hhead : Line.read 1 false l.headLine = (⟨1, .code (trimEnd l.headLine) false⟩, false) :=
    Line.read_whole l.isWhole_headLine rfl 1
  obtain ⟨hcode, hcontinues, name, hclose⟩ := closesLine_read hclosing (2 + l.tails.length)
  generalize hread : Line.read (2 + l.tails.length) false closing = read at hcode hcontinues hclose
  obtain ⟨x, lines, r, hgroup, hx⟩ :=
    Item.exists_groupAfter_cons { head := read.1 } []
      (Line.readFrom (2 + l.tails.length + 1) read.2 more)
  obtain ⟨hxhead, -⟩ := List.cons.inj hx
  refine ⟨x, r, name, ?_, by rw [hxhead]; exact hclose⟩
  have hlines : Line.ofText t = ⟨1, .code (trimEnd l.headLine) false⟩ ::
      (continuations 2 l.tails ++
        read.1 :: Line.readFrom (2 + l.tails.length + 1) read.2 more) := by
    rw [Line.ofText, h, Layout.lines, List.cons_append, Line.readFrom_cons hhead,
      readFrom_tails fun t ht => l.isWhole_tail ht, Line.readFrom_cons hread]
  rw [Item.ofText, hlines, Item.group, if_pos (by rfl), groupAfter_continuations, Item.groupAfter,
    hcode, hcontinues, hgroup]
  rfl

end Reading

section Running
variable {o : Options} {k : Nat}

theorem header_closed (k : Nat) :
    (Continuation.close (List.replicate k emptyParams)).map Continuation.render =
      List.replicate k ['+'] := by
  have hclose : Continuation.close (List.replicate k emptyParams) =
      List.replicate k emptyParams := by
    rw [Continuation.close, Continuation.modifyLast, List.reverse_replicate]
    cases k with
    | zero => rfl
    | succ k =>
        have hfirst : Continuation.modifyFirst ParamLine.close
            (List.replicate (k + 1) emptyParams) = List.replicate (k + 1) emptyParams := rfl
        rw [hfirst, List.reverse_replicate]
  rw [hclose, List.map_replicate]
  rfl

theorem enterSubcircuit_complete {head : SubcircuitOpening} {s : Statement}
    {groups : List (List Text)}
    (h : ofHead o head s.tail = (⟨groups, List.replicate k emptyParams⟩, true)) :
    Scope.enterSubcircuit o head s = (.body (opened head.name s.number groups k), {}) := by
  simp only [Scope.enterSubcircuit, h, Subcircuit.withHeader, carried_replicate, header_closed,
    List.nil_append]
  rfl

theorem lines_run (cx : Context) {head : SubcircuitOpening} {s x : Statement}
    {name : Option Text} {groups : List (List Text)}
    (hopen : s.kind cx.symbols cx.options .spectre = .subcircuitOpen head)
    (hhead : ofHead cx.options head s.tail = (⟨groups, List.replicate k emptyParams⟩, true))
    (hclose : x.kind cx.symbols cx.options .spectre = .subcircuitClose name) (items : List Item) :
    ∃ more, (Session.run cx { dialect := .spectre }
        (.statement s :: .statement x :: items)).lines =
      (circuit head.name groups k).lines ++ more := by
  have hfirst : Session.push cx { dialect := .spectre } (.statement s) =
      ({ dialect := .spectre, scope := .body (opened head.name s.number groups k) }, {}) := by
    rw [Session.push, Session.pushStatement, if_neg (Nat.lt_irrefl 0)]
    simp only [hopen, Scope.step, Scope.stepTop, enterSubcircuit_complete hhead]
  have hsecond : Session.push cx
      { dialect := .spectre, scope := .body (opened head.name s.number groups k) } (.statement x) =
      ({ dialect := .spectre }, (opened head.name s.number groups k).close cx.symbols cx.options
        name x.number ++ .ofLines (x.tail.map Line.verbatim)) := by
    rw [Session.push, Session.pushStatement, if_neg (Nat.lt_irrefl 0)]
    simp only [hclose, Scope.step, Scope.stepBody]
  simp only [Session.run, hfirst, hsecond, Deck.lines_append, Subcircuit.lines_close,
    lines_render, List.append_assoc]
  exact ⟨_, rfl⟩

end Running

namespace Layout
variable {l : Layout} {o : Options} {t closing : Text} {more : List Text}

def head (l : Layout) : SubcircuitOpening :=
  ⟨l.name, trim l.rest, if startsWith (trim l.rest) ['('] then .paren else .bare⟩

theorem not_mem_pins {p : Text} (hp : p ∈ l.pins) : '(' ∉ p ∧ ')' ∉ p := by
  constructor
  · intro hmem
    cases List.all_eq_true.mp (l.pins_word p hp).2 '(' hmem
  · intro hmem
    cases List.all_eq_true.mp (l.pins_word p hp).2 ')' hmem

/-- With its parenthesis on the head line, the header is read as one list. -/
theorem ofHead_inside (o : Options) (h : '(' ∈ l.rest) :
    ∃ groups k, groups.flatten = l.pins ∧ ofHead o l.head (continuations 2 l.tails) =
      (⟨groups, List.replicate k emptyParams⟩, true) := by
  obtain ⟨ts, hts⟩ := l.rest_cases.resolve_right fun hblank => by cases hblank '(' h
  have hform : l.head.form = .paren := by
    rw [← tokens_trim] at hts
    obtain ⟨r, hr⟩ := List.head?_eq_some_iff.mp (head?_of_tokens hts Param.head?_trim)
    simp only [head, hr]
    rfl
  have hclosed : [')'] ∉ ['('] :: l.pins := by
    intro hmem
    obtain heq | hmem := List.mem_cons.mp hmem
    · cases heq
    · exact (not_mem_pins hmem).2 List.mem_cons_self
  have hnamed : named (['('] :: l.pins) = l.pins := by
    rw [named, List.filter_cons, if_neg (by simp), List.filter_eq_self]
    intro p hp
    rw [bne_iff_ne]
    rintro rfl
    exact (not_mem_pins hp).1 List.mem_cons_self
  obtain ⟨groups, k, hflat, hread⟩ := ofHead_paren o hform rfl hclosed l.broken 1
  exact ⟨groups, k, hflat.trans hnamed, hread⟩

/-- With its parenthesis below the head line, every word is taken for a pin. -/
theorem ofHead_below (o : Options) (h : '(' ∉ l.rest) :
    ∃ groups : List (List Text), groups.flatten = l.tails.flatMap words ∧
      ofHead o l.head (continuations 2 l.tails) = (⟨groups, []⟩, true) := by
  have hblank : ∀ c ∈ l.rest, isSpace c = true := by
    refine l.rest_cases.resolve_left ?_
    rintro ⟨ts, hts⟩
    exact h (mem_of_mem_tokens (hts ▸ List.mem_cons_self) List.mem_cons_self)
  have hrest : trim l.rest = [] := by
    rw [trim, trimStart, List.dropWhile_eq_nil_iff.mpr hblank]
    rfl
  refine ofHead_bare o ?_ hrest (fun t ht => l.isPlain_trim ht) 2
  rw [head, hrest]
  rfl

theorem writtenWords_ofText (h : Text.lines t = l.lines ++ closing :: more)
    (hclosing : closesLine closing = true) {groups : List (List Text)} {k : Nat}
    (hread : ofHead o l.head (continuations 2 l.tails) =
      (⟨groups, List.replicate k emptyParams⟩, true))
    (hpins : ∀ w ∈ groups.flatten, IsInk w ∧ Detached w) :
    writtenWords (Text.lines (Conversion.ofText o .spectre t).content) =
      ".subckt".toList :: l.name :: groups.flatten := by
  obtain ⟨x, r, name, hitems, hclose⟩ := ofText_layout h hclosing
  have hcontent : (⟨1, .code (trimEnd l.headLine) false⟩ : Line).content =
      "subckt".toList ++ (l.gap ++ (l.name ++ trimEnd l.rest)) := by
    rw [← l.trim_headLine]
    simp only [Line.content, Line.text, Line.continues, Bool.false_eq_true, if_false]
    rw [trim, trimStart_trimEnd, trimEnd_trimEnd, trim]
  have hopen : Statement.kind (Symbols.scan t) o .spectre
      ⟨⟨1, .code (trimEnd l.headLine) false⟩, continuations 2 l.tails⟩ = .subcircuitOpen l.head :=
    Statement.kind_subckt _ o hcontent l.subcircuitName?_rest
  obtain ⟨more, hlines⟩ := lines_run ⟨Symbols.scan t, o⟩ hopen hread
    (Statement.kind_close (Symbols.scan t) o hclose) r
  rw [← hitems] at hlines
  exact writtenWords_content o (isInk_of_isWord l.name_word) hpins hlines

/-- In front of the opening parenthesis stand only blanks. -/
theorem detached_tail (l : Layout) (ht : t ∈ l.tails) : Detached t := by
  rw [Detached, List.isChain_iff_forall_rel_of_append_cons_cons]
  rintro c d before after htext rfl
  have hsplit : t = (before ++ [c]) ++ '(' :: after := by
    rw [htext, List.append_assoc]
    rfl
  obtain ⟨first, last, htails⟩ := List.append_of_mem (List.mem_cons_of_mem l.rest ht)
  have hbroken := l.broken
  rw [htails, List.flatMap_append, List.flatMap_cons, hsplit, tokens_append_paren (.inl rfl),
    List.append_assoc, List.cons_append, ← List.append_assoc] at hbroken
  have hrest : ['('] ∉ l.pins ++ [[')']] := by
    intro hmem
    obtain hmem | hmem := List.mem_append.mp hmem
    · exact (not_mem_pins hmem).1 List.mem_cons_self
    · cases List.mem_singleton.mp hmem
  have hnone : first.flatMap tokens ++ tokens (before ++ [c]) = [] := by
    cases hfront : first.flatMap tokens ++ tokens (before ++ [c]) with
    | nil => rfl
    | cons w ws =>
        rw [hfront] at hbroken
        rw [List.cons_append, List.cons_append] at hbroken
        obtain ⟨-, hpins⟩ := List.cons.inj hbroken
        rw [← hpins] at hrest
        exact absurd (List.mem_append_right ws List.mem_cons_self) hrest
  exact tokens_eq_nil_iff.mp (List.append_eq_nil_iff.mp hnone).2 c (by simp)

/-- Below the head line, the opening parenthesis is in a word of its line. -/
theorem exists_word_below (h : '(' ∉ l.rest) : ∃ w ∈ l.tails.flatMap words, '(' ∈ w := by
  have hmem : ['('] ∈ (l.rest :: l.tails).flatMap tokens := by
    rw [l.broken]
    exact List.mem_cons_self
  obtain ⟨t, ht, htokens⟩ := List.mem_flatMap.mp hmem
  have hopen : '(' ∈ t := mem_of_mem_tokens htokens List.mem_cons_self
  obtain rfl | ht := List.mem_cons.mp ht
  · exact absurd hopen h
  · obtain ⟨w, hw, hmem⟩ := exists_mem_words hopen rfl
    exact ⟨w, List.mem_flatMap_of_mem ht hw, hmem⟩

end Layout

/-- The header of a subcircuit that is closed at once is written with its name and its pins, in
order, if and only if the opening parenthesis stands on the head line. If the header is broken in
front of it, all words of the following lines are written as pins, parentheses among them. -/
theorem writtenWords_ofText_iff (l : Layout) (o : Options) {t closing : Text} {more : List Text}
    (h : Text.lines t = l.lines ++ closing :: more) (hclosing : closesLine closing = true) :
    (writtenWords (Text.lines (Conversion.ofText o .spectre t).content) =
        ".subckt".toList :: l.name :: l.pins ↔ '(' ∈ l.rest) ∧
      ('(' ∉ l.rest → writtenWords (Text.lines (Conversion.ofText o .spectre t).content) =
        ".subckt".toList :: l.name :: l.tails.flatMap words) := by
  have hbelow : '(' ∉ l.rest →
      writtenWords (Text.lines (Conversion.ofText o .spectre t).content) =
        ".subckt".toList :: l.name :: l.tails.flatMap words := by
    intro hopen
    obtain ⟨groups, hflat, hread⟩ := Layout.ofHead_below o hopen
    rw [← hflat]
    refine Layout.writtenWords_ofText (k := 0) h hclosing hread ?_
    rw [hflat]
    intro w hw
    obtain ⟨t, ht, hw⟩ := List.mem_flatMap.mp hw
    exact ⟨ink_of_mem_words hw, (l.detached_tail ht).of_mem_words hw⟩
  refine ⟨⟨?_, ?_⟩, hbelow⟩
  · intro hwritten
    by_contra hopen
    rw [hbelow hopen] at hwritten
    obtain ⟨-, hpins⟩ := List.cons.inj (List.cons.inj hwritten).2
    obtain ⟨w, hw, hmem⟩ := Layout.exists_word_below hopen
    rw [hpins] at hw
    exact (Layout.not_mem_pins hw).1 hmem
  · intro hopen
    obtain ⟨groups, k, hflat, hread⟩ := Layout.ofHead_inside o hopen
    rw [← hflat]
    refine Layout.writtenWords_ofText h hclosing hread ?_
    rw [hflat]
    intro p hp
    exact ⟨isInk_of_isWord (l.pins_word p hp), detached_of_not_mem (Layout.not_mem_pins hp).1⟩

/-- `subckt a ( p n )`, broken behind its opening parenthesis and in front of the closing one. -/
def brokenInside : Layout where
  gap := " ".toList
  name := "a".toList
  pins := ["p".toList, "n".toList]
  rest := " (".toList
  tails := [" p n".toList, " )".toList]
  gap_blank := by decide
  name_word := by decide
  pins_word := by decide
  broken := by decide +kernel

/-- The same header, broken in front of its opening parenthesis. -/
def brokenBefore : Layout where
  gap := " ".toList
  name := "a".toList
  pins := ["p".toList, "n".toList]
  rest := []
  tails := [" ( p n )".toList]
  gap_blank := by decide
  name_word := by decide
  pins_word := by decide
  broken := by decide +kernel

theorem writtenWords_ofText_brokenHeaders :
    writtenWords (Text.lines (Conversion.ofText {} .spectre
        "subckt a (\n+ p n\n+ )\nends a\n".toList).content) =
      [".subckt".toList, "a".toList, "p".toList, "n".toList] ∧
    writtenWords (Text.lines (Conversion.ofText {} .spectre
        "subckt a\n+ ( p n )\nends a\n".toList).content) =
      [".subckt".toList, "a".toList, "(".toList, "p".toList, "n".toList, ")".toList] := by
  have hinside : Text.lines "subckt a (\n+ p n\n+ )\nends a\n".toList =
      brokenInside.lines ++ "ends a".toList :: [] := by
    decide
  have hbefore : Text.lines "subckt a\n+ ( p n )\nends a\n".toList =
      brokenBefore.lines ++ "ends a".toList :: [] := by
    decide
  have hcloses : closesLine "ends a".toList = true := by decide
  constructor
  · exact (writtenWords_ofText_iff brokenInside {} hinside hcloses).1.mpr (by decide)
  · exact (writtenWords_ofText_iff brokenBefore {} hbefore hcloses).2 (by decide)

end Header
end SpiceDeck
