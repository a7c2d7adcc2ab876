import SpiceDeck.Proofs.Model.ParameterList
import SpiceDeck.Proofs.Statement.Source

/-!
Model statements whose parameters stand in parentheses. The opening parenthesis is taken off
with the head of the statement and the closing one by a search from the end. Main statement:
such a statement is converted like the one without parentheses, whatever comments stand in it,
also where the closing parenthesis has a line of its own.
-/

namespace SpiceDeck
open Text

theorem Text.trim_trimEnd (t : Text) : trim (trimEnd t) = trim t := by
  rw [trim, trimStart_trimEnd, trimEnd_trimEnd, trim]
namespace Head

theorem afterSpaces?_ink {w : Text} (h : IsInk w) (u : Text) :
    afterSpaces? (' ' :: (w ++ u)) = some (w ++ u) := by
  have hstart : StartsInInk w := fun c hc => h.2 c (List.mem_of_mem_head? hc)
  have htrim : trimStart (' ' :: (w ++ u)) = trimStart (w ++ u) := rfl
  have hblank : (' ' :: (w ++ u)).head?.any isSpace = true := rfl
  rw [afterSpaces?, if_pos hblank, htrim, (hstart.append h.1 u).trimStart]

/-- A word with a blank behind it is cut off as a whole. -/
theorem cut_word {p : Char → Bool} {w : Text} (hw : ∀ c ∈ w, p c = true) (hp : p ' ' = false)
    (r : Text) : (w ++ ' ' :: r).takeWhile p = w ∧ (w ++ ' ' :: r).dropWhile p = ' ' :: r := by
  have hstop : ∀ c ∈ (' ' :: r).head?, p c = false := by
    intro c hc
    cases hc
    exact hp
  rw [takeWhile_append_stop hstop, dropWhile_append_stop hstop, List.takeWhile_eq_self_iff.mpr hw,
    List.dropWhile_eq_nil_iff.mpr hw]
  exact ⟨rfl, rfl⟩

/-- A model statement with its name, its type and what follows them, in which a parenthesis
at the front is taken off. -/
theorem dottedModel?_eq {name keyword : Text} (hname : IsInk name) (hkeyword : IsInk keyword)
    (hopen : '(' ∉ keyword) {r : Text} {c : Char} {rest : Text} (hr : trim r = c :: rest) :
    dottedModel? (".model".toList ++ ' ' :: (name ++ ' ' :: (keyword ++ ' ' :: r))) =
      some (if c = '(' then { name, keyword, rest := trimStart rest, parenthesized := true }
        else { name, keyword, rest := c :: rest }) := by
  have hfirst : ∀ c ∈ name, (!isSpace c) = true := fun c hc => by simp [hname.2 c hc]
  have hsecond : ∀ c ∈ keyword, (!(isSpace c || c == '(')) = true := by
    intro c hc
    have hne : c ≠ '(' := fun heq => hopen (heq ▸ hc)
    simp [hkeyword.2 c hc, hne]
  have hn : name.isEmpty = false := List.isEmpty_eq_false_iff.mpr hname.1
  have hk : keyword.isEmpty = false := List.isEmpty_eq_false_iff.mpr hkeyword.1
  have hparts : nameAndType? '(' (' ' :: (name ++ ' ' :: (keyword ++ ' ' :: r))) =
      some (name, keyword, trimStart r) := by
    simp only [nameAndType?, afterSpaces?_ink hname, token, afterToken,
      cut_word hfirst rfl, afterSpaces?_ink hkeyword, cut_word hsecond rfl, hn, hk, Bool.or_false,
      Bool.false_eq_true, if_false]
    rfl
  have hrest : trim (trimStart r) = c :: rest := by rw [trim, trimStart_trimStart, ← hr, trim]
  have hafter : afterFolded? ".model".toList
      (".model".toList ++ ' ' :: (name ++ ' ' :: (keyword ++ ' ' :: r))) =
        some (' ' :: (name ++ ' ' :: (keyword ++ ' ' :: r))) := rfl
  rw [dottedModel?, hafter, Option.bind_some, hparts, Option.map_some]
  simp only [hrest]
  by_cases hc : c = '('
  · simp [hc]
  · simp [hc]

end Head
namespace Statement

theorem kind_dottedModel (symbols : Symbols) (o : Options) (d : Dialect) {s : Statement} {r : Text}
    {head : ModelOpening} (hs : s.head.content = ".model".toList ++ r)
    (h : Head.dottedModel? s.head.content = some head) :
    s.kind symbols o d = .model head := by
  have hsimulator : Head.simulator? s.head.content = none := by
    rw [hs]
    rfl
  have hparameters : ∀ spectre, Head.isParameters spectre s.head.content = false := by
    intro spectre
    rw [hs]
    cases spectre <;> rfl
  have hstatistics : Head.isStatistics s.head.content = false := by
    rw [hs]
    rfl
  have hmodel : ∀ spectre, Head.model? spectre s.head.content = some head := by
    intro spectre
    have hbraced : Head.bracedModel? s.head.content = none := by
      rw [hs]
      rfl
    rw [Head.model?, hbraced, h]
    cases spectre <;> rfl
  simp only [kind, hsimulator, hparameters, hstatistics, hmodel, Option.map_none, Option.map_some,
    Bool.and_false]
  rfl

end Statement

namespace Model

def deck (m : Model) (line : Nat) : Deck :=
  .warnIf m.isOpen .unclosedValue line ++ Subcircuit.renderModel (.item m.close)

/-- A model by its parameters, those of the head line and the parts below it. -/
def ofParts (o : Options) (name keyword : Text) (line : Nat) (first : Text) (ps : List Part) :
    Model :=
  let params := Param.readAssignments o first .modelBody .closed
  readParts o ((new name keyword line).withParams params) params.carry ps

variable {o : Options} {d : Dialect} {t : Text} {head : ModelOpening}

theorem ofHead_eq_ofParts {s : Statement} {first : Text} {ps : List Part}
    (h : (if head.parenthesized then
        Part.closeList (.code head.rest :: s.tail.map Part.ofLine)
      else .code head.rest :: s.tail.map Part.ofLine) = .code first :: ps) :
    ofHead o head s = ofParts o head.name head.keyword s.number first ps := by
  simp only [ofHead, h]
  rfl

/-- A deck that is nothing but a model with comments around and in it. -/
theorem assemble_source {x : Statement.Source} (first : Text) (ps : List Part)
    (hlines : Text.lines t = x.lines) (hbraced : head.braced = false)
    (hhead : Head.dottedModel? (trim x.head) = some head)
    (hdot : ∃ r, trim x.head = ".model".toList ++ r)
    (hparts : (if head.parenthesized then
        Part.closeList (.code head.rest :: Statement.Source.tailParts x.more)
      else .code head.rest :: Statement.Source.tailParts x.more) = .code first :: ps) :
    Conversion.assemble o d t =
      Deck.ofLines (x.before.map Line.copied) ++
        ((ofParts o head.name head.keyword (1 + x.before.length) first ps).deck
          (1 + x.before.length) ++ Deck.ofLines (x.after.map Line.copied)) := by
  obtain ⟨s, before, after, hitems, hcontent, hnumber, htail, hbefore, hafter⟩ :=
    Statement.Source.ofText_items hlines
  obtain ⟨r, hr⟩ := hdot
  have hkind : s.kind (Symbols.scan t) o d = .model head :=
    Statement.kind_dottedModel _ o d (hcontent.trans hr) (hcontent.symm ▸ hhead)
  have hmodel : ofHead o head s =
      ofParts o head.name head.keyword (1 + x.before.length) first ps := by
    rw [← htail] at hparts
    rw [ofHead_eq_ofParts hparts, hnumber]
  have hpush : Session.push ⟨Symbols.scan t, o⟩ { dialect := d } (.statement s) =
      ({ dialect := d }, (ofHead o head s).deck s.number) := by
    rw [Session.push, Session.pushStatement, if_neg (Nat.lt_irrefl 0)]
    simp only [hkind, Scope.step, Scope.stepTop, Scope.enterModel, hbraced, Bool.false_eq_true,
      if_false]
    rfl
  have hlast : Session.run ⟨Symbols.scan t, o⟩ { dialect := d } (after.map .line) =
      Deck.ofLines (after.map Line.verbatim) := by
    have hrun := Session.run_lines ⟨Symbols.scan t, o⟩ (a := { dialect := d }) rfl after []
    rw [List.append_nil] at hrun
    rw [hrun]
    exact Deck.append_empty _
  rw [Conversion.assemble, hitems, Session.run_lines _ rfl, Session.run, hpush]
  simp only [hlast, hmodel, hnumber, hbefore, hafter]

/-- A model statement over several lines, with or without parentheses around its parameters,
and comments and blank lines before, between and behind its lines. -/
structure Layout where
  name : Text
  keyword : Text
  /-- The parameters on the head line. -/
  first : Text
  /-- The lines that continue it, each without its plus sign, and what stands in front of
  each. -/
  more : List (List Text × Text)
  before : List Text
  /-- What stands behind the parameters, up to a parenthesis with a line of its own, -/
  between : List Text
  /-- and from there on. -/
  after : List Text
  name_ink : IsInk name
  name_noComment : ¬ "//".toList <:+: name
  keyword_ink : IsInk keyword
  keyword_noComment : ¬ "//".toList <:+: keyword
  keyword_noParen : '(' ∉ keyword
  first_assigns : Param.startsAssignment (trimStart first) = true
  whole : ∀ p ∈ first :: more.map Prod.snd, Line.IsWhole p
  balanced : (first :: more.map Prod.snd).flatten.count '(' =
    (first :: more.map Prod.snd).flatten.count ')'
  silent : ∀ raw ∈ before ++ (more.flatMap Prod.fst ++ (between ++ after)), isSilent raw = true

namespace Layout

/-- The head line; what stands behind the type may start with a parenthesis. -/
def headLine (l : Layout) (rest : Text) : Text :=
  ".model".toList ++ ' ' :: (l.name ++ ' ' :: (l.keyword ++ ' ' :: rest))

theorem headLine_eq (l : Layout) (rest : Text) :
    l.headLine rest = ".model".toList ++ ' ' :: (l.name ++ ' ' :: (l.keyword ++ ' ' :: rest)) := rfl

/-- The parameters with a parenthesis behind the last of them. -/
def closed (l : Layout) : Text × List (List Text × Text) :=
  match l.more.getLast? with
  | none => (l.first ++ [')'], [])
  | some (comments, p) => (l.first, l.more.dropLast ++ [(comments, p ++ [')'])])

theorem exists_trimStart_first (l : Layout) :
    ∃ c r, trimStart l.first = c :: r ∧ isNameStart c = true := by
  have hassigns := l.first_assigns
  cases hfirst : trimStart l.first with
  | nil =>
      rw [hfirst] at hassigns
      cases hassigns
  | cons c r =>
      refine ⟨c, r, rfl, ?_⟩
      cases hc : isNameStart c with
      | true => rfl
      | false => simp [hfirst, Param.startsAssignment, Param.assignment?, hc] at hassigns

theorem isBlank_first (l : Layout) : isBlank l.first = false := by
  obtain ⟨c, r, hfirst, -⟩ := l.exists_trimStart_first
  rw [Param.isBlank_eq_false_iff, hfirst]
  exact List.cons_ne_nil c r

theorem whole_first (l : Layout) : Line.IsWhole l.first := l.whole _ List.mem_cons_self

theorem whole_more (l : Layout) : ∀ x ∈ l.more, Line.IsWhole x.2 :=
  fun _ hx => l.whole _ (List.mem_cons_of_mem _ (List.mem_map_of_mem hx))

theorem headLine_split (l : Layout) (rest : Text) :
    l.headLine rest =
      ((".model".toList ++ ([' '] ++ (l.name ++ ([' '] ++ l.keyword)))) ++ [' ']) ++ rest := by
  rw [headLine_eq]
  simp only [List.append_assoc, List.cons_append, List.nil_append]

theorem isWhole_headLine (l : Layout) {rest : Text} (h : Line.IsWhole rest)
    (hblank : isBlank rest = false) : Line.IsWhole (l.headLine rest) := by
  have hkeyword : ¬ "//".toList <:+: [' '] ++ l.keyword :=
    Line.noComment_append (by decide) l.keyword_noComment (.inl (by decide))
  have hname : ¬ "//".toList <:+: l.name ++ ([' '] ++ l.keyword) :=
    Line.noComment_append l.name_noComment hkeyword (.inr (by simp))
  have hgap : ¬ "//".toList <:+: [' '] ++ (l.name ++ ([' '] ++ l.keyword)) :=
    Line.noComment_append (by decide) hname (.inl (by decide))
  have hstart := Line.noComment_append (a := ".model".toList) (by decide) hgap (.inl (by decide))
  rw [headLine_split]
  refine Line.IsWhole.append ?_ h (.inl ?_) (.inl hblank)
  · exact Line.noComment_append hstart (by decide) (.inr (by decide))
  · rw [List.getLast?_concat]
    decide

theorem isWhole_close {p : Text} (h : Line.IsWhole p) : Line.IsWhole (p ++ [')']) := by
  refine Line.IsWhole.append h.noComment ⟨by decide, by decide⟩ (.inr (by decide)) (.inl ?_)
  decide

theorem isWhole_open {p : Text} (h : Line.IsWhole p) : Line.IsWhole ('(' :: p) :=
  Line.IsWhole.append (a := ['(']) (by decide) h (.inl (by decide)) (.inr (by decide))

/-- The last parameters stand on the head line or on a line that continues it. -/
theorem closed_cases (l : Layout) :
    l.more = [] ∧ l.closed = (l.first ++ [')'], []) ∨
      ∃ init comments p, l.more = init ++ [(comments, p)] ∧
        l.closed = (l.first, init ++ [(comments, p ++ [')'])]) := by
  obtain hmore | ⟨init, ⟨comments, p⟩, hmore⟩ := List.eq_nil_or_concat' l.more
  · exact .inl ⟨hmore, by rw [closed, hmore]; rfl⟩
  · refine .inr ⟨init, comments, p, hmore, ?_⟩
    rw [closed, hmore, List.getLast?_concat, List.dropLast_concat]

theorem whole_closed (l : Layout) :
    Line.IsWhole l.closed.1 ∧ ∀ x ∈ l.closed.2, Line.IsWhole x.2 := by
  obtain ⟨-, hclosed⟩ | ⟨init, comments, p, hmore, hclosed⟩ := l.closed_cases
  · rw [hclosed]
    exact ⟨isWhole_close l.whole_first, nofun⟩
  · have hwhole := l.whole_more
    rw [hmore, List.forall_mem_append, List.forall_mem_singleton] at hwhole
    rw [hclosed, List.forall_mem_append, List.forall_mem_singleton]
    exact ⟨l.whole_first, hwhole.1, isWhole_close hwhole.2⟩

theorem comments_closed (l : Layout) :
    l.closed.2.flatMap Prod.fst = l.more.flatMap Prod.fst := by
  obtain ⟨hmore, hclosed⟩ | ⟨init, comments, p, hmore, hclosed⟩ := l.closed_cases
  · rw [hmore, hclosed]
  · rw [hmore, hclosed, List.flatMap_append, List.flatMap_append]
    rfl

/-- The statement without parentheses. -/
def plain (l : Layout) : Statement.Source where
  before := l.before
  head := l.headLine l.first
  more := l.more
  after := l.between ++ l.after
  head_dot := ⟨_, rfl⟩
  head_whole := l.isWhole_headLine l.whole_first l.isBlank_first
  more_whole := l.whole_more
  silent := l.silent

/-- The statement with the closing parenthesis behind the last parameters. -/
def parenthesized (l : Layout) : Statement.Source where
  before := l.before
  head := l.headLine ('(' :: l.closed.1)
  more := l.closed.2
  after := l.between ++ l.after
  head_dot := ⟨_, rfl⟩
  head_whole := l.isWhole_headLine (isWhole_open l.whole_closed.1) rfl
  more_whole := l.whole_closed.2
  silent := by
    rw [l.comments_closed]
    exact l.silent

theorem trim_headLine (l : Layout) {rest : Text} (h : isBlank rest = false) :
    trim (l.headLine rest) = l.headLine (trimEnd rest) := by
  have hstart : trimStart (l.headLine rest) = l.headLine rest := rfl
  rw [trim, hstart, headLine_split, trimEnd_append _ h, ← headLine_split]

theorem dottedModel?_plain (l : Layout) :
    Head.dottedModel? (trim l.plain.head) =
      some { name := l.name, keyword := l.keyword, rest := trim l.first } := by
  obtain ⟨c, r, hfirst, hc⟩ := l.exists_trimStart_first
  have hink : isSpace c = false := not_of_dropWhile_eq_cons hfirst
  have htrim : trim l.first = c :: trimEnd r := by rw [trim, hfirst, trimEnd_cons hink]
  have hne : c ≠ '(' := by
    rintro rfl
    cases hc
  have hhead : trim l.plain.head = l.headLine (trimEnd l.first) := l.trim_headLine l.isBlank_first
  rw [hhead, headLine_eq, Head.dottedModel?_eq l.name_ink l.keyword_ink l.keyword_noParen
    ((trim_trimEnd l.first).trans htrim), if_neg hne, htrim]

theorem dottedModel?_parenthesized (l : Layout) :
    Head.dottedModel? (trim l.parenthesized.head) =
      some { name := l.name, keyword := l.keyword, rest := trim l.closed.1,
             parenthesized := true } := by
  have htrim : trim ('(' :: l.closed.1) = '(' :: trimEnd l.closed.1 := by
    rw [trim, trimStart_cons_of_not_isSpace rfl, trimEnd_cons rfl]
  have hhead : trim l.parenthesized.head = l.headLine (trimEnd ('(' :: l.closed.1)) :=
    l.trim_headLine rfl
  rw [hhead, headLine_eq, Head.dottedModel?_eq l.name_ink l.keyword_ink l.keyword_noParen
    ((trim_trimEnd _).trans htrim), if_pos rfl, trimStart_trimEnd, trim]

theorem countAll_tailParts {c : Char} (hc : isSpace c = false) (more : List (List Text × Text)) :
    Part.countAll c (Statement.Source.tailParts more) = (more.map Prod.snd).flatten.count c := by
  have hpassive : ∀ comments : List Text,
      Part.countAll c (comments.map fun raw => .passive (Line.copied raw)) = 0 := by
    intro comments
    induction comments with
    | nil => rfl
    | cons raw r ih => exact ih
  induction more with
  | nil => rfl
  | cons x r ih =>
      rw [Statement.Source.tailParts, List.flatMap_cons, Part.countAll_append,
        Part.countAll_append, hpassive, List.map_cons, List.flatten_cons, List.count_append]
      simp only [Part.countAll, count_trim hc, Nat.zero_add, Nat.add_zero]
      rw [← ih]
      rfl

/-- The parenthesis that is taken off is the one behind the last parameters. -/
theorem closeList_closed (l : Layout) :
    Part.closeList (.code (trim l.closed.1) :: Statement.Source.tailParts l.closed.2) =
      .code (trim l.first) :: Statement.Source.tailParts l.more := by
  have hcount : ∀ c, isSpace c = false →
      Part.countAll c (.code (trim l.first) :: Statement.Source.tailParts l.more) =
        (l.first :: l.more.map Prod.snd).flatten.count c := by
    intro c hc
    rw [Part.countAll, count_trim hc, countAll_tailParts hc, List.flatten_cons, List.count_append]
  have hbalanced : Part.countAll '(' (.code (trim l.first) :: Statement.Source.tailParts l.more) =
      Part.countAll ')' (.code (trim l.first) :: Statement.Source.tailParts l.more) := by
    rw [hcount '(' rfl, hcount ')' rfl, l.balanced]
  have hlast : ∀ p : Text, trim (p ++ [')']) = trimStart p ++ [')'] := by
    intro p
    rw [trim, trimStart_concat rfl]
    exact trimEnd_append_cons rfl _ []
  obtain ⟨hmore, hclosed⟩ | ⟨init, comments, p, hmore, hclosed⟩ := l.closed_cases
  · rw [hmore] at hbalanced
    rw [hmore, hclosed, hlast]
    exact Part.closeList_concat [] hbalanced
  · have hparts : ∀ q : Text, Part.code (trim l.first) ::
          Statement.Source.tailParts (init ++ [(comments, q)]) =
        (.code (trim l.first) :: (Statement.Source.tailParts init ++
          comments.map fun raw => .passive (Line.copied raw))) ++ [.code (trim q)] := by
      intro q
      simp [Statement.Source.tailParts]
    rw [hmore, hparts] at hbalanced
    rw [hmore, hclosed, hparts, hparts, hlast]
    exact Part.closeList_concat _ hbalanced

def model (l : Layout) (o : Options) : Model :=
  ofParts o l.name l.keyword (1 + l.before.length) (trim l.first)
    (Statement.Source.tailParts l.more)

def written (l : Layout) (o : Options) : Deck :=
  Deck.ofLines (l.before.map Line.copied) ++
    ((l.model o).deck (1 + l.before.length) ++
      Deck.ofLines ((l.between ++ l.after).map Line.copied))

theorem exists_trim_headLine (l : Layout) {rest : Text} (h : isBlank rest = false) :
    ∃ r, trim (l.headLine rest) = ".model".toList ++ r := by
  rw [l.trim_headLine h, headLine_eq]
  exact ⟨_, rfl⟩

theorem assemble_plain (l : Layout) (h : Text.lines t = l.plain.lines) :
    Conversion.assemble o d t = l.written o := by
  have hdot : ∃ r, trim l.plain.head = ".model".toList ++ r :=
    l.exists_trim_headLine l.isBlank_first
  have hassemble := assemble_source (o := o) (d := d) (trim l.first)
    (Statement.Source.tailParts l.more) h rfl l.dottedModel?_plain hdot rfl
  rw [hassemble]
  rfl

theorem assemble_parenthesized (l : Layout) (h : Text.lines t = l.parenthesized.lines) :
    Conversion.assemble o d t = l.written o := by
  have hdot : ∃ r, trim l.parenthesized.head = ".model".toList ++ r := l.exists_trim_headLine rfl
  have hassemble := assemble_source (o := o) (d := d) (trim l.first)
    (Statement.Source.tailParts l.more) h rfl l.dottedModel?_parenthesized hdot l.closeList_closed
  rw [hassemble]
  rfl

/-- What the parameters leave open at their end. -/
def carry (l : Layout) (o : Options) : Carry :=
  l.more.foldl (fun carry x => (Param.readContinuation o x.2 .modelBody carry).carry)
    (Param.readAssignments o l.first .modelBody .closed).carry

theorem foldl_tailParts (o : Options) (carry : Carry) (more : List (List Text × Text)) :
    (Statement.Source.tailParts more).foldl (Part.carryAfter o) carry =
      more.foldl (fun carry x => (Param.readContinuation o x.2 .modelBody carry).carry) carry := by
  induction more generalizing carry with
  | nil => rfl
  | cons x r ih =>
      have hcomments : (x.1.map fun raw => Part.passive (Line.copied raw)) =
          (x.1.map Line.copied).map Part.passive := (List.map_map ..).symm
      have htext : Param.readContinuation o (trim x.2) .modelBody carry =
          Param.readContinuation o x.2 .modelBody carry := by
        simp only [Param.readContinuation, trim_trim]
      rw [Statement.Source.tailParts, List.flatMap_cons, List.foldl_append, List.foldl_append,
        hcomments, Part.foldl_carryAfter_passive, List.foldl_cons, List.foldl_cons, ← htext]
      exact ih _

theorem carry_eq (l : Layout) (o : Options) :
    l.carry o = (Statement.Source.tailParts l.more).foldl (Part.carryAfter o)
      (Param.readAssignments o (trim l.first) .modelBody .closed).carry := by
  have hfirst : Param.readAssignments o (trim l.first) .modelBody .closed =
      Param.readAssignments o l.first .modelBody .closed := by
    simp only [Param.readAssignments, trim_trim]
  rw [foldl_tailParts, hfirst, carry]

theorem isOpen_model (l : Layout) (o : Options) : (l.model o).isOpen = (l.carry o).isOpen := by
  rw [model, ofParts, isOpen_readParts (isOpen_withParams rfl _), carry_eq]

section LastLine
variable {gap : Text}

theorem isWhole_gap (h : isBlank gap = true) : Line.IsWhole gap where
  noComment := by
    intro hinfix
    have hslash : '/' ∈ gap := hinfix.subset (by decide)
    cases List.all_eq_true.mp h '/' hslash
  noBackslash := by
    have htrim : trimEnd ([] ++ gap) = trimEnd [] := trimEnd_append_blank [] (List.all_eq_true.mp h)
    rw [List.nil_append] at htrim
    rw [htrim]
    decide

theorem count_gap (h : isBlank gap = true) {c : Char} (hc : isSpace c = false) :
    gap.count c = 0 := by
  rw [List.count_eq_zero]
  intro hmem
  rw [List.all_eq_true.mp h c hmem] at hc
  cases hc

/-- The layout with a line at the end that holds nothing but blanks. -/
def withLastLine (l : Layout) (h : isBlank gap = true) : Layout :=
  { l with
    more := l.more ++ [(l.between, gap)]
    between := []
    whole := by
      rw [List.map_append, ← List.cons_append, List.forall_mem_append]
      exact ⟨l.whole, List.forall_mem_singleton.mpr (isWhole_gap h)⟩
    balanced := by
      have hflatten : (l.first :: (l.more ++ [(l.between, gap)]).map Prod.snd).flatten =
          (l.first :: l.more.map Prod.snd).flatten ++ gap := by simp
      rw [hflatten, List.count_append, List.count_append, l.balanced, count_gap h rfl,
        count_gap h rfl]
    silent := by
      have hsilent := l.silent
      simpa using hsilent }

/-- The lines of the statement with the closing parenthesis on a line of its own. -/
def ownLine (l : Layout) (gap : Text) : List Text :=
  l.before ++ l.headLine ('(' :: l.first) ::
    (Statement.Source.tailLines l.more ++ (l.between ++ ('+' :: (gap ++ [')'])) :: l.after))

theorem lines_withLastLine (l : Layout) (h : isBlank gap = true) :
    (l.withLastLine h).parenthesized.lines = l.ownLine gap := by
  have hclosed : (l.withLastLine h).closed =
      (l.first, l.more ++ [(l.between, gap ++ [')'])]) := by
    simp only [closed, withLastLine, List.getLast?_concat, List.dropLast_concat]
  have hlines : (l.withLastLine h).parenthesized.lines =
      l.before ++ l.headLine ('(' :: (l.withLastLine h).closed.1) ::
        (Statement.Source.tailLines (l.withLastLine h).closed.2 ++ ([] ++ l.after)) := rfl
  rw [hlines, hclosed, ownLine, Statement.Source.tailLines, List.flatMap_append,
    List.flatMap_singleton, List.append_assoc, List.append_assoc]
  rfl

theorem model_withLastLine (l : Layout) (h : isBlank gap = true)
    (hcarry : (l.carry o).isOpen = false) :
    (l.withLastLine h).model o =
      ((l.model o).addTexts (l.between.map Line.copied)).addParams { marker := .plus } := by
  have htrim : trim gap = [] := by
    rw [trim, trimStart, List.dropWhile_eq_nil_iff.mpr (List.all_eq_true.mp h)]
    rfl
  have hparts : Statement.Source.tailParts (l.more ++ [(l.between, gap)]) =
      Statement.Source.tailParts l.more ++
        ((l.between.map Line.copied).map Part.passive ++ [.code []]) := by
    rw [Statement.Source.tailParts, List.flatMap_append, List.flatMap_singleton, htrim,
      List.map_map]
    rfl
  have hclosed : l.carry o = .closed :=
    Param.eq_closed_of_not_isOpen (Bool.eq_false_iff.mp hcarry)
  have hmodel : (l.withLastLine h).model o = ofParts o l.name l.keyword (1 + l.before.length)
      (trim l.first) (Statement.Source.tailParts (l.more ++ [(l.between, gap)])) := rfl
  rw [hmodel, hparts, ofParts, readParts_append, ← l.carry_eq, hclosed, readParts_nil]
  rfl

theorem written_withLastLine (l : Layout) (h : isBlank gap = true)
    (hcarry : (l.carry o).isOpen = false) : (l.withLastLine h).written o = l.written o := by
  have hopen : (l.model o).isOpen = false := (l.isOpen_model o).trans hcarry
  have hdeck : ((l.withLastLine h).model o).deck (1 + l.before.length) =
      (l.model o).deck (1 + l.before.length) ++ Deck.ofLines (l.between.map Line.copied) := by
    rw [l.model_withLastLine h hcarry]
    generalize l.between.map Line.copied = ts
    have hlast : (((l.model o).addTexts ts).addParams { marker := .plus }).isOpen = false :=
      isOpen_addParams _ _
    have hwarning : (((l.model o).addTexts ts).addParams { marker := .plus }).warning? =
        (l.model o).warning? := rfl
    rw [deck, deck, hlast, hopen, close_of_not_isOpen hlast, close_of_not_isOpen hopen,
      Subcircuit.renderModel, render_addParams_nil, hwarning]
    exact congrArg (Deck.mk _) (List.append_nil _).symm
  have hwritten : (l.withLastLine h).written o = Deck.ofLines (l.before.map Line.copied) ++
      (((l.withLastLine h).model o).deck (1 + l.before.length) ++
        Deck.ofLines (l.after.map Line.copied)) := rfl
  rw [hwritten, hdeck, written, List.map_append, Deck.append_assoc]
  rfl

end LastLine

end Layout

/-- A model with its parameters in parentheses is converted like the one without them: the
same lines come out and the same warnings. The closing parenthesis may stand behind the last
parameters or, if no value is left open there, on a line of its own. -/
theorem ofText_parenthesized (l : Layout) (o : Options) (d : Dialect) (plain : Text)
    (hplain : Text.lines plain = l.plain.lines) :
    (∀ t, Text.lines t = l.parenthesized.lines →
        Conversion.ofText o d t = Conversion.ofText o d plain) ∧
      ((l.carry o).isOpen = false → ∀ gap t, isBlank gap = true →
        Text.lines t = l.ownLine gap →
          Conversion.ofText o d t = Conversion.ofText o d plain) := by
  have hdeck : ∀ t, Conversion.assemble o d t = l.written o →
      Conversion.ofText o d t = Conversion.ofText o d plain := by
    intro t ht
    simp only [Conversion.ofText, ht, l.assemble_plain hplain]
  constructor
  · intro t ht
    exact hdeck t (l.assemble_parenthesized ht)
  · intro hclosed gap t hgap ht
    rw [← l.lines_withLastLine hgap] at ht
    apply hdeck
    rw [(l.withLastLine hgap).assemble_parenthesized ht, l.written_withLastLine hgap hclosed]

/-- A diode whose parameters have parentheses of their own, with comments between its lines. -/
def diode : Layout where
  name := "d1".toList
  keyword := "d".toList
  first := "is=(1e-14+a) bv=b".toList
  more := [(["// emission".toList], " n=c*(1+d)".toList)]
  before := []
  between := ["* end".toList]
  after := []
  name_ink := (isInk_iff _).mpr rfl
  name_noComment := by decide
  keyword_ink := (isInk_iff _).mpr rfl
  keyword_noComment := by decide
  keyword_noParen := by decide
  first_assigns := rfl
  whole := by
    refine List.forall_mem_cons.mpr ⟨⟨by decide, by decide⟩, List.forall_mem_singleton.mpr ?_⟩
    exact ⟨by decide, by decide⟩
  balanced := by decide
  silent := by decide

theorem ofText_parenthesized_diode :
    Conversion.ofText {} .spectre
        ".model d1 d (is=(1e-14+a) bv=b\n// emission\n+ n=c*(1+d))\n* end\n".toList =
      Conversion.ofText {} .spectre
        ".model d1 d is=(1e-14+a) bv=b\n// emission\n+ n=c*(1+d)\n* end\n".toList ∧
    Conversion.ofText {} .spectre
        ".model d1 d (is=(1e-14+a) bv=b\n// emission\n+ n=c*(1+d)\n* end\n+ )\n".toList =
      Conversion.ofText {} .spectre
        ".model d1 d is=(1e-14+a) bv=b\n// emission\n+ n=c*(1+d)\n* end\n".toList := by
  obtain ⟨hparen, hown⟩ := ofText_parenthesized diode {} .spectre
    ".model d1 d is=(1e-14+a) bv=b\n// emission\n+ n=c*(1+d)\n* end\n".toList
    (by decide +kernel)
  have hclosed : (diode.carry {}).isOpen = false := by decide +kernel
  exact ⟨hparen _ (by decide +kernel), hown hclosed [' '] _ rfl (by decide +kernel)⟩

end Model

end SpiceDeck
