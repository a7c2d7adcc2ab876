import SpiceDeck.Proofs.Scope.Given
import SpiceDeck.Proofs.Statement.Joining
import SpiceDeck.Proofs.Written.Chains
import SpiceDeck.Proofs.Written.Kinds

/-!
Written calls that are read again. A call is written without the parentheses around its pins,
so the parts of its head are told apart by its parameters alone. Main statement: a call whose
reference is known is read with the parts with which it was written.
-/

namespace SpiceDeck
open Text

namespace Head
variable {name t u v w : Text} {ws us : List Text} {inWord : Bool}

/-- A pin or a reference that stands by itself on a written line. -/
structure IsPart (w : Text) : Prop where
  ink : IsInk w
  noEquals : '=' ∉ w
  noParen : '(' ∉ w
  noSlash : w.head? ≠ some '/'

instance (w : Text) : Decidable (IsPart w) :=
  decidable_of_iff ((!w.isEmpty && w.all (!isSpace ·)) = true ∧ '=' ∉ w ∧ '(' ∉ w ∧
      w.head? ≠ some '/')
    ⟨fun h => ⟨(isInk_iff w).mpr h.1, h.2.1, h.2.2.1, h.2.2.2⟩,
      fun h => ⟨(isInk_iff w).mp h.ink, h.noEquals, h.noParen, h.noSlash⟩⟩

theorem IsPart.withoutSlash? (h : IsPart w) : withoutSlash? w = some w := by
  have hslash := h.noSlash
  cases w with
  | nil => rfl
  | cons a r =>
      have ha : a ≠ '/' := fun heq => hslash (by rw [heq]; rfl)
      unfold Head.withoutSlash?
      split
      · next heq => exact absurd (List.cons.inj heq).1 ha
      · next heq => exact absurd (List.cons.inj heq).1 ha
      · rfl

theorem IsPlainName.isPart (h : IsPlainName w) : IsPart w where
  ink := h.isInk
  noEquals hmem := absurd (h.word _ hmem) (by decide)
  noParen hmem := absurd (h.word _ hmem) (by decide)
  noSlash := by
    obtain ⟨a, r, rfl, ha, -⟩ := h.exists_cons
    rintro heq
    cases heq
    cases ha

theorem ne_equals_of_not_mem (hx : '=' ∉ t) (hv : ∀ c ∈ v.head?, isSpace c = false ∧ c ≠ '=') :
    (trimStart ((t ++ ' ' :: v).dropWhile isOperand)).head? ≠ some '=' := by
  have hcut : (t ++ ' ' :: v).dropWhile isOperand = t.dropWhile isOperand ++ ' ' :: v :=
    dropWhile_append_stop (by rintro c ⟨⟩; rfl) t
  have hblank : trimStart (' ' :: v) = v := by
    change trimStart v = v
    cases v with
    | nil => rfl
    | cons c r => exact trimStart_cons_of_not_isSpace (hv c rfl).1 r
  rw [hcut, trimStart, List.dropWhile_append]
  split
  · change (trimStart (' ' :: v)).head? ≠ _
    rw [hblank]
    intro heq
    exact (hv '=' heq).2 rfl
  · next hne =>
      intro heq
      have hsub : (t.dropWhile isOperand).dropWhile isSpace ⊆ t :=
        ((List.dropWhile_suffix isSpace).trans (List.dropWhile_suffix isOperand)).subset
      refine hx (hsub ?_)
      cases hd : (t.dropWhile isOperand).dropWhile isSpace with
      | nil => simp [hd] at hne
      | cons c r =>
          rw [hd] at heq
          cases heq
          exact List.mem_cons_self

theorem cutAtEquals?_append (hx : '=' ∉ t) (hv : ∀ c ∈ v.head?, isSpace c = false ∧ c ≠ '=')
    (inWord : Bool) :
    cutAtEquals? inWord (t ++ ' ' :: v) =
      (cutAtEquals? false v).map fun (before, rest) => (t ++ ' ' :: before, rest) := by
  induction t generalizing inWord with
  | nil =>
      have hblank : isOperand ' ' = false := by decide
      simp only [List.nil_append, cutAtEquals?, hblank, Bool.and_false, Bool.false_and,
        Bool.false_eq_true, if_false]
  | cons c r ih =>
      have hr : '=' ∉ r := fun h => hx (List.mem_cons_of_mem c h)
      have hahead : ((trimStart ((r ++ ' ' :: v).dropWhile isOperand)).head? = some '=') = False :=
        eq_false (ne_equals_of_not_mem hr hv)
      simp only [List.cons_append, cutAtEquals?, hahead, decide_false, Bool.and_false,
        Bool.false_eq_true, if_false, ih hr, Option.map_map]
      rfl

theorem cutAtEquals?_of_not_mem (h : '=' ∉ t) (inWord : Bool) : cutAtEquals? inWord t = none := by
  induction t generalizing inWord with
  | nil => rfl
  | cons c r ih =>
      have hr : '=' ∉ r := fun hmem => h (List.mem_cons_of_mem c hmem)
      have hahead : (trimStart (r.dropWhile isOperand)).head? ≠ some '=' := fun heq =>
        hr (((List.dropWhile_suffix isSpace).trans (List.dropWhile_suffix isOperand)).subset
          (List.mem_of_head? heq))
      simp only [cutAtEquals?, ih hr, hahead, decide_false, Bool.and_false, Bool.false_eq_true,
        if_false, Option.map_none]

theorem isOperand_of_isTarget (h : Param.IsTarget name) : ∀ c ∈ name, isOperand c = true := by
  have hword : ∀ c, isWord c = true → isOperand c = true := by
    intro c hc
    have hne : c ≠ '=' := by
      rintro rfl
      exact absurd hc (by decide)
    simp [isOperand, not_isSpace_of_isWord hc, hne]
  obtain ⟨a, r, rfl, ha, hr⟩ := h
  refine List.forall_mem_cons.mpr ⟨?_, ?_⟩
  · have hne : a ≠ '=' := by
      rintro rfl
      cases ha
    simp [isOperand, Param.not_isSpace_of_isNameStart ha, hne]
  · intro c hc
    have hchar := hr c hc
    simp only [Param.isTargetChar, Bool.or_eq_true, beq_iff_eq] at hchar
    obtain ((hc | rfl) | rfl) | rfl := hchar
    · exact hword c hc
    · rfl
    · rfl
    · rfl

/-- The parameters of a call start at its first assignment. -/
theorem cutAtEquals?_assigned (hname : Param.IsTarget name) (w : Text) :
    cutAtEquals? false (name ++ '=' :: w) = some ([], name ++ '=' :: w) := by
  have hoperand := isOperand_of_isTarget hname
  obtain ⟨a, r, rfl, -, -⟩ := hname
  obtain ⟨ha, hr⟩ := List.forall_mem_cons.mp hoperand
  have hequals : isOperand '=' = false := by decide
  have hdrop : (r ++ '=' :: w).dropWhile isOperand = '=' :: w := by
    rw [List.dropWhile_append_of_pos hr, List.dropWhile_cons, hequals]
    rfl
  have hahead : (trimStart ((r ++ '=' :: w).dropWhile isOperand)).head? = some '=' := by
    rw [hdrop]
    rfl
  simp only [List.cons_append, cutAtEquals?, ha, hahead, decide_true, Bool.not_false,
    Bool.and_self, if_true]

end Head

namespace Param
variable {o : Options} {c : Carry} {ws : List Text}

/-- The first of the words is an assignment. -/
def Assigns (ws : List Text) : Prop :=
  ∃ name w r, IsTarget name ∧ ws = (name ++ '=' :: w) :: r

theorem ReadsBack.cases (h : ReadsBack o .closed ws c) :
    ws = [] ∨ (∃ x r, ws = ('$' :: x) :: r) ∨ Assigns ws := by
  rw [ReadsBack] at h
  generalize apart ws = u at h
  cases h with
  | fresh h =>
      cases h with
      | nil => exact .inl rfl
      | remark hx _ =>
          obtain ⟨r, rfl⟩ := exists_cons_of_startsWith hx
          exact .inr (.inl ⟨r, _, rfl⟩)
      | value hn _ _ => exact .inr (.inr ⟨_, _, _, hn, rfl⟩)
      | opened hn _ _ => exact .inr (.inr ⟨_, _, _, hn, rfl⟩)
  | ended h _ | continued _ h => cases h.isOpen

theorem ReadsBack.assigns (h : ReadsBack o .closed ws c)
    (hstart : startsAssignment (spaced ws) = true) : Assigns ws := by
  obtain rfl | ⟨x, r, rfl⟩ | h := h.cases
  · cases hstart
  · rw [spaced_cons] at hstart
    cases hstart
  · exact h

theorem ReadsBack.closed_of_nil {c' : Carry} (h : ReadsBack o c [] c') :
    c = .closed ∧ c' = .closed := by
  rw [ReadsBack] at h
  cases h with
  | fresh h =>
      cases h
      exact ⟨rfl, rfl⟩

theorem ReadsBack.spaced_eq_nil_iff (h : ReadsBack o .closed ws c) : spaced ws = [] ↔ ws = [] := by
  obtain rfl | ⟨x, r, rfl⟩ | ⟨name, w, r, ⟨b, u, rfl, -, -⟩, rfl⟩ := h.cases
  · exact iff_of_true rfl rfl
  · rw [spaced_cons]
    exact iff_of_false nofun nofun
  · rw [spaced_cons]
    exact iff_of_false nofun nofun

/-- Words behind a name follow it with a blank. -/
theorem ReadsBack.head?_spaced (h : ReadsBack o .closed ws c) :
    ∀ a ∈ (spaced ws).head?, isSpace a = false ∧ a ≠ '=' ∧ a ≠ '(' := by
  intro a ha
  obtain rfl | ⟨x, r, rfl⟩ | ⟨name, w, r, ⟨b, u, rfl, hb, -⟩, rfl⟩ := h.cases
  · cases ha
  · rw [spaced_cons] at ha
    cases ha
    decide
  · rw [spaced_cons] at ha
    cases ha
    refine ⟨not_isSpace_of_isNameStart hb, ?_, ?_⟩
    · rintro rfl
      cases hb
    · rintro rfl
      cases hb

end Param

/-- What may stand at the end of a call that is written without parentheses. -/
def Context.isDevice (cx : Context) (d : Dialect) (reference : Text) : Bool :=
  cx.symbols.isKnown reference ||
    (d = .spectre && (cx.options.rawKeyword? reference).any RawKeyword.primitive)

/-- The head of a call as it is written: its name, its pins and its reference, and behind them
its parameters. -/
def Call.written (name : Text) (us ws : List Text) : Text :=
  spaced (name :: us) ++ setOff (spaced ws)

namespace Call
variable {o : Options} {c : Carry} {name : Text} {us ws tail : List Text} {s : Statement}

theorem written_eq_append (name : Text) (us ws : List Text) :
    written name us ws = name ++ (apart us ++ setOff (spaced ws)) := by
  rw [written, spaced_cons, List.append_assoc]

theorem follows (hus : ∀ u ∈ us, Head.IsPart u) (hws : Param.ReadsBack o .closed ws c) :
    Head.Follows (apart us ++ setOff (spaced ws)) := by
  cases us with
  | cons u us =>
      obtain ⟨hink, -, hparen, -⟩ := hus u List.mem_cons_self
      obtain ⟨a, r, rfl⟩ := List.exists_cons_of_ne_nil hink.1
      refine .inr ⟨a, r ++ (apart us ++ setOff (spaced ws)), by simp [apart_cons], ?_, ?_⟩
      · exact hink.2 a List.mem_cons_self
      · rintro rfl
        exact hparen List.mem_cons_self
  | nil =>
      have hhead := hws.head?_spaced
      cases hspaced : spaced ws with
      | nil => exact .inl rfl
      | cons a r =>
          obtain ⟨hspace, -, hparen⟩ := hhead a (by rw [hspaced]; rfl)
          exact .inr ⟨a, r, rfl, hspace, hparen⟩

theorem ink_spaced {w : Text} {r : List Text} (h : ∀ u ∈ w :: r, IsInk u) :
    StartsInInk (spaced (w :: r)) ∧ EndsInInk (spaced (w :: r)) := by
  obtain ⟨hw, hr⟩ := List.forall_mem_cons.mp h
  constructor
  · obtain ⟨a, u, rfl⟩ := List.exists_cons_of_ne_nil hw.1
    rw [spaced_cons]
    exact startsInInk_cons (hw.2 a List.mem_cons_self) _
  · refine Param.endsInInk_spaced (Param.endsInInk_apart fun u hu => ⟨(h u hu).1, ?_⟩)
    intro a ha
    exact (h u hu).2 a (List.mem_of_getLast? ha)

theorem trim_written (hname : IsInk name) (hus : ∀ u ∈ us, Head.IsPart u)
    (hws : Param.ReadsBack o .closed ws c) : trim (written name us ws) = written name us ws := by
  have hink : ∀ u ∈ name :: us, IsInk u :=
    List.forall_mem_cons.mpr ⟨hname, fun u hu => (hus u hu).ink⟩
  obtain ⟨hstart, hend⟩ := ink_spaced hink
  have hne : spaced (name :: us) ≠ [] := by
    obtain ⟨a, r, rfl⟩ := List.exists_cons_of_ne_nil hname.1
    rw [spaced_cons]
    simp
  exact Param.trim_marked hne hstart hend (Param.RereadsLine.trim hws)

theorem isStatement_written (hname : Head.IsPlainName name) (us : List Text)
    (htail : Param.Below o c tail) (hends : ∀ t ∈ tail.getLast?, isSilent t = false) :
    IsStatement (written name us ws) tail := by
  obtain ⟨a, r, rfl, ha, -⟩ := hname.exists_cons
  have hstart : trimStart (written (a :: r) us ws) = written (a :: r) us ws := by
    rw [written_eq_append, List.cons_append,
      trimStart_cons_of_not_isSpace (Param.not_isSpace_of_isNameStart ha)]
  have hne : a ≠ '*' ∧ a ≠ '/' ∧ a ≠ '+' := by
    refine ⟨?_, ?_, ?_⟩ <;> rintro rfl <;> cases ha
  refine ⟨?_, ?_, htail.continued, hends⟩
  · rw [isSilent, hstart, written_eq_append, List.cons_append]
    split
    · next heq => cases heq
    · next heq => exact absurd (List.cons.inj heq).1 hne.1
    · next heq => exact absurd (List.cons.inj heq).1 hne.2.1
    · rfl
  · rw [hstart, written_eq_append, List.cons_append, List.head?_cons, ne_eq, Option.some.injEq]
    exact hne.2.2

/-- What the head of a written call is read as. -/
def opening (name : Text) (pins : List Text) (reference : Text) (ws : List Text) : CallOpening where
  name
  pins
  reference
  params := spaced ws
  consumed := 1

theorem words_written (hname : IsInk name) (hus : ∀ u ∈ us, Head.IsPart u) :
    words (spaced (name :: us)) = name :: us :=
  words_spaced_of_ink (List.forall_mem_cons.mpr ⟨hname, fun u hu => (hus u hu).ink⟩)

/-- The parts of a head before its parameters, and these. -/
theorem cut_written (hname : Head.IsPlainName name) (hus : ∀ u ∈ us, Head.IsPart u)
    (hws : ws = [] ∨ Param.Assigns ws) :
    ∃ before, words before = name :: us ∧
      (Head.cutAtEquals? false (written name us ws)).getD (written name us ws, []) =
        (before, spaced ws) ∧
      ((Head.cutAtEquals? false (written name us ws)).isSome = true ↔ ws ≠ []) := by
  have hequals : '=' ∉ spaced (name :: us) := by
    intro hmem
    obtain heq | ⟨w, hw, hin⟩ := mem_spaced hmem
    · cases heq
    · obtain rfl | hw := List.mem_cons.mp hw
      · exact hname.isPart.noEquals hin
      · exact (hus w hw).noEquals hin
  obtain rfl | ⟨n, w, r, hn, rfl⟩ := hws
  · have hnil : written name us [] = spaced (name :: us) := List.append_nil _
    rw [hnil, Head.cutAtEquals?_of_not_mem hequals]
    exact ⟨_, words_written hname.isInk hus, rfl, by simp⟩
  · have hspaced : spaced ((n ++ '=' :: w) :: r) = n ++ '=' :: (w ++ apart r) := by
      rw [spaced_cons]
      simp
    have hsplit : written name us ((n ++ '=' :: w) :: r) =
        spaced (name :: us) ++ ' ' :: (n ++ '=' :: (w ++ apart r)) := by
      rw [written, hspaced]
      cases hn' : n ++ '=' :: (w ++ apart r) with
      | nil => simp at hn'
      | cons a u => rfl
    have hhead : ∀ c ∈ (n ++ '=' :: (w ++ apart r)).head?, isSpace c = false ∧ c ≠ '=' := by
      obtain ⟨a, u, rfl, ha, -⟩ := hn
      rintro c ⟨⟩
      refine ⟨Param.not_isSpace_of_isNameStart ha, ?_⟩
      rintro rfl
      cases ha
    rw [hsplit, Head.cutAtEquals?_append hequals hhead, Head.cutAtEquals?_assigned hn, hspaced]
    refine ⟨_, ?_, rfl, by simp⟩
    rw [words_append_blank, words_written hname.isInk hus]
    exact List.append_nil _

/-- Where the parameters of a call start: on its head line, on the first line below it, or
nowhere. -/
inductive StartsAt (s : Statement) : List Text → Nat → List Text → Prop where
  | head {ws : List Text} : Param.Assigns ws → StartsAt s ws 1 ws
  | below {ws : List Text} {r : List Text} : Param.Assigns ws →
      (s.tail.filter Line.isCode).map Line.content = spaced ws :: r → StartsAt s [] 2 ws
  | nowhere : (s.tail.filter Line.isCode).map Line.content = [] → StartsAt s [] 1 []

section StartsAt
variable {n : Nat} {vs : List Text}

theorem StartsAt.assigns (h : StartsAt s ws n vs) : vs = [] ∨ Param.Assigns vs := by
  cases h with
  | head h | below h _ => exact .inr h
  | nowhere _ => exact .inl rfl

theorem StartsAt.joined (h : StartsAt s ws n vs) (hcode : s.head.isCode = true)
    (hcontent : s.head.content = written name us ws) : s.joined n = written name us vs := by
  cases h with
  | head _ | nowhere _ =>
      rw [Statement.joined_add_one hcode, hcontent]
      exact List.append_nil _
  | below hvs hlines =>
      obtain ⟨m, w, r, ⟨a, u, rfl, -, -⟩, rfl⟩ := hvs
      have hset : setOff (spaced (((a :: u) ++ '=' :: w) :: r)) =
          apart [spaced (((a :: u) ++ '=' :: w) :: r)] := by
        rw [spaced_cons]
        exact (List.append_nil _).symm
      rw [Statement.joined_add_one hcode, hcontent, List.map_take, hlines, written, written, hset]
      exact congrArg (· ++ _) (List.append_nil _)

/-- Lines are joined until they have an assignment, that is as far as the parameters start. -/
theorem StartsAt.consumed (h : StartsAt s ws n vs) (hname : Head.IsPlainName name)
    (hus : ∀ u ∈ us, Head.IsPart u) (hcode : s.head.isCode = true)
    (hcontent : s.head.content = written name us ws) :
    (Head.linesUntil? s (fun t => (Head.cutAtEquals? false t).isSome) 1
      s.codeLines.length).getD s.codeLines.length = n := by
  have hpass : ∀ {xs : List Text}, xs = [] ∨ Param.Assigns xs →
      ((Head.cutAtEquals? false (written name us xs)).isSome = true ↔ xs ≠ []) := by
    intro xs hxs
    obtain ⟨-, -, -, hsome⟩ := cut_written hname hus hxs
    exact hsome
  have hfirst : s.joined 1 = written name us ws := by
    rw [Statement.joined_add_one hcode, hcontent]
    exact List.append_nil _
  have hsecond := h.joined hcode hcontent
  have hassigns := h.assigns
  rw [Statement.codeLines_eq hcode, List.length_cons, Head.linesUntil?, hfirst]
  cases h with
  | head hws =>
      obtain ⟨m, w, r, -, rfl⟩ := hws
      rw [if_pos ((hpass hassigns).mpr (List.cons_ne_nil _ _))]
      rfl
  | below hvs hlines =>
      obtain ⟨m, w, r, -, rfl⟩ := hvs
      obtain ⟨l, ls, hls, -, -⟩ := List.map_eq_cons_iff.mp hlines
      rw [if_neg (by rw [hpass (.inl rfl)]; simp), hls, List.length_cons, Head.linesUntil?, hsecond,
        if_pos ((hpass hassigns).mpr (List.cons_ne_nil _ _))]
      rfl
  | nowhere hlines =>
      rw [if_neg (by rw [hpass (.inl rfl)]; simp), List.map_eq_nil_iff.mp hlines]
      rfl

/-- A written call is read with the parts with which it was written, if its last word is known. -/
theorem bareCall?_written (h : StartsAt s ws n vs) (hname : Head.IsPlainName name)
    (hus : ∀ u ∈ us, Head.IsPart u) (htrim : trim (spaced vs) = spaced vs)
    (hcode : s.head.isCode = true) (hcontent : s.head.content = written name us ws)
    (cx : Context) (d : Dialect) :
    Head.bareCall? cx.symbols cx.options (d = .spectre) s =
      (us.getLast?.filter (cx.isDevice d)).map fun reference =>
        { name, pins := us.dropLast, reference, params := spaced vs, consumed := n } := by
  obtain ⟨before, hbefore, hcut, -⟩ := cut_written hname hus h.assigns
  have hword : s.head.content.head?.any Head.isAsciiWord = true := by
    obtain ⟨a, r, rfl, ha, -⟩ := hname.exists_cons
    have halpha : Head.isAsciiWord a = true := by
      simp only [isNameStart, Bool.or_eq_true] at ha
      simp only [Head.isAsciiWord, Char.isAlphanum, Bool.or_eq_true]
      exact ha.imp_left .inl
    rw [hcontent, written_eq_append]
    simpa using halpha
  have hfilter : (words before).filterMap Head.withoutSlash? = name :: us := by
    rw [hbefore]
    refine List.filterMap_eq_map_iff_forall_eq_some.mpr ?_ |>.trans (List.map_id _)
    intro u hu
    obtain rfl | hu := List.mem_cons.mp hu
    · exact hname.isPart.withoutSlash?
    · exact (hus u hu).withoutSlash?
  simp only [Head.bareCall?, hword, if_true, h.consumed hname hus hcode hcontent,
    h.joined hcode hcontent, hcut, hfilter, htrim]
  cases us with
  | nil => rfl
  | cons token tokens =>
      rw [List.getLast?_eq_some_getLast (List.cons_ne_nil token tokens), Option.filter_some,
        Option.map_if]
      rfl

end StartsAt

theorem dropCode_zero (ls : List Line) : Param.dropCode 0 ls = ls := by
  induction ls with
  | nil => rfl
  | cons l r ih =>
      simp only [Param.dropCode]
      split
      · rfl
      · rw [ih]

theorem spaced_concat (w : Text) (us : List Text) (t : Text) :
    spaced (w :: us ++ if t.isEmpty then [] else [t]) = spaced (w :: us) ++ setOff t := by
  rw [setOff]
  split
  · simp
  · rw [List.cons_append, spaced_cons, spaced_cons]
    simp [apart]

/-- A call that is read from a written one is closed and is written as it was. -/
theorem ofHead_written {head : Text} {pins : List Text} {reference : Text}
    (h : s.ReadsAs head tail) (hcode : s.head.isCode = true) (hws : Param.ReadsBack o .closed ws c)
    (htail : Param.Below o c tail) {r : Resolution} (hletter : withLetter r.letter name = name)
    (hkeeps : r.dropReference = false) :
    (Call.ofHead o (opening name pins reference ws) s).close.render r =
      written name (pins ++ [reference]) ws :: tail := by
  have hcarry := hws.carry .deviceCall
  have hdrop : Param.dropCode 1 s.lines = s.tail := by
    simp only [Statement.lines, Param.dropCode, hcode, if_true, dropCode_zero]
  obtain ⟨hrender, hlast⟩ := htail.tail h.tail .deviceCall
  have hclose : (Call.ofHead o (opening name pins reference ws) s).close =
      Call.ofHead o (opening name pins reference ws) s := by
    simp only [Call.close, Call.ofHead, opening, hcarry, hdrop]
    split
    · next hempty =>
        rw [List.isEmpty_iff.mp hempty] at hlast
        rw [Param.paramLine_close (hcarry.trans hlast)]
    · next hne =>
        have hcarried := Param.carried_eq_lastCarry (by simpa using hne) c
        rw [hlast] at hcarried
        rw [Param.close_of_carried hcarried]
  have hparams : (Param.readAssignments o (spaced ws) .deviceCall .closed).render = spaced ws := by
    obtain ⟨-, hpieces, -⟩ := Param.RereadsLine.readAssignments hws .deviceCall
    rw [ParamLine.render, Param.marker_readAssignments]
    exact Param.eq_spaced_of_apart hpieces
  rw [hclose, Call.render, Call.head]
  simp only [Call.ofHead, opening, hcarry, hdrop, hrender, hparams, hletter, hkeeps,
    Bool.false_eq_true, if_false]
  rw [List.cons_append, spaced_concat, written]

/-- The lines of a call whose reference stands for what the families tell. -/
def entryLines (cx : Context) (family? : Text → Option Family) : Entry Call → List Text
  | .item c =>
      c.render (Resolution.find cx.symbols cx.options c.name c.reference (family? c.reference))
  | .verbatim t => [t]

/-- A call as it is written where its reference is known and its letter stands. -/
inductive Written (cx : Context) (d : Dialect) (family? : Text → Option Family) :
    Text → List Text → Prop where
  | mk {name : Text} {pins : List Text} {reference : Text} {ws : List Text} {c : Carry}
      {tail : List Text} {r : Resolution}
      (name_plain : Head.IsPlainName name) (pins_part : ∀ p ∈ pins, Head.IsPart p)
      (reference_part : Head.IsPart reference) (params : Param.ReadsBack cx.options .closed ws c)
      (below : Param.Below cx.options c tail)
      (apart : Param.Assigns ws ∨ ws = [] ∧ ∀ t ∈ tail, isSilent t = true)
      (known : cx.isDevice d reference = true)
      (resolution : Resolution.find cx.symbols cx.options name reference (family? reference) = r)
      (letter : withLetter r.letter name = name) (keeps : r.dropReference = false) :
      Written cx d family? (written name (pins ++ [reference]) ws) tail

/-- Comments below the last parameters are no part of the call. -/
theorem Written.split {cx : Context} {d : Dialect} {family? : Text → Option Family} {head : Text}
    {raws : List Text} (h : Written cx d family? head raws) :
    ∃ tail after, raws = tail ++ after ∧ Written cx d family? head tail ∧ IsStatement head tail ∧
      ∀ t ∈ after, isSilent t = true := by
  obtain ⟨hname, hpins, hreference, hws, hbelow, happart, hknown, hresolution, hletter, hkeeps⟩ := h
  obtain ⟨tail, after, rfl, htail, hends, hafter⟩ := hbelow.split
  have happart' := happart.imp_right
    (And.imp_right fun hsilent t ht => hsilent t (List.mem_append_left _ ht))
  exact ⟨tail, after, rfl, ⟨hname, hpins, hreference, hws, htail, happart', hknown, hresolution,
    hletter, hkeeps⟩, isStatement_written hname _ htail hends, hafter⟩

/-- A written call is read as a call that is written the same way. -/
theorem Written.read {cx : Context} {d : Dialect} {family? : Text → Option Family} {head : Text}
    (h : Written cx d family? head tail) (hs : IsStatement head tail)
    (hreads : s.ReadsAs head tail) :
    ∃ opening, s.kind cx.symbols cx.options d = .deviceCall opening ∧
      entryLines cx family? (.item (Call.ofHead cx.options opening s).close) = head :: tail := by
  obtain ⟨hname, hpins, hreference, hws, hbelow, happart, hknown, hresolution, hletter, hkeeps⟩ := h
  rename_i name pins reference ws c r
  have hus : ∀ u ∈ pins ++ [reference], Head.IsPart u := by
    simpa [or_imp, forall_and] using ⟨hpins, hreference⟩
  have hcontent : s.head.content = written name (pins ++ [reference]) ws := by
    rw [hreads.content hs, trim_written hname.isInk hus hws]
  have hcode : s.head.isCode = true := by
    rw [Line.isCode_settledBody hreads.head, hs.code]
    rfl
  have hstarts : StartsAt s ws 1 ws := by
    obtain hassigns | ⟨rfl, hsilent⟩ := happart
    · exact .head hassigns
    · refine .nowhere (List.map_eq_nil_iff.mpr (List.filter_eq_nil_iff.mpr fun l hl => ?_))
      have hbody := List.mem_map_of_mem (f := Line.body) hl
      rw [hreads.tail, List.mem_map] at hbody
      obtain ⟨t, ht, heq⟩ := hbody
      rw [Line.isCode_settledBody heq.symm, hsilent t ht]
      decide
  have hcall : Head.bareCall? cx.symbols cx.options (d = .spectre) s =
      some (opening name pins reference ws) := by
    rw [bareCall?_written hstarts hname hus (Param.RereadsLine.trim hws) hcode hcontent,
      List.getLast?_concat, Option.filter_some, if_pos hknown, List.dropLast_concat]
    rfl
  refine ⟨opening name pins reference ws, ?_, ?_⟩
  · rw [Statement.kind_name hname (follows hus hws) (hcontent.trans (written_eq_append _ _ _)),
      hcall]
    rfl
  · obtain ⟨hn, href⟩ := Call.close_name_reference (Call.ofHead cx.options
      (opening name pins reference ws) s)
    rw [entryLines, hn, href]
    change (Call.ofHead cx.options (opening name pins reference ws) s).close.render
      (Resolution.find cx.symbols cx.options name reference (family? reference)) = _
    rw [hresolution]
    exact ofHead_written hreads hcode hws hbelow hletter hkeeps

end Call
end SpiceDeck
