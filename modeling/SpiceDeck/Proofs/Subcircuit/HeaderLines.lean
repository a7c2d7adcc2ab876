import SpiceDeck.Proofs.Deck.Renaming
import SpiceDeck.Proofs.Symbols.Declared
import SpiceDeck.Proofs.Text.Words

/-!
Headers over several lines. The pins of a header stand between parentheses, and its words may be
broken over lines that continue it. Two readers take the pins, line by line: with a parenthesis on
the head line, the one that knows about parentheses, and otherwise one that takes every word for a
pin. Main statements: what either of them reads.
-/

namespace SpiceDeck
open Text

namespace Header

/-- What stands between the words of a header. -/
def isBreak (c : Char) : Bool := isSpace c || c == '(' || c == ')'

/-- The text with blanks around its parentheses. -/
def setApart (t : Text) : Text :=
  t.flatMap fun c => if c = '(' ∨ c = ')' then [' ', c, ' '] else [c]

/-- The words of a header, and its parentheses each as a word. -/
def tokens (t : Text) : List Text := words (setApart t)

section Tokens
variable {t u w : Text} {c : Char}

theorem setApart_append (t u : Text) : setApart (t ++ u) = setApart t ++ setApart u :=
  List.flatMap_append

theorem setApart_of_not_paren (h : ∀ c ∈ t, c ≠ '(' ∧ c ≠ ')') : setApart t = t := by
  induction t with
  | nil => rfl
  | cons c r ih =>
      obtain ⟨⟨hopen, hclose⟩, hr⟩ := List.forall_mem_cons.mp h
      rw [setApart, List.flatMap_cons, if_neg (by simp [hopen, hclose]), ← setApart, ih hr]
      rfl

theorem tokens_append_paren (hc : c = '(' ∨ c = ')') (t u : Text) :
    tokens (t ++ c :: u) = tokens t ++ [c] :: tokens u := by
  have hspread : setApart (c :: u) = ' ' :: ([c] ++ ' ' :: setApart u) := by
    rw [setApart, List.flatMap_cons, if_pos hc]
    rfl
  have hword : words [c] = [[c]] := by
    obtain rfl | rfl := hc
    · rfl
    · rfl
  rw [tokens, setApart_append, hspread, words_append_blank, words_append_blank, hword]
  rfl

theorem tokens_append_blank (hc : isSpace c = true) (t u : Text) :
    tokens (t ++ c :: u) = tokens t ++ tokens u := by
  have hparen : ¬(c = '(' ∨ c = ')') := by
    rintro (rfl | rfl)
    · cases hc
    · cases hc
  have hspread : setApart (c :: u) = c :: setApart u := by
    rw [setApart, List.flatMap_cons, if_neg hparen]
    rfl
  rw [tokens, setApart_append, hspread]
  exact runs_append_sep hc _ _

theorem isBreak_eq_false : isBreak c = false ↔ isSpace c = false ∧ c ≠ '(' ∧ c ≠ ')' := by
  simp [isBreak, and_assoc]

theorem tokens_word (hne : w ≠ []) (hw : ∀ c ∈ w, isBreak c = false) : tokens w = [w] := by
  rw [tokens, setApart_of_not_paren fun c hc => (isBreak_eq_false.mp (hw c hc)).2]
  exact runs_word hne fun c hc => (isBreak_eq_false.mp (hw c hc)).1

/-- Words, blanks and parentheses, taken one at a time. -/
theorem tokens_induction {motive : Text → Prop} (nil : motive [])
    (blank : ∀ c r, isSpace c = true → tokens (c :: r) = tokens r → motive r → motive (c :: r))
    (paren : ∀ c r, (c = '(' ∨ c = ')') → tokens (c :: r) = [c] :: tokens r → motive r →
      motive (c :: r))
    (word : ∀ w r, w ≠ [] → (∀ c ∈ w, isBreak c = false) → (∀ c ∈ r.head?, isBreak c = true) →
      tokens (w ++ r) = w :: tokens r → motive r → motive (w ++ r)) (t : Text) : motive t := by
  have hbreak : ∀ c r, isBreak c = true →
      isSpace c = true ∧ tokens (c :: r) = tokens r ∨
        (c = '(' ∨ c = ')') ∧ tokens (c :: r) = [c] :: tokens r := by
    intro c r hc
    simp only [isBreak, Bool.or_eq_true, beq_iff_eq, or_assoc] at hc
    obtain hspace | hparen := hc
    · exact .inl ⟨hspace, tokens_append_blank hspace [] r⟩
    · exact .inr ⟨hparen, tokens_append_paren hparen [] r⟩
  induction t using runs_induction isBreak with
  | nil => exact nil
  | sep c r hc ih =>
      obtain ⟨hspace, htokens⟩ | ⟨hparen, htokens⟩ := hbreak c r hc
      · exact blank c r hspace htokens ih
      · exact paren c r hparen htokens ih
  | word w r hne hw hr ih =>
      refine word w r hne hw hr ?_ ih
      cases r with
      | nil =>
          rw [List.append_nil]
          exact tokens_word hne hw
      | cons c r =>
          obtain ⟨hspace, htokens⟩ | ⟨hparen, htokens⟩ := hbreak c r (hr c rfl)
          · rw [tokens_append_blank hspace, tokens_word hne hw, htokens]
            rfl
          · rw [tokens_append_paren hparen, tokens_word hne hw, htokens]
            rfl

theorem mem_tokens (hc : c ∈ t) : isSpace c = true ∨ ∃ w ∈ tokens t, c ∈ w := by
  induction t using tokens_induction with
  | nil => cases hc
  | blank d r hd htokens ih =>
      rw [htokens]
      obtain rfl | hc := List.mem_cons.mp hc
      · exact .inl hd
      · exact ih hc
  | paren d r hd htokens ih =>
      rw [htokens]
      obtain rfl | hc := List.mem_cons.mp hc
      · exact .inr ⟨[c], List.mem_cons_self, List.mem_cons_self⟩
      · exact (ih hc).imp_right fun ⟨w, hw, hcw⟩ => ⟨w, List.mem_cons_of_mem _ hw, hcw⟩
  | word w r hne hw hr htokens ih =>
      rw [htokens]
      obtain hc | hc := List.mem_append.mp hc
      · exact .inr ⟨w, List.mem_cons_self, hc⟩
      · exact (ih hc).imp_right fun ⟨v, hv, hcv⟩ => ⟨v, List.mem_cons_of_mem _ hv, hcv⟩

theorem mem_of_mem_tokens (hw : w ∈ tokens t) (hc : c ∈ w) : c ∈ t := by
  induction t using tokens_induction with
  | nil => cases hw
  | blank d r hd htokens ih =>
      rw [htokens] at hw
      exact List.mem_cons_of_mem d (ih hw)
  | paren d r hd htokens ih =>
      rw [htokens] at hw
      obtain rfl | hw := List.mem_cons.mp hw
      · exact List.mem_cons.mpr (.inl (List.mem_singleton.mp hc))
      · exact List.mem_cons_of_mem d (ih hw)
  | word v r hne hv hr htokens ih =>
      rw [htokens] at hw
      obtain rfl | hw := List.mem_cons.mp hw
      · exact List.mem_append_left r hc
      · exact List.mem_append_right v (ih hw)

theorem tokens_eq_nil_iff : tokens t = [] ↔ ∀ c ∈ t, isSpace c = true := by
  constructor
  · intro h c hc
    obtain hspace | ⟨w, hw, -⟩ := mem_tokens hc
    · exact hspace
    · rw [h] at hw
      cases hw
  · intro h
    induction t with
    | nil => rfl
    | cons c r ih =>
        obtain ⟨hc, hr⟩ := List.forall_mem_cons.mp h
        exact (tokens_append_blank hc [] r).trans (ih hr)

theorem tokens_append_blanks (h : ∀ c ∈ u, isSpace c = true) (t : Text) :
    tokens (t ++ u) = tokens t := by
  cases u with
  | nil => rw [List.append_nil]
  | cons c r =>
      obtain ⟨hc, hr⟩ := List.forall_mem_cons.mp h
      rw [tokens_append_blank hc, tokens_eq_nil_iff.mpr hr, List.append_nil]

theorem tokens_trimStart (t : Text) : tokens (trimStart t) = tokens t := by
  induction t with
  | nil => rfl
  | cons c r ih =>
      cases hc : isSpace c with
      | false => simp [trimStart, hc]
      | true =>
          rw [trimStart, List.dropWhile_cons, hc, if_pos rfl, ← trimStart, ih]
          exact (tokens_append_blank hc [] r).symm

theorem tokens_trim (t : Text) : tokens (trim t) = tokens t := by
  obtain ⟨blanks, hblanks, heq⟩ := exists_trimEnd_append (trimStart t)
  rw [← tokens_trimStart t]
  conv_rhs => rw [heq]
  exact (tokens_append_blanks hblanks _).symm

/-- The first word is no parenthesis unless the text starts with it. -/
theorem head?_of_tokens {ts : List Text} (h : tokens t = ['('] :: ts)
    (hink : ∀ c ∈ t.head?, isSpace c = false) : t.head? = some '(' := by
  induction t using tokens_induction with
  | nil => cases h
  | blank c r hc _ _ =>
      rw [hink c rfl] at hc
      cases hc
  | paren c r _ htokens _ =>
      rw [htokens] at h
      obtain ⟨hword, -⟩ := List.cons.inj h
      rw [List.singleton_inj.mp hword]
      rfl
  | word w r _ hw _ htokens _ =>
      rw [htokens] at h
      obtain ⟨rfl, -⟩ := List.cons.inj h
      cases hw '(' List.mem_cons_self

end Tokens

section Pins
variable {o : Options} {h : Header} {t : Text} {ts more : List Text}

/-- The words between parentheses. -/
def named (ts : List Text) : List Text := ts.filter (· != ['('])

theorem runs_eq_named (h : ')' ∉ t) :
    runs (fun c => isSpace c || c == '(') t = named (tokens t) := by
  induction t using tokens_induction with
  | nil => rfl
  | blank c r hc htokens ih =>
      rw [runs_sep (by simp [hc]), htokens, ih fun hmem => h (List.mem_cons_of_mem c hmem)]
  | paren c r hc htokens ih =>
      obtain rfl | rfl := hc
      · rw [runs_sep (by simp), htokens, ih fun hmem => h (List.mem_cons_of_mem _ hmem)]
        rfl
      · exact absurd List.mem_cons_self h
  | word w r hne hw hr htokens ih =>
      have hclass : ∀ c ∈ w, (isSpace c || c == '(') = false := by
        intro c hc
        obtain ⟨hspace, hopen, -⟩ := isBreak_eq_false.mp (hw c hc)
        simp [hspace, hopen]
      have hstop : ∀ c ∈ r.head?, (isSpace c || c == '(') = true := by
        intro c hc
        have hclose : c ≠ ')' := by
          rintro rfl
          exact h (List.mem_append_right w (List.mem_of_mem_head? hc))
        simpa [isBreak, hclose] using hr c hc
      have hkept : (w != ['(']) = true := by
        rw [bne_iff_ne]
        rintro rfl
        cases hw '(' List.mem_cons_self
      rw [runs_append_word hne hclass hstop, htokens,
        ih fun hmem => h (List.mem_append_right w hmem)]
      simp only [named, List.filter_cons, hkept, if_true]

theorem bne_of_not_mem (h : ')' ∉ t) : ∀ c ∈ t, (c != ')') = true := by
  intro c hc
  rw [bne_iff_ne]
  rintro rfl
  exact h hc

theorem readPins_unclosed (o : Options) (h : Header) (ht : ')' ∉ t) :
    h.readPins o t = (h.pushPins (named (tokens t)), false) := by
  have hall : t.takeWhile (· != ')') = t := List.takeWhile_eq_self_iff.mpr (bne_of_not_mem ht)
  simp only [readPins, dropWhile_eq_nil_of_not_mem ht, hall]
  rw [← runs_eq_named ht]
  rfl

theorem readPins_closed (o : Options) (h : Header) {before after : Text} (hbefore : ')' ∉ before)
    (hafter : tokens after = []) :
    h.readPins o (before ++ ')' :: after) = (h.pushPins (named (tokens before)), true) := by
  have htake : (before ++ ')' :: after).takeWhile (· != ')') = before := by
    rw [List.takeWhile_append_of_pos (bne_of_not_mem hbefore)]
    simp
  have hdrop : (before ++ ')' :: after).dropWhile (· != ')') = ')' :: after := by
    rw [List.dropWhile_append_of_pos (bne_of_not_mem hbefore)]
    rfl
  have hresidue : trim after = [] := by
    rw [trim, trimStart, List.dropWhile_eq_nil_iff.mpr (tokens_eq_nil_iff.mp hafter)]
    rfl
  simp only [readPins, htake, hdrop, hresidue]
  rw [← runs_eq_named hbefore]
  rfl

theorem readPins_cases (o : Options) (h : Header) (hts : [')'] ∉ ts)
    (htokens : tokens t ++ more = ts ++ [[')']]) :
    (∃ rest, ts = tokens t ++ rest ∧ more = rest ++ [[')']] ∧
        h.readPins o t = (h.pushPins (named (tokens t)), false)) ∨
      more = [] ∧ h.readPins o t = (h.pushPins (named ts), true) := by
  by_cases hclose : ')' ∈ t
  · right
    obtain ⟨before, after, rfl, hbefore⟩ := List.eq_append_cons_of_mem hclose
    rw [tokens_append_paren (.inr rfl), List.append_assoc, List.cons_append] at htokens
    obtain ⟨rfl, -, hnil⟩ := (List.append_cons_inj_of_notMem hts List.not_mem_nil).mp htokens.symm
    obtain ⟨hafter, rfl⟩ := List.append_eq_nil_iff.mp hnil.symm
    exact ⟨rfl, readPins_closed o h hbefore hafter⟩
  · left
    have hopen := readPins_unclosed o h hclose
    obtain ⟨rest, hrest, hmore⟩ | ⟨rest, hrest, hmore⟩ := List.append_eq_append_iff.mp htokens
    · exact ⟨rest, hrest, hmore, hopen⟩
    · cases rest with
      | nil => exact ⟨[], by simpa using hrest.symm, hmore.symm, hopen⟩
      | cons w rest =>
          obtain ⟨rfl, -⟩ := List.cons.inj hmore
          have hmem : [')'] ∈ tokens t := hrest ▸ List.mem_append_right ts List.mem_cons_self
          exact absurd (mem_of_mem_tokens hmem List.mem_cons_self) hclose

end Pins

def continuation (n : Nat) (t : Text) : Line := ⟨n, .code ('+' :: trimEnd t) true⟩

def continuations (n : Nat) : List Text → List Line
  | [] => []
  | t :: r => continuation n t :: continuations (n + 1) r

section Continuations
variable {o : Options} {h : Header} {tails ts : List Text} {n : Nat}

theorem content_continuation (n : Nat) (t : Text) : (continuation n t).content = trim t := by
  have htrim : trim ('+' :: trimEnd t) = '+' :: trimEnd t := by
    rw [trim, trimStart_cons_of_not_isSpace rfl, trimEnd_cons rfl, trimEnd_trimEnd]
  simp only [Line.content, continuation, Line.text, Line.continues, htrim, if_true]
  rw [trimStart_trimEnd, trim]

def emptyParams : Continuation := .params { marker := .plus }

theorem carried_replicate (k : Nat) :
    Continuation.carried (List.replicate k emptyParams) = .closed := by
  have hparams : (List.replicate k emptyParams).filterMap Continuation.params? =
      List.replicate k { marker := .plus } := by
    rw [List.filterMap_replicate]
    rfl
  rw [Continuation.carried, hparams, List.getLast?_replicate]
  cases k with
  | zero => rfl
  | succ k => rfl

theorem readContinuation_empty (o : Options) :
    Param.readContinuation o ['+'] .subcircuitLocal .closed = { marker := .plus } := by
  have hlist : Param.readList o true (trim []) = {} := Param.readList_nil o true rfl
  change (Param.readAssignments o [] .subcircuitLocal .closed).withMarker .plus = _
  have hline : Param.readAssignments o [] .subcircuitLocal .closed =
      { pieces := (Param.readList o true (trim [])).allPieces
        carry := (Param.readList o true (trim [])).carry } := rfl
  rw [hline, hlist]
  rfl

theorem readLines_blank (o : Options) (pins : List (List Text))
    (hblank : tails.flatMap tokens = []) (k n : Nat) :
    ∃ m, readLines o ⟨pins, List.replicate k emptyParams⟩ true (continuations n tails) =
      (⟨pins, List.replicate m emptyParams⟩, true) := by
  induction tails generalizing k n with
  | nil => exact ⟨k, rfl⟩
  | cons t r ih =>
      rw [List.flatMap_cons] at hblank
      obtain ⟨ht, hr⟩ := List.append_eq_nil_iff.mp hblank
      have htext : (continuation n t).text = ['+'] := by
        rw [continuation, Line.text, ← List.nil_append t,
          trimEnd_append_blank [] (tokens_eq_nil_iff.mp ht)]
        rfl
      obtain ⟨m, hm⟩ := ih hr (k + 1) (n + 1)
      refine ⟨m, ?_⟩
      rw [← hm, continuations, readLines, if_neg (by simp [continuation, Line.isCode]), if_pos rfl,
        htext, carried_replicate, readContinuation_empty, List.replicate_succ']
      rfl

/-- The pins of the continuations that end with the closing parenthesis. -/
theorem readLines_pins (o : Options) (pins : List (List Text)) (hts : [')'] ∉ ts)
    (htokens : tails.flatMap tokens = ts ++ [[')']]) (n : Nat) :
    ∃ groups k, groups.flatten = named ts ∧
      readLines o ⟨pins, []⟩ false (continuations n tails) =
        (⟨pins ++ groups, List.replicate k emptyParams⟩, true) := by
  induction tails generalizing pins ts n with
  | nil => exact absurd htokens.symm (by simp)
  | cons t r ih =>
      rw [List.flatMap_cons, ← tokens_trim t] at htokens
      have hstep : readLines o ⟨pins, []⟩ false (continuations n (t :: r)) =
          readLines o (readPins o ⟨pins, []⟩ (trim t)).1 (readPins o ⟨pins, []⟩ (trim t)).2
            (continuations (n + 1) r) := by
        rw [continuations, readLines, if_neg (by simp [continuation, Line.isCode]),
          if_neg (by simp), content_continuation]
      rw [hstep]
      obtain ⟨rest, rfl, hmore, hread⟩ | ⟨hmore, hread⟩ := readPins_cases o ⟨pins, []⟩ hts htokens
      · have hrest : [')'] ∉ rest := fun hmem => hts (List.mem_append_right _ hmem)
        obtain ⟨groups, k, hflat, hlines⟩ :=
          ih (pins ++ [named (tokens (trim t))]) hrest hmore (n + 1)
        refine ⟨named (tokens (trim t)) :: groups, k, ?_, ?_⟩
        · rw [List.flatten_cons, hflat, named, named, named, List.filter_append]
        · rw [hread, List.append_cons]
          exact hlines
      · obtain ⟨m, hlines⟩ := readLines_blank o (pins ++ [named ts]) hmore 0 (n + 1)
        refine ⟨[named ts], m, by simp, ?_⟩
        rw [hread]
        exact hlines

/-- A header in parentheses reads the rest of its head line as one more line. -/
theorem ofHead_paren (o : Options) {head : SubcircuitOpening} {rest : Text}
    (hform : head.form = .paren) (hrest : head.rest = trim rest) (hts : [')'] ∉ ts)
    (htokens : (rest :: tails).flatMap tokens = ts ++ [[')']]) (n : Nat) :
    ∃ groups k, groups.flatten = named ts ∧
      ofHead o head (continuations (n + 1) tails) =
        (⟨groups, List.replicate k emptyParams⟩, true) := by
  obtain ⟨groups, k, hflat, hlines⟩ := readLines_pins o [] hts htokens n
  refine ⟨groups, k, hflat, ?_⟩
  rw [List.nil_append] at hlines
  rw [← hlines, continuations, readLines, if_neg (by simp [continuation, Line.isCode]),
    if_neg (by simp), content_continuation, ofHead, hform, hrest]

end Continuations

section Bare
variable {o : Options} {tails : List Text} {t : Text}

/-- Neither an assignment nor a slash nor a word that marks parameters. -/
def IsPlain (t : Text) : Prop := ∀ c ∈ t, c ≠ '=' ∧ c ≠ '/' ∧ c ≠ ':'

theorem equals_mem_of_equalsAhead {inName : Bool} (h : Param.equalsAhead inName t = true) :
    '=' ∈ t := by
  induction t generalizing inName with
  | nil => cases h
  | cons c r ih =>
      simp only [Param.equalsAhead] at h
      split at h
      · exact List.mem_cons_of_mem c (ih h)
      · split at h
        · exact List.mem_cons_of_mem c (ih h)
        · rw [Bool.and_eq_true, beq_iff_eq] at h
          exact List.mem_cons.mpr (.inl h.1.symm)

theorem cutFrom?_eq_none (h : '=' ∉ t) (fresh : Bool) : Param.cutFrom? fresh t = none := by
  induction t generalizing fresh with
  | nil => rfl
  | cons c r ih =>
      have hr : '=' ∉ r := fun hmem => h (List.mem_cons_of_mem c hmem)
      have hahead : Param.equalsAhead true r = false := by
        cases hr' : Param.equalsAhead true r with
        | false => rfl
        | true => exact absurd (equals_mem_of_equalsAhead hr') hr
      rw [Param.cutFrom?, hahead, Bool.and_false, if_neg (by simp), ih hr]
      rfl

theorem pin?_of_isPlain (h : IsPlain t) (hne : t ≠ []) : pin? t = some t := by
  obtain ⟨c, r, rfl⟩ := List.exists_cons_of_ne_nil hne
  have hslash : (c == '/') = false := beq_eq_false_iff_ne.mpr (h c List.mem_cons_self).2.1
  have hcolon : ∀ w : Text, ':' ∈ lower w → sameName (c :: r) w = false := by
    intro w hw
    rw [sameName, beq_eq_false_iff_ne]
    intro heq
    rw [← heq] at hw
    obtain ⟨d, hd, hlower⟩ := List.mem_map.mp hw
    apply (h d hd).2.2
    obtain hsame | ⟨hbounds, hnat⟩ := toLower_cases d
    · rw [← hsame, hlower]
    · have hcolon : d.toLower.toNat = 58 := by rw [hlower]; rfl
      omega
  have hdrop : (c :: r).dropWhile (· == '/') = c :: r := by simp [hslash]
  simp only [pin?, hdrop, hcolon "params:".toList (by decide), hcolon "param:".toList (by decide)]
  rfl

theorem readBare_plain (o : Options) {pins : List (List Text)} (hne : pins ≠ []) (h : IsPlain t) :
    ∃ groups : List (List Text), groups.flatten = words t ∧
      readBare o ⟨pins, []⟩ false t = (⟨pins ++ groups, []⟩, false) := by
  have hequals : '=' ∉ t := fun hmem => (h '=' hmem).1 rfl
  have hcut : (Param.cutAtAssignment? t).getD (t, []) = (t, []) := by
    rw [Param.cutAtAssignment?, cutFrom?_eq_none hequals]
    rfl
  have hpins : (words t).filterMap pin? = words t := by
    conv_rhs => rw [← List.filterMap_some (l := words t)]
    apply List.filterMap_congr
    intro w hw
    refine pin?_of_isPlain (fun c hc => h c ((infix_of_mem_runs hw).subset hc)) ?_
    simpa using (List.mem_filter.mp hw).2
  have hcarry : (Continuation.carried []).isOpen = false := rfl
  have hfull : pins.isEmpty = false := List.isEmpty_eq_false_iff.mpr hne
  have hblank : isBlank [] = true := rfl
  simp only [readBare, hcarry, Bool.or_false, Bool.false_eq_true, if_false, hcut, hpins, hfull,
    Bool.not_false, Bool.and_true, hblank, if_true]
  cases hwords : words t with
  | nil => exact ⟨[], rfl, by rw [List.append_nil]; rfl⟩
  | cons w ws => exact ⟨[w :: ws], List.flatten_singleton, rfl⟩

theorem readBareLines_plain (o : Options) {pins : List (List Text)} (hne : pins ≠ [])
    (h : ∀ t ∈ tails, IsPlain (trim t)) (n : Nat) :
    ∃ groups : List (List Text), groups.flatten = tails.flatMap words ∧
      readBareLines o ⟨pins, []⟩ false (continuations n tails) = ⟨pins ++ groups, []⟩ := by
  induction tails generalizing pins n with
  | nil => exact ⟨[], rfl, by rw [List.append_nil]; rfl⟩
  | cons t r ih =>
      obtain ⟨ht, hr⟩ := List.forall_mem_cons.mp h
      obtain ⟨first, hfirst, hread⟩ := readBare_plain o hne ht
      have hne' : pins ++ first ≠ [] := List.append_ne_nil_of_left_ne_nil hne first
      obtain ⟨groups, hflat, hlines⟩ := ih hne' hr (n + 1)
      refine ⟨first ++ groups, ?_, ?_⟩
      · rw [List.flatten_append, hfirst, hflat, words_trim, List.flatMap_cons]
      · rw [continuations, readBareLines, if_pos (by rfl), content_continuation, hread,
          ← List.append_assoc]
        exact hlines

/-- A header whose head line ends with its name. -/
theorem ofHead_bare (o : Options) {head : SubcircuitOpening} (hform : head.form = .bare)
    (hrest : head.rest = []) (h : ∀ t ∈ tails, IsPlain (trim t)) (n : Nat) :
    ∃ groups : List (List Text), groups.flatten = tails.flatMap words ∧
      ofHead o head (continuations n tails) = (⟨groups, []⟩, true) := by
  have hfirst : ([[]] : List (List Text)) ≠ [] := List.cons_ne_nil [] []
  obtain ⟨groups, hflat, hlines⟩ := readBareLines_plain o hfirst h n
  refine ⟨[[]] ++ groups, hflat, ?_⟩
  rw [← hlines, ofHead, hform, hrest]
  rfl

end Bare

end Header
end SpiceDeck
