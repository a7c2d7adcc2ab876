import SpiceDeck.Proofs.Param.Delimiting

/-!
What stands on a line behind a value that the line leaves open. A value in braces or
quotes that stays open has taken up the whole line. A bare expression may have
stopped before a `$` comment, before an assignment, or, inside parentheses, before a
token that no operator joins to it; then it stays open all the same, and nothing that
follows it on the line is read. Main statement: these are the only cases in which
text behind an open value is passed over.
-/

namespace SpiceDeck
namespace Param
open Text

/-- The reading of the value that an assignment list leaves open. -/
def openInList? (o : Options) (passing : Bool) (t : Text) : Option Reading :=
  match _h : trimStart t with
  | [] => none
  | c :: r =>
      match _ha : assignment? (c :: r) with
      | some (name, after) =>
          if startsWith after ['$'] || startsAssignment after then openInList? o false after
          else
            let read := readValue o name after
            if read.carry.isOpen then some read else openInList? o false read.rest
      | none =>
          if passing && isName (token (c :: r)) then openInList? o passing (afterToken (c :: r))
          else none
termination_by t.length
decreasing_by
  all_goals
    have h1 := length_trimStart_le t
    rw [_h] at h1
  · have := length_assignment?_lt _ha
    omega
  · have h2 := length_assignment?_lt _ha
    have h3 := length_readValue_le o name after
    omega
  · have := length_afterToken_lt _h
    omega

/-- The reading of the value that a line leaves open. -/
def openReading? (o : Options) (t : Text) (place : Placement) (carry : Carry) : Option Reading :=
  if carry.isOpen then
    let read := resumeValue carry (trim t)
    if read.carry.isOpen then some read
    else openInList? o (place = .subcircuitLocal) read.rest
  else openInList? o (place = .subcircuitLocal) (trim t)

/-- The text does not take up an open expression: a comment or an assignment never
does, and inside parentheses a token does only by an operator. -/
def StandsApart (depth : Nat) (next : Text) : Prop :=
  startsWith next ['$'] = true ∨ startsAssignment next = true ∨
    0 < depth ∧ next ≠ [] ∧ startsWithOperator next = false

theorem extendExpression_stops (text rest : Text) {c : Char} {r : Text}
    (h : trimStart (extendExpression text rest).2 = c :: r) :
    c = '$' ∨ startsAssignment (c :: r) = true ∨
      endsInOperator (extendExpression text rest).1 = false ∧ isLeadingOperator c = false := by
  fun_induction extendExpression text rest with
  | case1 text rest h0 =>
      rw [h0] at h
      cases h
  | case2 text rest a s h0 hstop =>
      rw [h0] at h
      cases h
      simp only [Bool.or_eq_true, decide_eq_true_eq] at hstop
      obtain hstop | hstop := hstop
      · exact .inl hstop
      · exact .inr (.inl hstop)
  | case3 text rest a s h0 _ _ ih => exact ih h
  | case4 text rest a s h0 _ hjoin =>
      rw [h0] at h
      cases h
      simp only [Bool.or_eq_true, not_or, Bool.not_eq_true] at hjoin
      exact .inr (.inr hjoin)

theorem extendExpression_ne_nil {text : Text} (rest : Text) (h : text ≠ []) :
    (extendExpression text rest).1 ≠ [] := by
  fun_induction extendExpression text rest with
  | case1 | case2 | case4 => exact h
  | case3 text rest a s h0 _ _ ih => exact ih (by simp [h])

theorem roundCall_nil {t new : Text} (h : roundCall t = some (new, [])) :
    t.getLast? = some '(' ∧ new.getLast? = some '+' := by
  simp only [roundCall] at h
  split at h
  · cases h
  · rename_i r hr
    split at h
    · rename_i s hs
      cases h
      have ht : r = r.takeWhile isSpace ++ ['('] := by
        rw [← hs]
        exact List.takeWhile_append_dropWhile.symm
      refine ⟨?_, rfl⟩
      rw [after?_append hr, ht, ← List.append_assoc, List.getLast?_concat]
    · cases h

theorem replaceFrom_of_length_le (site : Pattern) (inWord : Bool) {skip : Nat} {t : Text}
    (h : t.length ≤ skip) : replaceFrom site inWord skip t = [] := by
  induction t generalizing inWord skip with
  | nil => rfl
  | cons c r ih =>
      cases skip with
      | zero => cases h
      | succ k => exact ih (isWord c) (Nat.le_of_succ_le_succ h)

/-- Spelling `round` anew changes the last character only from one operator to
another. -/
theorem getLast?_replaceFrom (inWord : Bool) (skip : Nat) (t : Text) (h : skip < t.length) :
    ∃ c d, (replaceFrom roundCall inWord skip t).getLast? = some c ∧ t.getLast? = some d ∧
      isTrailingOperator c = isTrailingOperator d := by
  induction t generalizing inWord skip with
  | nil => cases h
  | cons a r ih =>
      have hcons : ∀ d, r.getLast? = some d → (a :: r).getLast? = some d := by
        intro d hd
        rw [List.getLast?_cons, hd]
        rfl
      cases skip with
      | succ k =>
          obtain ⟨c, d, hc, hd, heq⟩ := ih (isWord a) k (Nat.lt_of_succ_lt_succ h)
          exact ⟨c, d, hc, hcons d hd, heq⟩
      | zero =>
          simp only [replaceFrom]
          split
          · rename_i new rest hsite
            have hcall : roundCall (a :: r) = some (new, rest) := by
              cases inWord with
              | true => cases hsite
              | false => exact hsite
            cases rest with
            | nil =>
                obtain ⟨hlast, hnew⟩ := roundCall_nil hcall
                refine ⟨'+', '(', ?_, hlast, rfl⟩
                rw [replaceFrom_of_length_le _ _ (by simp), List.append_nil, hnew]
            | cons b rest =>
                obtain ⟨⟨call, hne, heq, -⟩, -⟩ := roundCall_some hcall
                have hlt : r.length - (b :: rest).length < r.length := by
                  have := congrArg List.length heq
                  have := List.length_pos_iff.mpr hne
                  simp only [List.length_append, List.length_cons] at *
                  omega
                obtain ⟨c, d, hc, hd, heq⟩ := ih (isWord a) _ hlt
                refine ⟨c, d, ?_, hcons d hd, heq⟩
                rw [List.getLast?_append, hc]
                rfl
          · cases r with
            | nil => exact ⟨a, a, rfl, rfl, rfl⟩
            | cons b r =>
                obtain ⟨c, d, hc, hd, heq⟩ := ih (isWord a) 0 (by simp)
                refine ⟨c, d, ?_, hcons d hd, heq⟩
                rw [List.getLast?_cons, hc]
                rfl

theorem spellRound_waits {t : Text} (h : t ≠ []) :
    spellRound t ≠ [] ∧ endsInOperator (spellRound t) = endsInOperator t := by
  obtain ⟨c, d, hc, hd, heq⟩ :=
    getLast?_replaceFrom false 0 t (List.length_pos_iff.mpr h)
  constructor
  · intro hnil
    rw [show replaceFrom roundCall false 0 t = [] from hnil] at hc
    cases hc
  · rw [endsInOperator, endsInOperator, spellRound, replaceAll, hc, hd]
    exact heq

theorem isBlank_eq_false_iff {t : Text} : isBlank t = false ↔ trimStart t ≠ [] := by
  rw [isBlank, trimStart, ne_eq, List.dropWhile_eq_nil_iff, ← List.all_eq_true,
    Bool.not_eq_true]

theorem not_isBlank_of_standsApart {depth : Nat} {t : Text}
    (h : StandsApart depth (trimStart t)) : isBlank t = false := by
  rw [isBlank_eq_false_iff]
  intro hnil
  rw [hnil] at h
  obtain h | h | ⟨-, h, -⟩ := h
  · cases h
  · cases h
  · exact h rfl

/-- Where an expression stops that stays open. -/
theorem standsApart_readExpression {text t : Text} {depth : Nat} (fromPrevious : Bool)
    (hne : text ++ token t ≠ [])
    (hopen : (bareValue fromPrevious (spellRound (readExpression text depth t).text)
      (readExpression text depth t).depth).2.isOpen = true)
    (hrest : isBlank (readExpression text depth t).rest = false) :
    StandsApart (readExpression text depth t).depth
      (trimStart (readExpression text depth t).rest) := by
  obtain ⟨c, r, hcr⟩ := List.exists_cons_of_ne_nil (isBlank_eq_false_iff.mp hrest)
  rw [hcr]
  obtain rfl | h | ⟨hend, hlead⟩ := extendExpression_stops _ _ hcr
  · exact .inl rfl
  · exact .inr (.inl h)
  · refine .inr (.inr ⟨?_, by simp, hlead⟩)
    -- the text is there and ends in no operator, so that a parenthesis must be open
    have hread : (readExpression text depth t).text ≠ [] := extendExpression_ne_nil _ hne
    obtain ⟨hsp, hop⟩ := spellRound_waits hread
    have hend' : endsInOperator (spellRound (readExpression text depth t).text) = false := by
      rw [hop]
      exact hend
    simp only [bareValue, List.isEmpty_eq_false_iff.mpr hsp, hend', Bool.false_or,
      Bool.or_false] at hopen
    split at hopen
    · rename_i hd
      simpa using hd
    · cases hopen

theorem bareValue_carry (fromPrevious : Bool) {text : Text} {depth : Nat}
    (h : (bareValue fromPrevious text depth).2.isOpen = true) :
    (bareValue fromPrevious text depth).2 = .bare depth := by
  simp only [bareValue] at h ⊢
  split at h
  · rename_i hc
    simp only [hc, if_true]
  · cases h

/-- A value that starts here and stays open is a bare expression. -/
theorem freshValue_open (o : Options) (name text : Text) (depth : Nat) :
    (freshValue o name text depth).2.isOpen = true →
      (freshValue o name text depth).2 = (bareValue false (spellRound text) depth).2 := by
  simp only [freshValue]
  split
  · intro h; cases h
  · split
    · intro h; cases h
    · split
      · intro h; cases h
      · intro _; rfl

/-- What follows the value, if it stays open, stands apart from it. -/
def RestApart (read : Reading) : Prop :=
  read.carry.isOpen = true → isBlank read.rest = false →
    ∃ depth, read.carry = .bare depth ∧ StandsApart depth (trimStart read.rest)

theorem restApart_of_rest_nil {read : Reading} (h : read.rest = []) : RestApart read := by
  intro _ hrest
  rw [h] at hrest
  cases hrest

theorem restApart_readFresh (o : Options) (name : Text) {text t : Text} (depth : Nat)
    (hne : text ++ token t ≠ []) : RestApart (readFresh o name text depth t) := by
  intro hopen hrest
  have hbare : (readFresh o name text depth t).carry =
      (bareValue false (spellRound (readExpression text depth t).text)
        (readExpression text depth t).depth).2 := freshValue_open o name _ _ hopen
  rw [hbare] at hopen ⊢
  exact ⟨_, bareValue_carry false hopen, standsApart_readExpression false hne hopen hrest⟩

theorem token_ne_nil {c : Char} {r : Text} (h : isSpace c = false) : token (c :: r) ≠ [] := by
  simp [token, h]

theorem restApart_readValue (o : Options) (name : Text) {t : Text}
    (hstart : ∀ c ∈ t.head?, isSpace c = false) : RestApart (readValue o name t) := by
  cases t with
  | nil => exact restApart_of_rest_nil rfl
  | cons c r =>
      simp only [readValue]
      split
      · split
        · split
          · exact restApart_readFresh o name _ (by simp)
          · intro hopen; cases hopen
        · exact restApart_of_rest_nil rfl
      · split
        · simp only [readQuoted]
          split
          · intro hopen; cases hopen
          · exact restApart_of_rest_nil rfl
        · exact restApart_readFresh o name _ (by simpa using token_ne_nil (hstart c rfl))

theorem restApart_resumeValue (c : Carry) {t : Text} (hstart : ∀ a ∈ t.head?, isSpace a = false) :
    RestApart (resumeValue c t) := by
  cases c with
  | closed => intro hopen; cases hopen
  | brace d | quote q =>
      simp only [resumeValue]
      split
      · intro hopen; cases hopen
      · exact restApart_of_rest_nil rfl
  | bare d =>
      simp only [resumeValue]
      split
      · intro hopen; cases hopen
      · rename_i hstop
        cases t with
        | nil => simp at hstop
        | cons a r =>
            intro hopen hrest
            have hne : [] ++ token (a :: r) ≠ [] := by simpa using token_ne_nil (hstart a rfl)
            exact ⟨_, bareValue_carry true hopen, standsApart_readExpression true hne hopen hrest⟩

theorem head?_trimStart {t : Text} : ∀ c ∈ (trimStart t).head?, isSpace c = false := by
  intro c hc
  cases ht : trimStart t with
  | nil => rw [ht] at hc; cases hc
  | cons a r =>
      rw [ht] at hc
      cases hc
      exact not_of_dropWhile_eq_cons ht

theorem head?_trim {t : Text} : ∀ c ∈ (trim t).head?, isSpace c = false := by
  intro c hc
  have hpre : trim t <+: trimStart t := by
    have h := List.dropWhile_suffix isSpace (l := (trimStart t).reverse)
    simpa [trim, trimEnd] using List.reverse_prefix.mpr h
  obtain ⟨s, hs⟩ := hpre
  refine head?_trimStart (t := t) c ?_
  rw [← hs]
  cases ht : trim t with
  | nil => rw [ht] at hc; cases hc
  | cons a r => rw [ht] at hc; exact hc

theorem head?_assignment? {t name after : Text} (h : assignment? t = some (name, after)) :
    ∀ c ∈ after.head?, isSpace c = false := by
  cases t with
  | nil => cases h
  | cons a r =>
      simp only [assignment?] at h
      split at h
      · split at h
        · split at h
          · cases h
          · cases h
            exact head?_trimStart
        · cases h
      · cases h

section ReadList
variable (o : Options) (passing : Bool) {t name after r : Text} {c : Char}

theorem readList_nil (h : trimStart t = []) : readList o passing t = {} := by
  rw [readList]
  split
  · rfl
  · simp_all

theorem readList_assignment (h : trimStart t = c :: r)
    (ha : assignment? (c :: r) = some (name, after)) :
    readList o passing t =
      if startsWith after ['$'] || startsAssignment after then
        (readList o false after).withEmpty name
      else if (readValue o name after).carry.isOpen then
        { pieces := [.assign name (readValue o name after).value]
          carry := (readValue o name after).carry }
      else
        (readList o false (readValue o name after).rest).cons
          (.assign name (readValue o name after).value) := by
  rw [readList]
  split
  · simp_all
  · rename_i h'
    cases h.symm.trans h'
    split
    · rename_i ha'
      cases ha.symm.trans ha'
      rfl
    · simp_all

theorem readList_word (h : trimStart t = c :: r) (ha : assignment? (c :: r) = none) :
    readList o passing t =
      if passing && isName (token (c :: r)) then
        (readList o passing (afterToken (c :: r))).cons
          (.assign (token (c :: r)) (.numeric ['1']))
      else { pieces := [.comment (leftover (c :: r))] } := by
  rw [readList]
  split
  · simp_all
  · rename_i h'
    cases h.symm.trans h'
    split
    · simp_all
    · rfl

end ReadList

/-- The reading is that of the value which the list leaves open. -/
def IsOpenReading (pieces : List Piece) (carry : Carry) (read : Reading) : Prop :=
  carry = read.carry ∧ pieces.getLast?.bind value? = some read.value ∧ RestApart read

theorem IsOpenReading.cons {pieces : List Piece} {carry : Carry} {read : Reading}
    (h : IsOpenReading pieces carry read) (p : Piece) : IsOpenReading (p :: pieces) carry read := by
  refine ⟨h.1, ?_, h.2.2⟩
  cases pieces with
  | nil => cases h.2.1
  | cons q r =>
      rw [List.getLast?_cons_cons]
      exact h.2.1

theorem openInList?_spec (o : Options) (passing : Bool) (t : Text) :
    (readList o passing t).carry.isOpen = (openInList? o passing t).isSome ∧
    ∀ read ∈ openInList? o passing t,
      IsOpenReading (readList o passing t).pieces (readList o passing t).carry read := by
  fun_induction openInList? o passing t with
  | case1 passing t h =>
      rw [readList_nil o passing h]
      exact ⟨rfl, by intro read hread; cases hread⟩
  | case2 passing t c r h name after ha hempty ih =>
      rw [readList_assignment o passing h ha, if_pos hempty]
      exact ih
  | case3 passing t c r h name after ha hempty read hopen =>
      rw [readList_assignment o passing h ha, if_neg hempty, if_pos hopen]
      refine ⟨hopen, ?_⟩
      intro read' hread
      cases hread
      exact ⟨rfl, rfl, restApart_readValue o name (head?_assignment? ha)⟩
  | case4 passing t c r h name after ha hempty read hopen ih =>
      rw [readList_assignment o passing h ha, if_neg hempty, if_neg hopen]
      exact ⟨ih.1, fun read' hread => (ih.2 read' hread).cons _⟩
  | case5 passing t c r h ha hname ih =>
      rw [readList_word o passing h ha, if_pos hname]
      exact ⟨ih.1, fun read' hread => (ih.2 read' hread).cons _⟩
  | case6 passing t c r h ha hname =>
      rw [readList_word o passing h ha, if_neg hname]
      exact ⟨rfl, by intro read hread; cases hread⟩

/-- Names without a value add no piece behind an open one. -/
theorem isOpenReading_allPieces {l : Listing} {q : Option Reading}
    (h : l.carry.isOpen = q.isSome ∧ ∀ read ∈ q, IsOpenReading l.pieces l.carry read) :
    l.carry.isOpen = q.isSome ∧ ∀ read ∈ q, IsOpenReading l.allPieces l.carry read := by
  refine ⟨h.1, ?_⟩
  intro read hread
  have hopen : l.carry.isOpen = true := by
    rw [h.1, Option.mem_def.mp hread]
    rfl
  have heq : l.allPieces = l.pieces := by simp [Listing.allPieces, hopen]
  rw [heq]
  exact h.2 read hread

theorem openReading?_spec (o : Options) (t : Text) (place : Placement) (carry : Carry) :
    (readAssignments o t place carry).carry.isOpen = (openReading? o t place carry).isSome ∧
    ∀ read ∈ openReading? o t place carry,
      IsOpenReading (readAssignments o t place carry).pieces
        (readAssignments o t place carry).carry read := by
  simp only [readAssignments, openReading?]
  split
  · split
    · rename_i hopen
      refine ⟨hopen, ?_⟩
      intro read hread
      cases hread
      exact ⟨rfl, rfl, restApart_resumeValue carry head?_trim⟩
    · obtain ⟨hsome, hread⟩ := openInList?_spec o (place = .subcircuitLocal)
        (resumeValue carry (trim t)).rest
      exact isOpenReading_allPieces (l := Listing.cons _ _)
        ⟨hsome, fun read h => (hread read h).cons _⟩
  · exact isOpenReading_allPieces (openInList?_spec o (place = .subcircuitLocal) (trim t))

/-- A line leaves a value open exactly when one of its readings stays open; that value
is the line's last piece. What the reading leaves of the line is passed over. It is
blank, unless the value is a bare expression and the text behind it stands apart. -/
theorem open_line_rest_iff (o : Options) (t : Text) (place : Placement) (carry : Carry) :
    (readAssignments o t place carry).isOpen = (openReading? o t place carry).isSome ∧
    ∀ read ∈ openReading? o t place carry,
      (readAssignments o t place carry).carry = read.carry ∧
      (readAssignments o t place carry).pieces.getLast?.bind value? = some read.value ∧
      (isBlank read.rest = false ↔
        ∃ depth, read.carry = .bare depth ∧ StandsApart depth (trimStart read.rest)) := by
  obtain ⟨hsome, hspec⟩ := openReading?_spec o t place carry
  refine ⟨hsome, ?_⟩
  intro read hread
  obtain ⟨hcarry, hlast, hrest⟩ := hspec read hread
  refine ⟨hcarry, hlast, ?_, ?_⟩
  · apply hrest
    rw [← hcarry, hsome, Option.mem_def.mp hread]
    rfl
  · rintro ⟨depth, -, h⟩
    exact not_isBlank_of_standsApart h

/-- The assignment behind an open parenthesis is passed over. -/
theorem open_line_rest_assignment :
    (readAssignments {} "a=(1 b=2".toList .topLevel .closed).pieces =
      [.assign ['a'] { text := "(1".toList, form := .bare, onNext := true }] ∧
    ∃ read ∈ openReading? {} "a=(1 b=2".toList .topLevel .closed,
      read.rest = " b=2".toList ∧ read.carry = .bare 1 ∧
      (isBlank read.rest = false ↔
        ∃ depth, read.carry = .bare depth ∧ StandsApart depth (trimStart read.rest)) := by
  refine ⟨by decide +kernel, ?_⟩
  have hopen : (openReading? {} "a=(1 b=2".toList .topLevel .closed).isSome = true := by
    decide +kernel
  obtain ⟨read, hread⟩ := Option.isSome_iff_exists.mp hopen
  have hrest : (openReading? {} "a=(1 b=2".toList .topLevel .closed).map (·.rest) =
      some " b=2".toList := by decide +kernel
  have hcarry : (openReading? {} "a=(1 b=2".toList .topLevel .closed).map (·.carry) =
      some (.bare 1) := by decide +kernel
  rw [hread] at hrest hcarry
  refine ⟨read, hread, Option.some.inj hrest, Option.some.inj hcarry, ?_⟩
  exact ((open_line_rest_iff {} _ .topLevel .closed).2 read hread).2.2

end Param
end SpiceDeck
