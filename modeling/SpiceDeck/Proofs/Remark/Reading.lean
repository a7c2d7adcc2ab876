import SpiceDeck.Proofs.Remark.Values

/-!
Parameter lines with a remark. A line with a remark gives the values of the line without
it and leaves the same value open. This fails for a value that is open in braces or
quotes, and for an assignment without value, which waits for the next line only where no
remark follows.
-/

namespace SpiceDeck
open Text

namespace Piece

def isComment : Piece → Bool
  | .comment _ => true
  | .assign _ _ | .fragment _ => false

def isRemark : Piece → Bool
  | .comment text => startsWith text ['$']
  | .assign _ _ | .fragment _ => false

/-- An assignment to which no value has been given. -/
def isVoid : Piece → Bool
  | .assign _ value => value.isVoid
  | .fragment _ | .comment _ => false

/-- The same values, with remarks behind them. -/
def Alongside (ps qs : List Piece) : Prop :=
  ∃ vs cs ds, ps = vs ++ cs ∧ qs = vs ++ ds ∧ (∀ p ∈ vs, p.isComment = false) ∧
    (∀ p ∈ cs, p.isRemark = true) ∧ ∀ p ∈ ds, p.isRemark = true

namespace Alongside
variable {ps qs cs ds : List Piece}

theorem ofRemarks (hc : ∀ p ∈ cs, p.isRemark = true) (hd : ∀ p ∈ ds, p.isRemark = true) :
    Alongside cs ds :=
  ⟨[], cs, ds, rfl, rfl, nofun, hc, hd⟩

theorem nil : Alongside [] [] := ofRemarks (List.forall_mem_nil _) (List.forall_mem_nil _)

theorem cons {p : Piece} (hp : p.isComment = false) (h : Alongside ps qs) :
    Alongside (p :: ps) (p :: qs) := by
  obtain ⟨vs, cs, ds, rfl, rfl, hv, hc, hd⟩ := h
  exact ⟨p :: vs, cs, ds, rfl, rfl, List.forall_mem_cons.mpr ⟨hp, hv⟩, hc, hd⟩

theorem append (h : Alongside ps qs) (hc : ∀ p ∈ cs, p.isRemark = true) :
    Alongside (ps ++ cs) (qs ++ cs) := by
  obtain ⟨vs, cs', ds', rfl, rfl, hv, hc', hd'⟩ := h
  refine ⟨vs, cs' ++ cs, ds' ++ cs, by simp, by simp, hv, ?_, ?_⟩
  · exact List.forall_mem_append.mpr ⟨hc', hc⟩
  · exact List.forall_mem_append.mpr ⟨hd', hc⟩

end Alongside

end Piece

namespace Param

/-- Whether a remark can stand behind pieces that leave the given value open. -/
def takesRemark (carry : Carry) (pieces : List Piece) : Bool :=
  !carry.isGreedy && !(carry.isOpen && pieces.getLast?.any Piece.isVoid)

theorem isGreedy_of_takesRemark {carry : Carry} {pieces : List Piece}
    (h : takesRemark carry pieces = true) : carry.isGreedy = false := by
  simp only [takesRemark, Bool.and_eq_true, Bool.not_eq_true'] at h
  exact h.1

theorem takesRemark_of_cons {carry : Carry} {p : Piece} {pieces : List Piece}
    (h : takesRemark carry (p :: pieces) = true) : takesRemark carry pieces = true := by
  cases pieces with
  | nil =>
      have hg := isGreedy_of_takesRemark h
      simp [takesRemark, hg]
  | cons q r => rwa [takesRemark, List.getLast?_cons_cons] at h

structure Listing.Alongside (a b : Listing) : Prop where
  pieces : Piece.Alongside a.pieces b.pieces
  empties : a.empties = b.empties
  carry : a.carry = b.carry

namespace Listing.Alongside
variable {a b : Listing}

theorem cons (h : Alongside a b) {p : Piece} (hp : p.isComment = false) :
    Alongside (a.cons p) (b.cons p) :=
  ⟨h.pieces.cons hp, h.empties, h.carry⟩

theorem withEmpty (h : Alongside a b) (name : Text) :
    Alongside (a.withEmpty name) (b.withEmpty name) :=
  ⟨h.pieces, congrArg (name :: ·) h.empties, h.carry⟩

theorem allPieces (h : Alongside a b) : Piece.Alongside a.allPieces b.allPieces := by
  simp only [Listing.allPieces, h.empties, h.carry]
  split
  · exact h.pieces
  · exact h.pieces.append (List.forall_mem_singleton.mpr rfl)

end Listing.Alongside

theorem startsWith_leftover (t : Text) : startsWith (leftover t) ['$'] = true := by
  simp only [leftover]
  split
  · assumption
  · rfl

theorem alongside_leftover (t u : Text) :
    Listing.Alongside { pieces := [.comment (leftover t)] } { pieces := [.comment (leftover u)] } :=
  ⟨.ofRemarks (List.forall_mem_singleton.mpr (startsWith_leftover t))
    (List.forall_mem_singleton.mpr (startsWith_leftover u)), rfl, rfl⟩

theorem readValue_nil (o : Options) (name : Text) :
    (readValue o name []).carry = .bare 0 ∧ (readValue o name []).value.isVoid = true := by
  have hswitch : switchNumber? o name [] = none := by
    simp only [switchNumber?]
    split
    · rfl
    · rfl
  have hspell : spellRound [] = [] := rfl
  simp only [readValue, freshValue, hspell, hswitch]
  exact ⟨rfl, rfl⟩

theorem readList_refl (o : Options) (passing : Bool) (t : Text) :
    (readList o passing t).Alongside (readList o passing t) := by
  fun_induction readList o passing t with
  | case1 => exact ⟨.nil, rfl, rfl⟩
  | case2 passing t c r h name after ha hempty ih => exact ih.withEmpty name
  | case3 => exact ⟨.cons rfl .nil, rfl, rfl⟩
  | case4 passing t c r h name after ha hempty read hopen ih => exact ih.cons rfl
  | case5 passing t c r h ha word hname ih => exact ih.cons rfl
  | case6 passing t c r h ha word hname => exact alongside_leftover _ _

theorem trimStart_append_remark_of_head {t : Text} (ht : t ≠ [])
    (hhead : ∀ c ∈ t.head?, isSpace c = false) (x : Text) :
    trimStart (t ++ remark x) = t ++ remark x := by
  cases t with
  | nil => exact absurd rfl ht
  | cons c r => simp [trimStart, hhead c rfl]

theorem readList_assignment_append_remark (o : Options) (passing : Bool) {t r name after : Text}
    {c : Char} (ht : trimStart t = c :: r) (ha : assignment? (c :: r) = some (name, after))
    (hafter : after ≠ []) (x : Text) :
    readList o passing (t ++ remark x) =
      if startsWith after ['$'] || startsAssignment after then
        (readList o false (after ++ remark x)).withEmpty name
      else if (readValue o name (after ++ remark x)).carry.isOpen then
        { pieces := [.assign name (readValue o name (after ++ remark x)).value]
          carry := (readValue o name (after ++ remark x)).carry }
      else
        (readList o false (readValue o name (after ++ remark x)).rest).cons
          (.assign name (readValue o name (after ++ remark x)).value) := by
  have ha' : assignment? (c :: (r ++ remark x)) = some (name, after ++ remark x) := by
    rw [← List.cons_append, assignment?_append_remark, ha]
    exact congrArg (fun y => some (name, y))
      (trimStart_append_remark_of_head hafter (head?_assignment? ha) x)
  rw [readList_assignment o passing (trimStart_append_remark_cons ht x) ha',
    startsWith_append_remark hafter, startsAssignment_append_remark]

theorem readList_append_remark (o : Options) (passing : Bool) (t x : Text)
    (h : takesRemark (readList o passing t).carry (readList o passing t).pieces = true) :
    (readList o passing (t ++ remark x)).Alongside (readList o passing t) := by
  fun_induction readList o passing t with
  | case1 passing t ht =>
      -- nothing but the remark is left, and it is no name that could be passed
      have hname : isName (token ('$' :: x)) = false := by
        have htoken : token ('$' :: x) = '$' :: token x := rfl
        rw [htoken]
        rfl
      rw [readList_word o passing (trimStart_append_remark_nil ht x) rfl, hname, Bool.and_false]
      refine ⟨.ofRemarks ?_ (List.forall_mem_nil _), rfl, rfl⟩
      exact List.forall_mem_singleton.mpr (startsWith_leftover _)
  | case2 passing t c r ht name after ha hempty ih =>
      have hafter : after ≠ [] := by
        rintro rfl
        cases hempty
      rw [readList_assignment_append_remark o passing ht ha hafter, if_pos hempty]
      exact (ih h).withEmpty name
  | case3 passing t c r ht name after ha hempty read hopen =>
      -- a name at the very end would wait for its value, and the remark would be that
      have hafter : after ≠ [] := by
        rintro rfl
        have hvoid := readValue_nil o name
        simp [takesRemark, Piece.isVoid, read, hvoid, Carry.isOpen] at h
      rw [readList_assignment_append_remark o passing ht ha hafter, if_neg hempty,
        readValue_append_remark o name hafter x (isGreedy_of_takesRemark h)]
      have hopen' : ((readValue o name after).before (remark x)).carry.isOpen = true := hopen
      rw [if_pos hopen']
      exact ⟨.cons rfl .nil, rfl, rfl⟩
  | case4 passing t c r ht name after ha hempty read hopen ih =>
      have hafter : after ≠ [] := by
        rintro rfl
        simp [read, (readValue_nil o name).1, Carry.isOpen] at hopen
      -- the value is complete before the remark, which goes to the rest of the list
      have hclosed : read.carry = .closed := eq_closed_of_not_isOpen hopen
      have hgreedy : (readValue o name after).carry.isGreedy = false := by
        rw [show (readValue o name after).carry = .closed from hclosed]
        rfl
      rw [readList_assignment_append_remark o passing ht ha hafter, if_neg hempty,
        readValue_append_remark o name hafter x hgreedy]
      have hopen' : ¬((readValue o name after).before (remark x)).carry.isOpen = true := hopen
      rw [if_neg hopen']
      exact (ih (takesRemark_of_cons h)).cons rfl
  | case5 passing t c r ht ha word hname ih =>
      have ha' : assignment? (c :: (r ++ remark x)) = none := by
        rw [← List.cons_append, assignment?_append_remark, ha]
        rfl
      rw [readList_word o passing (trimStart_append_remark_cons ht x) ha', ← List.cons_append,
        token_append_remark, if_pos hname, afterToken_append_remark]
      exact (ih (takesRemark_of_cons h)).cons rfl
  | case6 passing t c r ht ha word hname =>
      have ha' : assignment? (c :: (r ++ remark x)) = none := by
        rw [← List.cons_append, assignment?_append_remark, ha]
        rfl
      rw [readList_word o passing (trimStart_append_remark_cons ht x) ha', ← List.cons_append,
        token_append_remark, if_neg hname]
      exact alongside_leftover _ _

theorem readList_trimStart (o : Options) (passing : Bool) (t : Text) :
    readList o passing (trimStart t) = readList o passing t := by
  cases h : trimStart t with
  | nil => rw [readList_nil o passing h, readList_nil o passing rfl]
  | cons c r =>
      have h' : trimStart (c :: r) = c :: r := by rw [← h, trimStart_trimStart]
      cases ha : assignment? (c :: r) with
      | none => rw [readList_word o passing h ha, readList_word o passing h' ha]
      | some p => rw [readList_assignment o passing h ha, readList_assignment o passing h' ha]

end Param

namespace Text

/-- The text does not end in a blank. -/
def EndsInInk (t : Text) : Prop := ∀ c ∈ t.getLast?, isSpace c = false

variable {t u x : Text}

theorem EndsInInk.suffix (h : EndsInInk t) (hu : u <:+ t) : EndsInInk u := by
  obtain ⟨v, rfl⟩ := hu
  intro c hc
  apply h
  rw [List.getLast?_append, Option.mem_def.mp hc]
  rfl

theorem endsInInk_trimStart (h : EndsInInk t) : EndsInInk (trimStart t) :=
  h.suffix (List.dropWhile_suffix isSpace)

theorem EndsInInk.trimEnd (h : EndsInInk t) : trimEnd t = t := by
  obtain rfl | ⟨u, c, rfl⟩ := List.eq_nil_or_concat' t
  · rfl
  · have hc : isSpace c = false := h c (by simp)
    rw [trimEnd_append_cons hc]
    rfl

theorem EndsInInk.remark (h : EndsInInk x) (t : Text) : EndsInInk (t ++ remark x) := by
  intro c hc
  obtain rfl | ⟨u, d, rfl⟩ := List.eq_nil_or_concat' x
  · have hlast : (t ++ Text.remark []).getLast? = some '$' := by
      rw [Text.remark, List.getLast?_append]
      rfl
    cases hlast.symm.trans hc
    rfl
  · have hlast : (t ++ Text.remark (u ++ [d])).getLast? = some d := by
      rw [Text.remark, ← List.cons_append, ← List.cons_append, ← List.append_assoc,
        List.getLast?_concat]
    cases hlast.symm.trans hc
    exact h c (by simp)

theorem EndsInInk.trim (h : EndsInInk t) : trim t = trimStart t :=
  (endsInInk_trimStart h).trimEnd

/-- Up to blanks in front, the second text with a remark behind it. -/
def Behind (x a t : Text) : Prop := trimStart a = trimStart (t ++ remark x)

theorem Behind.trim {a : Text} (h : Behind x a t) (hx : EndsInInk x) :
    trim a = trimStart (t ++ Text.remark x) := by
  rw [Text.trim, h]
  exact (hx.remark t).trim

theorem Behind.refl (x t : Text) : Behind x (t ++ remark x) t := rfl

theorem Behind.trimStart (x t : Text) : Behind x (trimStart (t ++ remark x)) t :=
  trimStart_trimStart _

end Text

/-- Lines with the same values, with remarks behind them. -/
structure ParamLine.Alongside (l m : ParamLine) : Prop where
  marker : l.marker = m.marker
  pieces : Piece.Alongside l.pieces m.pieces
  carry : l.carry = m.carry

def ParamLine.takesRemark (l : ParamLine) : Bool := Param.takesRemark l.carry l.pieces

theorem ParamLine.Alongside.withMarker {l m : ParamLine} (h : l.Alongside m) (marker : Marker) :
    (l.withMarker marker).Alongside (m.withMarker marker) :=
  ⟨rfl, h.pieces, h.carry⟩

namespace Param
variable {t x a : Text}

theorem readAssignments_refl (o : Options) (t : Text) (place : Placement) (carry : Carry) :
    (readAssignments o t place carry).Alongside (readAssignments o t place carry) := by
  refine ⟨rfl, ?_, rfl⟩
  simp only [readAssignments]
  split
  · split
    · exact .cons rfl .nil
    · exact ((readList_refl o _ _).cons rfl).allPieces
  · exact (readList_refl o _ _).allPieces

theorem takesRemark_pieces {l : Listing} (h : takesRemark l.carry l.allPieces = true) :
    takesRemark l.carry l.pieces = true := by
  cases hc : l.carry with
  | closed => rfl
  | bare _ | brace _ | quote _ =>
      have hopen : l.carry.isOpen = true := by rw [hc]; rfl
      rwa [Listing.allPieces, hopen, Bool.or_true, if_pos rfl, hc] at h

theorem readList_behind (o : Options) (passing : Bool) (h : Behind x a t)
    (hl : takesRemark (readList o passing t).carry (readList o passing t).pieces = true) :
    (readList o passing a).Alongside (readList o passing t) := by
  rw [← readList_trimStart o passing a, h, readList_trimStart]
  exact readList_append_remark o passing t x hl

theorem resumeValue_behind (carry : Carry) (hopen : carry.isOpen = true)
    (h : (resumeValue carry (trimStart t)).carry.isGreedy = false) (x : Text) :
    ∃ rest, resumeValue carry (trimStart (t ++ remark x)) =
        { resumeValue carry (trimStart t) with rest } ∧
      Behind x rest (resumeValue carry (trimStart t)).rest := by
  cases ht : trimStart t with
  | nil =>
      rw [trimStart_append_remark_nil ht]
      rw [ht] at h
      cases carry with
      | closed => cases hopen
      | brace _ | quote _ => cases h
      | bare depth => exact ⟨_, rfl, rfl⟩
  | cons c r =>
      rw [trimStart_append_remark_cons ht, ← List.cons_append]
      rw [ht] at h
      rw [resumeValue_append_remark carry (List.cons_ne_nil c r) x h]
      exact ⟨_, rfl, rfl⟩

theorem readAssignments_behind (o : Options) (place : Placement) (carry : Carry)
    (ht : EndsInInk t) (hx : EndsInInk x) (h : Behind x a t)
    (hl : (readAssignments o t place carry).takesRemark = true) :
    (readAssignments o a place carry).Alongside (readAssignments o t place carry) := by
  simp only [ParamLine.takesRemark, readAssignments, ht.trim] at hl
  simp only [readAssignments, h.trim hx, ht.trim]
  split at hl
  · next hopen =>
      rw [if_pos hopen, if_pos hopen]
      split at hl
      · next hread =>
          obtain ⟨rest, hresume, -⟩ :=
            resumeValue_behind carry hopen (isGreedy_of_takesRemark hl) x
          simp only [hresume, hread, if_true]
          exact ⟨rfl, .cons rfl .nil, rfl⟩
      · next hread =>
          have hclosed := eq_closed_of_not_isOpen hread
          have hgreedy : (resumeValue carry (trimStart t)).carry.isGreedy = false := by
            rw [hclosed]
            rfl
          obtain ⟨rest, hresume, hrest⟩ := resumeValue_behind carry hopen hgreedy x
          have hlist := readList_behind o (place = .subcircuitLocal) hrest
            (takesRemark_of_cons (takesRemark_pieces hl))
          simp only [hresume, hread]
          exact ⟨rfl, (hlist.cons rfl).allPieces, hlist.carry⟩
  · next hopen =>
      rw [if_neg hopen, if_neg hopen]
      rw [readList_trimStart] at hl ⊢
      rw [readList_trimStart]
      have hlist := readList_append_remark o (place = .subcircuitLocal) t x (takesRemark_pieces hl)
      exact ⟨rfl, hlist.allPieces, hlist.carry⟩

theorem readContinuation_refl (o : Options) (t : Text) (place : Placement) (carry : Carry) :
    (readContinuation o t place carry).Alongside (readContinuation o t place carry) :=
  (readAssignments_refl o _ place carry).withMarker .plus

theorem readContinuation_plus (o : Options) (place : Placement) (carry : Carry) {r : Text}
    (h : trim t = '+' :: r) :
    readContinuation o t place carry = (readAssignments o r place carry).withMarker .plus := by
  simp only [readContinuation, h]

theorem readContinuation_other (o : Options) (place : Placement) (carry : Carry)
    (h : ∀ r, trim t ≠ '+' :: r) :
    readContinuation o t place carry =
      (readAssignments o (trim t) place carry).withMarker .plus := by
  simp only [readContinuation]

theorem readContinuation_behind (o : Options) (place : Placement) (carry : Carry)
    (ht : EndsInInk t) (hx : EndsInInk x) (h : Behind x a t)
    (hl : (readContinuation o t place carry).takesRemark = true) :
    (readContinuation o a place carry).Alongside (readContinuation o t place carry) := by
  have hink := endsInInk_trimStart ht
  have ha := h.trim hx
  by_cases hplus : ∃ r, trimStart t = '+' :: r
  · obtain ⟨r, hr⟩ := hplus
    rw [trimStart_append_remark_cons hr] at ha
    rw [hr] at hink
    have hm := readContinuation_plus o place carry (ht.trim.trans hr)
    rw [hm] at hl ⊢
    rw [readContinuation_plus o place carry ha]
    refine ParamLine.Alongside.withMarker ?_ .plus
    exact readAssignments_behind o place carry (hink.suffix (List.suffix_cons _ _)) hx rfl hl
  · have hnone : ∀ r, trimStart t ≠ '+' :: r := fun r hr => hplus ⟨r, hr⟩
    have hm := readContinuation_other o place carry (t := t) (by rwa [ht.trim])
    have hnone' : ∀ r, trim a ≠ '+' :: r := by
      intro r hr
      rw [ha] at hr
      cases htrim : trimStart t with
      | nil =>
          rw [trimStart_append_remark_nil htrim] at hr
          cases hr
      | cons c s =>
          rw [trimStart_append_remark_cons htrim] at hr
          cases hr
          exact hnone s htrim
    rw [ht.trim] at hm
    rw [hm] at hl ⊢
    rw [readContinuation_other o place carry hnone', ha]
    refine ParamLine.Alongside.withMarker ?_ .plus
    refine readAssignments_behind o place carry hink hx ?_ hl
    rw [Behind, trimStart_trimStart, trimStart_trimStart_append_remark]

theorem after?_append_remark (lit : Text) (hl : ' ' ∉ lit) (t x : Text) :
    after? lit (t ++ remark x) = (after? lit t).map (· ++ remark x) := by
  induction lit generalizing t with
  | nil => rfl
  | cons l ls ih =>
      have hne : l ≠ ' ' := fun h => hl (h ▸ List.mem_cons_self)
      cases t with
      | nil => simp [remark, after?, hne]
      | cons c r =>
          simp only [List.cons_append, after?, ih fun h => hl (List.mem_cons_of_mem l h)]
          split <;> rfl

theorem afterFolded?_append_remark (lit : Text) (hl : ' ' ∉ lit) (t x : Text) :
    afterFolded? lit (t ++ remark x) = (afterFolded? lit t).map (· ++ remark x) := by
  induction lit generalizing t with
  | nil => rfl
  | cons l ls ih =>
      have hne : l ≠ fold ' ' := fun h => hl (h ▸ List.mem_cons_self)
      cases t with
      | nil => simp [remark, afterFolded?, hne]
      | cons c r =>
          simp only [List.cons_append, afterFolded?, ih fun h => hl (List.mem_cons_of_mem l h)]
          split <;> rfl

theorem afterFolded?_suffix {lit t r : Text} (h : afterFolded? lit t = some r) : r <:+ t := by
  induction lit generalizing t with
  | nil => cases h; exact List.suffix_refl _
  | cons l ls ih =>
      cases t with
      | nil => cases h
      | cons c t =>
          simp only [afterFolded?] at h
          split at h
          · exact (ih h).trans (List.suffix_cons c t)
          · cases h

theorem after?_suffix {lit t r : Text} (h : after? lit t = some r) : r <:+ t :=
  ⟨lit, (after?_append h).symm⟩

theorem afterSpaces?_append_remark {t : Text} (ht : t ≠ []) (x : Text) :
    afterSpaces? (t ++ remark x) = (afterSpaces? t).map fun r => trimStart (r ++ remark x) := by
  by_cases hc : t.head?.any isSpace = true
  · simp only [afterSpaces?, head?_append_remark ht, hc, if_true, Option.map_some,
      trimStart_trimStart_append_remark]
  · simp only [afterSpaces?, head?_append_remark ht, hc]
    rfl

theorem afterDotMarker?_append_remark (t x : Text) :
    afterDotMarker? (t ++ remark x) =
      (afterDotMarker? t).map fun r => trimStart (r ++ remark x) := by
  simp only [afterDotMarker?, afterFolded?_append_remark ".param".toList (by decide)]
  cases afterFolded? ".param".toList t with
  | none => rfl
  | some r =>
      cases r with
      | nil => rfl
      | cons c r => exact afterSpaces?_append_remark (List.cons_ne_nil c r) x

theorem atWordEnd_append_remark (t x : Text) : atWordEnd (t ++ remark x) = atWordEnd t := by
  cases t with
  | nil => rfl
  | cons c r => rfl

theorem afterWordMarker?_append_remark (t x : Text) :
    afterWordMarker? (t ++ remark x) =
      (afterWordMarker? t).map fun r => trimStart (r ++ remark x) := by
  have hmap : ∀ r : Option Text, (r.map (· ++ remark x)).map trimStart =
      (r.map trimStart).map fun r => trimStart (r ++ remark x) := by
    intro r
    cases r with
    | none => rfl
    | some r => simp only [Option.map_some, trimStart_trimStart_append_remark]
  simp only [afterWordMarker?, after?_append_remark "parameters".toList (by decide),
    after?_append_remark "params:".toList (by decide),
    after?_append_remark "param:".toList (by decide)]
  rw [← hmap]
  cases after? "parameters".toList t with
  | some r =>
      simp only [Option.map_some, atWordEnd_append_remark]
      split <;> rfl
  | none =>
      cases after? "params:".toList t with
      | some r => rfl
      | none => rfl

theorem afterDotMarker?_suffix {r : Text} (h : afterDotMarker? t = some r) : r <:+ t := by
  simp only [afterDotMarker?] at h
  split at h
  · cases h
  · next s hs =>
      have hsuffix := afterFolded?_suffix hs
      split at h
      · cases h
        exact hsuffix
      · simp only [afterSpaces?] at h
        split at h
        · cases h
          exact (List.dropWhile_suffix isSpace).trans hsuffix
        · cases h

theorem afterWordMarker?_suffix {r : Text} (h : afterWordMarker? t = some r) : r <:+ t := by
  have htrim : ∀ s : Option Text, (∀ u, s = some u → u <:+ t) → s.map trimStart = some r →
      r <:+ t := by
    intro s hs hr
    obtain ⟨u, hu, rfl⟩ := Option.map_eq_some_iff.mp hr
    exact (List.dropWhile_suffix isSpace).trans (hs u hu)
  refine htrim _ ?_ h
  intro u hu
  split at hu
  · next s hs =>
      split at hu
      · cases hu
        exact after?_suffix hs
      · cases hu
  · obtain hu | ⟨-, hu⟩ := Option.or_eq_some_iff.mp hu
    · exact after?_suffix hu
    · exact after?_suffix hu

/-- A remark behind a parameter statement leaves it the statement it is. -/
theorem readStatement?_behind (o : Options) (place : Placement) (carry : Carry)
    (ht : EndsInInk t) (hx : EndsInInk x) (h : Behind x a t)
    (hl : ∀ m ∈ readStatement? o t place carry, m.takesRemark = true) :
    Option.Rel ParamLine.Alongside (readStatement? o a place carry)
      (readStatement? o t place carry) := by
  have hink := endsInInk_trimStart ht
  have ha := h.trim hx
  simp only [readStatement?, ht.trim] at hl
  simp only [readStatement?, ha, ht.trim]
  cases htrim : trimStart t with
  | nil =>
      rw [trimStart_append_remark_nil htrim]
      exact .none
  | cons c r =>
      rw [trimStart_append_remark_cons htrim, ← List.cons_append, afterDotMarker?_append_remark,
        afterWordMarker?_append_remark]
      rw [htrim] at hl hink
      cases hdot : afterDotMarker? (c :: r) with
      | some s =>
          rw [hdot] at hl
          have hs := hl _ rfl
          refine .some (ParamLine.Alongside.withMarker ?_ .param)
          exact readAssignments_behind o .topLevel carry (hink.suffix (afterDotMarker?_suffix hdot))
            hx (.trimStart x s) hs
      | none =>
          rw [hdot] at hl
          cases hword : afterWordMarker? (c :: r) with
          | none => exact .none
          | some s =>
              rw [hword] at hl
              have hs := hl _ rfl
              refine .some (ParamLine.Alongside.withMarker ?_ _)
              exact readAssignments_behind o place carry
                (hink.suffix (afterWordMarker?_suffix hword)) hx (.trimStart x s) hs

theorem readStatement?_refl {o : Options} {place : Placement} {carry : Carry} {m : ParamLine}
    (h : readStatement? o t place carry = some m) : m.Alongside m := by
  simp only [readStatement?] at h
  split at h
  · cases h
    exact (readAssignments_refl o _ _ carry).withMarker _
  · split at h
    · cases h
      exact (readAssignments_refl o _ _ carry).withMarker _
    · cases h

end Param
end SpiceDeck
