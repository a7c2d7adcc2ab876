import SpiceDeck.Proofs.Model.ParameterList
import SpiceDeck.Proofs.Model.Polarity
import SpiceDeck.Proofs.Param.Composed

/-!
Model lines that leave a value open. The open value is the last piece of its line. A value that
names a polarity is never open, so that taking the polarity off the line leaves the open value
where it is. Main statement: closing such a line writes a delimiter behind its last piece, unless
that is an assignment that no line has given a value.
-/

namespace SpiceDeck
open Text

namespace Param

variable {o : Options} {name t u : Text} {c : Carry} {depth : Nat}

/-- The characters that leave a value open. -/
def isOpening (c : Char) : Bool :=
  isTrailingOperator c || c == '{' || c == '"' || c == '\x27'

/-- The text of a value that still waits for something. -/
def Waits (t : Text) : Prop := t = [] ∨ ∃ c ∈ t, isOpening c = true

theorem waits_of_paren (h : '(' ∈ t) : Waits t := .inr ⟨'(', h, by decide⟩

theorem mem_replaceFrom_roundCall (inWord : Bool) (h : '(' ∈ t) :
    '(' ∈ replaceFrom roundCall inWord 0 t := by
  induction inWord, t using spelling_induction with
  | nil => cases h
  | call c r new rest hs _ =>
      rw [replaceFrom_roundCall hs]
      exact List.mem_append_left _ (by decide)
  | copy inWord c r hs ih =>
      rw [replaceFrom_copies hs]
      obtain h | h := List.mem_cons.mp h
      · exact List.mem_cons.mpr (.inl h)
      · exact List.mem_cons_of_mem c (ih h)

theorem mem_of_parensOpen (h : 0 < parensOpen 0 t) : '(' ∈ t := by
  induction t with
  | nil => cases h
  | cons c r ih =>
      by_cases hc : c = '('
      · exact List.mem_cons.mpr (.inl hc.symm)
      · refine List.mem_cons_of_mem c (ih ?_)
        simpa [parensOpen, hc] using h

theorem prefix_extendExpression (text rest : Text) : text <+: (extendExpression text rest).1 := by
  fun_induction extendExpression text rest with
  | case1 | case2 | case4 => exact List.prefix_refl _
  | case3 text rest c r _ _ _ ih => exact (List.prefix_append _ _).trans ih

/-- An expression with open parentheses has one in its text. -/
theorem mem_readExpression (h : 0 < depth → '(' ∈ u)
    (hopen : 0 < (readExpression u depth t).depth) : '(' ∈ (readExpression u depth t).text := by
  have hpre : u <+: (readExpression u depth t).text :=
    (List.prefix_append _ _).trans (prefix_extendExpression _ _)
  cases depth with
  | zero => exact mem_of_parensOpen hopen
  | succ n => exact hpre.subset (h (Nat.succ_pos n))

theorem waits_bareValue {text : Text} (h : 0 < depth → '(' ∈ text)
    (hopen : (bareValue false text depth).2.isOpen = true) : Waits text := by
  simp only [bareValue] at hopen
  split at hopen
  · rename_i hgoes
    simp only [Bool.or_eq_true, List.isEmpty_iff, decide_eq_true_eq] at hgoes
    obtain (hnil | hdepth) | hends := hgoes
    · exact .inl hnil
    · exact waits_of_paren (h hdepth)
    · obtain ⟨a, ha, hop⟩ := (Option.any_eq_true _ _).mp hends
      exact .inr ⟨a, List.mem_of_getLast? ha, by simp [isOpening, hop]⟩
  · cases hopen

theorem waits_freshValue (h : 0 < depth → '(' ∈ t) :
    (freshValue o name t depth).2.isOpen = true → Waits (freshValue o name t depth).1.text := by
  simp only [freshValue]
  split
  · rintro ⟨⟩
  · split
    · rintro ⟨⟩
    · split
      · rintro ⟨⟩
      · exact waits_bareValue fun hd => mem_replaceFrom_roundCall false (h hd)

theorem waits_readValue (h : (readValue o name t).carry.isOpen = true) :
    Waits (readValue o name t).value.text := by
  have hfresh : ∀ (u : Text) (d : Nat) (s : Text), (0 < d → '(' ∈ u) →
      (readFresh o name u d s).carry.isOpen = true → Waits (readFresh o name u d s).value.text := by
    intro u d s hu
    exact waits_freshValue (mem_readExpression hu)
  cases t with
  | nil => exact waits_freshValue nofun h
  | cons a r =>
      simp only [readValue] at h ⊢
      split at h
      · rename_i ha
        subst ha
        simp only [if_true]
        rw [splitBraced_open] at h ⊢
        cases hs : splitBraced 1 r with
        | error d =>
            exact .inr ⟨'{', List.mem_cons_self, by decide⟩
        | ok cut =>
            simp only [hs, Except.map] at h ⊢
            split at h
            · rename_i hop
              simp only [hop, if_true]
              exact hfresh _ _ _ (fun _ => List.mem_cons_self) h
            · cases h
      · rename_i ha
        simp only [if_neg ha]
        split at h
        · rename_i hmark
          simp only [hmark, if_true]
          have hopening : isOpening a = true := by
            simp only [Bool.or_eq_true, decide_eq_true_eq] at hmark
            obtain rfl | rfl := hmark
            · decide
            · decide
          simp only [readQuoted] at h ⊢
          split
          · exact .inr ⟨a, List.mem_cons_self, hopening⟩
          · exact .inr ⟨a, List.mem_cons_self, hopening⟩
        · rename_i hmark
          simp only [hmark]
          exact hfresh _ _ _ nofun h

theorem Started.sound {v : Value} (h : Started v c) : Sound c := by
  cases c with
  | closed | bare _ => trivial
  | brace _ | quote _ =>
      have hform : v.form = .delimited := h.leaves
      refine sound_of_holds (h.holds ?_)
      intro hbare
      rw [hform] at hbare
      cases hbare

theorem sound_readList (o : Options) (passing : Bool) (t : Text) :
    Sound (readList o passing t).carry := by
  fun_induction readList o passing t with
  | case1 | case6 => trivial
  | case2 passing t c r _ name after _ _ ih => exact ih
  | case3 passing t c r _ name after _ _ read _ => exact (started_readValue o name after).sound
  | case4 passing t c r _ name after _ _ read _ ih => exact ih
  | case5 passing t c r _ _ word _ ih => exact ih

theorem sound_resumeValue (h : Sound c) (t : Text) : Sound (resumeValue c t).carry := by
  cases c with
  | closed => trivial
  | quote mark =>
      simp only [resumeValue]
      split
      · trivial
      · exact h
  | brace d =>
      simp only [resumeValue]
      split
      · trivial
      · rename_i e hsplit
        obtain ⟨hstays, he⟩ := splitBraced_error h hsplit
        have hpos := hstays.depth_pos
        simp only [Sound]
        omega
  | bare d =>
      simp only [resumeValue, bareValue]
      split
      · trivial
      · split
        · trivial
        · trivial

theorem sound_readAssignments (h : Sound c) (o : Options) (t : Text) (place : Placement) :
    Sound (readAssignments o t place c).carry := by
  simp only [readAssignments]
  split
  · split
    · exact sound_resumeValue h (trim t)
    · exact sound_readList o _ _
  · exact sound_readList o _ _

theorem completion_ne_nil (h : Sound c) (hc : c.isOpen = true) : completion c ≠ [] := by
  cases c with
  | closed => cases hc
  | bare d => simp [completion]
  | brace d =>
      have hd : 0 < d := h
      simp only [completion, Carry.owed, ne_eq, List.replicate_eq_nil_iff]
      omega
  | quote mark => exact List.cons_ne_nil mark []

end Param

namespace Polarity

/-- A text that names a polarity is made of the letters of their names, and of blanks. -/
theorem mem_of_ofText? {t : Text} (h : (ofText? t).isSome = true) :
    t ≠ [] ∧ ∀ c ∈ t, isSpace c = true ∨ c.toLower ∈ "nmosp".toList := by
  have hnames : lower (trim t) ∈ ["n", "nmos", "p", "pmos", "npn", "pnp"].map String.toList := by
    revert h
    simp only [ofText?]
    generalize lower (trim t) = u
    intro h
    by_contra hmem
    simp only [List.map_cons, List.map_nil, List.mem_cons, List.not_mem_nil, or_false,
      not_or] at hmem
    obtain ⟨h1, h2, h3, h4, h5, h6⟩ := hmem
    simp only [h1, h2, h3, h4, h5, h6, decide_false, Bool.or_self, Bool.false_eq_true,
      if_false, Option.isSome_none] at h
  constructor
  · rintro rfl
    revert hnames
    decide
  · intro c hc
    obtain hc | hc := Param.mem_trim_or hc
    · right
      have hletters : (["n", "nmos", "p", "pmos", "npn", "pnp"].map String.toList).all
          (fun u => u.all fun a => "nmosp".toList.contains a) = true := by decide
      have hname := List.all_eq_true.mp (List.all_eq_true.mp hletters _ hnames)
      exact List.contains_iff_mem.mp (hname _ (List.mem_map_of_mem hc))
    · exact .inl hc

/-- A value that is still open names no polarity. -/
theorem ofText?_of_waits {t : Text} (h : Param.Waits t) : (ofText? t).isSome = false := by
  rw [Bool.eq_false_iff]
  intro hsome
  obtain ⟨hne, hchars⟩ := mem_of_ofText? hsome
  obtain hnil | ⟨c, hc, hopening⟩ := h
  · exact hne hnil
  · have hsigns : "+-*/^(,<>=!&|?:%~\x7b\x22\x27".toList.all (fun a =>
        !isSpace a && !"nmosp".toList.contains a.toLower) = true := by decide
    have hmem : c ∈ "+-*/^(,<>=!&|?:%~\x7b\x22\x27".toList := by
      simp only [Param.isOpening, Param.isTrailingOperator, Bool.or_eq_true, beq_iff_eq,
        List.contains_iff_mem] at hopening
      obtain ((h | rfl) | rfl) | rfl := hopening
      · exact List.mem_append_left "\x7b\x22\x27".toList h
      · decide
      · decide
      · decide
    have hsign := List.all_eq_true.mp hsigns c hmem
    rw [Bool.and_eq_true, Bool.not_eq_true', Bool.not_eq_true'] at hsign
    obtain ⟨hspace, hletter⟩ := hsign
    obtain hblank | hin := hchars c hc
    · rw [hspace] at hblank
      cases hblank
    · rw [List.contains_iff_mem.mpr hin] at hletter
      cases hletter

end Polarity

namespace Param

variable {o : Options} {c : Carry} {pieces : List Piece}

/-- While a value is open, the last piece names no polarity. -/
def EndsUnnamed (pieces : List Piece) (c : Carry) : Prop :=
  c.isOpen = true → ∃ before p, pieces = before ++ [p] ∧ p.givesPolarity = false

theorem EndsUnnamed.cons (h : EndsUnnamed pieces c) (p : Piece) : EndsUnnamed (p :: pieces) c := by
  intro hc
  obtain ⟨before, q, rfl, hq⟩ := h hc
  exact ⟨p :: before, q, rfl, hq⟩

theorem endsUnnamed_readList (o : Options) (passing : Bool) (t : Text) :
    EndsUnnamed (readList o passing t).pieces (readList o passing t).carry := by
  fun_induction readList o passing t with
  | case1 | case6 => rintro ⟨⟩
  | case2 passing t c r _ name after _ _ ih => exact ih
  | case3 passing t c r _ name after _ _ read hopen =>
      intro _
      refine ⟨[], _, rfl, ?_⟩
      rw [Piece.givesPolarity, Polarity.ofText?_of_waits (waits_readValue hopen), Bool.and_false]
  | case4 passing t c r _ name after _ _ read _ ih => exact ih.cons _
  | case5 passing t c r _ _ word _ ih => exact ih.cons _

theorem endsUnnamed_allPieces {l : Listing} (h : EndsUnnamed l.pieces l.carry) :
    EndsUnnamed l.allPieces l.carry := by
  intro hc
  have heq : l.allPieces = l.pieces := by simp [Listing.allPieces, hc]
  rw [heq]
  exact h hc

theorem endsUnnamed_readAssignments (o : Options) (t : Text) (place : Placement) (c : Carry) :
    EndsUnnamed (readAssignments o t place c).pieces (readAssignments o t place c).carry := by
  simp only [readAssignments]
  split
  · split
    · exact fun _ => ⟨[], _, rfl, rfl⟩
    · exact endsUnnamed_allPieces ((endsUnnamed_readList o _ _).cons _)
  · exact endsUnnamed_allPieces (endsUnnamed_readList o _ _)

end Param

namespace ParamLine
open Param

variable {l : ParamLine}

/-- What is known of a line that was read: while it leaves a value open, its last piece is the
one that holds the value. -/
structure IsRead (l : ParamLine) : Prop where
  sound : Sound l.carry
  last : EndsOpen l.pieces l.carry
  unnamed : EndsUnnamed l.pieces l.carry

theorem isRead_readAssignments {c : Carry} (h : Sound c) (o : Options) (t : Text)
    (place : Placement) : (readAssignments o t place c).IsRead :=
  ⟨sound_readAssignments h o t place, endsOpen_readAssignments o t place c,
    endsUnnamed_readAssignments o t place c⟩

theorem isRead_readContinuation {c : Carry} (h : Sound c) (o : Options) (t : Text)
    (place : Placement) : (readContinuation o t place c).IsRead :=
  have hread := isRead_readAssignments h o _ place
  ⟨hread.sound, hread.last, hread.unnamed⟩

/-- The polarity is taken from a piece before the open one. -/
theorem IsRead.pieces_remainder (h : l.IsRead) (hopen : l.isOpen = true) :
    ∃ before kept p, l.pieces = before ++ [p] ∧ (Model.remainder l).pieces = kept ++ [p] := by
  obtain ⟨before, p, hp, hunnamed⟩ := h.unnamed hopen
  cases hany : l.pieces.any Piece.givesPolarity with
  | false => exact ⟨before, before, p, hp, by rw [Model.remainder_of_no_polarity hany, hp]⟩
  | true =>
      obtain ⟨q, hq, hgives⟩ := List.any_eq_true.mp hany
      have hmem : q ∈ before := by
        rw [hp, List.mem_append, List.mem_singleton] at hq
        obtain hq | rfl := hq
        · exact hq
        · rw [hunnamed] at hgives
          cases hgives
      refine ⟨before, before.eraseP fun p => p.assigns "type".toList, p, hp, ?_⟩
      rw [Model.remainder_of_polarity hany, erase, hp]
      exact List.eraseP_append_left (q.assigns_of_givesPolarity hgives) [p] hmem

/-- The line's last piece is an assignment that no line has given a value. -/
def endsVoid (l : ParamLine) : Bool := l.pieces.getLast?.any Piece.isVoid

/-- Closing the line writes something behind its last piece. -/
def GetsDelimiter (l : ParamLine) : Prop :=
  ∃ text delimiter, delimiter ≠ [] ∧ l.pieces.getLast?.map Piece.render = some text ∧
    l.close.pieces.getLast?.map Piece.render = some (text ++ delimiter)

/-- Closing the line makes a comment of its last piece, an assignment that has no value. -/
def DropsAssignment (l : ParamLine) : Prop :=
  ∃ before name value, l.pieces = before ++ [.assign name value] ∧
    l.close.pieces = before ++ [.comment ("$ ".toList ++ name ++ ['='])]

/-- The comment that an assignment turns into does not start with the assignment. -/
theorem comment_ne_render_append {name d : Text} {v : Value} (h : v.isVoid = true) :
    "$ ".toList ++ name ++ ['='] ≠ (Piece.assign name v).render ++ d := by
  intro heq
  simp only [Value.isVoid, Bool.and_eq_true, decide_eq_true_eq, Bool.not_eq_true'] at h
  have hcount := congrArg (List.count '{') heq
  simp [Piece.render, Value.render, h.1.1, h.2] at hcount

/-- Of an open line the last piece is closed; it gets the delimiter that is owed unless it has no
value. -/
theorem getsDelimiter_iff (hs : Sound l.carry) (h : EndsOpen l.pieces l.carry)
    (hopen : l.isOpen = true) :
    (l.GetsDelimiter ↔ l.endsVoid = false) ∧ (l.endsVoid = true → l.DropsAssignment) := by
  obtain ⟨before, p, v, hp, hv, hleaves⟩ := h hopen
  have hclose := close_append hp hv hopen
  have hlast : l.pieces.getLast? = some p := by rw [hp, List.getLast?_concat]
  have hlast' : l.close.pieces.getLast? = some (p.close l.carry) := by
    rw [hclose, List.getLast?_concat]
  have hvoid : l.endsVoid = p.isVoid := by rw [endsVoid, hlast, Option.any_some]
  have hends : l.GetsDelimiter ↔
      ∃ delimiter, delimiter ≠ [] ∧ (p.close l.carry).render = p.render ++ delimiter := by
    simp [GetsDelimiter, hlast, hlast']
  have hrender := render_close hleaves hopen
  have hne := completion_ne_nil hs hopen
  rw [hends, hvoid]
  cases p with
  | comment _ => cases hv
  | fragment w =>
      cases hv
      exact ⟨iff_of_true ⟨_, hne, hrender⟩ rfl, nofun⟩
  | assign name w =>
      cases hv
      cases hw : v.isVoid with
      | true =>
          have hcomment : (Piece.assign name v).close l.carry =
              .comment ("$ ".toList ++ name ++ ['=']) := by rw [Piece.close, hw]; rfl
          rw [hcomment]
          refine ⟨iff_of_false ?_ (by simp [Piece.isVoid, hw]), fun _ => ?_⟩
          · rintro ⟨d, -, hd⟩
            exact comment_ne_render_append hw hd
          · exact ⟨before, name, v, hp, by rw [hclose, hcomment]⟩
      | false =>
          have hassign : (Piece.assign name v).close l.carry = .assign name (v.close l.carry) := by
            rw [Piece.close, hw]
            rfl
          rw [hassign]
          refine ⟨iff_of_true ⟨_, hne, ?_⟩ (by simp [Piece.isVoid, hw]), ?_⟩
          · simp only [Piece.render, hrender, List.append_assoc, List.cons_append]
          · intro h
            rw [Piece.isVoid, hw] at h
            cases h

theorem IsRead.getsDelimiter_remainder (h : l.IsRead) (hopen : l.isOpen = true) :
    ((Model.remainder l).GetsDelimiter ↔ l.endsVoid = false) ∧
      (l.endsVoid = true → (Model.remainder l).DropsAssignment) := by
  obtain ⟨before, kept, p, hp, hkept⟩ := h.pieces_remainder hopen
  have hcarry : (Model.remainder l).carry = l.carry := Model.carry_remainder l
  have hends : EndsOpen (Model.remainder l).pieces (Model.remainder l).carry := by
    intro hc
    obtain ⟨before', p', v, hp', hv, hleaves⟩ := h.last hopen
    cases (List.append_inj' (hp.symm.trans hp') rfl).2
    exact ⟨kept, p, v, hkept, hv, hcarry ▸ hleaves⟩
  have hvoid : (Model.remainder l).endsVoid = l.endsVoid := by
    rw [endsVoid, hkept, List.getLast?_concat, endsVoid, hp, List.getLast?_concat]
  rw [← hvoid]
  exact getsDelimiter_iff (hcarry ▸ h.sound) hends (by rwa [isOpen, hcarry])

end ParamLine
end SpiceDeck
