import SpiceDeck.Proofs.Param.Tidy

/-!
Lines as a first reading leaves them: perhaps the rest of a value, then assignments, then
remarks. Only the last value may be open, and it is the last piece of its line. Main
statements: such a line reads back as it was written, and so does a line whose last value is
closed, unless closing makes a product in braces of that value.
-/

namespace SpiceDeck

def Piece.closesProduct (o : Options) (c : Carry) : Piece → Bool
  | .assign _ value => value.closesProduct o c
  | .fragment _ | .comment _ => false

/-- Closing the line makes a product in braces of its last value. -/
def ParamLine.closesProduct (o : Options) (l : ParamLine) : Bool :=
  l.pieces.getLast?.any (Piece.closesProduct o l.carry)

namespace Param
open Text

variable {o : Options} {name w t u : Text} {c c₀ : Carry} {v : Value} {ps : List Piece}

/-- The pieces of a line without a fragment, as a first reading leaves them. -/
inductive Listed (o : Options) : List Piece → Carry → Prop where
  | nil : Listed o [] .closed
  | remarks {x : Text} {ys : List Text} : startsWith x ['$'] = true →
      EndsInInk (spaced (x :: ys)) → Listed o ((x :: ys).map .comment) .closed
  | value {name : Text} {v : Value} {ps : List Piece} {c : Carry} : IsTarget name →
      Begun o v .closed → Listed o ps c → Listed o (.assign name v :: ps) c
  | begun {name : Text} {v : Value} {c : Carry} : IsTarget name → c.isOpen = true →
      Begun o v c → Listed o [.assign name v] c

theorem map_render_comments (xs : List Text) :
    (xs.map Piece.comment).map Piece.render = xs := by
  rw [List.map_map]
  exact List.map_id xs

theorem Listed.rereads (h : Listed o ps c) :
    Rereads o (ps.map Piece.render) c.again (apart (ps.map Piece.render)) := by
  induction h with
  | nil => exact .nil
  | remarks hx hink =>
      rw [map_render_comments]
      exact .remark hx hink
  | @value name v ps c hn hv _ ih =>
      have happend : apart ((Piece.assign name v :: ps).map Piece.render) =
          ' ' :: (name ++ '=' :: v.render) ++ apart (ps.map Piece.render) := by
        simp [apart, Piece.render]
      rw [happend]
      exact .value hn (hv.reads name) ih
  | @begun name v c hn hc hv =>
      have happend : apart ([Piece.assign name v].map Piece.render) =
          ' ' :: (name ++ '=' :: v.render) := by
        simp [apart, Piece.render]
      rw [happend]
      refine .opened hn ?_ (hv.reads name)
      rwa [Carry.isOpen_again]

theorem closesProduct_of_isVoid (h : Leaves v c) (hv : v.isVoid = true) :
    v.closesProduct o c = false := by
  simp only [Value.isVoid, Bool.and_eq_true, decide_eq_true_eq] at hv
  cases c with
  | closed | bare _ | quote _ => rfl
  | brace d =>
      have hform : v.form = .delimited := h
      rw [hform] at hv
      cases hv.1.1

/-- The last value, closed at the end of the statement. -/
theorem rereads_close (hn : IsTarget name) (hc : c.isOpen = true) (hv : Begun o v c) :
    ∃ u, Rereads o [((Piece.assign name v).close c).render] .closed u ∧
      (u = apart [((Piece.assign name v).close c).render] ↔ v.closesProduct o c = false) := by
  simp only [Piece.close]
  split
  · rename_i hvoid
    refine ⟨_, .remark rfl ?_, iff_of_true rfl (closesProduct_of_isVoid hv.leaves hvoid)⟩
    rw [spaced_singleton]
    exact endsInInk_concat rfl ("$ ".toList ++ name)
  · have hrender : (Piece.assign name (v.close c)).render =
        name ++ '=' :: (v.render ++ completion c) := by
      rw [Piece.render, render_close hv.leaves hc]
    rw [hrender]
    refine ⟨_, .value hn (hv.reads_completed hc name) .nil, ?_⟩
    rw [← hv.refold_eq_iff hc]
    simp [apart]

/-- Closing the line's last value leaves the words before it as they are. -/
theorem Listed.rereads_close (h : Listed o ps c) (hc : c.isOpen = true) {before : List Piece}
    {p : Piece} (hp : ps = before ++ [p]) :
    ∃ u, Rereads o ((before ++ [p.close c]).map Piece.render) .closed u ∧
      (u = apart ((before ++ [p.close c]).map Piece.render) ↔ p.closesProduct o c = false) := by
  induction h generalizing before with
  | nil => cases hc
  | remarks _ _ => cases hc
  | @begun name v c hn _ hv =>
      cases before with
      | nil =>
          cases hp
          exact Param.rereads_close hn hc hv
      | cons q before => simp at hp
  | @value name v ps c hn hv hps ih =>
      cases before with
      | nil =>
          obtain ⟨-, rfl⟩ := List.cons.inj hp
          cases hps
          cases hc
      | cons q before =>
          obtain ⟨rfl, hrest⟩ := List.cons.inj hp
          obtain ⟨u, hu, hiff⟩ := ih hc hrest
          refine ⟨_, .value hn (hv.reads name) hu, ?_⟩
          rw [← hiff]
          simp [apart, Piece.render]

theorem Listed.remark {x : Text} (hx : startsWith x ['$'] = true) (hink : EndsInInk x) :
    Listed o [.comment x] .closed := by
  rw [← spaced_singleton x] at hink
  exact .remarks hx hink

theorem Listed.append_remark (h : Listed o ps .closed) {e : Text} (he : startsWith e ['$'] = true)
    (hink : EndsInInk e) : Listed o (ps ++ [.comment e]) .closed := by
  generalize hc : Carry.closed = c at h
  induction h with
  | nil => exact .remark he hink
  | @remarks x ys hx _ =>
      have happend : (x :: ys).map Piece.comment ++ [.comment e] =
          (x :: (ys ++ [e])).map .comment := by simp
      rw [happend]
      refine .remarks hx ?_
      obtain ⟨r, rfl⟩ := exists_cons_of_startsWith he
      have hspaced : spaced (x :: (ys ++ ['$' :: r])) = (x ++ apart ys ++ [' ']) ++ '$' :: r := by
        simp [spaced_cons, apart]
      rw [hspaced]
      exact hink.append (by simp) _
  | value hn hv _ ih => exact .value hn hv (ih hc)
  | begun _ hopen _ =>
      subst hc
      cases hopen

theorem endsInInk_leftover {a : Char} {r : Text} (h : isSpace a = false) :
    EndsInInk (leftover (a :: r)) := by
  simp only [leftover]
  split
  · exact endsInInk_trim _
  · refine (endsInInk_trim _).append ?_ _
    have htrim : trim (a :: r) = a :: trimEnd r := by
      rw [trim, (startsInInk_cons h r).trimStart, trimEnd_cons h]
    rw [htrim]
    simp

/-- The text after an assignment ends where the line ends. -/
theorem endsInInk_assignment? {a : Char} {r after : Text} (hink : EndsInInk t)
    (h : trimStart t = a :: r) (ha : assignment? (a :: r) = some (name, after)) :
    EndsInInk after := by
  have hafter := (isTarget_of_assignment? ha).2
  rw [← h] at hafter
  exact hink.suffix (hafter.trans (List.dropWhile_suffix _))

theorem isTarget_of_isName (h : isName t = true) : IsTarget t := by
  cases t with
  | nil => cases h
  | cons a r =>
      simp only [isName, Bool.and_eq_true, List.all_eq_true] at h
      exact ⟨a, r, rfl, h.1, fun b hb => by simp [isTargetChar, h.2 b hb]⟩

theorem listed_readList (o : Options) (passing : Bool) (hink : EndsInInk t)
    (hfree : AllBraceFree (readList o passing t).pieces) :
    Listed o (readList o passing t).pieces (readList o passing t).carry := by
  fun_induction readList o passing t with
  | case1 => exact .nil
  | case2 passing t a r h name after ha hempty ih =>
      exact ih (endsInInk_assignment? hink h ha) hfree
  | case3 passing t a r h name after ha hempty read hopen =>
      have hend := endsInInk_assignment? hink h ha
      have hv := begun_readValue o name (head?_assignment? ha) hend
        (hfree _ List.mem_cons_self _ rfl)
      exact .begun (isTarget_of_assignment? ha).1 hopen hv
  | case4 passing t a r h name after ha hempty read hclosed ih =>
      have hend := endsInInk_assignment? hink h ha
      have hv := begun_readValue o name (head?_assignment? ha) hend
        (hfree _ List.mem_cons_self _ rfl)
      rw [eq_closed_of_not_isOpen hclosed] at hv
      refine .value (isTarget_of_assignment? ha).1 hv ?_
      apply ih (hend.suffix (suffix_readValue o name after))
      exact fun p hp => hfree p (List.mem_cons_of_mem _ hp)
  | case5 passing t a r h ha word hname ih =>
      obtain ⟨-, hname⟩ := Bool.and_eq_true_iff.mp hname
      have hone : Begun o (.numeric ['1']) .closed :=
        ⟨.inl (by decide), trivial, tidy_numeric o (by decide)⟩
      refine .value (isTarget_of_isName hname) hone (ih ?_ ?_)
      · have hsuffix : EndsInInk (a :: r) := h ▸ hink.suffix (List.dropWhile_suffix _)
        exact hsuffix.suffix (List.dropWhile_suffix _)
      · exact fun p hp => hfree p (List.mem_cons_of_mem _ hp)
  | case6 passing t a r h ha word hname =>
      exact .remark (startsWith_leftover _) (endsInInk_leftover (not_of_dropWhile_eq_cons h))

theorem endsInInk_apart {ws : List Text} (h : ∀ w ∈ ws, w ≠ [] ∧ EndsInInk w) :
    EndsInInk (apart ws) := by
  induction ws with
  | nil => exact nofun
  | cons w ws ih =>
      obtain ⟨hw, hws⟩ := List.forall_mem_cons.mp h
      rw [apart_cons, ← List.cons_append]
      by_cases hnil : apart ws = []
      · rw [hnil, List.append_nil]
        exact hw.2.append hw.1 [' ']
      · exact (ih hws).append hnil _

/-- The names without a value make a remark that ends in an equals sign. -/
theorem listed_allPieces {l : Listing} (h : Listed o l.pieces l.carry) :
    Listed o l.allPieces l.carry := by
  simp only [Listing.allPieces]
  split
  · exact h
  · rename_i hc
    simp only [Bool.or_eq_true, List.isEmpty_iff, not_or, Bool.not_eq_true] at hc
    obtain ⟨e, es, he⟩ := List.exists_cons_of_ne_nil hc.1
    rw [eq_closed_of_not_isOpen (c := l.carry) (by simp [hc.2])] at h ⊢
    refine h.append_remark rfl (EndsInInk.append ?_ ?_ _)
    · apply endsInInk_spaced
      apply endsInInk_apart
      intro w hw
      obtain ⟨x, -, rfl⟩ := List.mem_map.mp hw
      exact ⟨by simp, endsInInk_concat rfl x⟩
    · rw [he, List.map_cons, spaced_cons]
      simp

/-- The carry of a value that can be resumed. -/
def Sound : Carry → Prop
  | .closed | .bare _ => True
  | .brace depth => 0 < depth
  | .quote mark => mark = '"' ∨ mark = '\x27'

theorem sound_of_holds (h : Holds c w) : Sound c := by
  cases c with
  | closed | bare _ => trivial
  | quote mark => exact h.1
  | brace d =>
      obtain ⟨u, -, hu, hd⟩ := h
      have := hu.depth_pos
      simp only [Sound]
      omega

theorem Listed.sound (h : Listed o ps c) : Sound c := by
  induction h with
  | nil | remarks _ _ => trivial
  | value _ _ _ ih => exact ih
  | begun _ _ hv => exact sound_of_holds hv.holds

/-- The rest of a value in braces, up to its last brace. -/
theorem resumes_brace {d : Nat} (h : StaysOpen d u) (hd : d + braceDepth u = 1)
    (hstart : StartsInInk u) : Resumes (.brace d) (u ++ ['}']) .closed where
  isOpen := rfl
  ne_nil := fun _ => by simp
  starts := by
    cases u with
    | nil => exact startsInInk_cons rfl []
    | cons a r => exact hstart
  ends := endsInInk_concat rfl u
  read := by
    intro rest _
    have hsplit : splitBraced d (u ++ ['}'] ++ rest) = .ok (u ++ ['}'], rest) := by
      rw [List.append_assoc, splitBraced_staysOpen (e := 1) h hd]
      rfl
    refine ⟨.delimited (u ++ ['}']) true false, ?_, rfl⟩
    rw [resumeValue, hsplit]

/-- A part of a value in braces that closes nothing. -/
theorem resumes_openBrace {d e : Nat} (h : StaysOpen d u) (hd : d + braceDepth u = e)
    (hstart : StartsInInk u) (hend : EndsInInk u) : Resumes (.brace d) u (.brace e) where
  isOpen := rfl
  ne_nil := nofun
  starts := hstart
  ends := hend
  read := by
    intro rest hrest
    cases hrest rfl
    refine ⟨.delimited u true true, ?_, rfl⟩
    rw [List.append_nil, resumeValue]
    have hsplit := splitBraced_staysOpen h hd []
    rw [List.append_nil] at hsplit
    rw [hsplit]
    rfl

theorem resumes_quote {mark : Char} (hm : mark = '"' ∨ mark = '\x27') (h : mark ∉ u)
    (hstart : StartsInInk u) : Resumes (.quote mark) (u ++ [mark]) .closed where
  isOpen := rfl
  ne_nil := fun _ => by simp
  starts := by
    cases u with
    | nil => exact startsInInk_cons (isValueStart_quote hm).2.1 []
    | cons a r => exact hstart
  ends := endsInInk_concat (isValueStart_quote hm).2.1 u
  read := by
    intro rest _
    have hsplit : splitAfter? mark (u ++ [mark] ++ rest) = some (u ++ [mark], rest) := by
      rw [List.append_assoc, splitAfter?_of_not_mem h]
      simp [splitAfter?]
    refine ⟨.delimited (u ++ [mark]) true false, ?_, rfl⟩
    rw [resumeValue, hsplit]

theorem resumes_openQuote {mark : Char} (h : mark ∉ u) (hstart : StartsInInk u)
    (hend : EndsInInk u) : Resumes (.quote mark) u (.quote mark) where
  isOpen := rfl
  ne_nil := nofun
  starts := hstart
  ends := hend
  read := by
    intro rest hrest
    cases hrest rfl
    refine ⟨.delimited u true true, ?_, rfl⟩
    have hsplit := splitAfter?_of_not_mem h []
    rw [List.append_nil] at hsplit
    rw [List.append_nil, resumeValue, hsplit]
    rfl

/-- What is known of the part of a value that a line takes up: it reads back as it stands,
and with what it owes once it is closed. -/
structure Resumed (c₀ : Carry) (v : Value) (c : Carry) : Prop where
  leaves : Leaves v c
  sound : Sound c
  reads : Resumes c₀.again v.render c.again
  closes : c.isOpen = true → Resumes c₀.again (v.render ++ completion c) .closed

theorem resumed_brace {d : Nat} (hd : 0 < d) (hstart : StartsInInk t) (hend : EndsInInk t) :
    Resumed (.brace d) (resumeValue (.brace d) t).value (resumeValue (.brace d) t).carry := by
  simp only [resumeValue]
  split
  · rename_i inside rest hsplit
    obtain ⟨u, rfl, hu, hone⟩ := splitBraced_ok hd hsplit
    rw [splitBraced_eq hsplit, List.append_assoc] at hstart
    exact ⟨trivial, trivial, resumes_brace hu hone hstart.of_append, by rintro ⟨⟩⟩
  · rename_i e hsplit
    obtain ⟨ht, he⟩ := splitBraced_error hd hsplit
    have hpos : 0 < e := by
      have := ht.depth_pos
      omega
    refine ⟨rfl, hpos, resumes_openBrace ht he hstart hend, fun _ => ?_⟩
    obtain ⟨n, rfl⟩ := Nat.exists_eq_succ_of_ne_zero (Nat.ne_of_gt hpos)
    have happend : t ++ completion (.brace (n + 1)) = (t ++ List.replicate n '}') ++ ['}'] := by
      simp [completion, Carry.owed, List.replicate_succ']
    refine happend.symm ▸ resumes_brace ?_ ?_ ?_
    · rw [staysOpen_append, he]
      exact ⟨ht, staysOpen_replicate n⟩
    · rw [braceDepth_append, braceDepth_replicate]
      omega
    · cases t with
      | nil =>
          intro a ha
          rw [List.eq_of_mem_replicate (List.mem_of_head? ha)]
          rfl
      | cons a r => exact hstart

theorem resumed_quote {mark : Char} (hm : mark = '"' ∨ mark = '\x27') (hstart : StartsInInk t)
    (hend : EndsInInk t) :
    Resumed (.quote mark) (resumeValue (.quote mark) t).value
      (resumeValue (.quote mark) t).carry := by
  simp only [resumeValue]
  split
  · rename_i inside rest hsplit
    obtain ⟨u, rfl, hu⟩ := splitAfter?_some hsplit
    rw [splitAfter?_eq hsplit, List.append_assoc] at hstart
    exact ⟨trivial, trivial, resumes_quote hm hu hstart.of_append, by rintro ⟨⟩⟩
  · rename_i hsplit
    have ht := splitAfter?_none hsplit
    exact ⟨rfl, hm, resumes_openQuote ht hstart hend, fun _ => resumes_quote hm ht hstart⟩

/-- The rest of an expression without braces closes the one that it is written with. -/
theorem resumes_expression (hfree : ∀ a ∈ u, isBrace a = false) (hstart : StartsInInk u) :
    Resumes (.brace 1) (u ++ ['}']) .closed := by
  obtain ⟨hu, hdepth⟩ := staysOpen_of_no_brace Int.one_pos hfree
  exact resumes_brace hu (by simp [hdepth]) hstart

theorem resumed_bareValue {text : Text} (d depth : Nat) (hfree : ∀ a ∈ text, isBrace a = false)
    (hstart : StartsInInk text) (hend : EndsInInk text) :
    Resumed (.bare d) (bareValue true text depth).1 (bareValue true text depth).2 := by
  have hleaves := leaves_bareValue true text depth
  obtain ⟨hc, hr⟩ | ⟨hc, hr⟩ := bareValue_cases true text depth
  · rw [hc] at hleaves ⊢
    refine ⟨hleaves, trivial, ?_, nofun⟩
    rw [hr]
    exact resumes_expression hfree hstart
  · rw [hc] at hleaves ⊢
    obtain ⟨hu, hdepth⟩ := staysOpen_of_no_brace Int.one_pos hfree
    refine ⟨hleaves, trivial, ?_, fun _ => ?_⟩
    · rw [hr]
      exact resumes_openBrace hu (by simp [hdepth]) hstart hend
    · have happend : (bareValue true text depth).1.render ++ completion (.bare depth) =
          (text ++ List.replicate depth ')') ++ ['}'] := by
        simp [hr, completion]
      rw [happend]
      refine resumes_expression ?_ ?_
      · intro a ha
        obtain ha | ha := List.mem_append.mp ha
        · exact hfree a ha
        · rw [List.eq_of_mem_replicate ha]
          rfl
      · cases text with
        | nil =>
            intro a ha
            rw [List.eq_of_mem_replicate (List.mem_of_head? ha)]
            rfl
        | cons a r => exact hstart

theorem resumed_bare {d : Nat} (hstart : StartsInInk t)
    (hfree : BraceFree (resumeValue (.bare d) t).value) :
    Resumed (.bare d) (resumeValue (.bare d) t).value (resumeValue (.bare d) t).carry := by
  simp only [resumeValue] at hfree ⊢
  split at hfree
  · rename_i hstop
    simp only [hstop, if_true]
    refine ⟨trivial, trivial, resumes_expression (List.forall_mem_nil _) ?_, by rintro ⟨⟩⟩
    rintro a ⟨⟩
  · rename_i hstop
    simp only [hstop]
    cases t with
    | nil => simp at hstop
    | cons a r =>
        have hne : [] ++ token (a :: r) ≠ [] := by simpa using token_ne_nil (hstart a rfl)
        have hink : ∀ b ∈ [] ++ token (a :: r), isSpace b = false := token_ink _
        obtain ⟨h1, h2⟩ := extendExpression_ink _ (afterToken (a :: r)) hne
          (fun b hb => hink b (List.mem_of_head? hb)) (endsInInk_of_all hink)
        exact resumed_bareValue d _ (hfree rfl) (startsInInk_spellRound h1)
          (endsInInk_spellRound h2)

theorem resumed_resumeValue (hs : Sound c₀) (ho : c₀.isOpen = true) (hstart : StartsInInk t)
    (hend : EndsInInk t) (hfree : BraceFree (resumeValue c₀ t).value) :
    Resumed c₀ (resumeValue c₀ t).value (resumeValue c₀ t).carry := by
  cases c₀ with
  | closed => cases ho
  | brace d => exact resumed_brace hs hstart hend
  | quote mark => exact resumed_quote hs hstart hend
  | bare d => exact resumed_bare hstart hfree

theorem suffix_resumeValue (c : Carry) (t : Text) : (resumeValue c t).rest <:+ t := by
  cases c with
  | closed => exact List.suffix_refl t
  | brace d =>
      simp only [resumeValue]
      split
      · rename_i inside rest hsplit
        exact ⟨inside, (splitBraced_eq hsplit).symm⟩
      · exact List.nil_suffix
  | quote mark =>
      simp only [resumeValue]
      split
      · rename_i inside rest hsplit
        exact ⟨inside, (splitAfter?_eq hsplit).symm⟩
      · exact List.nil_suffix
  | bare d =>
      simp only [resumeValue]
      split
      · exact List.suffix_refl t
      · exact suffix_readExpression [] d t

/-- The pieces of a line that takes up the given carry, as a first reading leaves them. -/
inductive Composed (o : Options) : Carry → List Piece → Carry → Prop where
  | fresh {ps : List Piece} {c : Carry} : Listed o ps c → Composed o .closed ps c
  | ended {c₀ c : Carry} {v : Value} {ps : List Piece} : Resumed c₀ v .closed →
      Listed o ps c → Composed o c₀ (.fragment v :: ps) c
  | continued {c₀ c : Carry} {v : Value} : c.isOpen = true → Resumed c₀ v c →
      Composed o c₀ [.fragment v] c

theorem allPieces_cons (l : Listing) (p : Piece) : (l.cons p).allPieces = p :: l.allPieces := by
  by_cases h : (l.empties.isEmpty || l.carry.isOpen) = true
  · simp [Listing.allPieces, Listing.cons, h]
  · simp [Listing.allPieces, Listing.cons, h]

theorem composed_readAssignments (hs : Sound c₀) {place : Placement}
    (hfree : AllBraceFree (readAssignments o t place c₀).pieces) :
    Composed o c₀ (readAssignments o t place c₀).pieces
      (readAssignments o t place c₀).carry := by
  have hstart : StartsInInk (trim t) := head?_trim
  have hend := endsInInk_trim t
  simp only [readAssignments] at hfree ⊢
  split at hfree
  · rename_i ho
    simp only [ho, if_true]
    split at hfree
    · rename_i hopen
      simp only [hopen, if_true]
      exact .continued hopen
        (resumed_resumeValue hs ho hstart hend (hfree _ List.mem_cons_self _ rfl))
    · rename_i hclosed
      simp only [hclosed]
      have hv := resumed_resumeValue hs ho hstart hend
        (hfree _ (mem_allPieces List.mem_cons_self) _ rfl)
      rw [eq_closed_of_not_isOpen hclosed] at hv
      rw [allPieces_cons] at hfree ⊢
      refine .ended hv (listed_allPieces (listed_readList o _ ?_ ?_))
      · exact hend.suffix (suffix_resumeValue c₀ (trim t))
      · exact fun p hp => hfree p (List.mem_cons_of_mem _ (mem_allPieces hp))
  · rename_i hc
    cases eq_closed_of_not_isOpen hc
    refine .fresh (listed_allPieces (listed_readList o _ hend ?_))
    exact fun p hp => hfree p (mem_allPieces hp)

namespace Composed

theorem sound (h : Composed o c₀ ps c) : Sound c := by
  cases h with
  | fresh h => exact h.sound
  | ended _ h => exact h.sound
  | continued _ hv => exact hv.sound

/-- A line that is not the last reads back as it was written. -/
theorem rereads (h : Composed o c₀ ps c) :
    RereadsLine o c₀.again (ps.map Piece.render) c.again (apart (ps.map Piece.render)) := by
  cases h with
  | fresh h => exact .fresh h.rereads
  | ended hv h => exact .ended hv.reads h.rereads
  | @continued _ _ v hopen hv =>
      have happend : apart ([Piece.fragment v].map Piece.render) = ' ' :: v.render := by
        simp [apart, Piece.render]
      rw [happend]
      refine .continued ?_ hv.reads
      rwa [Carry.isOpen_again]

/-- The last line, with its value closed. -/
theorem rereads_close (h : Composed o c₀ ps c) (hc : c.isOpen = true) {before : List Piece}
    {p : Piece} (hp : ps = before ++ [p]) :
    ∃ u, RereadsLine o c₀.again ((before ++ [p.close c]).map Piece.render) .closed u ∧
      (u = apart ((before ++ [p.close c]).map Piece.render) ↔ p.closesProduct o c = false) := by
  cases h with
  | fresh h =>
      obtain ⟨u, hu, hiff⟩ := h.rereads_close hc hp
      exact ⟨u, .fresh hu, hiff⟩
  | @ended _ _ v ps hv h =>
      cases before with
      | nil =>
          obtain ⟨-, rfl⟩ := List.cons.inj hp
          cases h
          cases hc
      | cons q before =>
          obtain ⟨rfl, hrest⟩ := List.cons.inj hp
          obtain ⟨u, hu, hiff⟩ := h.rereads_close hc hrest
          refine ⟨_, .ended hv.reads hu, ?_⟩
          rw [← hiff]
          simp [apart, Piece.render]
  | @continued _ _ v _ hv =>
      cases before with
      | nil =>
          cases hp
          have hrender : ((Piece.fragment v).close c).render = v.render ++ completion c := by
            rw [Piece.close, Piece.render, render_close hv.leaves hc]
          refine ⟨apart [v.render ++ completion c], ?_, ?_⟩
          · rw [List.nil_append, List.map_singleton, hrender]
            have happend : apart [v.render ++ completion c] =
                ' ' :: (v.render ++ completion c) ++ [] := by simp [apart]
            rw [happend]
            exact .ended (hv.closes hc) .nil
          · rw [List.nil_append, List.map_singleton, hrender]
            exact iff_of_true rfl rfl
      | cons q before => simp at hp

end Composed

end Param
end SpiceDeck
