import SpiceDeck.Proofs.Param.Written

/-!
Written lines read back. A line holds what is left of a value that an earlier line began,
then assignments, then remarks; it is given here by its words. Main statement: the line
reads back word by word, with the carry and the text that the words tell.
-/

namespace SpiceDeck
namespace Param
open Text

variable {o : Options} {name w w' u rest t : Text} {ws : List Text} {c c₀ : Carry}

/-- A name that can be assigned to. -/
def IsTarget (name : Text) : Prop :=
  ∃ a r, name = a :: r ∧ isNameStart a = true ∧ ∀ x ∈ r, isTargetChar x = true

theorem assignment?_written (hn : IsTarget name)
    (hw : ∃ a r, w = a :: r ∧ isValueStart a = true) (y : Text) :
    assignment? (name ++ '=' :: (w ++ y)) = some (name, w ++ y) := by
  obtain ⟨a, r, rfl, ha, hr⟩ := hn
  obtain ⟨b, s, rfl, hb⟩ := hw
  obtain ⟨hspace, -, hequals, -⟩ := isValueStart_ne hb
  have hstop : isTargetChar '=' = false := rfl
  have hblank : isSpace '=' = false := rfl
  have hdrop : (r ++ '=' :: (b :: s ++ y)).dropWhile isTargetChar = '=' :: (b :: s ++ y) := by
    rw [List.dropWhile_append_of_pos hr]
    simp [hstop]
  have htake : (r ++ '=' :: (b :: s ++ y)).takeWhile isTargetChar = r := by
    rw [List.takeWhile_append_of_pos hr]
    simp [hstop]
  rw [List.cons_append, assignment?, if_pos ha, hdrop, htake]
  simp [trimStart, hblank, hequals, hspace]

theorem not_startsAssignment_of_isValueStart
    (hw : ∃ a r, w = a :: r ∧ isValueStart a = true) (y : Text) :
    (startsWith (w ++ y) ['$'] || startsAssignment (w ++ y)) = false := by
  obtain ⟨a, r, rfl, ha⟩ := hw
  obtain ⟨-, hname, -, hdollar⟩ := isValueStart_ne ha
  simp [startsWith, after?, Ne.symm hdollar, startsAssignment, assignment?, hname]

/-- The words of a line without a fragment, what they leave open, and the text in which
they are written again. -/
inductive Rereads (o : Options) : List Text → Carry → Text → Prop where
  | nil : Rereads o [] .closed []
  | remark {x : Text} {ys : List Text} : startsWith x ['$'] = true →
      EndsInInk (spaced (x :: ys)) → Rereads o (x :: ys) .closed (apart (x :: ys))
  | value {name w w' : Text} {ws : List Text} {c : Carry} {u : Text} : IsTarget name →
      Reads o name w .closed w' → Rereads o ws c u →
      Rereads o ((name ++ '=' :: w) :: ws) c (' ' :: (name ++ '=' :: w') ++ u)
  | opened {name w w' : Text} {c : Carry} : IsTarget name → c.isOpen = true →
      Reads o name w c w' → Rereads o [name ++ '=' :: w] c (' ' :: (name ++ '=' :: w'))

theorem stops_assigned (hn : IsTarget name)
    (hw : ∃ a r, w = a :: r ∧ isValueStart a = true) (y : Text) :
    Stops (' ' :: (name ++ '=' :: (w ++ y))) := by
  refine .inr ⟨_, rfl, .inr ?_⟩
  rw [startsAssignment, assignment?_written hn hw]
  rfl

theorem Rereads.stops (h : Rereads o ws c u) : Stops (apart ws) := by
  cases h with
  | nil => exact .inl rfl
  | remark hx _ =>
      obtain ⟨r, rfl⟩ := exists_cons_of_startsWith hx
      exact .inr ⟨_, rfl, .inl rfl⟩
  | value hn hw _ =>
      rw [apart_cons, List.append_assoc, List.cons_append]
      exact stops_assigned hn hw.starts _
  | opened hn _ hw =>
      rw [apart_cons, List.append_assoc, List.cons_append]
      exact stops_assigned hn hw.starts _

theorem readList_written (hn : IsTarget name) (h : Reads o name w c w') (hrest : Stops rest)
    (hopen : c.isOpen = true → rest = []) :
    ∃ v : Value, v.render = w' ∧ StartsValue v.text ∧
      ∀ passing, readList o passing (' ' :: (name ++ '=' :: (w ++ rest))) =
        if c.isOpen then { pieces := [.assign name v], carry := c }
        else (readList o false rest).cons (.assign name v) := by
  obtain ⟨v, hread, hv, hstarts⟩ := h.read rest hrest hopen
  refine ⟨v, hv, hstarts, fun passing => ?_⟩
  have hassign := assignment?_written hn h.starts rest
  obtain ⟨a, r, rfl, ha, -⟩ := hn
  have htrim : trimStart (' ' :: (a :: r ++ '=' :: (w ++ rest))) =
      a :: (r ++ '=' :: (w ++ rest)) := by
    have hblank : isSpace ' ' = true := rfl
    simp [trimStart, hblank, not_isSpace_of_isNameStart ha]
  rw [readList_assignment o passing htrim hassign, not_startsAssignment_of_isValueStart h.starts,
    if_neg (by simp), hread]

theorem leftover_of_remark (hx : startsWith t ['$'] = true) (ht : EndsInInk t) :
    leftover t = t := by
  obtain ⟨r, rfl⟩ := exists_cons_of_startsWith hx
  have htrim : trim ('$' :: r) = '$' :: r := by
    exact (startsInInk_cons rfl r).trim ht
  rw [leftover, htrim]
  rfl

theorem Rereads.readList (h : Rereads o ws c u) (passing : Bool) :
    (readList o passing (apart ws)).carry = c ∧ (readList o passing (apart ws)).empties = [] ∧
      apart ((readList o passing (apart ws)).pieces.map Piece.render) = u ∧
      ∀ name v, .assign name v ∈ (readList o passing (apart ws)).pieces → StartsValue v.text := by
  induction h generalizing passing with
  | nil =>
      rw [readList_nil o passing (t := apart []) rfl]
      exact ⟨rfl, rfl, rfl, nofun⟩
  | @remark x ys hx hink =>
      obtain ⟨r, rfl⟩ := exists_cons_of_startsWith hx
      have hleft := leftover_of_remark (t := spaced (('$' :: r) :: ys)) (by rw [spaced_cons]; rfl)
        hink
      rw [spaced_cons, List.cons_append] at hleft
      have hname : isName (token ('$' :: (r ++ apart ys))) = false := rfl
      rw [readList_word o passing (t := apart (('$' :: r) :: ys)) (c := '$') (r := r ++ apart ys)
        rfl rfl, hname, Bool.and_false, if_neg (by simp)]
      refine ⟨rfl, rfl, ?_, by simp⟩
      simp only [List.map_cons, List.map_nil, Piece.render, hleft, apart_cons]
      simp [apart]
  | @value name w w' ws c u hn hw hws ih =>
      obtain ⟨v, hv, hstarts, hread⟩ := readList_written hn hw hws.stops (by rintro ⟨⟩)
      obtain ⟨hcarry, hempties, hpieces, hvalues⟩ := ih false
      rw [apart_cons, List.append_assoc, List.cons_append, hread]
      refine ⟨hcarry, hempties, ?_, ?_⟩
      · change apart ((name ++ '=' :: v.render) :: _) = _
        rw [apart_cons, hpieces, hv]
        simp
      · intro name' v' hmem
        obtain heq | hmem := List.mem_cons.mp hmem
        · cases heq
          exact hstarts
        · exact hvalues name' v' hmem
  | @opened name w w' c hn hopen hw =>
      obtain ⟨v, hv, hstarts, hread⟩ := readList_written hn hw (.inl rfl) fun _ => rfl
      have happend : apart [name ++ '=' :: w] = ' ' :: (name ++ '=' :: (w ++ [])) := by
        simp [apart]
      rw [happend, hread, if_pos hopen]
      refine ⟨rfl, rfl, ?_, ?_⟩
      · simp [apart, Piece.render, hv]
      · intro name' v' hmem
        cases List.mem_singleton.mp hmem
        exact hstarts

theorem endsInInk_assigned (h : Reads o name w c w') : EndsInInk (' ' :: (name ++ '=' :: w)) := by
  obtain ⟨a, r, rfl, -⟩ := h.starts
  have happend : ' ' :: (name ++ '=' :: a :: r) = (' ' :: (name ++ ['='])) ++ a :: r := by simp
  rw [happend]
  exact h.ends.append (by simp) _

theorem Rereads.endsInInk (h : Rereads o ws c u) : EndsInInk (apart ws) := by
  induction h with
  | nil => exact nofun
  | @remark x ys hx hink =>
      obtain ⟨r, rfl⟩ := exists_cons_of_startsWith hx
      rw [spaced_cons] at hink
      exact hink.append (by simp) [' ']
  | @value name w w' ws c u hn hw hws ih =>
      have happend : apart ((name ++ '=' :: w) :: ws) =
          ' ' :: (name ++ '=' :: w) ++ apart ws := by simp [apart]
      rw [happend]
      by_cases hnil : apart ws = []
      · rw [hnil, List.append_nil]
        exact endsInInk_assigned hw
      · exact ih.append hnil _
  | @opened name w w' c hn hopen hw =>
      have hword : apart [name ++ '=' :: w] = ' ' :: (name ++ '=' :: w) := by simp [apart]
      rw [hword]
      exact endsInInk_assigned hw

theorem Rereads.startsInInk (h : Rereads o ws c u) : StartsInInk (spaced ws) := by
  cases h with
  | nil => exact nofun
  | remark hx _ =>
      obtain ⟨r, rfl⟩ := exists_cons_of_startsWith hx
      rw [spaced_cons]
      exact startsInInk_cons rfl _
  | value hn _ _ | opened hn _ _ =>
      obtain ⟨b, r, rfl, hb, -⟩ := hn
      rw [spaced_cons]
      exact startsInInk_cons (not_isSpace_of_isNameStart hb) _

theorem endsInInk_spaced (h : EndsInInk (apart ws)) : EndsInInk (spaced ws) := by
  cases ws with
  | nil => exact nofun
  | cons w ws =>
      rw [spaced_cons]
      exact h.suffix (List.suffix_cons ' ' _)

theorem trimStart_apart (h : StartsInInk (spaced ws)) : trimStart (apart ws) = spaced ws := by
  cases ws with
  | nil => rfl
  | cons w ws =>
      have hblank : trimStart (apart (w :: ws)) = trimStart (w ++ apart ws) := rfl
      rw [hblank, ← spaced_cons, h.trimStart]

/-- The part of a value that stands on a later line: `w` is taken up to its end by the
value left open, and leaves the second carry. -/
structure Resumes (c₀ : Carry) (w : Text) (c : Carry) : Prop where
  isOpen : c₀.isOpen = true
  ne_nil : c.isOpen = false → w ≠ []
  starts : StartsInInk w
  ends : EndsInInk w
  read : ∀ rest, (c.isOpen = true → rest = []) →
    ∃ v, resumeValue c₀ (w ++ rest) = ⟨v, c, rest⟩ ∧ v.render = w

/-- The words of a line, which may start with the rest of a value. -/
inductive RereadsLine (o : Options) : Carry → List Text → Carry → Text → Prop where
  | fresh {ws : List Text} {c : Carry} {u : Text} : Rereads o ws c u →
      RereadsLine o .closed ws c u
  | ended {c₀ : Carry} {w : Text} {ws : List Text} {c : Carry} {u : Text} :
      Resumes c₀ w .closed → Rereads o ws c u → RereadsLine o c₀ (w :: ws) c (' ' :: w ++ u)
  | continued {c₀ c : Carry} {w : Text} : c.isOpen = true → Resumes c₀ w c →
      RereadsLine o c₀ [w] c (' ' :: w)

theorem RereadsLine.trim (h : RereadsLine o c₀ ws c u) : trim (spaced ws) = spaced ws := by
  cases h with
  | fresh h => exact h.startsInInk.trim (endsInInk_spaced h.endsInInk)
  | @ended _ w ws _ _ hw h =>
      rw [spaced_cons]
      refine (hw.starts.append (hw.ne_nil rfl) _).trim ?_
      by_cases hnil : apart ws = []
      · rw [hnil, List.append_nil]
        exact hw.ends
      · exact h.endsInInk.append hnil w
  | continued _ hw =>
      rw [spaced_singleton]
      exact hw.starts.trim hw.ends

theorem allPieces_of_empties {l : Listing} (h : l.empties = []) : l.allPieces = l.pieces := by
  simp [Listing.allPieces, h]

theorem RereadsLine.readAssignments (h : RereadsLine o c₀ ws c u) (place : Placement) :
    (readAssignments o (spaced ws) place c₀).carry = c ∧
      apart ((readAssignments o (spaced ws) place c₀).pieces.map Piece.render) = u ∧
      ∀ name v, .assign name v ∈ (readAssignments o (spaced ws) place c₀).pieces →
        StartsValue v.text := by
  have htrim := h.trim
  simp only [Param.readAssignments, htrim]
  generalize hpassing : decide (place = Placement.subcircuitLocal) = passing
  cases h with
  | fresh h =>
      obtain ⟨hcarry, hempties, hpieces, hvalues⟩ := h.readList passing
      rw [← readList_trimStart, trimStart_apart h.startsInInk] at hcarry hempties hpieces hvalues
      simp only [Carry.isOpen, Bool.false_eq_true, if_false]
      rw [allPieces_of_empties hempties]
      exact ⟨hcarry, hpieces, hvalues⟩
  | @ended _ w ws _ u hw h =>
      obtain ⟨v, hread, hv⟩ := hw.read (apart ws) (by rintro ⟨⟩)
      obtain ⟨hcarry, hempties, hpieces, hvalues⟩ := h.readList passing
      rw [spaced_cons, if_pos hw.isOpen, hread]
      simp only [Carry.isOpen, Bool.false_eq_true, if_false]
      rw [allPieces_of_empties (l := Listing.cons _ _) hempties]
      refine ⟨hcarry, ?_, ?_⟩
      · change apart (v.render :: _) = _
        rw [apart_cons, hpieces, hv]
        rfl
      · intro name v' hmem
        obtain heq | hmem := List.mem_cons.mp hmem
        · cases heq
        · exact hvalues name v' hmem
  | @continued _ c w hopen hw =>
      obtain ⟨v, hread, hv⟩ := hw.read [] fun _ => rfl
      rw [List.append_nil] at hread
      rw [spaced_singleton, if_pos hw.isOpen, hread, if_pos hopen]
      refine ⟨rfl, ?_, by simp⟩
      simp [apart, Piece.render, hv]

/-- A second reading writes the words themselves exactly if their text is the same. -/
theorem RereadsLine.tail_eq_iff (h : RereadsLine o c₀ ws c u) :
    u.tail = spaced ws ↔ u = apart ws := by
  have hcons : ∀ w ws x, (' ' :: x).tail = spaced (w :: ws) ↔ ' ' :: x = apart (w :: ws) := by
    intro w ws x
    rw [spaced_cons, apart_cons]
    simp
  cases h with
  | fresh h =>
      cases h with
      | nil => simp [spaced, join, apart]
      | remark _ _ => exact hcons _ _ _
      | value _ _ _ => exact hcons _ _ _
      | opened _ _ _ => exact hcons _ _ _
  | ended _ _ => exact hcons _ _ _
  | continued _ _ => exact hcons _ _ _

theorem spaced_eq_tail (ws : List Text) : spaced ws = (apart ws).tail := by
  cases ws with
  | nil => rfl
  | cons w ws => rw [spaced_cons, apart_cons, List.tail_cons]

/-- The marker in front of a line that is written for one of the given form. -/
def LineForm.marker : LineForm → Marker
  | .statement => .param
  | .continuation => .plus
  | .assignments => .none

theorem setOff_inj {a b : Text} (h : setOff a = setOff b) : a = b := by
  cases a with
  | nil =>
      cases b with
      | nil => rfl
      | cons _ _ => cases h
  | cons _ _ =>
      cases b with
      | nil => cases h
      | cons _ _ => exact (List.cons.inj h).2

theorem render_marked {l : ParamLine} (h : l.marker ≠ .none) :
    l.render = l.marker.render ++ setOff (spaced (l.pieces.map Piece.render)) := by
  simp only [ParamLine.render, setOff]
  cases hm : l.marker with
  | none => exact absurd hm h
  | param | plus => split <;> simp

theorem trim_marked {m body : Text} (hm : m ≠ []) (hstart : StartsInInk m) (hend : EndsInInk m)
    (h : trim body = body) : trim (m ++ setOff body) = m ++ setOff body := by
  refine (hstart.append hm _).trim ?_
  cases body with
  | nil =>
      rw [setOff]
      simpa using hend
  | cons a r =>
      have hink : EndsInInk (a :: r) := h ▸ endsInInk_trim (a :: r)
      have happend : m ++ setOff (a :: r) = (m ++ [' ']) ++ a :: r := by simp [setOff]
      rw [happend]
      exact hink.append (by simp) _

theorem readStatement?_written (o : Options) (place : Placement) (c : Carry) {body : Text}
    (h : trim body = body) :
    readStatement? o (Marker.param.render ++ setOff body) place c =
      some ((readAssignments o body .topLevel c).withMarker .param) := by
  have htrim : trim (Marker.param.render ++ setOff body) = Marker.param.render ++ setOff body :=
    trim_marked (by decide) (startsInInk_cons rfl _) (endsInInk_concat rfl ".para".toList) h
  have hfold : afterFolded? ".param".toList (Marker.param.render ++ setOff body) =
      some (setOff body) := rfl
  have hafter : afterDotMarker? (Marker.param.render ++ setOff body) = some body := by
    rw [afterDotMarker?, hfold]
    cases body with
    | nil => rfl
    | cons a r =>
        have hstart : StartsInInk (a :: r) := by
          intro b hb
          rw [← h] at hb
          exact head?_trim b hb
        have hblank : trimStart (' ' :: a :: r) = trimStart (a :: r) := rfl
        exact congrArg some (hblank.trans hstart.trimStart)
  simp only [readStatement?, htrim, hafter]

theorem readContinuation_written (o : Options) (place : Placement) (c : Carry) {body : Text}
    (h : trim body = body) :
    readContinuation o (Marker.plus.render ++ setOff body) place c =
      (readAssignments o body place c).withMarker .plus := by
  have htrim : trim (Marker.plus.render ++ setOff body) = '+' :: setOff body :=
    trim_marked (by decide) (startsInInk_cons rfl _) (endsInInk_concat rfl []) h
  rw [readContinuation_plus o place c htrim]
  cases body with
  | nil => rfl
  | cons a r =>
      have hblank : trim (setOff (a :: r)) = trim (a :: r) := rfl
      simp only [readAssignments, hblank]

/-- The line of the given form that a reading starts with again. -/
def rewritten (form : LineForm) (l : ParamLine) : Source := ⟨form, l.render, .topLevel⟩

/-- A written line is read back with the carry that its words tell, and its text is the same
exactly if that of its words is. -/
theorem RereadsLine.read? {form : LineForm} {l : ParamLine} (hform : form ≠ .assignments)
    (hm : l.marker = form.marker)
    (h : RereadsLine o c₀ (l.pieces.map Piece.render) c u) :
    ∃ l', (rewritten form l).read? o c₀ = some l' ∧ l'.carry = c ∧
      (l'.render = l.render ↔ u = apart (l.pieces.map Piece.render)) := by
  have htrim := h.trim
  obtain ⟨hcarry, hpieces, -⟩ := h.readAssignments .topLevel
  have hnone : form.marker ≠ .none := by
    cases form with
    | assignments => exact absurd rfl hform
    | statement | continuation => nofun
  have hl : l.render = form.marker.render ++ setOff (spaced (l.pieces.map Piece.render)) := by
    rw [render_marked (hm ▸ hnone), hm]
  refine ⟨(Param.readAssignments o (spaced (l.pieces.map Piece.render)) .topLevel c₀).withMarker
    form.marker, ?_, hcarry, ?_⟩
  · rw [rewritten, hl]
    cases form with
    | assignments => exact absurd rfl hform
    | statement => exact readStatement?_written o .topLevel c₀ htrim
    | continuation => exact congrArg some (readContinuation_written o .topLevel c₀ htrim)
  · rw [← h.tail_eq_iff, ← hpieces, ← spaced_eq_tail, hl]
    have hl' := render_marked (l := (Param.readAssignments o (spaced (l.pieces.map Piece.render))
      .topLevel c₀).withMarker form.marker) hnone
    constructor
    · intro heq
      exact setOff_inj (List.append_cancel_left (hl'.symm.trans heq))
    · intro heq
      exact hl'.trans (congrArg (fun b => form.marker.render ++ setOff b) heq)

end Param
end SpiceDeck
