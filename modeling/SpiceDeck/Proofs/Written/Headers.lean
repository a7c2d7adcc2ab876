import SpiceDeck.Proofs.Param.FirstAssignment
import SpiceDeck.Proofs.Written.Inside

/-!
Written headers that are read again. A header is written with the pins first, those of each line
on a line of their own, and its parameters below them. Main statement: where the first line of
parameters starts with an assignment, the pins and the parameters are told apart as they were.
-/

namespace SpiceDeck
open Text

namespace Header
variable {o : Options} {c : Carry} {raws ps : List Text} {p : Text} {h : Header}

/-- A pin that is read as it is written, and does not look like a parameter. -/
structure IsPin (p : Text) : Prop where
  ink : IsInk p
  noEquals : '=' ∉ p
  noParen : '(' ∉ p
  kept : pin? p = some p

instance (p : Text) : Decidable (IsPin p) :=
  decidable_of_iff ((!p.isEmpty && p.all (!isSpace ·)) = true ∧ '=' ∉ p ∧ '(' ∉ p ∧ pin? p = some p)
    ⟨fun h => ⟨(isInk_iff p).mpr h.1, h.2.1, h.2.2.1, h.2.2.2⟩,
      fun h => ⟨(isInk_iff p).mp h.ink, h.noEquals, h.noParen, h.kept⟩⟩

/-- The pins of a line are read from it. -/
theorem readBare_pins (o : Options) (hps : ∀ p ∈ ps, IsPin p) {pins : List (List Text)}
    (hne : ps ≠ [] ∨ pins = []) :
    readBare o ⟨pins, []⟩ false (spaced ps) = (⟨pins ++ [ps], []⟩, false) := by
  have hequals : '=' ∉ spaced ps := by
    intro hmem
    obtain heq | ⟨p, hp, hin⟩ := mem_spaced hmem
    · cases heq
    · exact (hps p hp).noEquals hin
  have hcut : (Param.cutAtAssignment? (spaced ps)).getD (spaced ps, []) = (spaced ps, []) := by
    rw [Param.cutAtAssignment?, cutFrom?_eq_none hequals]
    rfl
  have hpins : (words (spaced ps)).filterMap pin? = ps := by
    rw [words_spaced_of_ink fun p hp => (hps p hp).ink]
    conv_rhs => rw [← List.filterMap_some (l := ps)]
    exact List.filterMap_congr fun p hp => (hps p hp).kept
  have hcarry : (Continuation.carried []).isOpen = false := rfl
  have hkeep : (ps.isEmpty && !pins.isEmpty) = false := by
    obtain hne | rfl := hne
    · rw [List.isEmpty_eq_false_iff.mpr hne, Bool.false_and]
    · exact Bool.and_false _
  have hblank : isBlank [] = true := rfl
  simp only [readBare, hcarry, Bool.or_false, Bool.false_eq_true, if_false, hcut, hpins, hkeep,
    hblank, if_true]
  rfl

theorem readBareLines_pins (o : Options) {groups : List (List Text)}
    (hgroups : ∀ ps ∈ groups, ps ≠ [] ∧ ∀ p ∈ ps, IsPin p) {ls : List Line}
    (hls : ls.map Line.body = (groups.map (Param.marked .plus)).map Line.settledBody)
    (pins : List (List Text)) (more : List Line) :
    readBareLines o ⟨pins, []⟩ false (ls ++ more) =
      readBareLines o ⟨pins ++ groups, []⟩ false more := by
  induction groups generalizing ls pins with
  | nil =>
      rw [List.map_eq_nil_iff.mp hls, List.append_nil]
      rfl
  | cons ps r ih =>
      obtain ⟨l, ls, rfl, hl, hr⟩ := List.map_eq_cons_iff.mp hls
      obtain ⟨⟨hne, hps⟩, hgr⟩ := List.forall_mem_cons.mp hgroups
      have htrim : trim (spaced ps) = spaced ps := by
        obtain ⟨p, ps, rfl⟩ := List.exists_cons_of_ne_nil hne
        obtain ⟨hstart, hend⟩ := Call.ink_spaced fun p hp => (hps p hp).ink
        exact hstart.trim hend
      obtain ⟨hcode, hcontent⟩ := Param.code_marked_plus htrim hl
      rw [List.cons_append, readBareLines, if_pos hcode, hcontent,
        readBare_pins o hps (.inl hne)]
      simp only [ih hgr hr]
      rw [List.append_assoc]
      rfl

theorem carried_concat_params (xs : List Continuation) (l : ParamLine) :
    Continuation.carried (xs ++ [.params l]) = l.carry := by
  rw [Continuation.carried, List.filterMap_append]
  simp [Continuation.params?]

theorem carried_concat_verbatim (xs : List Continuation) (t : Text) :
    Continuation.carried (xs ++ [.verbatim t]) = Continuation.carried xs := by
  rw [Continuation.carried, List.filterMap_append]
  simp [Continuation.params?, Continuation.carried]

theorem cutAtAssignment?_starts {t : Text} (h : Param.startsAssignment t = true) :
    Param.cutAtAssignment? t = some ([], t) := by
  cases t with
  | nil => cases h
  | cons a r =>
      rw [Param.startsAssignment_cons] at h
      rw [Param.cutAtAssignment?, Param.cutFrom?, Bool.true_and, h, if_pos rfl]

/-- The text behind the plus sign of a written line. -/
def behindPlus (t : Text) : Text := trimStart (t.drop 1)

theorem behindPlus_marked {ws : List Text} (htrim : trim (spaced ws) = spaced ws) :
    behindPlus (Param.marked .plus ws) = spaced ws := Param.trimStart_setOff htrim

/-- Nothing is above the parameters that could be taken for pins. -/
def StartsParams (raws : List Text) : Prop :=
  ∀ t ∈ raws.find? (!isSilent ·), Param.startsAssignment (behindPlus t) = true

instance (raws : List Text) : Decidable (StartsParams raws) :=
  decidable_of_iff ((raws.find? (!isSilent ·)).all
    fun t => Param.startsAssignment (behindPlus t)) (Option.all_eq_true _ _)

/-- A line of parameters is read as such where none of its words can be a pin. -/
theorem readBare_params {inParams : Bool} {ws : List Text} (hne : spaced ws ≠ [])
    (htrim : trim (spaced ws) = spaced ws) (hpins : h.pins ≠ [])
    (hstarts : inParams = true ∨ Param.startsAssignment (spaced ws) = true) :
    h.readBare o inParams (spaced ws) =
      (h.push (.params ((Param.readAssignments o (spaced ws) .subcircuitLocal
        (Continuation.carried h.tail)).withMarker .plus)), true) := by
  have hblank : isBlank (spaced ws) = false := by
    rw [Param.isBlank_eq_false_iff, (Param.startsInInk_of_trim htrim).trimStart]
    exact hne
  have hpinsEmpty : h.pins.isEmpty = false := List.isEmpty_eq_false_iff.mpr hpins
  have hsplit : (if inParams || (Continuation.carried h.tail).isOpen then ([], spaced ws)
      else (Param.cutAtAssignment? (spaced ws)).getD (spaced ws, [])) = ([], spaced ws) := by
    obtain rfl | hassigns := hstarts
    · rfl
    · rw [cutAtAssignment?_starts hassigns]
      split <;> rfl
  have hnone : (words []).filterMap pin? = [] := rfl
  simp only [readBare, hsplit, hnone, hblank, hpinsEmpty, List.isEmpty_nil, Bool.not_false,
    Bool.and_self, if_true, Bool.false_eq_true, if_false]

/-- The parameters of a header are read back as they are written. -/
theorem readBareLines_below (hbelow : Param.Below o c raws) (inParams : Bool) {ls : List Line}
    (hls : ls.map Line.body = raws.map Line.settledBody) (hpins : h.pins ≠ [])
    (hcarry : Continuation.carried h.tail = c) (hfull : ∀ t ∈ raws, t ≠ ['+'])
    (hstarts : inParams = true ∨ c = .closed ∧ StartsParams raws) :
    ∃ cs, readBareLines o h inParams ls = { h with tail := h.tail ++ cs } ∧
      cs.map Continuation.render = raws ∧ Continuation.carried (h.tail ++ cs) = .closed := by
  induction hbelow generalizing h inParams ls with
  | nil =>
      rw [List.map_eq_nil_iff.mp hls]
      exact ⟨[], by rw [List.append_nil]; rfl, rfl, by rwa [List.append_nil]⟩
  | @silent c t r ht _ ih =>
      obtain ⟨l, ls, rfl, hl, hr⟩ := List.map_eq_cons_iff.mp hls
      have hcode : l.isCode = false := by rw [Line.isCode_settledBody hl, ht]; rfl
      have hstarts' : inParams = true ∨ c = .closed ∧ StartsParams r := by
        refine hstarts.imp_right (And.imp_right fun hfirst x hx => hfirst x ?_)
        rwa [List.find?_cons_of_neg (by rw [ht]; decide)]
      obtain ⟨cs, hread, hrender, hclosed⟩ := ih (h := h.push (.verbatim t)) inParams hr hpins
        ((carried_concat_verbatim _ _).trans hcarry)
        (fun x hx => hfull x (List.mem_cons_of_mem _ hx)) hstarts'
      refine ⟨.verbatim t :: cs, ?_, congrArg (t :: ·) hrender, ?_⟩
      · rw [readBareLines, hcode, if_neg Bool.false_ne_true, Line.verbatim_settledBody hl, hread]
        simp [push]
      · simpa [push] using hclosed
  | @params c c' ws r hws hr' ih =>
      obtain ⟨l, ls, rfl, hl, hr⟩ := List.map_eq_cons_iff.mp hls
      have htrim := Param.RereadsLine.trim hws
      obtain ⟨hcode, hcontent⟩ := Param.code_marked_plus htrim hl
      have hne : spaced ws ≠ [] := by
        intro hnil
        refine hfull _ List.mem_cons_self ?_
        rw [Param.marked, hnil]
        rfl
      have hassigns : inParams = true ∨ Param.startsAssignment (spaced ws) = true := by
        refine hstarts.imp_right fun hclosed => ?_
        have hcode : (!isSilent (Param.marked .plus ws)) = true := by
          rw [Param.marked, Marker.render, List.cons_append, Param.isSilent_plus]
          rfl
        have hfirst := hclosed.2 (Param.marked .plus ws) (List.find?_cons_of_pos hcode)
        rwa [behindPlus_marked htrim] at hfirst
      have hread := readBare_params (o := o) hne htrim hpins hassigns
      rw [hcarry] at hread
      have hnext : ((Param.readAssignments o (spaced ws) .subcircuitLocal c).withMarker
          .plus).carry = c' := hws.carry .subcircuitLocal
      obtain ⟨cs, hrest, hrender, hclosed⟩ := ih
        (h := h.push (.params ((Param.readAssignments o (spaced ws) .subcircuitLocal c).withMarker
            .plus))) true hr hpins ((carried_concat_params _ _).trans hnext)
        (fun x hx => hfull x (List.mem_cons_of_mem _ hx)) (.inl rfl)
      refine ⟨.params ((Param.readAssignments o (spaced ws) .subcircuitLocal c).withMarker .plus) ::
        cs, ?_, ?_, ?_⟩
      · rw [readBareLines, if_pos hcode, hcontent, hread]
        simp only [hrest]
        simp [push]
      · rw [List.map_cons, Continuation.render,
          hws.render .subcircuitLocal (m := .plus) (by decide), hrender]
      · simpa [push] using hclosed

end Header

namespace Subcircuit
variable {sub : Subcircuit}

/-- The lines of the pins below the first one. -/
def pinLines (sub : Subcircuit) : List Text :=
  ((sub.pins.drop 1).filter (!·.isEmpty)).map (Param.marked .plus)

/-- The name and the pins can be told apart, and the parameters from them. -/
structure HeaderRepeats (sub : Subcircuit) : Prop where
  name : IsInk sub.name
  noParen : '(' ∉ sub.name
  pins : ∀ ps ∈ sub.pins, ∀ p ∈ ps, Header.IsPin p
  full : ∀ t ∈ sub.header, t ≠ ['+']
  starts : Header.StartsParams sub.header

instance (sub : Subcircuit) : Decidable sub.HeaderRepeats :=
  decidable_of_iff ((!sub.name.isEmpty && sub.name.all (!isSpace ·)) = true ∧ '(' ∉ sub.name ∧
      (∀ ps ∈ sub.pins, ∀ p ∈ ps, Header.IsPin p) ∧ (∀ t ∈ sub.header, t ≠ ['+']) ∧
      Header.StartsParams sub.header)
    ⟨fun h => ⟨(isInk_iff _).mpr h.1, h.2.1, h.2.2.1, h.2.2.2.1, h.2.2.2.2⟩,
      fun h => ⟨(isInk_iff _).mp h.name, h.noParen, h.pins, h.full, h.starts⟩⟩

theorem marked_plus_of_ne_nil {ps : List Text} (h : spaced ps ≠ []) :
    Param.marked .plus ps = "+ ".toList ++ spaced ps := by
  have hempty : (spaced ps).isEmpty = false := List.isEmpty_eq_false_iff.mpr h
  rw [Param.marked, setOff, hempty]
  rfl

theorem spaced_ne_nil {w : Text} {ws : List Text} (hw : w ≠ []) : spaced (w :: ws) ≠ [] := by
  rw [spaced_cons]
  exact List.append_ne_nil_of_left_ne_nil hw _

/-- The line on which the header starts. -/
def firstLine (sub : Subcircuit) : Text :=
  spaced (".subckt".toList :: sub.name :: sub.pins.headD [])

theorem openingLines_eq (hpins : ∀ ps ∈ sub.pins, ∀ p ∈ ps, Header.IsPin p) :
    sub.openingLines = sub.firstLine :: sub.pinLines ++ sub.header := by
  have hlines : ((sub.pins.drop 1).filter (!·.isEmpty)).map (fun ps => "+ ".toList ++ spaced ps) =
      sub.pinLines := by
    refine List.map_congr_left fun ps hps => ?_
    obtain ⟨hmem, hne⟩ := List.mem_filter.mp hps
    obtain ⟨p, r, rfl⟩ := List.exists_cons_of_ne_nil (l := ps) (by simpa using hne)
    exact (marked_plus_of_ne_nil (spaced_ne_nil
      (hpins _ (List.mem_of_mem_drop hmem) p List.mem_cons_self).ink.1)).symm
  rw [openingLines, hlines]
  rfl

end Subcircuit

section Opening
variable {cx : Context} {d : Dialect} {family? : Text → Option Family} {sub : Subcircuit}
  {s : Statement} {name : Text} {ps tail : List Text}

theorem Head.subcircuitName?_written (hname : IsInk name) (hparen : '(' ∉ name)
    (hps : ∀ p ∈ ps, IsInk p) :
    subcircuitName? (apart (name :: ps)) = some (name, spaced ps) := by
  have hall : ∀ c ∈ name, (!(isSpace c || c == '(')) = true := by
    intro c hc
    have hne : c ≠ '(' := fun heq => hparen (heq ▸ hc)
    simp [hname.2 c hc, hne]
  have hstop : ∀ c ∈ (apart ps).head?, (!(isSpace c || c == '(')) = false := by
    intro c hc
    cases ps with
    | nil => cases hc
    | cons p r =>
        cases hc
        rfl
  have htake : (name ++ apart ps).takeWhile (fun c => !(isSpace c || c == '(')) = name := by
    rw [takeWhile_append_stop hstop, List.takeWhile_eq_self_iff.mpr hall]
  have hdrop : (name ++ apart ps).dropWhile (fun c => !(isSpace c || c == '(')) = apart ps := by
    rw [dropWhile_append_stop hstop, List.dropWhile_eq_nil_iff.mpr hall, List.nil_append]
  have htrim : trim (apart ps) = spaced ps := by
    cases ps with
    | nil => rfl
    | cons p r =>
        obtain ⟨hstart, hend⟩ := Call.ink_spaced hps
        rw [trim, Param.trimStart_apart hstart, hend.trimEnd]
  have hempty : name.isEmpty = false := List.isEmpty_eq_false_iff.mpr hname.1
  rw [apart_cons, subcircuitName?, afterSpaces?_ink hname]
  simp only [htake, hdrop, htrim, hempty, Bool.false_eq_true, if_false]

theorem Statement.kind_opening (hcode : s.head.isCode = true) (hname : IsInk name)
    (hparen : '(' ∉ name) (hps : ∀ p ∈ ps, Header.IsPin p)
    (h : s.head.content = spaced (".subckt".toList :: name :: ps)) (symbols : Symbols)
    (o : Options) (d : Dialect) :
    s.kind symbols o d = .subcircuitOpen { name, rest := spaced ps, form := .dotted } := by
  rw [spaced_cons] at h
  have hdotted : Head.IsLateDotted s.head.content := by
    rw [h]
    exact ⟨⟨_, rfl⟩, rfl, rfl⟩
  have hclose : ∀ spectre, Head.close? spectre s.head.content = none := by
    intro spectre
    rw [h]
    cases spectre <;> rfl
  have hafter : afterFolded? ".subckt".toList s.head.content = some (apart (name :: ps)) := by
    rw [h]
    rfl
  have hform : startsWith (spaced ps) ['('] = false := by
    cases ps with
    | nil => rfl
    | cons p r =>
        obtain ⟨hink, -, hnone, -⟩ := hps p List.mem_cons_self
        rw [spaced_cons]
        obtain ⟨a, u, rfl⟩ := List.exists_cons_of_ne_nil hink.1
        have hne : '(' ≠ a := fun heq => hnone (heq ▸ List.mem_cons_self)
        simp [startsWith, after?, hne]
  have hopens : ∀ spectre, Head.subcircuit? spectre s.head.content =
      some { name, rest := spaced ps, form := .dotted } := by
    intro spectre
    simp only [Head.subcircuit?, hafter, Option.bind_some,
      Head.subcircuitName?_written hname hparen fun p hp => (hps p hp).ink, Option.map_some,
      Option.some_or, hform, Bool.false_eq_true, if_false]
  simp only [kind_lateDotted hcode hdotted, hclose, hopens]
  rfl

theorem Statement.kind_closing (hcode : s.head.isCode = true)
    (h : s.head.content = ".ends ".toList ++ name) (symbols : Symbols) (o : Options) (d : Dialect) :
    ∃ n, s.kind symbols o d = .subcircuitClose n := by
  have hdotted : Head.IsLateDotted s.head.content := by
    rw [h]
    exact ⟨⟨_, rfl⟩, rfl, rfl⟩
  have hclose : ∀ spectre, Head.close? spectre s.head.content =
      some (Head.token? (trimStart (' ' :: name))) := by
    intro spectre
    rw [h]
    rfl
  refine ⟨Head.token? (trimStart (' ' :: name)), ?_⟩
  simp only [kind_lateDotted hcode hdotted, hclose]
  rfl

namespace Subcircuit

theorem continued_pinLines (sub : Subcircuit) :
    ∀ t ∈ sub.pinLines, isSilent t = false ∧ (trimStart t).head? = some '+' := by
  intro t ht
  obtain ⟨ps, -, rfl⟩ := List.mem_map.mp ht
  exact ⟨Param.isSilent_plus _, rfl⟩

theorem isStatement_opening {c : Carry} (htail : Param.Below cx.options c tail)
    (hends : ∀ t ∈ tail.getLast?, isSilent t = false) :
    IsStatement sub.firstLine (sub.pinLines ++ tail) := by
  have hfirst : sub.firstLine = ".subckt".toList ++ apart (sub.name :: sub.pins.headD []) :=
    spaced_cons _ _
  refine ⟨?_, ?_, ?_, ?_⟩
  · rw [hfirst]
    rfl
  · rw [hfirst]
    rintro ⟨⟩
  · exact List.forall_mem_append.mpr
      ⟨fun t ht => .inr (sub.continued_pinLines t ht).2, htail.continued⟩
  · intro t ht
    rw [List.getLast?_append, Option.mem_def, Option.or_eq_some_iff] at ht
    obtain ht | ⟨-, ht⟩ := ht
    · exact hends t ht
    · exact (sub.continued_pinLines t (List.mem_of_getLast? ht)).1

theorem HeaderRepeats.firstPins (hr : sub.HeaderRepeats) :
    ∀ p ∈ sub.pins.headD [], Header.IsPin p := by
  intro p hp
  have hpins := hr.pins
  cases hcons : sub.pins with
  | nil =>
      rw [hcons] at hp
      cases hp
  | cons ps r =>
      rw [hcons] at hp hpins
      exact hpins ps List.mem_cons_self p hp

theorem HeaderRepeats.otherPins (hr : sub.HeaderRepeats) :
    ∀ ps ∈ (sub.pins.drop 1).filter (!·.isEmpty), ps ≠ [] ∧ ∀ p ∈ ps, Header.IsPin p := by
  intro ps hps
  obtain ⟨hmem, hne⟩ := List.mem_filter.mp hps
  exact ⟨by simpa using hne, hr.pins ps (List.mem_of_mem_drop hmem)⟩

theorem HeaderRepeats.trim_firstLine (hr : sub.HeaderRepeats) :
    trim sub.firstLine = sub.firstLine := by
  have hink : ∀ w ∈ ".subckt".toList :: sub.name :: sub.pins.headD [], IsInk w :=
    List.forall_mem_cons.mpr ⟨(isInk_iff _).mpr rfl,
      List.forall_mem_cons.mpr ⟨hr.name, fun p hp => (hr.firstPins p hp).ink⟩⟩
  obtain ⟨hstart, hend⟩ := Call.ink_spaced hink
  exact hstart.trim hend

/-- A subcircuit with the pins in the same groups, the first of which stands on the first line. -/
theorem HeaderRepeats.openingLines_again (hr : sub.HeaderRepeats) (line : Nat) (tail : List Text) :
    openingLines
        { name := sub.name
          line := line
          pins := sub.pins.headD [] :: (sub.pins.drop 1).filter (!·.isEmpty)
          header := tail } =
      sub.firstLine :: (sub.pinLines ++ tail) := by
  rw [openingLines_eq
    (List.forall_mem_cons.mpr ⟨hr.firstPins, fun ps hps => (hr.otherPins ps hps).2⟩)]
  simp only [firstLine, pinLines, List.headD_cons, List.drop_one, List.tail_cons,
    List.filter_filter, Bool.and_self, List.cons_append]

/-- The header of a written subcircuit is read back. -/
theorem ofHead_opening (hr : sub.HeaderRepeats) (htail : Param.Below cx.options .closed tail)
    (hfull : ∀ t ∈ tail, t ≠ ['+']) (hstarts : Header.StartsParams tail) {ls : List Line}
    (hls : ls.map Line.body = (sub.pinLines ++ tail).map Line.settledBody) :
    ∃ cs, Header.ofHead cx.options
        { name := sub.name, rest := spaced (sub.pins.headD []), form := .dotted } ls =
          (⟨sub.pins.headD [] :: (sub.pins.drop 1).filter (!·.isEmpty), cs⟩, true) ∧
      (Continuation.close cs).map Continuation.render = tail ∧
      Continuation.carried cs = .closed := by
  rw [List.map_append, List.map_eq_append_iff] at hls
  obtain ⟨pinned, below, rfl, hpinned, hbelow⟩ := hls
  have hhead := Header.readBare_pins cx.options hr.firstPins
    (.inr (rfl : ([] : List (List Text)) = []))
  have hpins := Header.readBareLines_pins cx.options hr.otherPins hpinned [sub.pins.headD []] below
  obtain ⟨cs, hread, hrender, hclosed⟩ := Header.readBareLines_below htail false
    (h := ⟨[sub.pins.headD []] ++ (sub.pins.drop 1).filter (!·.isEmpty), []⟩) hbelow (by simp) rfl
    hfull (.inr ⟨rfl, hstarts⟩)
  rw [List.nil_append] at hclosed
  refine ⟨cs, ?_, by rw [Param.close_of_carried hclosed, hrender], hclosed⟩
  simp only [Header.ofHead, hhead, List.nil_append, hpins, hread]
  rfl

theorem StartsParams.of_append {ys : List Text} (h : Header.StartsParams (tail ++ ys)) :
    Header.StartsParams tail := by
  intro t ht
  refine h t ?_
  rw [List.find?_append, Option.mem_def.mp ht]
  rfl

end Subcircuit

namespace Scope
open Subcircuit

theorem startsAfresh_opening (hpins : ∀ ps ∈ sub.pins, ∀ p ∈ ps, Header.IsPin p) :
    Line.StartsAfresh sub.openingLines := by
  have hfirst : sub.firstLine = ".subckt".toList ++ apart (sub.name :: sub.pins.headD []) :=
    spaced_cons _ _
  rw [openingLines_eq hpins, hfirst]
  rintro t ⟨⟩
  nofun

/-- The header of a written subcircuit opens one with the same header. -/
theorem passes_opening (cx : Context) (d : Dialect) (family? : Text → Option Family)
    (hr : sub.HeaderRepeats) (hbelow : Param.Below cx.options .closed sub.header)
    (hs : Line.Settled sub.openingLines) (n : Nat) :
    ∃ next, Passes cx d .top n sub.openingLines (.body next) [] ∧ InBody next ∧
      next.name = sub.name ∧ next.upperLines cx family? = sub.openingLines := by
  obtain ⟨tail, after, heq, htail, hends, hafter⟩ := hbelow.split
  have hfull : ∀ t ∈ tail, t ≠ ['+'] := fun t ht => hr.full t (heq ▸ List.mem_append_left _ ht)
  have hstarts : Header.StartsParams tail := StartsParams.of_append (heq ▸ hr.starts)
  have hst : IsStatement sub.firstLine (sub.pinLines ++ tail) := isStatement_opening htail hends
  have hlines : sub.openingLines = sub.firstLine :: (sub.pinLines ++ tail) ++ after := by
    rw [openingLines_eq hr.pins, heq]
    simp
  rw [hlines] at hs ⊢
  obtain ⟨hsx, hsy⟩ := Line.settled_append.mp hs
  obtain ⟨b, out, hpasses, next, rfl, rfl, hbody, hname, hopening⟩ := passes_statement cx d .top
    (Q := fun b out => ∃ next : Subcircuit, b = .body next ∧ out = [] ∧
      InBody next ∧ next.name = sub.name ∧
        next.upperLines cx family? = sub.firstLine :: (sub.pinLines ++ tail)) hst hsx n (by
      intro s hreads
      obtain ⟨cs, hheader, hrender, hclosed⟩ := ofHead_opening hr htail hfull hstarts hreads.tail
      have hcontent : s.head.content = sub.firstLine := by
        rw [hreads.content hst, hr.trim_firstLine]
      have hcode : s.head.isCode = true := by
        rw [Line.isCode_settledBody hreads.head, hst.code]
        rfl
      refine ⟨_, Statement.kind_opening hcode hr.name hr.noParen hr.firstPins hcontent _ _ _, rfl,
        ?_⟩
      simp only [step, stepTop, enterSubcircuit, hheader, if_true, withHeader, hrender]
      refine ⟨_, rfl, lines_warnIf _ _ _, ⟨rfl, rfl⟩, rfl, ?_⟩
      rw [upperLines, List.flatMap_nil, List.append_nil, List.append_nil, List.nil_append]
      exact hr.openingLines_again s.number tail)
  have hmore : AddsLines cx d family? InBody after := addsLines_silent isAbove_inBody hafter
  obtain ⟨last, hrest, hlast, hname', hupper⟩ :=
    hmore.passes hsy (n + (sub.firstLine :: (sub.pinLines ++ tail)).length) next hbody
  refine ⟨last, ?_, hlast, hname'.trans hname, by rw [hupper, hopening]⟩
  exact hpasses.append hrest hsx hsy hmore.fresh

end Scope
end Opening
end SpiceDeck
