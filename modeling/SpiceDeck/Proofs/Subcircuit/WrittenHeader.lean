import Mathlib.Data.List.Chain
import SpiceDeck.Proofs.Deck.Normal
import SpiceDeck.Proofs.Param.Rereading
import SpiceDeck.Proofs.Scope.Bracketing
import SpiceDeck.Proofs.Text.Words

/-!
Headers as they are written. The header of a subcircuit in a text is the opening line with the
lines that directly continue it. Main statement: in the text of a deck that starts with a
subcircuit without contents, it is the name of the subcircuit and its pins.
-/

namespace SpiceDeck
open Text

namespace Text
variable {t w : Text} {ws : List Text}

/-- An opening parenthesis stands only behind a blank. -/
def Detached (t : Text) : Prop := t.IsChain fun a b => b = '(' → isSpace a = true

theorem detached_of_not_mem (h : '(' ∉ t) : Detached t := by
  rw [Detached, List.isChain_iff_forall_rel_of_append_cons_cons]
  rintro a b before after rfl rfl
  simp at h

theorem Detached.of_mem_words (h : Detached t) (hw : w ∈ words t) : Detached w :=
  List.IsChain.infix h (infix_of_mem_runs hw)

theorem detached_cons_blank (h : Detached t) : Detached (' ' :: t) :=
  List.isChain_cons.mpr ⟨fun _ _ _ => rfl, h⟩

theorem detached_apart (h : ∀ w ∈ ws, Detached w) : Detached (apart ws) := by
  induction ws with
  | nil => exact .nil
  | cons w ws ih =>
      obtain ⟨hw, hws⟩ := List.forall_mem_cons.mp h
      refine List.isChain_append.mpr ⟨detached_cons_blank hw, ih hws, ?_⟩
      intro x _ y hy hparen
      cases ws with
      | nil => cases hy
      | cons v ws =>
          cases hy
          cases hparen

theorem detached_spaced (h : ∀ w ∈ ws, Detached w) : Detached (spaced ws) := by
  rw [Param.spaced_eq_tail]
  exact List.IsChain.infix (detached_apart h) (List.tail_suffix _).isInfix

theorem mem_spaced {c : Char} (hc : c ∈ spaced ws) : c = ' ' ∨ ∃ w ∈ ws, c ∈ w := by
  rw [Param.spaced_eq_tail] at hc
  obtain ⟨w, hw, hc⟩ := List.mem_flatMap.mp (List.mem_of_mem_tail hc)
  obtain rfl | hc := List.mem_cons.mp hc
  · exact .inl rfl
  · exact .inr ⟨w, hw, hc⟩

theorem words_spaced_of_ink (h : ∀ w ∈ ws, IsInk w) : words (spaced ws) = ws := by
  rw [words_spaced]
  induction ws with
  | nil => rfl
  | cons w ws ih =>
      obtain ⟨⟨hne, hink⟩, hws⟩ := List.forall_mem_cons.mp h
      rw [List.flatMap_cons, ih hws, words_eq_runs, runs_word hne hink]
      rfl

/-- No blank but the space itself. -/
def SingleLine (t : Text) : Prop := ∀ c ∈ t, isSpace c = true → c = ' '

theorem singleLine_spaced (h : ∀ w ∈ ws, IsInk w) : SingleLine (spaced ws) := by
  intro c hc hspace
  obtain rfl | ⟨w, hw, hcw⟩ := mem_spaced hc
  · rfl
  · rw [(h w hw).2 c hcw] at hspace
    cases hspace

theorem SingleLine.feedParts (h : SingleLine t) : feedParts t = [t] :=
  feedParts_line fun hmem => absurd (h '\n' hmem rfl) (by decide)

theorem SingleLine.dropReturn (h : SingleLine t) : dropReturn t = t := by
  rw [Text.dropReturn, if_neg]
  intro hlast
  exact absurd (h '\r' (List.mem_of_getLast? hlast) rfl) (by decide)

end Text

namespace Deck
variable {ls : List Text} {var : Text}

theorem map_dropReturn_feedParts (h : ∀ t ∈ ls, SingleLine t) :
    (ls.flatMap feedParts).map dropReturn = ls := by
  induction ls with
  | nil => rfl
  | cons l ls ih =>
      obtain ⟨hl, hls⟩ := List.forall_mem_cons.mp h
      rw [List.flatMap_cons, hl.feedParts, List.map_append, ih hls, List.map_singleton,
        hl.dropReturn]
      rfl

/-- The text of a deck starts with its first lines. -/
theorem lines_content_append {l : Text} (hl : l ≠ []) (h : ∀ t ∈ l :: ls, SingleLine t)
    (more : List Text) : ∃ after, Text.lines (content (l :: ls ++ more)) = l :: ls ++ after := by
  have hne : (join ['\n'] (l :: ls ++ more)).isEmpty = false := by
    rw [List.isEmpty_eq_false_iff]
    cases hrest : ls ++ more with
    | nil => simp [join, hrest, hl]
    | cons m r => simp [join, hrest]
  have hjoin : join ['\n'] (l :: ls ++ more) ++ ['\n'] =
      (l :: ls ++ more).flatMap (· ++ ['\n']) := join_append_sep ['\n'] (List.cons_ne_nil l _)
  have hlines := lines_flatMap (l :: ls ++ more) []
  rw [List.append_nil, ← hjoin, List.flatMap_append, List.map_append, map_dropReturn_feedParts h,
    List.append_assoc] at hlines
  refine ⟨_, Eq.trans ?_ hlines⟩
  simp only [content, hne, Bool.false_eq_true, if_false]

theorem not_detached_of_rootOf {t : Text} (h : (rootOf var t).isSome = true) : ¬ Detached t := by
  simp only [rootOf] at h
  split at h
  · cases h
  · next r hr =>
      rw [Param.after?_append hr, Detached, List.isChain_iff_forall_rel_of_append_cons_cons]
      intro hdetached
      have hsplit : "sqrt(".toList ++ r = "sqr".toList ++ 't' :: '(' :: r := rfl
      cases hdetached hsplit rfl

theorem occurs_of_detached {t : Text} (h : Detached t) (inWord : Bool) :
    occurs (rootOf var) inWord t = false := by
  induction t generalizing inWord with
  | nil => rfl
  | cons c r ih =>
      have hroot : (rootOf var (c :: r)).isSome = false :=
        Bool.eq_false_iff.mpr fun hroot => not_detached_of_rootOf hroot h
      rw [occurs, hroot, Bool.and_false, Bool.false_or]
      exact ih h.of_cons _

/-- Dotted commands and the lines that continue them are no device statements. -/
theorem renameFrom_dotted {letter : Char} {site : Pattern} {owner : Option Char}
    (hletter : letter ≠ '.') (howner : owner ≠ some letter)
    (h : ∀ line ∈ ls, lead line = none ∨ lead line = some '.' ∨ lead line = some '+')
    (more : List Text) :
    ∃ after, renameFrom letter site owner (ls ++ more) = ls ++ after := by
  induction ls generalizing owner with
  | nil => exact ⟨_, rfl⟩
  | cons line ls ih =>
      obtain ⟨hline, hls⟩ := List.forall_mem_cons.mp h
      have hnext : ownerAfter owner line ≠ some letter := by
        rw [ownerAfter_eq]
        obtain hlead | hlead | hlead := hline
        · rwa [hlead]
        · rw [hlead]
          exact fun heq => hletter (Option.some.inj heq).symm
        · rwa [hlead]
      obtain ⟨after, hafter⟩ := ih hnext hls
      refine ⟨after, ?_⟩
      rw [List.cons_append, renameFrom_cons, renameLine_of_ne hnext, hafter]
      rfl

/-- A subcircuit without roots in front of a deck stays as it is. -/
theorem normalize_circuit {c : Circuit} (hclosing : c.closing.isSome = true)
    (hroot : c.hasRoot var = false)
    (h : ∀ line ∈ c.lines, lead line = none ∨ lead line = some '.' ∨ lead line = some '+')
    (more : List Text) : ∃ after, normalize var (c.lines ++ more) = c.lines ++ after := by
  have hcloses : ∀ after : List Text,
      c.closing = none → after.head?.all opensSubcircuit = true := by
    intro after hnone
    rw [hnone] at hclosing
    cases hclosing
  obtain ⟨first, hfirst⟩ : ∃ after, rename 'd' perimeter (c.lines ++ more) = c.lines ++ after :=
    renameFrom_dotted (by decide) (Option.some_ne_none _).symm h more
  obtain ⟨last, hlast⟩ : ∃ after, rename 'r' coefficient (c.lines ++ scaleRoots var first) =
      c.lines ++ after := renameFrom_dotted (by decide) (Option.some_ne_none _).symm h _
  refine ⟨last, ?_⟩
  rw [normalize, hfirst, scaleRoots_circuit var c (hcloses first),
    c.scaled_of_not_hasRoot var hroot, hlast]

end Deck
namespace Header

/-- The words of an opening line and of the continuations that follow it. -/
def writtenWords : List Text → List Text
  | [] => []
  | l :: r =>
      words l ++ (r.takeWhile Deck.isContinuation).flatMap fun l => words (trimStart l).tail

/-- A subcircuit without contents, whose header is complete and sets no parameters. -/
def opened (name : Text) (line : Nat) (groups : List (List Text)) (k : Nat) : Subcircuit :=
  { name, line, pins := groups, header := List.replicate k ['+'] }

def continuedLines (groups : List (List Text)) (k : Nat) : List Text :=
  ((groups.drop 1).filter (!·.isEmpty)).map (fun pins => "+ ".toList ++ spaced pins) ++
    List.replicate k ['+']

def gap (name : Text) (groups : List (List Text)) (k : Nat) : List Text :=
  Subcircuit.gap (opened name 0 groups k).openingLines

section Lines
variable {name : Text} {groups : List (List Text)} {k : Nat} {l : Text}

theorem continuedLines_cases (hl : l ∈ continuedLines groups k) :
    l = ['+'] ∨ ∃ pins ∈ groups.drop 1, l = '+' :: ' ' :: spaced pins := by
  obtain hl | hl := List.mem_append.mp hl
  · obtain ⟨pins, hpins, rfl⟩ := List.mem_map.mp hl
    exact .inr ⟨pins, List.mem_of_mem_filter hpins, rfl⟩
  · exact .inl (List.eq_of_mem_replicate hl)

theorem lead_continuedLines (hl : l ∈ continuedLines groups k) : Deck.lead l = some '+' := by
  obtain rfl | ⟨pins, -, rfl⟩ := continuedLines_cases hl
  · rfl
  · rfl

theorem eq_nil_of_mem_gap (hl : l ∈ gap name groups k) : l = [] := by
  obtain hgap | hgap := Segment.gap_cases (opened name 0 groups k).openingLines
  · rw [gap, hgap] at hl
    cases hl
  · rw [gap, hgap] at hl
    exact List.mem_singleton.mp hl

def circuit (name : Text) (groups : List (List Text)) (k : Nat) : Deck.Circuit where
  opening := spaced (".subckt".toList :: name :: groups.headD [])
  inside := continuedLines groups k ++ gap name groups k
  closing := some (".ends ".toList ++ name)
  opens := by
    rw [spaced_cons_cons]
    rfl
  plain := by
    intro l hl
    apply Deck.isPlain_of_lead
    obtain hl | hl := List.mem_append.mp hl
    · rw [lead_continuedLines hl]
      decide
    · rw [eq_nil_of_mem_gap hl]
      decide
  closes := by
    rintro l ⟨⟩
    rfl

theorem lines_render (symbols : Symbols) (o : Options) (name : Text) (line : Nat)
    (groups : List (List Text)) (k : Nat) :
    ((opened name line groups k).render symbols o).lines = (circuit name groups k).lines := by
  have hof : ∀ ls : List Text, (Deck.ofLines ls).lines = ls := fun _ => rfl
  have hempty : (Deck.concat []).lines = [] := rfl
  simp only [Subcircuit.render, opened, List.map_nil, Deck.lines_append, hof, hempty,
    List.append_nil, List.append_assoc, Deck.Circuit.lines, circuit]
  rfl

theorem lead_circuit (hl : l ∈ (circuit name groups k).lines) :
    Deck.lead l = none ∨ Deck.lead l = some '.' ∨ Deck.lead l = some '+' := by
  obtain rfl | hl := List.mem_cons.mp hl
  · exact .inr (.inl (Deck.lead_of_opens (circuit name groups k).opens))
  · obtain hl | hl := List.mem_append.mp hl
    · obtain hl | hl := List.mem_append.mp hl
      · exact .inr (.inr (lead_continuedLines hl))
      · rw [eq_nil_of_mem_gap hl]
        exact .inl rfl
    · cases List.mem_singleton.mp hl
      exact .inr (.inl rfl)

theorem mem_flatten_of_mem_drop {pins : List Text} {w : Text} (hpins : pins ∈ groups.drop 1)
    (hw : w ∈ pins) : w ∈ groups.flatten :=
  List.mem_flatten_of_mem (List.mem_of_mem_drop hpins) hw

theorem hasRoot_circuit (var : Text) (h : ∀ w ∈ groups.flatten, Detached w) :
    (circuit name groups k).hasRoot var = false := by
  have hinside : ∀ l ∈ (circuit name groups k).inside, Detached l := by
    intro l hl
    obtain hl | hl := List.mem_append.mp hl
    · obtain rfl | ⟨pins, hpins, rfl⟩ := continuedLines_cases hl
      · exact .singleton _
      · have hspaced := detached_spaced fun w hw => h w (mem_flatten_of_mem_drop hpins hw)
        exact List.isChain_cons_cons.mpr ⟨nofun, detached_cons_blank hspaced⟩
    · rw [eq_nil_of_mem_gap hl]
      exact .nil
  rw [Deck.Circuit.hasRoot, List.any_eq_false]
  intro l hl
  rw [Deck.hasRoot, Deck.occurs_of_detached (hinside l hl), Bool.and_false]
  exact Bool.false_ne_true

theorem opening_ink (hname : IsInk name) (h : ∀ w ∈ groups.flatten, IsInk w) :
    ∀ w ∈ ".subckt".toList :: name :: groups.headD [], IsInk w := by
  have hkeyword : IsInk ".subckt".toList := (isInk_iff _).mpr rfl
  refine List.forall_mem_cons.mpr ⟨hkeyword, List.forall_mem_cons.mpr ⟨hname, ?_⟩⟩
  cases groups with
  | nil => exact nofun
  | cons g groups =>
      intro w hw
      exact h w (List.mem_append_left groups.flatten hw)

theorem singleLine_circuit (hname : IsInk name) (h : ∀ w ∈ groups.flatten, IsInk w)
    (hl : l ∈ (circuit name groups k).lines) : SingleLine l := by
  obtain rfl | hl := List.mem_cons.mp hl
  · exact singleLine_spaced (opening_ink hname h)
  · obtain hl | hl := List.mem_append.mp hl
    · obtain hl | hl := List.mem_append.mp hl
      · obtain rfl | ⟨pins, hpins, rfl⟩ := continuedLines_cases hl
        · exact List.forall_mem_singleton.mpr nofun
        · have hspaced := singleLine_spaced fun w hw => h w (mem_flatten_of_mem_drop hpins hw)
          exact List.forall_mem_cons.mpr ⟨nofun, List.forall_mem_cons.mpr ⟨fun _ => rfl, hspaced⟩⟩
      · rw [eq_nil_of_mem_gap hl]
        exact nofun
    · cases List.mem_singleton.mp hl
      have hspaced : ".ends ".toList ++ name = spaced [".ends".toList, name] := by
        rw [spaced_cons_cons, spaced_singleton]
        rfl
      have hkeyword : IsInk ".ends".toList := (isInk_iff _).mpr rfl
      rw [hspaced]
      exact singleLine_spaced
        (List.forall_mem_cons.mpr ⟨hkeyword, List.forall_mem_singleton.mpr hname⟩)

theorem words_continuedLines (h : ∀ w ∈ groups.flatten, IsInk w) (k : Nat) :
    (continuedLines groups k).flatMap (fun l => words (trimStart l).tail) =
      (groups.drop 1).flatten := by
  have hempty : (List.replicate k ['+']).flatMap (fun l => words (trimStart l).tail) = [] := by
    rw [List.flatMap_eq_nil_iff]
    intro l hl
    rw [List.eq_of_mem_replicate hl]
    rfl
  have hgroup : ∀ pins ∈ (groups.drop 1).filter (!·.isEmpty),
      words (trimStart ("+ ".toList ++ spaced pins)).tail = pins := by
    intro pins hmem
    have hblank : words (' ' :: spaced pins) = words (spaced pins) := runs_sep rfl _
    refine hblank.trans (words_spaced_of_ink fun w hw => h w ?_)
    exact mem_flatten_of_mem_drop (List.mem_of_mem_filter hmem) hw
  rw [continuedLines, List.flatMap_append, hempty, List.append_nil, List.flatMap_map,
    List.flatMap_congr hgroup, List.flatMap_id', List.flatten_filter_not_isEmpty]

theorem writtenWords_circuit (hname : IsInk name) (h : ∀ w ∈ groups.flatten, IsInk w)
    (more : List Text) :
    writtenWords ((circuit name groups k).lines ++ more) =
      ".subckt".toList :: name :: groups.flatten := by
  have hplus : ∀ l ∈ continuedLines groups k, Deck.isContinuation l = true := by
    intro l hl
    rw [Deck.isContinuation, lead_continuedLines hl]
    rfl
  have hstop : (gap name groups k ++ (".ends ".toList ++ name) :: more).takeWhile
      Deck.isContinuation = [] := by
    obtain hgap | hgap := Segment.gap_cases (opened name 0 groups k).openingLines
    · rw [gap, hgap]
      rfl
    · rw [gap, hgap]
      rfl
  have hlines : (circuit name groups k).lines ++ more =
      spaced (".subckt".toList :: name :: groups.headD []) :: (continuedLines groups k ++
        (gap name groups k ++ (".ends ".toList ++ name) :: more)) := by
    simp [Deck.Circuit.lines, circuit]
  have hsplit : groups.flatten = groups.headD [] ++ (groups.drop 1).flatten := by
    cases groups with
    | nil => rfl
    | cons g groups => rfl
  rw [hlines, writtenWords, List.takeWhile_append_of_pos hplus, hstop, List.append_nil,
    words_continuedLines h, words_spaced_of_ink (opening_ink hname h), hsplit]
  rfl

/-- A subcircuit at the front of a deck, in its final text. -/
theorem writtenWords_content (o : Options) (hname : IsInk name)
    (h : ∀ w ∈ groups.flatten, IsInk w ∧ Detached w) {lines more : List Text}
    (hlines : lines = (circuit name groups k).lines ++ more) :
    writtenWords (Text.lines (Deck.content
        (if o.normalize then Deck.normalize o.multiplicityVar lines else lines))) =
      ".subckt".toList :: name :: groups.flatten := by
  have hink : ∀ w ∈ groups.flatten, IsInk w := fun w hw => (h w hw).1
  have hfinal : ∃ after, (if o.normalize then Deck.normalize o.multiplicityVar lines else lines) =
      (circuit name groups k).lines ++ after := by
    rw [hlines]
    split
    · exact Deck.normalize_circuit rfl (hasRoot_circuit _ fun w hw => (h w hw).2)
        (fun l hl => lead_circuit hl) more
    · exact ⟨more, rfl⟩
  obtain ⟨after, hafter⟩ := hfinal
  have hopening : (circuit name groups k).opening ≠ [] := by
    change spaced (".subckt".toList :: name :: groups.headD []) ≠ []
    rw [spaced_cons_cons]
    exact nofun
  obtain ⟨rest, hrest⟩ := Deck.lines_content_append hopening
    (fun l hl => singleLine_circuit hname hink hl) after
  rw [hafter]
  exact (congrArg writtenWords hrest).trans (writtenWords_circuit hname hink rest)

end Lines
end Header
end SpiceDeck
