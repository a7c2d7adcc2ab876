import SpiceDeck.Proofs.Inert.Deletion
import SpiceDeck.Proofs.Remark.Scope

/-!
Comments behind code: a deck without them is converted to the same lines, up to their
remarks, with the same warnings, given that no statement takes a comment for a part of
its own.
-/

namespace SpiceDeck
open Text

namespace Line

/-- The text around a comment, which stays the same whatever the comment says. -/
theorem splitComment?_some {quoted : Bool} {t left right : Text}
    (h : splitComment? quoted t = some (left, right)) :
    t = left ++ '/' :: '/' :: right ∧ splitComment? quoted left = none ∧
      ∀ x, splitComment? quoted (left ++ '/' :: '/' :: x) = some (left, x) := by
  induction t generalizing quoted left with
  | nil => cases h
  | cons c r ih =>
      simp only [splitComment?] at h
      split at h
      · next hc =>
          obtain ⟨⟨a, b⟩, hr, hab⟩ := Option.map_eq_some_iff.mp h
          cases hab
          obtain ⟨heq, hnone, hany⟩ := ih hr
          refine ⟨by rw [heq]; rfl, by simp [splitComment?, hc, hnone], ?_⟩
          intro x
          simp [splitComment?, hc, hany x]
      · next hc =>
          split at h
          · next hslash =>
              cases h
              simp only [Bool.and_eq_true, Bool.not_eq_true', decide_eq_true_eq] at hslash
              obtain ⟨⟨rfl, rfl⟩, hr⟩ := hslash
              refine ⟨?_, rfl, fun x => rfl⟩
              rw [List.nil_append, List.cons_head?_tail (Option.mem_def.mpr hr)]
          · next hslash =>
              obtain ⟨⟨a, b⟩, hr, hab⟩ := Option.map_eq_some_iff.mp h
              cases hab
              obtain ⟨heq, hnone, hany⟩ := ih hr
              have hhead : ∀ x, (a ++ '/' :: x).head? = r.head? := by
                intro x
                rw [heq]
                cases a <;> rfl
              have hshort :
                  (!quoted && decide (c = '/') && decide (a.head? = some '/')) = false := by
                cases a with
                | nil => simp
                | cons d a =>
                    rw [← hhead []] at hslash
                    simpa using hslash
              refine ⟨by rw [heq]; rfl, by simp only [splitComment?, hc, hshort, hnone]; rfl, ?_⟩
              intro x
              rw [← hhead ('/' :: x)] at hslash
              simp only [List.cons_append, splitComment?, hc, if_false, hslash, hany x]
              rfl

theorem splitComment?_begins {quoted : Bool} {a b : Text}
    (h : splitComment? quoted (a ++ b) = none) : splitComment? quoted a = none := by
  cases ha : splitComment? quoted a with
  | none => rfl
  | some p =>
      obtain ⟨heq, -, hany⟩ := splitComment?_some ha
      rw [heq, List.append_assoc, List.cons_append, List.cons_append, hany] at h
      cases h

end Line

namespace Text

/-- A code line without the comment behind its code, which stays if it ends in a
backslash. -/
def uncommented (raw : Text) : Text :=
  if isSilent raw then raw
  else match Line.splitComment? false raw with
    | none => raw
    | some (left, right) => if (trimEnd right).getLast? = some '\\' then raw else left

def withoutComments (t : Text) : Text := join ['\n'] ((feedParts t).map uncommented)

/-- A comment that goes away, with what is before it. -/
theorem uncommented_cases (raw : Text) :
    uncommented raw = raw ∨ ∃ left right, Line.splitComment? false raw = some (left, right) ∧
      isSilent raw = false ∧ (trimEnd right).getLast? ≠ some '\\' ∧ uncommented raw = left := by
  simp only [uncommented]
  split
  · exact .inl rfl
  · next hs =>
      split
      · exact .inl rfl
      · next left right hsplit =>
          split
          · exact .inl rfl
          · next hlast => exact .inr ⟨left, right, hsplit, by simpa using hs, hlast, rfl⟩

theorem uncommented_begins (raw : Text) : uncommented raw <+: raw := by
  obtain h | ⟨left, right, hsplit, -, -, h⟩ := uncommented_cases raw
  · rw [h]
  · rw [h, (Line.splitComment?_some hsplit).1]
    exact List.prefix_append _ _

/-- What stands before a comment is code and starts as the line does. -/
theorem before_comment {left x : Text} (h : isSilent (left ++ '/' :: '/' :: x) = false) :
    isSilent left = false ∧ ∃ c r, trimStart left = c :: r ∧
      trimStart (left ++ '/' :: '/' :: x) = c :: (r ++ '/' :: '/' :: x) := by
  have hslash : isSpace '/' = false := by decide
  cases hl : trimStart left with
  | nil =>
      have hblank : ∀ c ∈ left, isSpace c = true := List.dropWhile_eq_nil_iff.mp hl
      have hall : trimStart (left ++ '/' :: '/' :: x) = '/' :: '/' :: x := by
        rw [trimStart, List.dropWhile_append_of_pos hblank]
        simp [hslash]
      simp [isSilent, hall] at h
  | cons c r =>
      have hall : trimStart (left ++ '/' :: '/' :: x) = c :: (r ++ '/' :: '/' :: x) := by
        rw [trimStart] at hl ⊢
        rw [List.dropWhile_append, hl]
        rfl
      refine ⟨?_, c, r, rfl, hall⟩
      simp only [isSilent, hall] at h
      simp only [isSilent, hl]
      split
      · next hnil => cases hnil
      · next heq => cases heq; simp at h
      · next heq => cases heq; simp at h
      · rfl

theorem isEmpty_uncommented (raw : Text) : (uncommented raw).isEmpty = raw.isEmpty := by
  obtain h | ⟨left, right, hsplit, hs, -, h⟩ := uncommented_cases raw
  · rw [h]
  · have hraw := (Line.splitComment?_some hsplit).1
    rw [hraw] at hs
    obtain ⟨-, c, r, hcr, -⟩ := before_comment hs
    have hne : left ≠ [] := by
      rintro rfl
      cases hcr
    rw [h, hraw, List.isEmpty_eq_false_iff.mpr hne, List.isEmpty_eq_false_iff.mpr (by simp)]

theorem feedParts_join {parts : List Text} (hne : parts ≠ []) (h : ∀ p ∈ parts, '\n' ∉ p) :
    feedParts (join ['\n'] parts) = parts := by
  induction parts with
  | nil => exact absurd rfl hne
  | cons p r ih =>
      have hp := feedParts_line (h p List.mem_cons_self)
      cases r with
      | nil => simpa [join] using hp
      | cons q r =>
          have hcons : join ['\n'] (p :: q :: r) = p ++ '\n' :: join ['\n'] (q :: r) := by
            simp [join]
          have hrest := ih (List.cons_ne_nil q r) fun x hx => h x (List.mem_cons_of_mem p hx)
          rw [hcons, feedParts, cut_append_sep rfl]
          exact congrArg₂ (· ++ ·) hp hrest

theorem feedParts_withoutComments (t : Text) :
    feedParts (withoutComments t) = (feedParts t).map uncommented := by
  refine feedParts_join (fun h => cut_ne_nil _ t (List.map_eq_nil_iff.mp h)) ?_
  intro p hp
  obtain ⟨raw, hraw, rfl⟩ := List.mem_map.mp hp
  exact fun hmem => feed_not_mem_of_mem_feedParts hraw ((uncommented_begins raw).subset hmem)

/-- The lines of two texts whose parts are related one by one. -/
theorem forall₂_lines {R : Text → Text → Prop} {t u : Text} {f : Text → Text}
    (hu : feedParts u = (feedParts t).map f) (hf : ∀ p, (f p).isEmpty = p.isEmpty)
    (hR : ∀ p ∈ feedParts t, R (dropReturn p) (dropReturn (f p)) ∧ R p (f p)) :
    List.Forall₂ R (lines t) (lines u) := by
  have hlines : ∀ t : Text, lines t = (feedParts t).dropLast.map dropReturn ++
      if ((feedParts t).getLast?.getD []).isEmpty then [] else [(feedParts t).getLast?.getD []] :=
    fun _ => rfl
  obtain ⟨last, hlast⟩ : ∃ last, (feedParts t).getLast? = some last :=
    Option.ne_none_iff_exists'.mp fun h => cut_ne_nil _ t (List.getLast?_eq_none_iff.mp h)
  rw [hlines, hlines, hu, List.getLast?_map, hlast, ← List.map_dropLast]
  refine List.rel_append ?_ ?_
  · rw [List.map_map, List.forall₂_map_left_iff, List.forall₂_map_right_iff]
    exact List.forall₂_same.mpr fun p hp => (hR p (List.mem_of_mem_dropLast hp)).1
  · simp only [Option.map_some, Option.getD_some, hf]
    split
    · exact .nil
    · exact .cons (hR last (List.mem_of_getLast? hlast)).2 .nil

end Text

namespace Line

/-- Whether the line after this one continues it. -/
def joins (raw : Text) : Bool := (dropBackslash (markComment (trimEnd raw))).2

theorem read_trimEnd {a b : Text} (h : trimEnd a = trimEnd b) (n : Nat) (joined : Bool) :
    read n joined a = read n joined b := by
  simp only [read, h]

theorem read_code {raw : Text} (h : isSilent raw = false) (n : Nat) (joined : Bool) :
    read n joined raw =
      (⟨n, .code (dropBackslash (markComment (trimEnd raw))).1
        (joined || (trimStart raw).head? == some '+')⟩, joins raw) := by
  obtain ⟨c, r, hcr⟩ : ∃ c r, trimStart raw = c :: r :=
    List.exists_cons_of_ne_nil fun hnil => by simp [isSilent, hnil] at h
  have hc : isSpace c = false := not_of_dropWhile_eq_cons hcr
  have htrim : trimStart (trimEnd raw) = c :: trimEnd r := by
    rw [trimStart_trimEnd, hcr, trimEnd_cons hc]
  have hsilent := isSilent_trimEnd raw
  rw [h] at hsilent
  simp only [isSilent, htrim] at hsilent
  simp only [read, htrim, hcr]
  generalize trimEnd r = w at hsilent
  split
  · next heq => cases heq
  · next heq => cases heq; simp at hsilent
  · next heq => cases heq; simp at hsilent
  · next heq => cases heq; rfl

theorem markComment_left {t left right : Text} (h : splitComment? false t = some (left, right)) :
    markComment (trimEnd left) = trimEnd left := by
  obtain ⟨x, hx⟩ := trimEnd_begins left
  have hnone : splitComment? false (trimEnd left) = none := by
    refine splitComment?_begins (b := x) ?_
    rw [hx, (splitComment?_some h).2.1]
  simp only [markComment, hnone]

theorem markComment_some {t left right : Text} (h : splitComment? false t = some (left, right)) :
    markComment (trimEnd t) = if (trim right).isEmpty then trimEnd left
      else trimEnd left ++ remark (' ' :: trim right) := by
  obtain ⟨ht, -, hany⟩ := splitComment?_some h
  have hslash : isSpace '/' = false := by decide
  have htrim : trimEnd t = left ++ '/' :: '/' :: trimEnd right := by
    rw [ht, trimEnd_append_cons hslash, trimEnd_cons hslash]
  have hright : trim (trimEnd right) = trim right := by
    rw [trim, trimStart_trimEnd]
    exact (endsInInk_trim right).trimEnd
  rw [markComment, htrim, hany]
  simp [hright, remark]

theorem dropBackslash_of_not {t : Text} (h : (dropBackslash t).2 = false) :
    dropBackslash t = (t, false) := by
  simp only [dropBackslash] at h ⊢
  split
  · next hlast => simp [hlast] at h
  · rfl

/-- A comment that ends in no backslash leaves none at the end of the line. -/
theorem dropBackslash_remark (code : Text) {right : Text} (hne : trim right ≠ [])
    (h : (trimEnd right).getLast? ≠ some '\\') :
    dropBackslash (code ++ remark (' ' :: trim right)) =
      (code ++ remark (' ' :: trim right), false) := by
  have hsuffix : trim right <:+ trimEnd right := by
    rw [trim, ← trimStart_trimEnd]
    exact List.dropWhile_suffix isSpace
  obtain ⟨u, hu⟩ := hsuffix
  have hlast : (trim right).getLast? = (trimEnd right).getLast? := by
    rw [← hu, List.getLast?_append_of_ne_nil _ hne]
  have hsplit : code ++ remark (' ' :: trim right) = (code ++ remark [' ']) ++ trim right := by
    simp [remark]
  refine if_neg ?_
  rw [hsplit, List.getLast?_append_of_ne_nil _ hne, hlast]
  exact h

/-- Lines that are read alike, up to a remark. -/
def ReadAlike (a b : Text) : Prop :=
  ∀ n joined, (read n joined a).1.Alongside (read n joined b).1 ∧
    (read n joined a).2 = (read n joined b).2

theorem readAlike_refl (a : Text) : ReadAlike a a := fun _ _ => ⟨.refl _, rfl⟩

theorem ReadAlike.dropReturn {a b : Text} (h : ReadAlike a b) :
    ReadAlike (dropReturn a) (dropReturn b) := by
  intro n joined
  rw [read_trimEnd (trimEnd_dropReturn a), read_trimEnd (trimEnd_dropReturn b)]
  exact h n joined

theorem readAlike_uncommented {raw : Text} (hfeed : '\n' ∉ raw)
    (hjoins : joins (uncommented raw) = joins raw) : ReadAlike raw (uncommented raw) := by
  obtain h | ⟨left, right, hsplit, hs, hlast, h⟩ := uncommented_cases raw
  · rw [h]
    exact readAlike_refl raw
  · have hraw := (splitComment?_some hsplit).1
    have hmark := markComment_some hsplit
    have hcode := markComment_left hsplit
    rw [hraw] at hs
    obtain ⟨hsleft, c, r, hcr, hall⟩ := before_comment hs
    rw [← hraw] at hs hall
    rw [h] at hjoins ⊢
    intro n joined
    rw [read_code hs, read_code hsleft, hjoins, hcr, hall, hcode]
    refine ⟨?_, rfl⟩
    by_cases hne : trim right = []
    · rw [if_pos (List.isEmpty_iff.mpr hne)] at hmark
      rw [hmark]
      exact .refl _
    · rw [if_neg (by simpa using hne)] at hmark
      have hdrop := dropBackslash_remark (trimEnd left) hne hlast
      have hleft : dropBackslash (trimEnd left) = (trimEnd left, false) := by
        refine dropBackslash_of_not ?_
        rw [joins, joins, hmark, hcode] at hjoins
        exact hjoins.trans (congrArg Prod.snd hdrop)
      rw [hmark, hdrop, hleft]
      refine .inr ⟨' ' :: trim right, rfl, ⟨_, _, rfl, rfl⟩, endsInInk_trimEnd left, ?_, ?_, ?_⟩
      · refine Param.isBlank_eq_false_iff.mpr ?_
        rw [text, trimStart_trimEnd, hcr, trimEnd_cons (not_of_dropWhile_eq_cons hcr)]
        exact List.cons_ne_nil _ _
      · exact endsInInk_blank_trim hne
      · intro hmem
        obtain hmem | hmem := List.mem_cons.mp hmem
        · cases hmem
        · have hright := (List.dropWhile_suffix isSpace).subset ((trimEnd_begins _).subset hmem)
          refine hfeed ?_
          rw [hraw]
          simp [hright]

theorem readFrom_alongside {xs ys : List Text} (h : List.Forall₂ ReadAlike xs ys) (n : Nat)
    (joined : Bool) :
    List.Forall₂ Line.Alongside (readFrom n joined xs) (readFrom n joined ys) := by
  induction h generalizing n joined with
  | nil => exact .nil
  | cons h _ ih =>
      obtain ⟨hline, hjoined⟩ := h n joined
      simp only [readFrom, hjoined]
      exact .cons hline (ih _ _)

theorem Alongside.continues {l m : Line} (h : l.Alongside m) : l.continues = m.continues := by
  obtain rfl | ⟨x, h⟩ := h
  · rfl
  · exact h.continues

theorem alongside_withoutComments {t : Text}
    (h : ∀ raw ∈ feedParts t, joins (uncommented raw) = joins raw) :
    List.Forall₂ Line.Alongside (ofText t) (ofText (withoutComments t)) := by
  refine readFrom_alongside ?_ 1 false
  refine forall₂_lines (feedParts_withoutComments t) isEmpty_uncommented ?_
  intro raw hraw
  have hread := readAlike_uncommented (feed_not_mem_of_mem_feedParts hraw) (h raw hraw)
  exact ⟨hread.dropReturn, hread⟩

end Line

namespace Item

theorem alongside_lines (ls : List Line) :
    List.Forall₂ Item.Alongside (ls.map .line) (ls.map .line) :=
  List.forall₂_map_left_iff.mpr (List.forall₂_map_right_iff.mpr
    (List.forall₂_same.mpr fun l _ => .line l))

theorem groupAfter_alongside {xs ys : List Line} (h : List.Forall₂ Line.Alongside xs ys)
    {s t : Statement} (hs : s.Alongside t) (pending : List Line) :
    List.Forall₂ Item.Alongside (groupAfter s pending xs) (groupAfter t pending ys) := by
  induction h generalizing s t pending with
  | nil => exact .cons (.statement hs) (alongside_lines pending)
  | @cons l m _ _ h _ ih =>
      simp only [groupAfter, h.isCode, h.continues]
      split
      · next hm =>
          rw [h.eq_of_passive (by simpa using hm)]
          exact ih hs _
      · split
        · have hpending : List.Forall₂ Line.Alongside pending pending :=
            List.forall₂_same.mpr fun l _ => .refl l
          have htail := List.rel_append (List.rel_append hs.tail hpending) (.cons h .nil)
          exact ih (s := { s with tail := s.tail ++ pending ++ [l] })
            (t := { t with tail := t.tail ++ pending ++ [m] }) ⟨hs.head, htail⟩ []
        · exact .cons (.statement hs) (List.rel_append (alongside_lines pending) (ih ⟨h, .nil⟩ []))

theorem group_alongside {xs ys : List Line} (h : List.Forall₂ Line.Alongside xs ys) :
    List.Forall₂ Item.Alongside (group xs) (group ys) := by
  induction h with
  | nil => exact .nil
  | @cons l m _ _ h hrest ih =>
      simp only [group, h.isCode]
      split
      · exact groupAfter_alongside hrest ⟨h, .nil⟩ []
      · next hm =>
          rw [h.eq_of_passive (by simpa using hm)]
          exact .cons (.line m) ih

end Item

namespace Conversion

/-- Comments behind code that no reader takes for code: they declare nothing, no backslash
stands before them, and each statement takes the remark it gets in their place. -/
structure CommentsApart (o : Options) (d : Dialect) (t : Text) : Prop where
  declarations : Symbols.scan (withoutComments t) = Symbols.scan t
  joins : ∀ raw ∈ feedParts t, Line.joins (uncommented raw) = Line.joins raw
  statements : Session.runTakesRemarks ⟨Symbols.scan t, o⟩ { dialect := d } (Item.ofText t)
    (Item.ofText (withoutComments t)) = true

instance (o : Options) (d : Dialect) (t : Text) : Decidable (CommentsApart o d t) :=
  decidable_of_iff
    (Symbols.scan (withoutComments t) = Symbols.scan t ∧
      (∀ raw ∈ feedParts t, Line.joins (uncommented raw) = Line.joins raw) ∧
      Session.runTakesRemarks ⟨Symbols.scan t, o⟩ { dialect := d } (Item.ofText t)
        (Item.ofText (withoutComments t)) = true)
    ⟨fun h => ⟨h.1, h.2.1, h.2.2⟩, fun h => ⟨h.declarations, h.joins, h.statements⟩⟩

theorem assemble_withoutComments {o : Options} {d : Dialect} {t : Text}
    (h : CommentsApart o d t) :
    (assemble o d t).Alongside (assemble o d (withoutComments t)) := by
  have hitems := Item.group_alongside (Line.alongside_withoutComments h.joins)
  rw [assemble, assemble, h.declarations]
  exact Session.run_alongside _ hitems ⟨rfl, .top, rfl⟩ h.statements

/-- Comments behind code that stand apart from it have no part in the conversion: without
them a deck gives the same warnings and the same lines, up to their remarks. -/
theorem ofText_withoutComments (o : Options) (hn : o.normalize = false) (d : Dialect) (t : Text)
    (h : CommentsApart o d t) :
    (ofText o d t).warnings = (ofText o d (withoutComments t)).warnings ∧
      (assemble o d t).lines.map withoutRemark =
        (assemble o d (withoutComments t)).lines.map withoutRemark ∧
      (ofText o d t).content = Deck.content (assemble o d t).lines ∧
      (ofText o d (withoutComments t)).content =
        Deck.content (assemble o d (withoutComments t)).lines := by
  have hdeck := assemble_withoutComments h
  simp only [ofText, hn, Bool.false_eq_true, if_false]
  refine ⟨hdeck.warnings, ?_, trivial, trivial⟩
  rw [← List.forall₂_eq_eq_eq, List.forall₂_map_left_iff, List.forall₂_map_right_iff]
  exact hdeck.lines.imp fun _ _ hline => hline.code

/-- The comment behind the brace keeps the block open. -/
example : ¬CommentsApart .raw .spectre "model dd diode \x7b\nis=1\n\x7d // end\n".toList := by
  decide +kernel

/-- A deck with a comment behind a parameter, a call, the lines of a model and of a block
and the end of a subcircuit. -/
def remarkedDeck : Text :=
  ("parameters a=1 // first\nsubckt inv (p q)\nt1 (p q) dd l=2 // short\nends inv // (done\n" ++
    "model dd diode // plain\n+ is=1 // current\n" ++
    "model nn bsim4 \x7b\nvth=1 // common\n1: lmin=2 // bin\n\x7d\n").toList

theorem ofText_remarkedDeck :
    withoutComments remarkedDeck =
        ("parameters a=1 \nsubckt inv (p q)\nt1 (p q) dd l=2 \nends inv \n" ++
          "model dd diode \n+ is=1 \nmodel nn bsim4 \x7b\nvth=1 \n1: lmin=2 \n\x7d\n").toList ∧
      (ofText .raw .spectre remarkedDeck).warnings =
        (ofText .raw .spectre (withoutComments remarkedDeck)).warnings ∧
      (assemble .raw .spectre remarkedDeck).lines.map withoutRemark =
        (assemble .raw .spectre (withoutComments remarkedDeck)).lines.map withoutRemark :=
  have h := ofText_withoutComments .raw rfl .spectre remarkedDeck (by decide +kernel)
  ⟨by decide +kernel, h.1, h.2.1⟩

end Conversion

end SpiceDeck
