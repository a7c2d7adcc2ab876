import SpiceDeck.Proofs.Written.Steps

/-!
Decks that are converted twice. Main statement: where a deck is written as it will be read and
its written lines are settled, the second conversion writes the same text as the first.
-/

namespace SpiceDeck
open Text

theorem Line.silentApart_ofText (t : Text) : Param.SilentApart (Line.ofText t) := by
  intro l hl hcode
  obtain ⟨k, raw, joined, -, rfl⟩ := mem_readFrom hl
  cases hs : isSilent raw with
  | true =>
      rw [verbatim_read]
      exact isSilent_copied hs
  | false =>
      rw [isCode_read hs] at hcode
      cases hcode

theorem Item.silentApart_of_mem {t : Text} {item : Item} (h : item ∈ ofText t) :
    Param.SilentApart item.lines := by
  intro l hl
  refine Line.silentApart_ofText t l ?_
  rw [← flatMap_lines_group (Line.ofText t)]
  exact List.mem_flatMap.mpr ⟨item, h, hl⟩

namespace Session
variable {p : Rerun} {a : Session} {item : Item} {items : List Item} {s : Statement}

/-- An item keeps what is open sound, and what it writes is written again. -/
def Goes (p : Rerun) (x : Session × Deck) : Prop := Scope.Goes p (x.1.scope, x.2)

theorem silent_commented {ls : List Line} (hsilent : Param.SilentApart ls) :
    ∀ t ∈ ls.map commented, isSilent t = true := by
  intro t ht
  obtain ⟨l, hl, rfl⟩ := List.mem_map.mp ht
  rw [commented]
  split
  · rfl
  · next hcode => exact hsilent l hl (by simpa using hcode)

theorem goes_mute (h : a.scope.IsSound p) (hsilent : Param.SilentApart s.lines) :
    Goes p (a.mute s) := h.copyAll (silent_commented hsilent)

theorem goes_pushStatement (h : a.scope.IsSound p) (hsilent : Param.SilentApart s.lines)
    (hr : a.PushRepeats p (.statement s)) : Goes p (a.pushStatement p.first s) := by
  by_cases hstatistics : 0 < a.statistics
  · rw [pushStatement, if_pos hstatistics]
    exact goes_mute h hsilent
  · cases hreaches : reachesScope (s.kind p.first.symbols p.first.options a.dialect) with
    | true =>
        rw [pushStatement_step p.first hstatistics hreaches]
        refine Scope.goes_step h hsilent ?_ (hr (by omega) hreaches)
        exact fun text hkind => Statement.directive?_of_kind hkind
    | false =>
        rw [pushStatement, if_neg hstatistics]
        cases hkind : s.kind p.first.symbols p.first.options a.dialect with
        | simulator lang => exact Scope.goes_of_no_lines h rfl
        | statistics => exact goes_mute h hsilent
        | parameters | model _ | binHeader _ _ | blockClose | subcircuitClose _ | subcircuitOpen _
        | directive _ | deviceCall _ | other =>
            rw [hkind] at hreaches
            cases hreaches

theorem goes_push (h : a.scope.IsSound p) (hproper : item.IsProper)
    (hsilent : Param.SilentApart item.lines) (hr : a.PushRepeats p item) :
    Goes p (a.push p.first item) := by
  cases item with
  | statement s => exact goes_pushStatement h hsilent hr
  | line l =>
      have hcopy := h.copyAll
        (List.forall_mem_singleton.mpr (hsilent l List.mem_cons_self hproper))
      rw [← Scope.copy_eq_copyAll] at hcopy
      exact hcopy

/-- All lines that are written are written again as they stand. -/
theorem writesAgain_run (h : a.scope.IsSound p) (hproper : ∀ item ∈ items, item.IsProper)
    (hsilent : ∀ item ∈ items, Param.SilentApart item.lines) (hr : a.Repeats p items) :
    Scope.WritesAgain p.second p.dialect (a.run p.first items).lines := by
  induction items generalizing a with
  | nil => exact h.finish hr
  | cons item r ih =>
      obtain ⟨hfirst, hrest⟩ := List.forall_mem_cons.mp hproper
      obtain ⟨hlines, hmore⟩ := List.forall_mem_cons.mp hsilent
      have hgoes := goes_push h hfirst hlines hr.1
      exact hgoes.lines.append (ih hgoes.sound hrest hmore hr.2)

end Session

namespace Deck
variable {ls : List Text}

/-- Settled lines are read from their text. -/
theorem lines_content (hfeed : ∀ l ∈ ls, '\n' ∉ l) (hs : Line.Settled ls) (hne : content ls ≠ []) :
    Text.lines (content ls) = ls := by
  obtain ⟨v, hv, hcontent⟩ := (content_cases ls).resolve_left hne
  have hnil : ls ≠ [] := by
    rintro rfl
    exact hne rfl
  have hreturn : ls.map dropReturn = ls := by
    conv_rhs => rw [← List.map_id ls]
    refine List.map_congr_left fun l hl => ?_
    rw [← (Line.copied_eq_self_iff l).mpr (hs l hl), dropReturn_copied]
    rfl
  have hparts := (content_eq_iff hnil hfeed hv).mp hcontent
  rw [hcontent, lines_append_feed v [], ← hparts, hreturn]
  exact List.append_nil ls

end Deck

namespace Conversion
variable {o : Options} {d : Dialect} {t : Text}

/-- The conversion of a deck and that of its output. -/
def rerun (o : Options) (d : Dialect) (t : Text) : Rerun where
  options := o
  symbols := Symbols.scan t
  written := Symbols.scan (ofText o d t).content
  dialect := d

/-- A deck that is written as it will be read, with nothing in it for the final form to rename or
to scale. -/
structure Regular (o : Options) (d : Dialect) (t : Text) : Prop where
  items : Session.Repeats (rerun o d t) { dialect := d } (Item.ofText t)
  lines : ∀ l ∈ (assemble o d t).lines, '\n' ∉ l
  final : o.normalize = true →
    Deck.normalize o.multiplicityVar (assemble o d t).lines = (assemble o d t).lines

instance (o : Options) (d : Dialect) (t : Text) : Decidable (Regular o d t) :=
  decidable_of_iff
    (Session.Repeats (rerun o d t) { dialect := d } (Item.ofText t) ∧
      (∀ l ∈ (assemble o d t).lines, '\n' ∉ l) ∧ (o.normalize = true →
        Deck.normalize o.multiplicityVar (assemble o d t).lines = (assemble o d t).lines))
    ⟨fun h => ⟨h.1, h.2.1, h.2.2⟩, fun h => ⟨h.items, h.lines, h.final⟩⟩

theorem Regular.content (h : Regular o d t) :
    (ofText o d t).content = Deck.content (assemble o d t).lines := by
  simp only [ofText]
  split
  · next hn => rw [h.final hn]
  · rfl

theorem Regular.writesAgain (h : Regular o d t) :
    Scope.WritesAgain (rerun o d t).second d (assemble o d t).lines :=
  Session.writesAgain_run trivial (Item.isGrouping_group _).proper
    (fun _ => Item.silentApart_of_mem) h.items

/-- The second conversion of a regular deck leaves its settled lines as they are. -/
theorem Regular.assemble_again (h : Regular o d t) (hs : Line.Settled (assemble o d t).lines) :
    (ofText o d (Deck.content (assemble o d t).lines)).content =
      Deck.content (assemble o d t).lines := by
  by_cases hne : Deck.content (assemble o d t).lines = []
  · rw [hne]
    simp only [ofText]
    split <;> rfl
  · have hlines := Deck.lines_content h.lines hs hne
    have hcx : (rerun o d t).second =
        ⟨Symbols.scan (Deck.content (assemble o d t).lines), o⟩ := by
      rw [← h.content]
      rfl
    have hwrites := h.writesAgain
    rw [hcx] at hwrites
    obtain ⟨hlast, hemitted⟩ := hwrites.passes hs 1
    rw [Item.ofLines] at hlast hemitted
    have hagain : (assemble o d (Deck.content (assemble o d t).lines)).lines =
        (assemble o d t).lines := by
      rw [assemble, Session.lines_run, Item.ofText, Line.ofText, hlines, hlast, hemitted]
      exact List.append_nil _
    simp only [ofText, hagain]
    split
    · next hn => rw [h.final hn]
    · rfl

/-- The output of a regular deck is a fixed point where each of its lines is settled: it has no
blanks and no backslash at its end and no comment behind its code, and a comment of its own starts
at the margin with a star. -/
theorem ofText_ofText_of_regular (h : Regular o d t)
    (hs : ∀ l ∈ (assemble o d t).lines, Line.isSettled l = true) :
    (ofText o d (ofText o d t).content).content = (ofText o d t).content := by
  rw [h.content]
  exact h.assemble_again hs

/-- A deck with parameters, a model with a bin, and a subcircuit with calls and a model. -/
def cellDeck : Text :=
  Deck.content
    (["// cells", "parameters w0=1u", "+ l0=2*w0", "model nch bsim4 \x7b", "type=n",
      "1: vth0=0.4", "+ u0=0.03", "\x7d", "subckt inv (in out)", "parameters w=1u",
      "m1 (out in 0 0) nch w=w", "+ l=l0+w", "r2 (in out) resistor r=1k",
      "model dn diode is=1e-14", "d1 (out 0) dn area=2", "ends inv"].map String.toList)

/-- A deck with a comment inside a comment. -/
def twiceRemarkedDeck : Text := "parameters a=1 // x // y\n".toList

/-- Of two regular decks the one whose lines are settled is left as it is. -/
theorem ofText_ofText_of_regular_cellDeck :
    (ofText {} .spectre (ofText {} .spectre cellDeck).content).content =
        (ofText {} .spectre cellDeck).content ∧
      Regular {} .spectre twiceRemarkedDeck ∧
      (ofText {} .spectre (ofText {} .spectre twiceRemarkedDeck).content).content ≠
        (ofText {} .spectre twiceRemarkedDeck).content :=
  ⟨ofText_ofText_of_regular (o := {}) (d := .spectre) (by decide +kernel) (by decide +kernel),
    by decide +kernel, by decide +kernel⟩

end Conversion
end SpiceDeck
