import SpiceDeck.Proofs.Inert.Deletion
import SpiceDeck.Proofs.Order.Agreement
import SpiceDeck.Proofs.Order.Renumber
import SpiceDeck.Proofs.Scope.Unterminated

/-!
The order of the parts of a deck does not matter. A deck is cut into parts of whole
statements, each of which closes what it opens; whatever the order of the parts, each of
them is written as it is written on its own, given the declarations of all of them.
-/

namespace SpiceDeck
open Text

theorem Text.lines_append {a : Text} (h : a.getLast? = some '\n') (b : Text) :
    lines (a ++ b) = lines a ++ lines b := by
  obtain ⟨t, rfl⟩ := List.getLast?_eq_some_iff.mp h
  have hends := lines_append_feed t []
  have hsplit := lines_append_feed t b
  have hnil : lines ([] : Text) = [] := rfl
  rw [hnil, List.append_nil] at hends
  rw [List.append_assoc, List.singleton_append, hsplit, hends]

namespace Line

/-- Whether the last code line among the given ones is joined to the next. -/
def joinedAfter (joined : Bool) (raws : List Text) : Bool :=
  raws.foldl (fun joined raw => (read 0 joined raw).2) joined

theorem read_renumber (n k : Nat) (joined : Bool) (raw : Text) :
    read (n + k) joined raw = ((read n joined raw).1.renumber (· + k), (read n joined raw).2) := by
  simp only [read]
  split <;> rfl

theorem readFrom_renumber (n k : Nat) (joined : Bool) (raws : List Text) :
    readFrom (n + k) joined raws = (readFrom n joined raws).map (renumber (· + k)) := by
  induction raws generalizing n joined with
  | nil => rfl
  | cons raw r ih =>
      have hnext : n + k + 1 = n + 1 + k := Nat.add_right_comm n k 1
      simp only [readFrom, read_renumber, hnext, ih, List.map_cons]

theorem readFrom_append (n : Nat) (joined : Bool) (xs ys : List Text) :
    readFrom n joined (xs ++ ys) =
      readFrom n joined xs ++ readFrom (n + xs.length) (joinedAfter joined xs) ys := by
  induction xs generalizing n joined with
  | nil => rfl
  | cons raw r ih =>
      have hjoined : (read n joined raw).2 = (read 0 joined raw).2 := by rw [read_number raw n 0]
      have hlength : n + (raw :: r).length = n + 1 + r.length := by
        rw [List.length_cons]
        omega
      simp only [List.cons_append, readFrom, ih, hlength, hjoined, joinedAfter, List.foldl_cons]

/-- Only the last code line can be joined to what follows. -/
theorem joinedAfter_false {raws : List Text} (hfeed : ∀ raw ∈ raws, '\n' ∉ raw)
    (h : ((raws.filter (!isSilent ·)).getLast?).all
      fun raw => (markComment (trimEnd raw)).getLast? != some '\\') :
    joinedAfter false raws = false := by
  induction raws using List.reverseRecOn with
  | nil => rfl
  | append_singleton r raw ih =>
      have hfold : joinedAfter false (r ++ [raw]) = (read 0 (joinedAfter false r) raw).2 := by
        simp only [joinedAfter, List.foldl_append, List.foldl_cons, List.foldl_nil]
      rw [hfold]
      cases hs : isSilent raw with
      | true =>
          rw [(read_silent hs (hfeed raw (by simp)) 0 _).2.2]
          refine ih (fun x hx => hfeed x (List.mem_append_left _ hx)) ?_
          simpa [hs] using h
      | false =>
          have hlast : (markComment (trimEnd raw)).getLast? ≠ some '\\' := by simpa [hs] using h
          have hcode := isCode_read hs 0 (joinedAfter false r)
          simp only [read] at hcode ⊢
          split
          · next hx => simp [hx, isCode] at hcode
          · next hx => simp [hx, isCode] at hcode
          · next hx => simp [hx, isCode] at hcode
          · simp [dropBackslash, hlast]

/-- The first code line, if there is one, starts a statement. -/
def startsAfresh (ls : List Line) : Bool := (ls.find? isCode).all (!·.continues)

theorem startsAfresh_append {xs ys : List Line} (hx : startsAfresh xs = true)
    (hy : startsAfresh ys = true) : startsAfresh (xs ++ ys) = true := by
  rw [startsAfresh, List.find?_append]
  cases h : xs.find? isCode with
  | none => exact hy
  | some l =>
      rw [startsAfresh, h] at hx
      exact hx

theorem startsAfresh_renumber (ρ : Nat → Nat) (ls : List Line) :
    startsAfresh (ls.map (renumber ρ)) = startsAfresh ls := by
  have hcode : isCode ∘ renumber ρ = isCode := rfl
  rw [startsAfresh, List.find?_map, hcode, startsAfresh]
  cases ls.find? isCode <;> rfl

end Line

namespace Item

theorem groupAfter_of_startsAfresh (s : Statement) (pending : List Line) {ys : List Line}
    (h : Line.startsAfresh ys = true) :
    groupAfter s pending ys = .statement s :: pending.map .line ++ group ys := by
  induction ys generalizing pending with
  | nil => simp [groupAfter, group]
  | cons l r ih =>
      cases hl : l.isCode with
      | false =>
          have hr : Line.startsAfresh r = true := by
            rw [Line.startsAfresh, List.find?_cons_of_neg (by simp [hl])] at h
            exact h
          simp [groupAfter, group, hl, ih (pending ++ [l]) hr]
      | true =>
          have hnew : l.continues = false := by
            rw [Line.startsAfresh, List.find?_cons_of_pos hl] at h
            simpa using h
          simp [groupAfter, group, hl, hnew]

theorem groupAfter_append (s : Statement) (pending xs : List Line) {ys : List Line}
    (h : Line.startsAfresh ys = true) :
    groupAfter s pending (xs ++ ys) = groupAfter s pending xs ++ group ys := by
  induction xs generalizing s pending with
  | nil => exact groupAfter_of_startsAfresh s pending h
  | cons l r ih =>
      simp only [List.cons_append, groupAfter, ih]
      split
      · rfl
      · split
        · rfl
        · simp only [List.append_assoc, List.cons_append]

/-- Grouping does not look behind the start of a statement. -/
theorem group_append (xs : List Line) {ys : List Line} (h : Line.startsAfresh ys = true) :
    group (xs ++ ys) = group xs ++ group ys := by
  induction xs with
  | nil => rfl
  | cons l r ih =>
      simp only [List.cons_append, group, groupAfter_append _ _ r h, ih]
      split <;> rfl

theorem groupAfter_renumber (ρ : Nat → Nat) (s : Statement) (pending ls : List Line) :
    groupAfter (s.renumber ρ) (pending.map (Line.renumber ρ)) (ls.map (Line.renumber ρ)) =
      (groupAfter s pending ls).map (renumber ρ) := by
  have hlines : ∀ pending : List Line, (pending.map (Line.renumber ρ)).map Item.line =
      (pending.map Item.line).map (renumber ρ) := by
    intro pending
    rw [List.map_map, List.map_map]
    rfl
  induction ls generalizing s pending with
  | nil => exact congrArg (_ :: ·) (hlines pending)
  | cons l r ih =>
      have hpassive := ih s (pending ++ [l])
      have hmore := ih { s with tail := s.tail ++ pending ++ [l] } []
      have hnew := ih { head := l } []
      simp only [Statement.renumber, List.map_append, List.map_cons, List.map_nil]
        at hpassive hmore hnew
      simp only [List.map_cons, groupAfter, Line.isCode_renumber, Line.continues_renumber, hlines,
        Statement.renumber, hpassive, hmore, hnew]
      split
      · rfl
      · split
        · rfl
        · rw [List.map_append, List.map_cons]
          rfl

theorem group_renumber (ρ : Nat → Nat) (ls : List Line) :
    group (ls.map (Line.renumber ρ)) = (group ls).map (renumber ρ) := by
  induction ls with
  | nil => rfl
  | cons l r ih =>
      simp only [List.map_cons, group, Line.isCode_renumber, ih]
      split
      · exact groupAfter_renumber ρ { head := l } [] r
      · rfl

end Item

theorem Deck.append_assoc (a b c : Deck) : a ++ b ++ c = a ++ (b ++ c) := by
  change Deck.mk (a.lines ++ b.lines ++ c.lines) (a.warnings ++ b.warnings ++ c.warnings) = _
  rw [List.append_assoc, List.append_assoc]
  rfl

namespace Session

/-- What is read after all is closed is written after it. -/
theorem run_append (cx : Context) (a : Session) (xs ys : List Item)
    (h : (a.last cx xs).scope = .top) :
    a.run cx (xs ++ ys) = a.run cx xs ++ (a.last cx xs).run cx ys := by
  induction xs generalizing a with
  | nil =>
      have hscope : a.scope = .top := h
      have hnil : a.run cx [] = {} := by rw [run, hscope]; rfl
      rw [hnil]
      rfl
  | cons item r ih =>
      simp only [List.cons_append, run, last, ih (a.push cx item).1 h]
      rw [Deck.append_assoc]

end Session

namespace Conversion

/-- The lines of a part of a deck on its own, under the given declarations. -/
def ownLines (cx : Context) (d : Dialect) (t : Text) : List Text :=
  (Session.run cx { dialect := d } (Item.ofText t)).lines

/-- A part that can stand anywhere in a deck: its last line is complete, its first code
line starts a statement and its last one ends one, and after it nothing is open and the
dialect is the one before it. -/
structure Detached (cx : Context) (d : Dialect) (t : Text) : Prop where
  ended : t.getLast? = some '\n'
  starts : Line.startsAfresh (Line.ofText t) = true
  ends : (((lines t).filter (!isSilent ·)).getLast?).all
    fun raw => (Line.markComment (trimEnd raw)).getLast? != some '\\'
  settled : Session.last cx { dialect := d } (Item.ofText t) = { dialect := d }

instance (cx : Context) (d : Dialect) (t : Text) : Decidable (Detached cx d t) :=
  decidable_of_iff
    (t.getLast? = some '\n' ∧ Line.startsAfresh (Line.ofText t) = true ∧
      ((((lines t).filter (!isSilent ·)).getLast?).all
        fun raw => (Line.markComment (trimEnd raw)).getLast? != some '\\') = true ∧
      Session.last cx { dialect := d } (Item.ofText t) = { dialect := d })
    ⟨fun h => ⟨h.1, h.2.1, h.2.2.1, h.2.2.2⟩, fun h => ⟨h.ended, h.starts, h.ends, h.settled⟩⟩

variable {cx : Context} {d : Dialect} {t : Text} {parts : List Text}

theorem Detached.ofText_append (h : Detached cx d t) (rest : Text) :
    Line.ofText (t ++ rest) =
      Line.ofText t ++ (Line.ofText rest).map (Line.renumber (· + (lines t).length)) := by
  have hjoined : Line.joinedAfter false (lines t) = false :=
    Line.joinedAfter_false (fun raw hraw => feed_not_mem_lines hraw) h.ends
  rw [Line.ofText, lines_append h.ended, Line.readFrom_append, hjoined, Line.readFrom_renumber]
  rfl

theorem startsAfresh_flatten (h : ∀ t ∈ parts, Detached cx d t) :
    Line.startsAfresh (Line.ofText parts.flatten) = true := by
  induction parts with
  | nil => rfl
  | cons t r ih =>
      have ht := h t List.mem_cons_self
      have hr := ih fun x hx => h x (List.mem_cons_of_mem t hx)
      rw [List.flatten_cons, ht.ofText_append]
      refine Line.startsAfresh_append ht.starts ?_
      rw [Line.startsAfresh_renumber]
      exact hr

/-- Detached parts are written one after the other. -/
theorem lines_run_flatten (h : ∀ t ∈ parts, Detached cx d t) :
    (Session.run cx { dialect := d } (Item.ofText parts.flatten)).lines =
      parts.flatMap (ownLines cx d) := by
  induction parts with
  | nil => rfl
  | cons t r ih =>
      have ht := h t List.mem_cons_self
      have hr : ∀ x ∈ r, Detached cx d x := fun x hx => h x (List.mem_cons_of_mem t hx)
      -- the lines of the other parts have higher numbers than on their own
      have hitems : Item.ofText (t ++ r.flatten) = Item.ofText t ++
          (Item.ofText r.flatten).map (Item.renumber (· + (lines t).length)) := by
        have hfresh : Line.startsAfresh
            ((Line.ofText r.flatten).map (Line.renumber (· + (lines t).length))) = true := by
          rw [Line.startsAfresh_renumber]
          exact startsAfresh_flatten hr
        rw [Item.ofText, ht.ofText_append, Item.group_append _ hfresh, Item.group_renumber]
        rfl
      have hrest := congrArg Deck.lines (Session.run_renumber (· + (lines t).length) cx
        { dialect := d } (Item.ofText r.flatten))
      have htop : (Session.last cx { dialect := d } (Item.ofText t)).scope = .top := by
        rw [ht.settled]
      rw [List.flatten_cons, hitems, Session.run_append cx _ _ _ htop, ht.settled,
        Deck.lines_append, List.flatMap_cons, ← ih hr]
      exact congrArg (ownLines cx d t ++ ·) hrest

theorem lines_flatten (h : ∀ t ∈ parts, Detached cx d t) :
    lines parts.flatten = parts.flatMap lines := by
  induction parts with
  | nil => rfl
  | cons t r ih =>
      rw [List.flatten_cons, lines_append (h t List.mem_cons_self).ended,
        ih fun x hx => h x (List.mem_cons_of_mem t hx), List.flatMap_cons]

/-- The parts of a deck may stand in any order, given that no model is declared with two
types: each part is written as on its own. -/
theorem ofText_perm (o : Options) (hn : o.normalize = false) (d : Dialect) (parts order : List Text)
    (hparts : ∀ t ∈ parts, Detached ⟨Symbols.scan parts.flatten, o⟩ d t)
    (hmodels : Symbols.Consistent (lines parts.flatten)) (horder : order.Perm parts) :
    (assemble o d order.flatten).lines =
        order.flatMap (ownLines ⟨Symbols.scan parts.flatten, o⟩ d) ∧
      (ofText o d order.flatten).content =
        Deck.content (order.flatMap (ownLines ⟨Symbols.scan parts.flatten, o⟩ d)) := by
  have hdetached : ∀ t ∈ order, Detached ⟨Symbols.scan parts.flatten, o⟩ d t :=
    fun t ht => hparts t (horder.mem_iff.mp ht)
  have hperm : (lines parts.flatten).Perm (lines order.flatten) := by
    rw [lines_flatten hparts, lines_flatten hdetached]
    exact horder.symm.flatMap_right lines
  have hlines : (assemble o d order.flatten).lines =
      order.flatMap (ownLines ⟨Symbols.scan parts.flatten, o⟩ d) := by
    rw [assemble, Symbols.scan, Session.run_agree (Symbols.agree_of_perm hperm hmodels) o]
    exact lines_run_flatten hdetached
  refine ⟨hlines, ?_⟩
  simp only [ofText, hn, Bool.false_eq_true, if_false, hlines]

/-- A call, the subcircuit it refers to and a model that the subcircuit refers to. -/
def callFirst : List Text :=
  [ "* top\nx1 a b inv // first\n".toList, "subckt inv (p q)\nt1 (p q) dd\nends inv\n\n".toList,
    "model dd diode\n+ is=1\n".toList ]

theorem ofText_perm_callFirst :
    (ofText .raw .spectre callFirst.reverse.flatten).content =
      Deck.content
        [ ".model dd d".toList, "+ is=1".toList, ".subckt inv p q".toList, "dt1 p q dd".toList, [],
          ".ends inv".toList, [], "* top".toList, "x1 a b inv $ first".toList ] := by
  have h := (ofText_perm .raw rfl .spectre callFirst callFirst.reverse (by decide +kernel)
    (by decide +kernel) (List.reverse_perm callFirst)).2
  rw [h]
  decide +kernel

end Conversion

end SpiceDeck
