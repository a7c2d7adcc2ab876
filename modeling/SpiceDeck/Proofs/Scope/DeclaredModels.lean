import Mathlib.Data.List.Forall2
import SpiceDeck.Proofs.Model.Latest
import SpiceDeck.Proofs.Scope.Bracketing

/-!
Which models a subcircuit has. Models come from statements, from blocks and from the
bins of blocks, wherever those end. Main statement: at no time are there two models of
one name in an open subcircuit, and a subcircuit is written with the last model of each
name that was declared in it, in the order in which the names came up.
-/

namespace SpiceDeck
open Text

/-- The models that were declared, alone, in blocks or as bins of blocks, also those
that later ones replace. -/
def Kept.declared : List Kept → List Model
  | [] => []
  | .model m :: r => m :: declared r
  | .block base keyword n :: r =>
      Model.Block.declared base keyword n (partsAhead r) ++ declared r
  | .pins _ :: r | .header _ :: r | .line _ :: r | .call _ :: r | .part _ :: r => declared r

theorem Kept.isLatest_foldl_enter {ds xs : List Model} (h : IsLatest Model.key ds xs)
    (ks : List Kept) :
    IsLatest Model.key (ds ++ declared ks) ((models ks).foldl Model.enter xs) := by
  have henter : Model.enter = enterBy Model.key := by
    funext ms m
    exact Model.enter_eq_enterBy ms m
  induction ks generalizing ds xs with
  | nil =>
      rw [declared, List.append_nil]
      exact h
  | cons k r ih =>
      cases k with
      | model m =>
          have hm := ih (h.concat m)
          rw [List.append_assoc, ← henter] at hm
          exact hm
      | block base keyword n =>
          have hblock := (h.foldl _).trans (Model.Block.isLatest_modelsOf base keyword n
            (partsAhead r))
          have hr := ih hblock
          rw [List.append_assoc, ← henter, ← List.foldl_append] at hr
          exact hr
      | pins _ | header _ | line _ | call _ | part _ => exact ih h

namespace Subcircuit

def ownModels (s : Subcircuit) : List Model := s.models.filterMap Entry.item?

variable {s : Subcircuit} {name : Text} {line : Nat} {ks : List Kept}

theorem Keeps.isLatest (h : s.Keeps name line ks) :
    IsLatest Model.key (Kept.declared ks) s.ownModels := by
  rw [ownModels, h.models]
  exact Kept.isLatest_foldl_enter (IsLatest.nil Model.key) ks

def DistinctModels (s : Subcircuit) : Prop :=
  s.ownModels.Pairwise fun a b => sameName a.name b.name = false

theorem Keeps.distinctModels (h : s.Keeps name line ks) : s.DistinctModels := by
  have hkeys := List.pairwise_map.mp h.isLatest.nodup
  exact hkeys.imp fun hne => beq_eq_false_iff_ne.mpr hne

/-- The subcircuit is written with its models at the end, which are the last of each name
among those that were declared, in the order in which the names came up. -/
structure WritesLatest (cx : Context) (s : Subcircuit) (ks : List Kept) : Prop where
  lines : Segment.lines cx (.block s) =
    Segment.upperLines cx s ++ gap (Segment.upperLines cx s) ++
      s.models.flatMap (Segment.entryLines Model.render) ++ [".ends ".toList ++ s.name]
  latest : IsLatest Model.key (Kept.declared ks) s.ownModels

theorem Keeps.writesLatest (h : s.Keeps name line ks) (cx : Context) : s.WritesLatest cx ks where
  lines := by
    have hlower : Segment.lowerLines s = s.models.flatMap (Segment.entryLines Model.render) := by
      apply List.flatMap_congr
      intro e _
      cases e <;> rfl
    rw [Segment.lines, hlower]
  latest := h.isLatest

end Subcircuit

namespace Track

def keptAhead : List Track → List Kept
  | .keep k :: r => k :: keptAhead r
  | _ => []

/-- What each subcircuit keeps while it is open. -/
def subcircuits : List Track → List (List Kept)
  | [] => []
  | .enter _ _ :: r => keptAhead r :: subcircuits r
  | .keep _ :: r | .leave :: r => subcircuits r

theorem keptAhead_leave (ks : List Kept) (ts : List Track) :
    keptAhead (ks.map keep ++ leave :: ts) = ks := by
  induction ks with
  | nil => rfl
  | cons k r ih => exact congrArg (k :: ·) ih

theorem subcircuits_leave (ks : List Kept) (ts : List Track) :
    subcircuits (ks.map keep ++ leave :: ts) = subcircuits ts := by
  induction ks with
  | nil => rfl
  | cons k r ih => exact ih

end Track

def Segment.block? : Segment → Option Subcircuit
  | .block sub => some sub
  | .plain _ | .call _ => none

theorem Segment.Accounts.writesLatest {cx : Context} {segments : List Segment} {ts : List Track}
    (h : Accounts cx segments ts) :
    List.Forall₂ (Subcircuit.WritesLatest cx) (segments.filterMap block?)
      (Track.subcircuits ts) := by
  induction h with
  | nil => exact .nil
  | plain _ _ ih | call _ _ ih => exact ih
  | block hs _ _ ih =>
      rw [List.cons_append, Track.subcircuits, Track.keptAhead_leave, Track.subcircuits_leave]
      exact .cons (hs.writesLatest cx) ih

theorem Scope.Books.distinctModels {scope : Scope} {ts : List Track} {sub : Subcircuit}
    (h : scope.Books ts) (hheld : scope.held = some sub) : sub.DistinctModels := by
  cases h with
  | closed hnone =>
      rw [hnone] at hheld
      cases hheld
  | opened h =>
      cases scope with
      | top => cases h
      | pins _ | body _ =>
          cases hheld
          exact Subcircuit.Keeps.distinctModels h
      | model parent b =>
          cases parent with
          | none => cases h
          | some _ =>
              cases hheld
              obtain ⟨_, _, _, _, _, -, hs, -⟩ := h
              exact hs.distinctModels

namespace Session

theorem exists_books_last (cx : Context) (a : Session) (items : List Item) {ts : List Track}
    (h : a.scope.Books ts) : ∃ rest, (a.last cx items).scope.Books rest := by
  induction items generalizing a ts with
  | nil => exact ⟨ts, h⟩
  | cons item r ih =>
      obtain ⟨_, rest, -, hbooks, -⟩ := settles_push cx a item h
      exact ih (a.push cx item).1 hbooks

/-- The models of a subcircuit. Wherever a run stands, those of the open subcircuit differ
in their names. The output is a sequence of segments; a subcircuit among them is written
with its models behind all else, one for each name that was declared in it by a statement,
a block or a bin, in the order in which the names came up, and each as it was declared
last. -/
theorem run_writes_latest (cx : Context) (d : Dialect) (items : List Item) :
    (∀ sub, (last cx { dialect := d } items).scope.held = some sub → sub.DistinctModels) ∧
      (run cx { dialect := d } items).lines =
        (segments cx { dialect := d } items).flatMap (Segment.lines cx) ∧
      List.Forall₂ (Subcircuit.WritesLatest cx)
        ((segments cx { dialect := d } items).filterMap Segment.block?)
        (Track.subcircuits (tracks cx { dialect := d } items)) := by
  refine ⟨?_, (run_segments cx { dialect := d } items Scope.pending_top).1, ?_⟩
  · intro sub hheld
    obtain ⟨rest, hbooks⟩ := exists_books_last cx { dialect := d } items (.closed rfl)
    exact hbooks.distinctModels hheld
  · have haccounts : Segment.Accounts cx (segments cx { dialect := d } items)
        (tracks cx { dialect := d } items) :=
      accounts_run cx { dialect := d } items (.closed rfl)
    exact haccounts.writesLatest

/-- A name that is declared by a statement, by a bin, by a bin that is opened again, and in
another case; the block is interrupted and the subcircuit is never closed. -/
def redeclared : Text :=
  ("subckt a (x y)\n.model nch.1 nmos vto=1\nmodel NCH bsim4 \x7b type=n\n1: lmin=1\n" ++
    "2: lmin=2\n1: lmin=3\n.model nch.2 pmos vto=5\n").toList

theorem run_writes_latest_redeclared :
    (run ⟨{}, {}⟩ { dialect := .spectre } (Item.ofText redeclared)).lines =
        [".subckt a x y".toList, [], ".model NCH.1 nmos lmin=3".toList,
          ".model nch.2 pmos vto=5".toList, ".ends a".toList] ∧
      (∃ sub, (last ⟨{}, {}⟩ { dialect := .spectre } (Item.ofText redeclared)).scope.held =
        some sub ∧ sub.DistinctModels) ∧
      ∃ sub ks, (segments ⟨{}, {}⟩ { dialect := .spectre } (Item.ofText redeclared)).filterMap
          Segment.block? = [sub] ∧
        (Kept.declared ks).map Model.name =
          ["nch.1".toList, "NCH.1".toList, "NCH.2".toList, "NCH.1".toList, "nch.2".toList] ∧
        sub.WritesLatest ⟨{}, {}⟩ ks := by
  obtain ⟨hdistinct, -, hblocks⟩ :=
    run_writes_latest ⟨{}, {}⟩ .spectre (Item.ofText redeclared)
  have hopen : (last ⟨{}, {}⟩ { dialect := .spectre }
      (Item.ofText redeclared)).scope.held.isSome = true := by
    decide +kernel
  have hdeclared : (Track.subcircuits (tracks ⟨{}, {}⟩ { dialect := .spectre }
      (Item.ofText redeclared))).map (fun ks => (Kept.declared ks).map Model.name) =
        [["nch.1".toList, "NCH.1".toList, "NCH.2".toList, "NCH.1".toList, "nch.2".toList]] := by
    decide +kernel
  obtain ⟨sub, hsub⟩ := Option.isSome_iff_exists.mp hopen
  obtain ⟨ks, hks, hnames⟩ := List.map_eq_singleton_iff.mp hdeclared
  rw [hks] at hblocks
  obtain ⟨written, rest, hwritten, hrest, heq⟩ := List.forall₂_cons_right_iff.mp hblocks
  cases hrest
  refine ⟨by decide +kernel, ⟨sub, hsub, hdistinct sub hsub⟩, ?_⟩
  exact ⟨written, ks, heq, hnames, hwritten⟩

end Session

end SpiceDeck
