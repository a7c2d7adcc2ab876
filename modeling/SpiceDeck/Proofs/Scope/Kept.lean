import SpiceDeck.Proofs.Model.Parts
import SpiceDeck.Proofs.Scope.Given

/-!
What a subcircuit keeps, line by line: pins, lines of the header, other lines, calls,
models, and the parts of model blocks. Nothing that it was given is lost or kept twice;
of the models with one name the last one stays, in the place of the first.
-/

namespace SpiceDeck
open Text

/-- What an open subcircuit is given to keep. -/
inductive Kept where
  | pins (names : List Text)
  | header (t : Text)
  /-- A line of the body, or one that is put next to what was read before it. -/
  | line (t : Text)
  | call (c : Call)
  | model (m : Model)
  /-- The start of a model block, which has the parts that follow. -/
  | block (base keyword : Text) (line : Nat)
  | part (p : Model.Block.Part)
  deriving DecidableEq

namespace Kept

def pins? : Kept → Option (List Text)
  | .pins names => some names
  | _ => none

def header? : Kept → Option Text
  | .header t => some t
  | _ => none

def line? : Kept → Option Text
  | .line t => some t
  | _ => none

def call? : Kept → Option Call
  | .call c => some c
  | _ => none

/-- The parts at the front. -/
def partsAhead : List Kept → List Model.Block.Part
  | .part p :: r => p :: partsAhead r
  | _ => []

def models : List Kept → List Model
  | [] => []
  | .model m :: r => m :: models r
  | .block base keyword n :: r =>
      Model.Block.modelsOf base keyword n (partsAhead r) ++ models r
  | .pins _ :: r | .header _ :: r | .line _ :: r | .call _ :: r | .part _ :: r => models r

variable {ks ls : List Kept}

theorem partsAhead_append (h : partsAhead ls = []) : partsAhead (ks ++ ls) = partsAhead ks := by
  induction ks with
  | nil => exact h
  | cons k r ih =>
      cases k with
      | part p => exact congrArg (p :: ·) ih
      | pins _ | header _ | line _ | call _ | model _ | block _ _ _ => rfl

/-- What does not start with a part adds to no block before it. -/
theorem models_append (h : partsAhead ls = []) : models (ks ++ ls) = models ks ++ models ls := by
  induction ks with
  | nil => rfl
  | cons k r ih =>
      cases k with
      | model m => exact congrArg (m :: ·) ih
      | block base keyword n =>
          simp only [List.cons_append, models, partsAhead_append h, ih, List.append_assoc]
      | pins _ | header _ | line _ | call _ | part _ => exact ih

theorem partsAhead_map_part (ps : List Model.Block.Part) : partsAhead (ps.map .part) = ps := by
  induction ps with
  | nil => rfl
  | cons p r ih => exact congrArg (p :: ·) ih

theorem models_map_part (ps : List Model.Block.Part) : models (ps.map .part) = [] := by
  induction ps with
  | nil => rfl
  | cons p r ih => exact ih

/-- Things that are neither models nor parts of them. -/
def isPlain : Kept → Bool
  | .pins _ | .header _ | .line _ | .call _ => true
  | .model _ | .block _ _ _ | .part _ => false

theorem partsAhead_of_isPlain (h : ls.all isPlain = true) : partsAhead ls = [] := by
  cases ls with
  | nil => rfl
  | cons k r =>
      cases k with
      | part p => cases h
      | pins _ | header _ | line _ | call _ | model _ | block _ _ _ => rfl

theorem models_of_isPlain (h : ls.all isPlain = true) : models ls = [] := by
  induction ls with
  | nil => rfl
  | cons k r ih =>
      cases k with
      | model _ | block _ _ _ | part _ => cases h
      | pins _ | header _ | line _ | call _ => exact ih h

end Kept

def Entry.text? {α : Type} : Entry α → Option Text
  | .item _ => none
  | .verbatim t => some t

theorem texts_append_verbatim {α : Type} (es : List (Entry α)) (ts : List Text) :
    (es ++ ts.map Entry.verbatim).filterMap Entry.text? = es.filterMap Entry.text? ++ ts := by
  rw [List.filterMap_append, List.filterMap_map]
  exact congrArg _ List.filterMap_some

namespace Subcircuit

/-- The lines that stand outside of header, calls and models. -/
def looseLines (s : Subcircuit) : List Text :=
  s.body ++ (s.calls.filterMap Entry.text? ++ s.models.filterMap Entry.text?)

/-- The subcircuit was entered under this name on this line and keeps all that it was
given since: pins, header lines and calls in order, and the models of the last
declaration of each name. -/
structure Keeps (s : Subcircuit) (name : Text) (line : Nat) (ks : List Kept) : Prop where
  name : s.name = name
  line : s.line = line
  pins : s.pins = ks.filterMap Kept.pins?
  header : s.header = ks.filterMap Kept.header?
  loose : s.looseLines.Perm (ks.filterMap Kept.line?)
  calls : s.calls.filterMap Entry.item? = ks.filterMap Kept.call?
  models : s.models.filterMap Entry.item? = (Kept.models ks).foldl Model.enter []

variable {s : Subcircuit} {name : Text} {line : Nat} {ks : List Kept}

theorem texts_insertModel (m : Model) (es : List (Entry Model)) :
    (insertModel m es).filterMap Entry.text? = es.filterMap Entry.text? := by
  induction es with
  | nil => rfl
  | cons e r ih =>
      cases e with
      | verbatim t => exact congrArg (t :: ·) ih
      | item old =>
          simp only [insertModel]
          split
          · rfl
          · exact ih

theorem looseLines_copyLines (s : Subcircuit) (ts : List Text) :
    (s.copyLines ts).looseLines.Perm (s.looseLines ++ ts) := by
  simp only [copyLines]
  split
  · simp only [looseLines, texts_append_verbatim, List.append_assoc]
    exact .refl _
  · split
    · simp only [looseLines, texts_append_verbatim, List.append_assoc]
      exact .append_left _ (.append_left _ List.perm_append_comm)
    · simp only [looseLines, List.append_assoc]
      refine .append_left _ ?_
      rw [← List.append_assoc (s.calls.filterMap _)]
      exact List.perm_append_comm

theorem Keeps.append (h : s.Keeps name line ks) {t : Subcircuit} {ls : List Kept}
    (hname : t.name = s.name) (hline : t.line = s.line)
    (hpins : t.pins = s.pins ++ ls.filterMap Kept.pins?)
    (hheader : t.header = s.header ++ ls.filterMap Kept.header?)
    (hloose : t.looseLines.Perm (s.looseLines ++ ls.filterMap Kept.line?))
    (hcalls : t.calls.filterMap Entry.item? =
      s.calls.filterMap Entry.item? ++ ls.filterMap Kept.call?)
    (hmodels : t.models.filterMap Entry.item? =
      (Kept.models ls).foldl Model.enter (s.models.filterMap Entry.item?))
    (hparts : Kept.partsAhead ls = []) : t.Keeps name line (ks ++ ls) where
  name := hname.trans h.name
  line := hline.trans h.line
  pins := by rw [hpins, h.pins, List.filterMap_append]
  header := by rw [hheader, h.header, List.filterMap_append]
  loose := by
    rw [List.filterMap_append]
    exact hloose.trans (h.loose.append_right _)
  calls := by rw [hcalls, h.calls, List.filterMap_append]
  models := by rw [hmodels, h.models, Kept.models_append hparts, List.foldl_append]

theorem Keeps.appendPlain (h : s.Keeps name line ks) {t : Subcircuit} {ls : List Kept}
    (hls : ls.all Kept.isPlain = true) (hname : t.name = s.name) (hline : t.line = s.line)
    (hpins : t.pins = s.pins ++ ls.filterMap Kept.pins?)
    (hheader : t.header = s.header ++ ls.filterMap Kept.header?)
    (hloose : t.looseLines.Perm (s.looseLines ++ ls.filterMap Kept.line?))
    (hcalls : t.calls.filterMap Entry.item? =
      s.calls.filterMap Entry.item? ++ ls.filterMap Kept.call?)
    (hmodels : t.models.filterMap Entry.item? = s.models.filterMap Entry.item?) :
    t.Keeps name line (ks ++ ls) := by
  refine h.append hname hline hpins hheader hloose hcalls ?_ (Kept.partsAhead_of_isPlain hls)
  rw [Kept.models_of_isPlain hls]
  exact hmodels

theorem Keeps.addHeader (h : s.Keeps name line ks) (pins : List (List Text)) (ts : List Text) :
    Keeps { s with pins := s.pins ++ pins, header := s.header ++ ts } name line
      (ks ++ (pins.map .pins ++ ts.map .header)) := by
  have hloose : (pins.map Kept.pins ++ ts.map Kept.header).filterMap Kept.line? = [] := by
    simp [Kept.line?, Function.comp_def]
  refine h.appendPlain ?_ rfl rfl ?_ ?_ (.of_eq ?_) ?_ rfl
  · simp [Kept.isPlain, Function.comp_def]
  · simp [Kept.pins?, Function.comp_def]
  · simp [Kept.header?, Function.comp_def]
  · rw [hloose, List.append_nil]
    rfl
  · simp [Kept.call?, Function.comp_def]

theorem Keeps.addLines (h : s.Keeps name line ks) {t : Subcircuit} {ts : List Text}
    (hname : t.name = s.name) (hline : t.line = s.line) (hpins : t.pins = s.pins)
    (hheader : t.header = s.header) (hloose : t.looseLines.Perm (s.looseLines ++ ts))
    (hcalls : t.calls.filterMap Entry.item? = s.calls.filterMap Entry.item?)
    (hmodels : t.models.filterMap Entry.item? = s.models.filterMap Entry.item?) :
    t.Keeps name line (ks ++ ts.map .line) := by
  refine h.appendPlain ?_ hname hline ?_ ?_ ?_ ?_ hmodels
  · simp [Kept.isPlain, Function.comp_def]
  · simp [Kept.pins?, Function.comp_def, hpins]
  · simp [Kept.header?, Function.comp_def, hheader]
  · simpa [Kept.line?, Function.comp_def] using hloose
  · simp [Kept.call?, Function.comp_def, hcalls]

theorem Keeps.addBody (h : s.Keeps name line ks) (ts : List Text) :
    Keeps { s with body := s.body ++ ts } name line (ks ++ ts.map .line) := by
  refine h.addLines rfl rfl rfl rfl ?_ rfl rfl
  simp only [looseLines, List.append_assoc]
  refine .append_left _ ?_
  rw [← List.append_assoc (s.calls.filterMap _)]
  exact List.perm_append_comm

theorem Keeps.copyLines (h : s.Keeps name line ks) (ts : List Text) :
    (s.copyLines ts).Keeps name line (ks ++ ts.map .line) := by
  have hloose := looseLines_copyLines s ts
  simp only [Subcircuit.copyLines] at hloose ⊢
  split
  · next hm =>
      rw [if_pos hm] at hloose
      exact h.addLines rfl rfl rfl rfl hloose rfl (items_append_verbatim s.models ts)
  · next hm =>
      rw [if_neg hm] at hloose
      split
      · next hc =>
          rw [if_pos hc] at hloose
          exact h.addLines rfl rfl rfl rfl hloose (items_append_verbatim s.calls ts) rfl
      · exact h.addBody ts

theorem Keeps.addCall (h : s.Keeps name line ks) (c : Call) :
    (s.addCall c).Keeps name line (ks ++ [.call c]) := by
  refine h.appendPlain rfl rfl rfl ?_ ?_ (.of_eq ?_) ?_ rfl
  · exact (List.append_nil _).symm
  · exact (List.append_nil _).symm
  · simp only [looseLines, Subcircuit.addCall, List.filterMap_append, List.append_assoc]
    exact congrArg _ (congrArg _ (List.append_nil _).symm)
  · rw [Subcircuit.addCall, List.filterMap_append]
    rfl

theorem looseLines_addModels (s : Subcircuit) (ms : List Model) :
    (ms.foldl addModel s).looseLines = s.looseLines := by
  induction ms generalizing s with
  | nil => rfl
  | cons m r ih =>
      rw [List.foldl_cons, ih]
      simp only [looseLines, addModel, texts_insertModel]

/-- Entering models leaves all else as it is. -/
theorem addModels_eq (s : Subcircuit) (ms : List Model) :
    ∃ es, ms.foldl addModel s = { s with models := es } ∧
      es.filterMap Entry.item? = ms.foldl Model.enter (s.models.filterMap Entry.item?) := by
  induction ms generalizing s with
  | nil => exact ⟨s.models, rfl, rfl⟩
  | cons m r ih =>
      obtain ⟨es, heq, hes⟩ := ih (s.addModel m)
      refine ⟨es, heq, ?_⟩
      have hm : (s.addModel m).models.filterMap Entry.item? =
          Model.enter (s.models.filterMap Entry.item?) m := items_insertModel m s.models
      rw [hes, hm, List.foldl_cons]

theorem Keeps.addModels (h : s.Keeps name line ks) (ms : List Model) {ls : List Kept}
    (hpins : ls.filterMap Kept.pins? = []) (hheader : ls.filterMap Kept.header? = [])
    (hlines : ls.filterMap Kept.line? = []) (hcalls : ls.filterMap Kept.call? = [])
    (hmodels : Kept.models ls = ms) (hparts : Kept.partsAhead ls = []) :
    (ms.foldl Subcircuit.addModel s).Keeps name line (ks ++ ls) := by
  have hloose := looseLines_addModels s ms
  obtain ⟨es, heq, hes⟩ := addModels_eq s ms
  rw [heq] at hloose ⊢
  refine h.append rfl rfl ?_ ?_ (.of_eq ?_) ?_ ?_ hparts
  · rw [hpins, List.append_nil]
  · rw [hheader, List.append_nil]
  · rw [hlines, List.append_nil, hloose]
  · rw [hcalls, List.append_nil]
  · rw [hmodels, hes]

theorem Keeps.addModel (h : s.Keeps name line ks) (m : Model) :
    (s.addModel m).Keeps name line (ks ++ [.model m]) :=
  h.addModels [m] rfl rfl rfl rfl rfl rfl

/-- A model block that ends: its models are those of its parts. -/
theorem Keeps.addBlock (h : s.Keeps name line ks) (base keyword : Text) (n : Nat)
    (ps : List Model.Block.Part) :
    ((Model.Block.modelsOf base keyword n ps).foldl Subcircuit.addModel s).Keeps name line
      (ks ++ .block base keyword n :: ps.map .part) := by
  refine h.addModels _ ?_ ?_ ?_ ?_ ?_ rfl
  · simp [Kept.pins?]
  · simp [Kept.header?]
  · simp [Kept.line?]
  · simp [Kept.call?]
  · rw [Kept.models, Kept.partsAhead_map_part, Kept.models_map_part, List.append_nil]

end Subcircuit

end SpiceDeck
