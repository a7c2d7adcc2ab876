import SpiceDeck.Proofs.Written.Models

/-!
Written lines outside of subcircuits. Main statements: copied statements, parameters, calls
and models that are written there are written again as they stand, and so are lines that are
put together of them.
-/

namespace SpiceDeck
open Text

namespace Scope

/-- Outside of subcircuits the lines are written again as they stand. -/
structure WritesAgain (cx : Context) (d : Dialect) (xs : List Text) : Prop where
  fresh : Line.StartsAfresh xs
  passes : Line.Settled xs → ∀ n, Passes cx d .top n xs .top xs

section WritesAgain
variable {cx : Context} {d : Dialect} {xs ys tail raws ws : List Text} {head : Text} {c : Carry}

theorem writesAgain_nil (cx : Context) (d : Dialect) : WritesAgain cx d [] :=
  ⟨nofun, fun _ n => passes_nil cx d .top n⟩

theorem WritesAgain.append (hx : WritesAgain cx d xs) (hy : WritesAgain cx d ys) :
    WritesAgain cx d (xs ++ ys) where
  fresh := hx.fresh.append hy.fresh
  passes hs n := by
    obtain ⟨hsx, hsy⟩ := Line.settled_append.mp hs
    exact (hx.passes hsx n).append (hy.passes hsy _) hsx hsy hy.fresh

theorem writesAgain_silent (h : ∀ t ∈ xs, isSilent t = true) : WritesAgain cx d xs := by
  induction xs with
  | nil => exact writesAgain_nil cx d
  | cons t r ih =>
      obtain ⟨ht, hr⟩ := List.forall_mem_cons.mp h
      have hfirst : WritesAgain cx d [t] :=
        ⟨Line.startsAfresh_silent (List.forall_mem_singleton.mpr ht),
          fun hs n => passes_silent cx d .top n ht (hs t List.mem_cons_self)⟩
      exact hfirst.append (ih hr)

theorem writesAgain_statement (h : IsStatement head tail)
    (hstep : ∀ s : Statement, s.ReadsAs head tail → ∃ kind,
      s.kind cx.symbols cx.options d = kind ∧ Session.reachesScope kind = true ∧
        (stepTop cx s kind).1 = .top ∧ (stepTop cx s kind).2.lines = head :: tail) :
    WritesAgain cx d (head :: tail) where
  fresh := h.startsAfresh
  passes hs n := by
    obtain ⟨b, out, hpasses, rfl, rfl⟩ := passes_statement cx d .top
      (Q := fun b out => b = .top ∧ out = head :: tail) h hs n hstep
    exact hpasses

theorem writesAgain_copied (h : IsStatement head tail)
    (hkind : Statement.IsCopied cx d head tail) :
    WritesAgain cx d (head :: tail) := by
  refine writesAgain_statement h fun s hs => ⟨_, hs.kind_eq _ _ _, ?_, ?_⟩
  · exact Statement.Kind.reachesScope_of_isCopied hkind
  · rw [← hs.verbatim]
    exact stepTop_copied hkind cx s

/-- A close without its subcircuit is copied as well. -/
theorem writesAgain_close {name : Option Text} (h : IsStatement head tail)
    (hkind : (Statement.ofTexts head tail).kind cx.symbols cx.options d = .subcircuitClose name) :
    WritesAgain cx d (head :: tail) := by
  refine writesAgain_statement h fun s hs => ⟨.subcircuitClose name, ?_, rfl, rfl, hs.verbatim⟩
  rw [hs.kind_eq, hkind]

theorem writesAgain_parameters (hws : Param.ReadsBack cx.options .closed ws c)
    (hbelow : Param.Below cx.options c raws) :
    WritesAgain cx d (Param.marked .param ws :: raws) := by
  obtain ⟨tail, after, rfl, htail, hends, hafter⟩ := hbelow.split
  have hst := isStatement_param ws htail hends
  refine (writesAgain_statement hst fun s hs => ?_).append (writesAgain_silent hafter)
  have hcontent : s.head.content = Param.marked .param ws := by rw [hs.content hst, trim_param hws]
  refine ⟨.parameters, kind_param cx.symbols cx.options d ws hcontent, rfl, rfl, ?_⟩
  simp only [stepTop, parameterLines_written hs hst hws htail]
  exact List.append_nil _

theorem writesAgain_call (h : Call.Written cx d (fun _ => none) head raws) :
    WritesAgain cx d (head :: raws) := by
  obtain ⟨tail, after, rfl, htail, hst, hafter⟩ := h.split
  refine (writesAgain_statement hst fun s hs => ?_).append (writesAgain_silent hafter)
  obtain ⟨opening, hkind, hlines⟩ := htail.read hst hs
  refine ⟨_, hkind, rfl, rfl, ?_⟩
  obtain ⟨hname, hreference⟩ := Call.close_name_reference (Call.ofHead cx.options opening s)
  rw [← hlines, Call.entryLines, hname, hreference]
  rfl

theorem writesAgain_model {name type : Text} (h : Model.Written cx.options name type head raws) :
    WritesAgain cx d (head :: raws) := by
  obtain ⟨tail, after, rfl, htail, hst, hafter⟩ := h.split
  refine (writesAgain_statement hst fun s hs => ?_).append (writesAgain_silent hafter)
  obtain ⟨opening, hkind, hbraced, hrender, -⟩ := htail.read d hst hs
  refine ⟨_, hkind, rfl, ?_⟩
  simp only [stepTop, enterModel, hbraced, Bool.false_eq_true, if_false, Deck.lines_append,
    lines_warnIf, Subcircuit.renderModel]
  exact ⟨trivial, hrender⟩

end WritesAgain
end Scope
end SpiceDeck
