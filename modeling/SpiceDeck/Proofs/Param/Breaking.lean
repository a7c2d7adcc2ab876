import SpiceDeck.Proofs.Param.Composed
import SpiceDeck.Proofs.Param.Parentheses
import SpiceDeck.Proofs.Text.Words

/-!
Expressions broken after an operator. An expression that ends in an operator takes up the next
word wherever that stands, and no call of `round` reaches over the operator. Main statement: the
two lines of such an expression read and render as the one line on which both parts stand, with
everything that follows the expression.
-/

namespace SpiceDeck
namespace Param
open Text

section Operators
variable {c : Char}

/-- Operators are neither blanks nor parts of a name. -/
theorem isTrailingOperator_apart (h : isTrailingOperator c = true) :
    isSpace c = false ∧ isTargetChar c = false ∧ isNameStart c = false ∧ c ∉ "round".toList := by
  have hall : ("+-*/^(,<>=!&|?:%~".toList.all fun c => !isSpace c && !isTargetChar c &&
      !isNameStart c && !"round".toList.contains c) = true := by
    decide
  simpa [and_assoc] using List.all_eq_true.mp hall c (List.contains_iff_mem.mp h)

theorem not_isWord_of_isTrailingOperator (h : isTrailingOperator c = true) : isWord c = false := by
  obtain ⟨-, htarget, -⟩ := isTrailingOperator_apart h
  simp only [isTargetChar, Bool.or_eq_false_iff] at htarget
  exact htarget.1.1.1

end Operators

/-- The text, unless it is empty, ends in an operator. -/
def EndsWaiting (t : Text) : Prop := ∀ c ∈ t.getLast?, isTrailingOperator c = true

section EndsWaiting
variable {t u y rest : Text} {c : Char}

theorem endsWaiting_of_endsInOperator (h : endsInOperator t = true) : EndsWaiting t := by
  intro c hc
  rw [endsInOperator, Option.mem_def.mp hc] at h
  exact h

theorem EndsWaiting.suffix (h : EndsWaiting t) (hu : u <:+ t) : EndsWaiting u := by
  obtain ⟨v, rfl⟩ := hu
  intro c hc
  apply h
  rw [List.getLast?_append, Option.mem_def.mp hc]
  rfl

/-- The operator at the end of a text. -/
theorem EndsWaiting.exists_mem (h : EndsWaiting t) (hne : t ≠ []) :
    ∃ c ∈ t, isTrailingOperator c = true := by
  have hlast := List.getLast?_eq_getLast_of_ne_nil hne
  exact ⟨_, List.getLast_mem hne, h _ hlast⟩

theorem startsAssignment_append (h : EndsWaiting t) (hne : t ≠ [])
    (hrest : ∀ c ∈ rest.head?, isSpace c = true) :
    startsAssignment (t ++ rest) = startsAssignment t := by
  obtain ⟨a, r, rfl⟩ := List.exists_cons_of_ne_nil hne
  simp only [startsAssignment, List.cons_append, assignment?]
  split
  · next ha =>
      have hr : r ≠ [] := by
        rintro rfl
        obtain ⟨-, -, hname, -⟩ := isTrailingOperator_apart (h a rfl)
        rw [hname] at ha
        cases ha
      -- the operator at the end stands behind the name, so the equals sign is not in `rest`
      obtain ⟨b, hb, hop⟩ := (h.suffix (List.suffix_cons a r)).exists_mem hr
      obtain ⟨hspace, htarget, -⟩ := isTrailingOperator_apart hop
      have hmem := mem_dropWhile hb htarget
      have htrim : trimStart ((r ++ rest).dropWhile isTargetChar) =
          trimStart (r.dropWhile isTargetChar) ++ rest := by
        rw [dropWhile_append_of_mem hb htarget]
        exact dropWhile_append_of_mem hmem hspace rest
      have hmem' : b ∈ trimStart (r.dropWhile isTargetChar) := mem_dropWhile hmem hspace
      obtain ⟨d, q, hq⟩ := List.exists_cons_of_ne_nil (List.ne_nil_of_mem hmem')
      rw [htrim, hq, List.cons_append]
      by_cases hd : d = '='
      · subst hd
        have hhead : (q ++ rest).head? = some '=' ↔ q.head? = some '=' := by
          cases q with
          | cons e q => rfl
          | nil =>
              refine iff_of_false ?_ (Option.some_ne_none '=').symm
              intro heq
              cases hrest '=' heq
        simp only [hhead]
        split <;> rfl
      · simp [hd]
  · rfl

theorem after?_append_of_mem {lit x : Text} (hc : c ∈ t) (hlit : c ∉ lit)
    (h : after? lit (t ++ y) = some x) : ∃ r, after? lit t = some r ∧ x = r ++ y := by
  induction lit generalizing t with
  | nil =>
      cases h
      exact ⟨t, rfl, rfl⟩
  | cons l ls ih =>
      cases t with
      | nil => cases hc
      | cons a r =>
          simp only [List.cons_append, after?] at h ⊢
          split at h
          · next hl =>
              subst hl
              obtain rfl | hc := List.mem_cons.mp hc
              · exact absurd List.mem_cons_self hlit
              · rw [if_pos rfl]
                exact ih hc (fun hmem => hlit (List.mem_cons_of_mem l hmem)) h
          · cases h

/-- No call reaches over an operator. -/
theorem roundCall_append_waiting (h : EndsWaiting t) (hne : t ≠ []) (hnone : roundCall t = none)
    (y : Text) : roundCall (t ++ y) = none := by
  obtain ⟨c, hc, hop⟩ := h.exists_mem hne
  obtain ⟨hspace, -, -, hround⟩ := isTrailingOperator_apart hop
  rw [roundCall_eq_none_iff] at hnone ⊢
  intro x s hx hs
  obtain ⟨r, hr, rfl⟩ := after?_append_of_mem hc hround hx
  have hmem : c ∈ r := by
    rw [after?_append hr] at hc
    exact (List.mem_append.mp hc).resolve_left hround
  have htrim : trimStart (r ++ y) = trimStart r ++ y := dropWhile_append_of_mem hmem hspace y
  obtain ⟨d, q, hq⟩ := List.exists_cons_of_ne_nil
    (List.ne_nil_of_mem (mem_dropWhile hmem hspace))
  rw [htrim, show trimStart r = d :: q from hq] at hs
  obtain ⟨rfl, -⟩ := List.cons.inj hs
  exact hnone r q hr hq

theorem roundCall_append_some {new : Text} (h : roundCall t = some (new, rest)) (y : Text) :
    roundCall (t ++ y) = some (new, rest ++ y) := by
  simp only [roundCall] at h ⊢
  split at h
  · cases h
  · next r hr =>
      rw [after?_append_some hr]
      split at h
      · next s hs =>
          cases h
          have htrim : trimStart (r ++ y) = trimStart r ++ y := dropWhile_append_cons hs y
          simp only [htrim, hs, List.cons_append]
      · cases h

/-- A text that ends in an operator is spelled without a look at what follows. -/
theorem replaceFrom_append_waiting {inWord : Bool} (h : EndsWaiting t)
    (hword : t = [] → inWord = false) (y : Text) :
    replaceFrom roundCall inWord 0 (t ++ y) =
      replaceFrom roundCall inWord 0 t ++ replaceFrom roundCall false 0 y := by
  induction inWord, t using spelling_induction with
  | nil inWord =>
      rw [hword rfl]
      rfl
  | call a r new rest hs ih =>
      obtain ⟨-, blanks, -, heq⟩ := roundCall_eq hs
      have hsuffix : rest <:+ a :: r :=
        ⟨'r' :: (("ound".toList ++ blanks) ++ ['(']), by simp [heq]⟩
      have hcall := roundCall_append_some hs y
      rw [List.cons_append] at hcall ⊢
      rw [replaceFrom_roundCall hcall, replaceFrom_roundCall hs, ih (h.suffix hsuffix) fun _ => rfl,
        List.append_assoc]
  | copy inWord a r hs ih =>
      have hcopy : inWord = true ∨ roundCall (a :: (r ++ y)) = none :=
        hs.imp_right fun hnone => roundCall_append_waiting h (List.cons_ne_nil a r) hnone y
      have hlast : r = [] → isWord a = false := by
        rintro rfl
        exact not_isWord_of_isTrailingOperator (h a rfl)
      rw [List.cons_append, replaceFrom_copies hcopy, replaceFrom_copies hs,
        ih (h.suffix (List.suffix_cons a r)) hlast, List.cons_append]

theorem spellRound_append (h : EndsWaiting t) (y : Text) :
    spellRound (t ++ y) = spellRound t ++ spellRound y :=
  replaceFrom_append_waiting h (fun _ => rfl) y

end EndsWaiting

section Expressions
variable {text t rest : Text}

theorem endsInOperator_append (a : Text) (hne : text ≠ []) :
    endsInOperator (a ++ text) = endsInOperator text := by
  rw [endsInOperator, endsInOperator, List.getLast?_append_of_ne_nil _ hne]

theorem extendExpression_blank (h : trimStart rest = []) (text : Text) :
    extendExpression text rest = (text, rest) := by
  rw [extendExpression]
  split
  · rfl
  · simp_all

/-- What an expression takes up does not depend on what it starts with. -/
theorem extendExpression_prepend (a : Text) (hne : text ≠ []) (rest : Text) :
    extendExpression (a ++ text) rest =
      (a ++ (extendExpression text rest).1, (extendExpression text rest).2) := by
  fun_induction extendExpression text rest with
  | case1 text rest h => exact extendExpression_blank h _
  | case2 text rest c r h hstop => rw [extendExpression_cons h, if_pos hstop]
  | case3 text rest c r h hstop hjoin ih =>
      rw [extendExpression_cons h, if_neg hstop, endsInOperator_append a hne, if_pos hjoin,
        List.append_assoc, ih (by simp [hne])]
  | case4 text rest c r h hstop hjoin =>
      rw [extendExpression_cons h, if_neg hstop, endsInOperator_append a hne, if_neg hjoin]

/-- An expression that has been read to its end goes on with what stands behind a blank. -/
theorem extendExpression_append (hall : (extendExpression text t).2 = []) (hwait : EndsWaiting t)
    (hrest : ∀ c ∈ rest.head?, isSpace c = true) :
    extendExpression text (t ++ rest) = extendExpression (extendExpression text t).1 rest := by
  fun_induction extendExpression text t with
  | case1 text t h =>
      cases hall
      rfl
  | case2 text t c r h hstop | case4 text t c r h hstop hjoin =>
      cases hall
      cases h
  | case3 text t c r h hstop hjoin ih =>
      have htrim : trimStart (t ++ rest) = c :: (r ++ rest) := by
        rw [trimStart, dropWhile_append_cons h, ← trimStart, h, List.cons_append]
      have hsuffix : c :: r <:+ t := h ▸ List.dropWhile_suffix isSpace
      have hink : ∀ c ∈ rest.head?, (!isSpace c) = false := by
        intro a ha
        rw [hrest a ha]
        rfl
      have htoken : token (c :: r ++ rest) = token (c :: r) := takeWhile_append_stop hink _
      have hafter : afterToken (c :: r ++ rest) = afterToken (c :: r) ++ rest :=
        dropWhile_append_stop hink _
      rw [extendExpression_cons htrim, ← List.cons_append,
        startsAssignment_append (hwait.suffix hsuffix) (List.cons_ne_nil c r) hrest, if_neg hstop,
        if_pos hjoin, htoken, hafter]
      exact ih hall (hwait.suffix ((List.dropWhile_suffix _).trans hsuffix))

/-- An expression that has been read to its end ends as the text does. -/
theorem getLast?_extendExpression (hall : (extendExpression text t).2 = []) :
    (extendExpression text t).1.getLast? = (text ++ t).getLast? := by
  fun_induction extendExpression text t with
  | case1 text t h =>
      cases hall
      rw [List.append_nil]
  | case2 text t c r h hstop | case4 text t c r h hstop hjoin =>
      cases hall
      cases h
  | case3 text t c r h hstop hjoin ih =>
      obtain ⟨blanks, ht⟩ : c :: r <:+ t := h ▸ List.dropWhile_suffix isSpace
      rw [ih hall, List.append_assoc, token_append_afterToken, ← ht, ← List.append_assoc,
        List.getLast?_append_of_ne_nil _ (List.cons_ne_nil c r),
        List.getLast?_append_of_ne_nil _ (List.cons_ne_nil c r)]

end Expressions

section Readings
variable {o : Options} {place : Placement} {name text t u y next : Text} {depth : Nat}

/-- Behind blanks stands a text that can take up an expression. -/
structure GoesOn (y next : Text) : Prop where
  blank : ∀ c ∈ y.head?, isSpace c = true
  text : trimStart y = next
  ne_nil : next ≠ []
  no_remark : startsWith next ['$'] = false
  no_assignment : startsAssignment next = false

theorem GoesOn.token_ne_nil (h : GoesOn y next) : token next ≠ [] := by
  obtain ⟨c, r, rfl⟩ := List.exists_cons_of_ne_nil h.ne_nil
  exact Param.token_ne_nil (not_of_dropWhile_eq_cons h.text)

/-- Behind a blank the words of an expression go on as on a line of their own. -/
theorem readExpression_append (hall : (readExpression text depth u).rest = [])
    (hwait : EndsWaiting u) (hop : endsInOperator (readExpression text depth u).text = true)
    (hy : GoesOn y next) :
    readExpression text depth (u ++ y) =
      { text := (readExpression text depth u).text ++
          (readExpression [] (readExpression text depth u).depth next).text
        depth := (readExpression [] (readExpression text depth u).depth next).depth
        rest := (readExpression [] (readExpression text depth u).depth next).rest } := by
  obtain ⟨c, r, rfl⟩ := List.exists_cons_of_ne_nil hy.ne_nil
  have hink : ∀ c ∈ y.head?, (!isSpace c) = false := by
    intro a ha
    rw [hy.blank a ha]
    rfl
  have htoken : token (u ++ y) = token u := takeWhile_append_stop hink u
  have hafter : afterToken (u ++ y) = afterToken u ++ y := dropWhile_append_stop hink u
  have hstop : ¬(decide (c = '$') || startsAssignment (c :: r)) = true := by
    have hdollar : c ≠ '$' := by
      rintro rfl
      cases hy.no_remark
    simp [hdollar, hy.no_assignment]
  simp only [readExpression] at hall hop ⊢
  rw [htoken, hafter,
    extendExpression_append hall (hwait.suffix (List.dropWhile_suffix _)) hy.blank,
    extendExpression_cons hy.text, if_neg hstop, if_pos (by rw [hop, Bool.true_or]),
    extendExpression_prepend _ hy.token_ne_nil, List.nil_append, parensOpen_append]

/-- How a bare value starts does not depend on what follows the text. -/
theorem readValue_bare (hne : t ≠ []) (h : (readValue o name t).value.form = .bare) :
    ∃ text u, u ≠ [] ∧ u <:+ t ∧
      ∀ y, readValue o name (t ++ y) = readFresh o name text (parensOpen 0 text) (u ++ y) := by
  obtain ⟨c, r, rfl⟩ := List.exists_cons_of_ne_nil hne
  simp only [readValue] at h
  split at h
  · next hc =>
      split at h
      · next braced after hs =>
          split at h
          · next hop =>
              refine ⟨'(' :: braced.tail.dropLast ++ [')'], after, ?_,
                ⟨braced, (splitBraced_eq hs).symm⟩, fun y => ?_⟩
              · rintro rfl
                cases hop
              · have hop' : startsWithOperator (after ++ y) = true := by
                  cases after with
                  | nil => cases hop
                  | cons d after => exact hop
                have hs' := splitBraced_append 0 (c :: r) y hs
                rw [List.cons_append] at hs' ⊢
                simp only [readValue, if_pos hc, hs', hop', if_true]
          · simp only [bracedValue] at h
            split at h
            · cases h
            · cases h
      · cases h
  · next hc =>
      split at h
      · simp only [readQuoted] at h
        split at h
        · cases h
        · cases h
      · next hquote =>
          refine ⟨[], c :: r, List.cons_ne_nil c r, List.suffix_refl _, fun y => ?_⟩
          rw [List.cons_append]
          simp only [readValue, if_neg hc, if_neg hquote]
          rfl

/-- A value that stays bare is the expression as it is spelled. -/
theorem freshValue_bare (h : (freshValue o name text depth).1.form = .bare) :
    freshValue o name text depth = bareValue false (spellRound text) depth := by
  simp only [freshValue] at h ⊢
  split at h
  · cases h
  · split at h
    · cases h
    · next hnum =>
        rw [if_neg hnum]
        split at h
        · cases h
        · rfl

/-- The two parts of a bare value are written as the value itself, and leave the same open. -/
theorem bareValue_append {a b : Text} (depth e : Nat) (ha : endsInOperator a = true)
    (hb : b ≠ []) :
    (bareValue false (a ++ b) depth).1.render =
        (bareValue false a e).1.render ++ (bareValue true b depth).1.render ∧
      (bareValue false (a ++ b) depth).2 = (bareValue true b depth).2 := by
  have hempty : (a ++ b).isEmpty = b.isEmpty := by
    rw [List.isEmpty_eq_false_iff.mpr hb, List.isEmpty_eq_false_iff.mpr (by simp [hb])]
  simp only [bareValue, Value.render, hempty, endsInOperator_append a hb, ha, Bool.or_true]
  simp

/-- A bare value that ends in an operator, with no text behind it. -/
structure Waiting (read : Reading) : Prop where
  bare : read.value.form = .bare
  operator : endsInOperator read.value.text = true
  whole : read.rest = []

/-- What such a value has been read from. -/
theorem Waiting.expression (h : Waiting (readFresh o name text depth u)) :
    freshValue o name (readExpression text depth u).text (readExpression text depth u).depth =
        bareValue false (spellRound (readExpression text depth u).text)
          (readExpression text depth u).depth ∧
      (readExpression text depth u).text ≠ [] ∧
      endsInOperator (readExpression text depth u).text = true := by
  have hbare := freshValue_bare h.bare
  have hop := h.operator
  simp only [readFresh, hbare] at hop
  have hne : (readExpression text depth u).text ≠ [] := by
    intro hnil
    rw [hnil] at hop
    cases hop
  exact ⟨hbare, hne, by rw [← (spellRound_waits hne).2]; exact hop⟩

theorem Waiting.endsWaiting (h : Waiting (readFresh o name text depth u)) (hu : u ≠ []) :
    EndsWaiting u := by
  obtain ⟨-, -, hop⟩ := h.expression
  have hlast : (readExpression text depth u).text.getLast? = u.getLast? := by
    rw [readExpression, getLast?_extendExpression h.whole, List.append_assoc,
      token_append_afterToken, List.getLast?_append_of_ne_nil _ hu]
  intro c hc
  rw [← hlast] at hc
  exact endsWaiting_of_endsInOperator hop c hc

theorem readFresh_append (h : Waiting (readFresh o name text depth u)) (hu : u ≠ [])
    (hy : GoesOn y next)
    (hbare : (readFresh o name text depth (u ++ y)).value.form = .bare) :
    (readFresh o name text depth (u ++ y)).value.render =
        (readFresh o name text depth u).value.render ++
          (resumeValue (readFresh o name text depth u).carry next).value.render ∧
      (readFresh o name text depth (u ++ y)).carry =
        (resumeValue (readFresh o name text depth u).carry next).carry ∧
      (readFresh o name text depth (u ++ y)).rest =
        (resumeValue (readFresh o name text depth u).carry next).rest := by
  obtain ⟨hfirst, hxne, hop⟩ := h.expression
  have hcarry : (readFresh o name text depth u).carry =
      .bare (readExpression text depth u).depth := by
    have hspelt := (spellRound_waits hxne).2
    simp only [readFresh, hfirst, bareValue, hspelt, hop, Bool.or_true, if_true]
  have hread := readExpression_append h.whole (h.endsWaiting hu) hop hy
  have hgo : ¬(next.isEmpty || startsWith next ['$'] || startsAssignment next) = true := by
    simp [hy.ne_nil, hy.no_remark, hy.no_assignment]
  have hwhole := freshValue_bare hbare
  have hpart : (readExpression [] (readExpression text depth u).depth next).text ≠ [] :=
    extendExpression_ne_nil _ (by simpa using hy.token_ne_nil)
  rw [hread] at hwhole
  rw [hcarry]
  simp only [readFresh, resumeValue, if_neg hgo, hread, hwhole, hfirst]
  rw [spellRound_append (endsWaiting_of_endsInOperator hop)]
  obtain ⟨hrender, hcarry'⟩ := bareValue_append
    (readExpression [] (readExpression text depth u).depth next).depth
    (readExpression text depth u).depth
    ((spellRound_waits hxne).2.trans hop) (spellRound_waits hpart).1
  exact ⟨hrender, hcarry', trivial⟩

theorem Waiting.ne_nil (h : Waiting (readValue o name t)) : t ≠ [] := by
  rintro rfl
  have hbare : freshValue o name [] 0 = bareValue false (spellRound []) 0 := freshValue_bare h.bare
  have hop := h.operator
  rw [readValue, hbare] at hop
  cases hop

/-- A bare value that waits for an operand reads on as the next line does. -/
theorem readValue_append (h : Waiting (readValue o name t)) (hy : GoesOn y next)
    (hbare : (readValue o name (t ++ y)).value.form = .bare) :
    (readValue o name (t ++ y)).value.render =
        (readValue o name t).value.render ++
          (resumeValue (readValue o name t).carry next).value.render ∧
      (readValue o name (t ++ y)).carry = (resumeValue (readValue o name t).carry next).carry ∧
      (readValue o name (t ++ y)).rest = (resumeValue (readValue o name t).carry next).rest := by
  obtain ⟨text, u, hu, -, hread⟩ := readValue_bare h.ne_nil h.bare
  have hfirst := hread []
  rw [List.append_nil, List.append_nil] at hfirst
  rw [hfirst] at h ⊢
  rw [hread] at hbare ⊢
  exact readFresh_append h hu hy hbare

theorem endsWaiting_readValue (h : Waiting (readValue o name t)) : EndsWaiting t := by
  obtain ⟨text, u, hu, ⟨v, rfl⟩, hread⟩ := readValue_bare h.ne_nil h.bare
  have hfirst := hread []
  rw [List.append_nil, List.append_nil] at hfirst
  rw [hfirst] at h
  intro c hc
  rw [List.getLast?_append_of_ne_nil _ hu] at hc
  exact h.endsWaiting hu c hc

end Readings

section Lines
variable {o : Options} {place : Placement} {name e a b : Text}

theorem assignment?_named (hn : IsTarget name) (e : Text) :
    assignment? (name ++ '=' :: e) =
      if e.head? = some '=' then none else some (name, trimStart e) := by
  obtain ⟨a, r, rfl, ha, hr⟩ := hn
  have hstop : isTargetChar '=' = false := rfl
  have hblank : isSpace '=' = false := rfl
  have hdrop : (r ++ '=' :: e).dropWhile isTargetChar = '=' :: e := by
    rw [List.dropWhile_append_of_pos hr]
    simp [hstop]
  have htake : (r ++ '=' :: e).takeWhile isTargetChar = r := by
    rw [List.takeWhile_append_of_pos hr]
    simp [hstop]
  rw [List.cons_append, assignment?, if_pos ha, hdrop, htake]
  simp [trimStart, hblank]

theorem trim_named (hn : IsTarget name) (e : Text) :
    trim (name ++ '=' :: e) = name ++ '=' :: trimEnd e := by
  obtain ⟨a, r, rfl, ha, -⟩ := hn
  rw [trim, trimStart, List.cons_append, List.dropWhile_cons, not_isSpace_of_isNameStart ha]
  exact trimEnd_append_cons rfl (a :: r) e

theorem readList_named (o : Options) (hn : IsTarget name) (e : Text) :
    readList o false (name ++ '=' :: e) =
      if e.head? = some '=' then { pieces := [.comment (leftover (name ++ '=' :: e))] }
      else if startsWith (trimStart e) ['$'] || startsAssignment (trimStart e) then
        (readList o false (trimStart e)).withEmpty name
      else if (readValue o name (trimStart e)).carry.isOpen then
        { pieces := [.assign name (readValue o name (trimStart e)).value]
          carry := (readValue o name (trimStart e)).carry }
      else
        (readList o false (readValue o name (trimStart e)).rest).cons
          (.assign name (readValue o name (trimStart e)).value) := by
  have hassign := assignment?_named hn e
  obtain ⟨a, r, rfl, ha, -⟩ := hn
  have hstart : trimStart (a :: r ++ '=' :: e) = a :: (r ++ '=' :: e) := by
    simp [trimStart, not_isSpace_of_isNameStart ha]
  by_cases hequals : e.head? = some '='
  · rw [if_pos hequals] at hassign ⊢
    rw [readList_word o false hstart hassign, Bool.false_and, if_neg (by simp)]
    rfl
  · rw [if_neg hequals] at hassign ⊢
    rw [readList_assignment o false hstart hassign]

theorem readAssignments_closed (o : Options) (hplace : place ≠ .subcircuitLocal) (t : Text) :
    readAssignments o t place .closed =
      { pieces := (readList o false (trim t)).allPieces
        carry := (readList o false (trim t)).carry } := by
  have hopen : Carry.closed.isOpen = false := rfl
  simp only [readAssignments, hopen, hplace, decide_false]
  rfl

/-- The line of a piece and what is read behind it, unless its value stays open. -/
def lineFrom (o : Options) (p : Piece) (carry : Carry) (rest : Text) : ParamLine :=
  if carry.isOpen then { pieces := [p], carry }
  else
    { pieces := p :: (readList o false rest).allPieces, carry := (readList o false rest).carry }

theorem readAssignments_named (o : Options) (hplace : place ≠ .subcircuitLocal)
    (hn : IsTarget name) (hequals : (trimEnd e).head? ≠ some '=')
    (hvalue : (startsWith (trim e) ['$'] || startsAssignment (trim e)) = false) :
    readAssignments o (name ++ '=' :: e) place .closed =
      lineFrom o (.assign name (readValue o name (trim e)).value)
        (readValue o name (trim e)).carry (readValue o name (trim e)).rest := by
  rw [readAssignments_closed o hplace, trim_named hn, readList_named o hn, if_neg hequals,
    trimStart_trimEnd, ← trim, hvalue, if_neg (by simp), lineFrom]
  split
  · next hopen => rw [Listing.allPieces, hopen, Bool.or_true, if_pos rfl]
  · rw [allPieces_cons]
    rfl

theorem readAssignments_resumed (o : Options) (hplace : place ≠ .subcircuitLocal) {c : Carry}
    (hc : c.isOpen = true) (t : Text) :
    readAssignments o t place c =
      lineFrom o (.fragment (resumeValue c (trim t)).value) (resumeValue c (trim t)).carry
        (resumeValue c (trim t)).rest := by
  simp only [readAssignments, hc, if_true, hplace, decide_false, allPieces_cons]
  rfl

theorem head?_lineFrom (o : Options) (p : Piece) (c : Carry) (rest : Text) :
    (lineFrom o p c rest).pieces.head? = some p := by
  rw [lineFrom]
  split
  · rfl
  · rfl

/-- What follows two pieces is written in the same way. -/
theorem lineFrom_congr (o : Options) {p q : Piece} {x : Text} (h : p.render = x ++ q.render)
    (c : Carry) (rest : Text) :
    (lineFrom o p c rest).render = x ++ (lineFrom o q c rest).render ∧
      (lineFrom o p c rest).carry = (lineFrom o q c rest).carry := by
  simp only [lineFrom]
  split
  · refine ⟨?_, rfl⟩
    simp only [ParamLine.render, List.map_cons, List.map_nil, spaced_singleton, h]
  · refine ⟨?_, rfl⟩
    simp only [ParamLine.render, List.map_cons, spaced_cons, h, List.append_assoc]

/-- The line assigns a bare expression and nothing else. The expression takes up the whole text,
up to an operator at its end, and stays open. -/
structure BrokenAfterOperator (o : Options) (place : Placement) (name e : Text) : Prop where
  assigned : ∃ v, (readAssignments o (name ++ '=' :: e) place .closed).pieces = [.assign name v] ∧
    v.form = .bare ∧ endsInOperator v.text = true
  opened : (readAssignments o (name ++ '=' :: e) place .closed).isOpen = true
  direct : startsAssignment (trim e) = false
  whole : (readValue o name (trim e)).rest = []

namespace BrokenAfterOperator

/-- Behind the equals sign stands a value. -/
theorem starts (h : BrokenAfterOperator o place name e) (hplace : place ≠ .subcircuitLocal)
    (hn : IsTarget name) :
    (trimEnd e).head? ≠ some '=' ∧ startsWith (trim e) ['$'] = false := by
  obtain ⟨v, hv, -, -⟩ := h.assigned
  rw [readAssignments_closed o hplace, trim_named hn, readList_named o hn, trimStart_trimEnd,
    ← trim] at hv
  by_cases hequals : (trimEnd e).head? = some '='
  · rw [if_pos hequals] at hv
    cases hv
  · refine ⟨hequals, ?_⟩
    by_contra hremark
    rw [Bool.not_eq_false] at hremark
    rw [if_neg hequals, hremark, Bool.true_or, if_pos rfl] at hv
    obtain ⟨x, hx⟩ := exists_cons_of_startsWith hremark
    rw [hx, readList_word o false (t := '$' :: x) rfl rfl, Bool.false_and,
      if_neg (by simp)] at hv
    cases hv

theorem line_eq (h : BrokenAfterOperator o place name e) (hplace : place ≠ .subcircuitLocal)
    (hn : IsTarget name) :
    readAssignments o (name ++ '=' :: e) place .closed =
      { pieces := [.assign name (readValue o name (trim e)).value]
        carry := (readValue o name (trim e)).carry } := by
  obtain ⟨hequals, hremark⟩ := h.starts hplace hn
  have hline := readAssignments_named o hplace hn hequals (by rw [hremark, h.direct]; rfl)
  have hopen := h.opened
  rw [hline, h.whole, lineFrom] at hopen ⊢
  split at hopen
  · next hcarry => rw [if_pos hcarry]
  · rw [readList_nil o false rfl] at hopen
    cases hopen

theorem waiting (h : BrokenAfterOperator o place name e) (hplace : place ≠ .subcircuitLocal)
    (hn : IsTarget name) : Waiting (readValue o name (trim e)) := by
  obtain ⟨v, hv, hform, hop⟩ := h.assigned
  rw [h.line_eq hplace hn] at hv
  obtain ⟨-, rfl⟩ := Piece.assign.inj (List.singleton_inj.mp hv)
  exact ⟨hform, hop, h.whole⟩

/-- The line with more text behind it. -/
theorem line_append (h : BrokenAfterOperator o place name e) (hplace : place ≠ .subcircuitLocal)
    (hn : IsTarget name) {a y next : Text} (ha : trimEnd a = trimEnd e ++ y)
    (hy : GoesOn y next) :
    readAssignments o (name ++ '=' :: a) place .closed =
      lineFrom o (.assign name (readValue o name (trim e ++ y)).value)
        (readValue o name (trim e ++ y)).carry (readValue o name (trim e ++ y)).rest := by
  have hwait := h.waiting hplace hn
  obtain ⟨hequals, hremark⟩ := h.starts hplace hn
  obtain ⟨c, r, hcr⟩ := List.exists_cons_of_ne_nil hwait.ne_nil
  have htrimEnd : trimStart (trimEnd e) = c :: r := by rw [trimStart_trimEnd, ← trim, hcr]
  have htrim : trim a = trim e ++ y := by
    rw [trim, ← trimStart_trimEnd, ha, trimStart, dropWhile_append_cons htrimEnd, ← trimStart,
      trimStart_trimEnd, trim]
  rw [← htrim]
  apply readAssignments_named o hplace hn
  · rw [ha]
    cases hend : trimEnd e with
    | nil =>
        rw [hend] at htrimEnd
        cases htrimEnd
    | cons d s =>
        rw [hend] at hequals
        exact hequals
  · rw [htrim, startsAssignment_append (endsWaiting_readValue hwait) hwait.ne_nil hy.blank,
      h.direct, Bool.or_false]
    have hdollar : c ≠ '$' := by
      rintro rfl
      rw [hcr] at hremark
      cases hremark
    rw [hcr]
    simp [startsWith, after?, Ne.symm hdollar]

end BrokenAfterOperator

theorem trimEnd_append_goesOn (a : Text) (hblank : isBlank b = false)
    (hremark : startsWith (trim b) ['$'] = false) (hassign : startsAssignment (trim b) = false) :
    ∃ y, trimEnd (a ++ ' ' :: b) = trimEnd a ++ y ∧ GoesOn y (trim b) := by
  obtain ⟨blanks, hblanks, ha⟩ := exists_trimEnd_append a
  obtain ⟨c, r, hcr⟩ := List.exists_cons_of_ne_nil (isBlank_eq_false_iff.mp hblank)
  have hc : isSpace c = false := not_of_dropWhile_eq_cons hcr
  have htrim : trim b = c :: trimEnd r := by rw [trim, hcr, trimEnd_cons hc]
  have hb : b.takeWhile isSpace ++ c :: r = b := by
    rw [← hcr]
    exact List.takeWhile_append_dropWhile
  have hgap : ∀ x ∈ blanks ++ ' ' :: b.takeWhile isSpace, isSpace x = true := by
    intro x hx
    obtain hx | hx := List.mem_append.mp hx
    · exact hblanks x hx
    · obtain rfl | hx := List.mem_cons.mp hx
      · rfl
      · exact List.mem_takeWhile_imp hx
  refine ⟨(blanks ++ ' ' :: b.takeWhile isSpace) ++ trim b, ?_, ?_, ?_, ?_, hremark, hassign⟩
  · conv_lhs => rw [ha, ← hb]
    rw [htrim, ← List.append_assoc, ← trimEnd_append_cons hc]
    simp
  · intro x hx
    apply hgap
    rw [List.head?_append_of_ne_nil _ (by simp)] at hx
    exact List.mem_of_mem_head? hx
  · rw [trimStart, List.dropWhile_append_of_pos hgap, htrim]
    simp [hc]
  · rw [htrim]
    exact List.cons_ne_nil _ _

/-- An expression broken after an operator reads and renders as on one line. -/
theorem readAssignments_broken {e₁ e₂ : Text} (hplace : place ≠ .subcircuitLocal)
    (hn : IsTarget name) (hbroken : BrokenAfterOperator o place name e₁)
    (hblank : isBlank e₂ = false) (hremark : startsWith (trim e₂) ['$'] = false)
    (hassign : startsAssignment (trim e₂) = false)
    (hbare : ((readAssignments o (name ++ '=' :: (e₁ ++ ' ' :: e₂)) place .closed).pieces.head?.bind
      value?).map Value.form = some .bare) :
    let first := readAssignments o (name ++ '=' :: e₁) place .closed
    let second := readAssignments o e₂ place first.carry
    let whole := readAssignments o (name ++ '=' :: (e₁ ++ ' ' :: e₂)) place .closed
    whole.render = first.render ++ second.render ∧ whole.carry = second.carry := by
  intro first second whole
  obtain ⟨y, hend, hy⟩ := trimEnd_append_goesOn e₁ hblank hremark hassign
  have hfirst : first = _ := hbroken.line_eq hplace hn
  have hwhole : whole = _ := hbroken.line_append hplace hn hend hy
  have hopen : first.carry.isOpen = true := hbroken.opened
  have hsecond : second = _ := readAssignments_resumed o hplace hopen e₂
  have hcarry : first.carry = (readValue o name (trim e₁)).carry := by rw [hfirst]
  change (whole.pieces.head?.bind value?).map Value.form = some .bare at hbare
  rw [hwhole, head?_lineFrom] at hbare
  obtain ⟨hrender, hcarries, hrest⟩ := readValue_append (hbroken.waiting hplace hn) hy
    (Option.some.inj hbare)
  rw [hcarry] at hsecond
  rw [hwhole, hsecond, hcarries, hrest]
  apply lineFrom_congr
  rw [hfirst]
  simp only [Piece.render, ParamLine.render, List.map_cons, List.map_nil, spaced_singleton, hrender,
    List.append_assoc, List.cons_append]

/-- The first factor of a product, in braces. -/
def firstFactor : Text := "\x7bround (a)\x7d* ".toList

/-- The second factor, with another value and a remark behind it. -/
def secondFactor : Text := "(b +round(c)) l=2 $ x".toList

theorem readAssignments_broken_product :
    let first := readAssignments {} (['w'] ++ '=' :: firstFactor) .deviceCall .closed
    let second := readAssignments {} secondFactor .deviceCall first.carry
    let whole := readAssignments {} (['w'] ++ '=' :: (firstFactor ++ ' ' :: secondFactor))
      .deviceCall .closed
    BrokenAfterOperator {} .deviceCall ['w'] firstFactor ∧
      first.render = "w=\x7b(floor(0.5+a))*".toList ∧
      second.render = "(b+floor(0.5+c))\x7d l=2 $ x".toList ∧
      whole.render = first.render ++ second.render ∧ whole.carry = second.carry :=
  have hbroken : BrokenAfterOperator {} .deviceCall ['w'] firstFactor :=
    { assigned := ⟨⟨"(floor(0.5+a))*".toList, .bare, false, true⟩, by decide +kernel⟩
      opened := by decide +kernel
      direct := by decide +kernel
      whole := by decide +kernel }
  ⟨hbroken, by decide +kernel, by decide +kernel,
    readAssignments_broken (by decide) ⟨'w', [], rfl, rfl, List.forall_mem_nil _⟩ hbroken
      (by decide +kernel) (by decide +kernel) (by decide +kernel) (by decide +kernel)⟩

end Lines

end Param
end SpiceDeck
