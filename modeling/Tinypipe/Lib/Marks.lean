import Mathlib

/-! Put a text for the marked places of a pattern. A mark sees what stands in front of a place and
behind it. -/

namespace Lib.Marks

variable {α : Type} [DecidableEq α]

/-- `before` is what stands in front of the rest; `skip` counts down what is left of a place. -/
def replaceAt (mark : List α → List α → Bool) (pat new : List α) :
    (skip : Nat) → (before rest : List α) → List α
  | _, _, [] => []
  | skip + 1, before, c :: cs => replaceAt mark pat new skip (before ++ [c]) cs
  | 0, before, c :: cs =>
    if pat.isPrefixOf (c :: cs) && mark before ((c :: cs).drop pat.length) then
      new ++ replaceAt mark pat new (pat.length - 1) (before ++ [c]) cs
    else c :: replaceAt mark pat new 0 (before ++ [c]) cs

variable {mark mark' : List α → List α → Bool} {pat new : List α}

theorem append_drop_of_isPrefixOf {rest : List α} (h : pat.isPrefixOf rest) :
    rest = pat ++ rest.drop pat.length :=
  (List.prefix_iff_eq_append.1 (List.isPrefixOf_iff_prefix.1 h)).symm

/-- The places a walk meets decide what it writes. -/
theorem replaceAt_congr (rest : List α) : ∀ (skip : Nat) (before : List α),
    (∀ b a, rest = b ++ pat ++ a → mark (before ++ b) a = mark' (before ++ b) a) →
    replaceAt mark pat new skip before rest = replaceAt mark' pat new skip before rest := by
  induction rest with
  | nil =>
    intro skip before _
    cases skip <;> rfl
  | cons c cs ih =>
    intro skip before h
    have htail : ∀ b a, cs = b ++ pat ++ a → mark (before ++ [c] ++ b) a = mark' (before ++ [c] ++ b) a := by
      intro b a hcs
      have := h (c :: b) a (by rw [hcs]; rfl)
      rwa [List.append_assoc]
    cases skip with
    | succ skip => exact ih skip _ htail
    | zero =>
      by_cases hpre : pat.isPrefixOf (c :: cs)
      · have hhere : mark before ((c :: cs).drop pat.length) = mark' before ((c :: cs).drop pat.length) := by
          have := h [] ((c :: cs).drop pat.length) (append_drop_of_isPrefixOf hpre)
          rwa [List.append_nil] at this
        rw [replaceAt, replaceAt, hhere, ih _ _ htail, ih _ _ htail]
      · rw [Bool.not_eq_true] at hpre
        simp only [replaceAt, hpre, Bool.false_and, Bool.false_eq_true, if_false]
        rw [ih 0 _ htail]

/-- No place starts inside a marked one. -/
def Apart (mark : List α → List α → Bool) (pat : List α) : Prop := ∀ before after, mark before after = true →
  ∀ x y, pat ++ after = x ++ pat ++ y → x = [] ∨ pat.length ≤ x.length

/-- A place that only one of the marks takes shows in what is written. -/
theorem replaceAt_differs {p : α} {ps : List α} (hpat : pat = p :: ps) (hapart : Apart mark pat)
    (himp : ∀ before after, mark' before after = true → mark before after = true) (rest : List α) :
    ∀ (skip : Nat) (before : List α) {b a : List α}, rest = b ++ pat ++ a → skip ≤ b.length →
      mark (before ++ b) a = true → mark' (before ++ b) a = false →
      ∃ u x y, replaceAt mark pat new skip before rest = u ++ new ++ x ∧
        replaceAt mark' pat new skip before rest = u ++ p :: y := by
  induction rest with
  | nil =>
    intro skip before b a hrest
    rw [hpat] at hrest
    simp at hrest
  | cons c cs ih =>
    intro skip before b a hrest hskip hmark hmark'
    have hlater : ∀ {d : α} {b' : List α} (skip : Nat), b = d :: b' → skip ≤ b'.length →
        ∃ u x y, replaceAt mark pat new skip (before ++ [c]) cs = u ++ new ++ x ∧
          replaceAt mark' pat new skip (before ++ [c]) cs = u ++ p :: y := by
      intro d b' skip hb hskip'
      subst hb
      obtain ⟨rfl, hcs⟩ := List.cons.inj hrest
      refine ih skip (before ++ [c]) hcs hskip' ?_ ?_
      · rw [List.append_assoc]
        exact hmark
      · rw [List.append_assoc]
        exact hmark'
    cases skip with
    | succ skip =>
      cases b with
      | nil => exact absurd hskip (Nat.not_succ_le_zero skip)
      | cons d b' => exact hlater skip rfl (Nat.le_of_succ_le_succ hskip)
    | zero =>
      by_cases hhere : (pat.isPrefixOf (c :: cs) && mark before ((c :: cs).drop pat.length)) = true
      · obtain ⟨hpre, hm⟩ := Bool.and_eq_true_iff.1 hhere
        have hsplit := append_drop_of_isPrefixOf hpre
        by_cases hm' : mark' before ((c :: cs).drop pat.length) = true
        · -- Both take this place; the other one lies behind it.
          have hhere' : (pat.isPrefixOf (c :: cs) && mark' before ((c :: cs).drop pat.length)) = true := by
            rw [hpre, hm']
            rfl
          rw [replaceAt, replaceAt, if_pos hhere, if_pos hhere']
          cases b with
          | nil =>
            have ha : a = (c :: cs).drop pat.length := by
              rw [hrest, List.nil_append, List.drop_left]
            rw [List.append_nil, ha] at hmark'
            rw [hm'] at hmark'
            cases hmark'
          | cons d b' =>
            have hfar := (hapart _ _ hm (d :: b') a (hsplit.symm.trans hrest)).resolve_left (List.cons_ne_nil _ _)
            rw [List.length_cons] at hfar
            obtain ⟨u, x, y, hx, hy⟩ := hlater (pat.length - 1) rfl (by omega)
            exact ⟨new ++ u, x, y, by rw [hx]; simp, by rw [hy]; simp⟩
        · rw [Bool.not_eq_true] at hm'
          obtain rfl : c = p := by
            rw [hpat] at hsplit
            exact (List.cons.inj hsplit).1
          refine ⟨[], replaceAt mark pat new (pat.length - 1) (before ++ [c]) cs,
            replaceAt mark' pat new 0 (before ++ [c]) cs, ?_, ?_⟩
          · rw [replaceAt, if_pos hhere]
            rfl
          · rw [replaceAt, hpre, hm']
            rfl
      · have hhere' : ¬(pat.isPrefixOf (c :: cs) && mark' before ((c :: cs).drop pat.length)) = true := by
          intro hboth
          obtain ⟨hpre, hm'⟩ := Bool.and_eq_true_iff.1 hboth
          exact hhere (Bool.and_eq_true_iff.2 ⟨hpre, himp _ _ hm'⟩)
        rw [replaceAt, replaceAt, if_neg hhere, if_neg hhere']
        cases b with
        | nil =>
          have hpre : pat.isPrefixOf (c :: cs) = true := by
            rw [hrest, List.nil_append]
            exact List.isPrefixOf_iff_prefix.2 (List.prefix_append _ _)
          have ha : a = (c :: cs).drop pat.length := by
            rw [hrest, List.nil_append, List.drop_left]
          rw [List.append_nil, ha] at hmark
          exact absurd (Bool.and_eq_true_iff.2 ⟨hpre, hmark⟩) hhere
        | cons d b' =>
          obtain ⟨u, x, y, hx, hy⟩ := hlater 0 rfl (Nat.zero_le _)
          exact ⟨c :: u, x, y, by rw [hx]; rfl, by rw [hy]; rfl⟩

end Lib.Marks
