import Tinypipe.Api.Types
import Tinypipe.Lib.Folds
import Tinypipe.Lib.Rounding

/-! What a MERGE makes of the values that the branches of a PARALLEL block have written
(`merge_branches` of `tinypipe-api/src/types.rs`). The values are folded into the globals two by
two, so the value that was there before the block is one more operand. -/

namespace Tinypipe

open Lib

namespace Value

/-- The number that a value is, exactly, in units of `2 ^ -1074`. -/
def exact : Value → Option Int
  | int i => some (i.toInt * 2 ^ 1074)
  | float f => if f.isNan then none else some f.order
  | _ => none

def isNumber (v : Value) : Bool := v.exact.isSome

/-- The place of the double that the number becomes. -/
def double (v : Value) : Int := (v.exact.map F64.round).getD 0

theorem natAbs_toInt_lt (i : Int64) : i.toInt.natAbs < 2 ^ 64 := by
  have h := i.toInt_lt
  have h' := i.le_toInt
  omega

theorem asF64_of_exact {v : Value} {z : Int} (h : v.exact = some z) :
    ∃ x, v.asF64 = some x ∧ x.isNan = false ∧ x.order = v.double := by
  cases v with
  | int i =>
    obtain ⟨horder, hnan⟩ := F64.order_ofInt (natAbs_toInt_lt i)
    exact ⟨F64.ofInt i.toInt, rfl, hnan, horder⟩
  | float f =>
    rw [exact] at h
    split at h
    · cases h
    · rename_i hnan
      refine ⟨f, rfl, by simpa using hnan, ?_⟩
      rw [double, exact, if_neg hnan, Option.map_some, Option.getD_some, F64.round_order]
  | _ => cases h

theorem isNan_of_exact {v : Value} (h : v.exact = none) {x : F64} (hx : v.asF64 = some x) : x.isNan := by
  cases v with
  | int i => cases h
  | float f =>
    rw [exact] at h
    split at h
    · rename_i hnan
      cases hx
      exact hnan
    · cases h
  | _ => cases hx

theorem double_mono {v w : Value} {y z : Int} (hv : v.exact = some y) (hw : w.exact = some z) (h : y ≤ z) :
    v.double ≤ w.double := by
  rw [double, double, hv, hw]
  exact F64.round_mono h

end Value

/-! ### The fold over the branches -/

namespace Context

/-- The values the branches have written, in the order of the branches. -/
def written (c : Context) (k : Text) : List Value :=
  (c.branchScopes.entries.insertionSort fun a b => a.1 ≤ b.1).filterMap fun e => e.2.vars.get k

/-- Every branch that has written the key has the strategy for it. -/
def OneStrategy (c : Context) (k : Text) (st : MergeStrategy) : Prop :=
  ∀ b sc, c.branchScopes.get b = some sc → (sc.vars.get k).isSome → sc.getMergeStrategy k = st

/-- One more value for a key. -/
def mergeInto (st : MergeStrategy) (o : Option Value) (v : Value) : Option Value :=
  some (o.elim v fun e => mergeValue st e v)

theorem get_mergeEntry (sc : Scope) (vs : Dict Text Value) (e : Text × Value) (k : Text) :
    (mergeEntry sc vs e).get k =
      if e.1 = k then mergeInto (sc.getMergeStrategy k) (vs.get k) e.2 else vs.get k := by
  rw [mergeEntry]
  by_cases hk : e.1 = k
  · rw [if_pos hk, hk]
    cases vs.get k with
    | none => exact Dict.get_set_self ..
    | some v => exact Dict.get_set_self ..
  · rw [if_neg hk]
    cases vs.get e.1 with
    | none => exact Dict.get_set_ne _ hk _
    | some v => exact Dict.get_set_ne _ hk _

theorem get_foldl_mergeEntry (sc : Scope) (k : Text) (es : List (Text × Value))
    (hnd : (es.map Prod.fst).Nodup) (vs : Dict Text Value) : (es.foldl (mergeEntry sc) vs).get k =
      (Dict.find k es).elim (vs.get k) (mergeInto (sc.getMergeStrategy k) (vs.get k)) := by
  induction es generalizing vs with
  | nil => rfl
  | cons e es ih =>
    rw [List.map_cons, List.nodup_cons] at hnd
    rw [List.foldl_cons, ih hnd.2, get_mergeEntry, Dict.find]
    by_cases hk : e.1 = k
    · -- the key does not come again
      rw [if_pos hk, if_pos hk, Dict.find_eq_none (hk ▸ hnd.1)]
      rfl
    · rw [if_neg hk, if_neg hk]

theorem get_mergeScope (sc : Scope) (vs : Dict Text Value) (k : Text) : (mergeScope vs sc).get k =
    (sc.vars.get k).elim (vs.get k) (mergeInto (sc.getMergeStrategy k) (vs.get k)) :=
  get_foldl_mergeEntry sc k _ sc.vars.nodup vs

theorem get_mergeBranches {c : Context} {k : Text} {st : MergeStrategy} (h : c.OneStrategy k st) :
    c.mergeBranches.get k = (c.written k).foldl (mergeInto st) (c.vars.get k) := by
  have hone : ∀ e ∈ c.branchScopes.entries.insertionSort (fun a b => a.1 ≤ b.1),
      (e.2.vars.get k).isSome → e.2.getMergeStrategy k = st := fun e he =>
    h e.1 e.2 (Dict.get_eq_some_iff.2 ((List.mem_insertionSort _).1 he))
  have hfold : ∀ (es : List (Nat × Scope)) (vs : Dict Text Value),
      (∀ e ∈ es, (e.2.vars.get k).isSome → e.2.getMergeStrategy k = st) →
      (es.foldl (fun vs e => mergeScope vs e.2) vs).get k =
        (es.filterMap fun e => e.2.vars.get k).foldl (mergeInto st) (vs.get k) := by
    intro es
    induction es with
    | nil => exact fun _ _ => rfl
    | cons e es ih =>
      intro vs hes
      rw [List.foldl_cons, ih _ fun e' he' => hes e' (List.mem_cons_of_mem _ he'), get_mergeScope]
      rw [List.filterMap_cons]
      cases hv : e.2.vars.get k with
      | none => rfl
      | some v =>
        rw [hes e List.mem_cons_self (hv ▸ rfl)]
        rfl
  exact hfold _ c.vars hone

end Context

/-- The operands of a MERGE, the old value first, folded two by two. -/
def mergedOf (st : MergeStrategy) : List Value → Option Value
  | [] => none
  | e :: vs => some (vs.foldl (Context.mergeValue st) e)

theorem foldl_mergeInto (st : MergeStrategy) (vs : List Value) (g : Option Value) :
    vs.foldl (Context.mergeInto st) g = mergedOf st (g.toList ++ vs) := by
  have hsome : ∀ (vs : List Value) (e : Value), vs.foldl (Context.mergeInto st) (some e) =
      some (vs.foldl (Context.mergeValue st) e) := by
    intro vs
    induction vs with
    | nil => exact fun _ => rfl
    | cons v vs ih => exact fun e => ih _
  cases g with
  | some e => exact hsome vs e
  | none => cases vs with
    | nil => rfl
    | cons v vs => exact hsome vs v

/-! ### What the strategies promise -/

/-- The sum divided by the number, in the arithmetic of the doubles. -/
def mean : List F64 → Option F64
  | [] => none
  | [x] => some x
  | x :: xs =>
    let sum := xs.foldl F64.add x
    some (if sum.isFinite then F64.ofUnits sum.sign sum.magnitude (xs.length + 1) else sum)

/-- One of the values, and ahead of all that are numbers. -/
def Extreme (le : Int → Int → Prop) (vs : List Value) (r : Value) : Prop :=
  r ∈ vs ∧ ∃ x, r.exact = some x ∧ ∀ v ∈ vs, ∀ y, v.exact = some y → le x y

/-- What the strategy promises of the values that the branches have written. -/
def MergeStrategy.Declared (st : MergeStrategy) (vs : List Value) (r : Value) : Prop :=
  match st with
  | .last => vs.getLast? = some r
  | .first => vs.head? = some r
  | .min => (∃ v ∈ vs, v.isNumber) → Extreme (· ≤ ·) vs r
  | .max => (∃ v ∈ vs, v.isNumber) → Extreme (· ≥ ·) vs r
  | .concat => (∀ ss : List Text, vs = ss.map .string → r = .string ss.flatten) ∧
      ∀ as : List (List Value), vs = as.map .array → r = .array as.flatten
  | .sum => ∀ is : List Int64, vs = is.map .int → ∀ s, Value.checkedI64 (is.map Int64.toInt).sum = some s →
      r = .int s
  | .avg => ∀ xs, vs.map Value.asF64 = xs.map some → r.asF64 = mean xs

/-- The operands for which the running total has no room are left out; what they add up to. -/
def leftOut (total : Int) : List Int64 → Int
  | [] => 0
  | i :: is =>
    if (Value.checkedI64 (total + i.toInt)).isSome then leftOut (total + i.toInt) is
    else i.toInt + leftOut total is

/-- The first operand is a number, and one of the branches' extreme values comes before every number
whose double is not behind its own. -/
def Ahead (le : Int → Int → Prop) (g : Option Value) (vs : List Value) : Prop :=
  (∀ e ∈ (g.toList ++ vs).head?, e.isNumber) ∧ ∃ r, Extreme le vs r ∧
    ∃ pre post, (g.toList ++ vs).filter Value.isNumber = pre ++ r :: post ∧
      ∀ p ∈ pre, ¬le p.double r.double

/-- When a MERGE keeps the promise: for each strategy, what has to be so of the old value and of the
values of the branches. -/
def MergeStrategy.Faithful (st : MergeStrategy) (g : Option Value) (vs : List Value) : Prop :=
  match st with
  | .last => True
  | .first => ∀ e, g = some e → vs.head? = some e
  | .min => (∃ v ∈ vs, v.isNumber) → Ahead (· ≤ ·) g vs
  | .max => (∃ v ∈ vs, v.isNumber) → Ahead (· ≥ ·) g vs
  | .concat => (∀ (ss : List Text) (s : Text), vs = ss.map .string → g = some (.string s) → s = []) ∧
      ∀ (as : List (List Value)) (a : List Value), vs = as.map .array → g = some (.array a) → a = []
  | .sum => ∀ is : List Int64, vs = is.map .int → (Value.checkedI64 (is.map Int64.toInt).sum).isSome →
      ∃ i : Int64, g.getD (.int 0) = .int i ∧ leftOut i.toInt is = i.toInt
  | .avg => g = none ∧ vs.length ≤ 2

/-! ### The extreme values -/

section Extremes

variable {st : MergeStrategy} {σ : Int → Int} {le : Int → Int → Prop}

/-- The next value takes over when both are numbers and its double is strictly ahead. -/
def Takes (st : MergeStrategy) (σ : Int → Int) : Prop :=
  (∀ e v : Value, e.isNumber → v.isNumber →
    Context.mergeValue st e v = Folds.pick (fun v => σ v.double) e v) ∧
  ∀ e v : Value, e.exact = none ∨ v.exact = none → Context.mergeValue st e v = e

theorem takes_min : Takes .min fun z => -z := by
  refine ⟨fun e v he hv => ?_, fun e v h => ?_⟩
  · obtain ⟨y, hy⟩ := Option.isSome_iff_exists.1 he
    obtain ⟨z, hz⟩ := Option.isSome_iff_exists.1 hv
    obtain ⟨a, ha, hanan, haorder⟩ := Value.asF64_of_exact hy
    obtain ⟨b, hb, hbnan, hborder⟩ := Value.asF64_of_exact hz
    have hlt := F64.lt_iff hbnan hanan
    rw [haorder, hborder] at hlt
    simp only [Context.mergeValue, ha, hb, hlt, Folds.pick, neg_lt_neg_iff]
  · rw [Context.mergeValue]
    cases hv : v.asF64 with
    | none => rfl
    | some b =>
      cases he : e.asF64 with
      | none => rfl
      | some a =>
        have hnan : b.isNan ∨ a.isNan :=
          h.symm.imp (fun h => Value.isNan_of_exact h hv) fun h => Value.isNan_of_exact h he
        dsimp only
        rw [F64.lt_nan hnan, if_neg Bool.false_ne_true]

theorem takes_max : Takes .max id := by
  refine ⟨fun e v he hv => ?_, fun e v h => ?_⟩
  · obtain ⟨y, hy⟩ := Option.isSome_iff_exists.1 he
    obtain ⟨z, hz⟩ := Option.isSome_iff_exists.1 hv
    obtain ⟨a, ha, hanan, haorder⟩ := Value.asF64_of_exact hy
    obtain ⟨b, hb, hbnan, hborder⟩ := Value.asF64_of_exact hz
    have hgt := F64.gt_iff hbnan hanan
    rw [haorder, hborder] at hgt
    simp only [Context.mergeValue, ha, hb, hgt, Folds.pick, id_eq]
  · rw [Context.mergeValue]
    cases hv : v.asF64 with
    | none => rfl
    | some b =>
      cases he : e.asF64 with
      | none => rfl
      | some a =>
        have hnan : b.isNan ∨ a.isNan :=
          h.symm.imp (fun h => Value.isNan_of_exact h hv) fun h => Value.isNan_of_exact h he
        dsimp only
        rw [F64.gt_nan hnan, if_neg Bool.false_ne_true]

theorem foldl_takes (ht : Takes st σ) (vs : List Value) {e : Value} (he : e.isNumber) :
    vs.foldl (Context.mergeValue st) e =
      (vs.filter Value.isNumber).foldl (Folds.pick fun v => σ v.double) e := by
  induction vs generalizing e with
  | nil => rfl
  | cons v vs ih =>
    rw [List.foldl_cons]
    by_cases hv : v.isNumber
    · rw [ht.1 e v he hv, List.filter_cons_of_pos hv, List.foldl_cons]
      refine ih ?_
      rw [Folds.pick]
      split
      · exact hv
      · exact he
    · rw [ht.2 e v (Or.inr (by simpa [Value.isNumber] using hv)), List.filter_cons_of_neg hv]
      exact ih he

theorem foldl_stuck (ht : Takes st σ) (vs : List Value) {e : Value} (he : e.exact = none) :
    vs.foldl (Context.mergeValue st) e = e := by
  induction vs with
  | nil => rfl
  | cons v vs ih => rw [List.foldl_cons, ht.2 e v (Or.inl he), ih]

/-- The extreme value is kept exactly when it comes ahead of the others. -/
theorem extreme_iff (ht : Takes st σ) (hσ : ∀ x y, le x y ↔ σ y ≤ σ x)
    (hmono : ∀ {v w : Value} {y z : Int}, v.exact = some y → w.exact = some z → le y z →
      le v.double w.double)
    {g : Option Value} {vs : List Value} {r : Value} (hr : mergedOf st (g.toList ++ vs) = some r) :
    Extreme le vs r ↔ Ahead le g vs := by
  cases hops : g.toList ++ vs with
  | nil =>
    rw [hops] at hr
    cases hr
  | cons e rest =>
    have hrest : ∀ v ∈ rest, v ∈ vs := by
      intro v hv
      cases g with
      | none =>
        obtain rfl : vs = e :: rest := hops
        exact List.mem_cons_of_mem e hv
      | some e' =>
        obtain ⟨-, rfl⟩ := List.cons.inj hops
        exact hv
    rw [hops] at hr
    rw [Ahead, hops]
    cases he : e.exact with
    | none =>
      obtain rfl : e = r := by
        rw [mergedOf, foldl_stuck ht rest he] at hr
        exact Option.some.inj hr
      refine iff_of_false (fun h => ?_) fun h => ?_
      · obtain ⟨-, x, hx, -⟩ := h
        rw [he] at hx
        cases hx
      · have := h.1 e rfl
        rw [Value.isNumber, he] at this
        cases this
    | some z =>
      have hsome : e.isNumber := by rw [Value.isNumber, he]; rfl
      have hfirst := Folds.foldl_pick (fun v : Value => σ v.double) (rest.filter Value.isNumber) e
      rw [← foldl_takes ht rest hsome, ← Option.some.inj hr.symm, ← List.filter_cons_of_pos hsome] at hfirst
      constructor
      · intro h
        obtain ⟨pre, post, heq, hpre, -⟩ := hfirst
        refine ⟨fun e' he' => Option.some.inj he' ▸ hsome, r, h, pre, post, heq, fun p hp hle => ?_⟩
        exact absurd ((hσ _ _).1 hle) (hpre p hp).not_ge
      · rintro ⟨-, r', h', pre, post, heq, hpre⟩
        obtain ⟨x, hx, hbest⟩ := h'.2
        have hfirst' : Folds.FirstGreatest (fun v : Value => σ v.double)
            ((e :: rest).filter Value.isNumber) r' := by
          refine ⟨pre, post, heq, fun p hp => lt_of_not_ge fun hle => hpre p hp ((hσ _ _).2 hle), ?_⟩
          intro q hq
          have hmem : q ∈ rest.filter Value.isNumber := by
            rw [List.filter_cons_of_pos hsome] at heq
            cases pre with
            | nil => exact (List.cons.inj heq).2 ▸ hq
            | cons p pre =>
              rw [(List.cons.inj heq).2]
              exact List.mem_append_right _ (List.mem_cons_of_mem _ hq)
          obtain ⟨hqrest, hqsome⟩ := List.mem_filter.1 hmem
          obtain ⟨y, hy⟩ := Option.isSome_iff_exists.1 hqsome
          exact (hσ _ _).1 (hmono hx hy (hbest q (hrest q hqrest) y hy))
        rw [hfirst.unique _ hfirst']
        exact h'

end Extremes

/-! ### The other strategies -/

theorem foldl_last (vs : List Value) (e : Value) :
    vs.foldl (Context.mergeValue .last) e = (e :: vs).getLast (List.cons_ne_nil e vs) := by
  induction vs generalizing e with
  | nil => rfl
  | cons v vs ih => exact ih v

theorem foldl_first (vs : List Value) (e : Value) : vs.foldl (Context.mergeValue .first) e = e := by
  induction vs with
  | nil => rfl
  | cons v vs ih => exact ih

/-- The running total misses what it has had no room for. -/
theorem foldl_ints (is : List Int64) (i : Int64) : ∃ t : Int64,
    (is.map Value.int).foldl (Context.mergeValue .sum) (.int i) = .int t ∧
      t.toInt = i.toInt + (is.map Int64.toInt).sum - leftOut i.toInt is := by
  induction is generalizing i with
  | nil => exact ⟨i, rfl, by simp [leftOut]⟩
  | cons j is ih =>
    rw [List.map_cons, List.foldl_cons, List.map_cons, List.sum_cons, leftOut, Context.mergeValue,
      Value.checkedAdd]
    cases hsum : Value.checkedI64 (i.toInt + j.toInt) with
    | none =>
      obtain ⟨t, ht, htoInt⟩ := ih i
      refine ⟨t, ht, ?_⟩
      rw [if_neg (by simp), htoInt]
      omega
    | some k =>
      have hk := (Value.checkedI64_eq_some hsum).1
      obtain ⟨t, ht, htoInt⟩ := ih k
      refine ⟨t, ht, ?_⟩
      rw [if_pos Option.isSome_some, htoInt, hk]
      omega

/-- A total that is no integer stays one. -/
theorem foldl_not_int (is : List Int64) {e : Value} (he : ∀ i, e ≠ .int i) (s : Int64) :
    (is.map Value.int).foldl (Context.mergeValue .sum) e ≠ .int s := by
  induction is generalizing e with
  | nil => exact he s
  | cons j is ih =>
    rw [List.map_cons, List.foldl_cons]
    refine ih fun i => ?_
    cases e with
    | int i' => exact absurd rfl (he i')
    | float f => simp [Context.mergeValue, Value.checkedAdd]
    | _ => simp [Context.mergeValue, Value.checkedAdd]

theorem mergeValue_zero (i : Int64) : Context.mergeValue .sum (.int 0) (.int i) = .int i := by
  have hzero : Value.checkedI64 ((0 : Int64).toInt + i.toInt) = some i := by
    rw [Int64.toInt_zero, Int.zero_add, Value.checkedI64, if_pos ⟨i.le_toInt, i.toInt_lt⟩,
      Int64.ofInt_toInt]
  rw [Context.mergeValue, Value.checkedAdd, hzero]
  rfl

theorem sum_iff {g : Option Value} {is : List Int64} (hne : is ≠ []) {r : Value}
    (hr : mergedOf .sum (g.toList ++ is.map Value.int) = some r) {s : Int64}
    (hs : Value.checkedI64 (is.map Int64.toInt).sum = some s) :
    r = .int s ↔ ∃ i : Int64, g.getD (.int 0) = .int i ∧ leftOut i.toInt is = i.toInt := by
  have hsum := (Value.checkedI64_eq_some hs).1
  have hint : ∀ (i : Int64), (is.map Value.int).foldl (Context.mergeValue .sum) (.int i) = r →
      (r = .int s ↔ leftOut i.toInt is = i.toInt) := by
    intro i hi
    obtain ⟨t, ht, htoInt⟩ := foldl_ints is i
    rw [← hi, ht, Value.int.injEq, ← Int64.toInt_inj, hsum, htoInt]
    omega
  cases g with
  | none =>
    have hzero : (is.map Value.int).foldl (Context.mergeValue .sum) (.int 0) = r := by
      cases is with
      | nil => exact absurd rfl hne
      | cons i is =>
        rw [List.map_cons, List.foldl_cons, mergeValue_zero]
        exact Option.some.inj hr
    rw [hint 0 hzero]
    constructor
    · exact fun h => ⟨0, rfl, h⟩
    · rintro ⟨i, hi, h⟩
      obtain rfl := Value.int.inj hi
      exact h
  | some e =>
    rw [Option.getD_some]
    have hfold := Option.some.inj hr
    by_cases he : ∃ i, e = .int i
    · obtain ⟨i, rfl⟩ := he
      rw [hint i hfold]
      constructor
      · exact fun h => ⟨i, rfl, h⟩
      · rintro ⟨j, hj, h⟩
        rwa [Value.int.inj hj]
    · refine iff_of_false (fun h => ?_) fun h => ?_
      · exact foldl_not_int is (fun i hi => he ⟨i, hi⟩) s (hfold.trans h)
      · obtain ⟨i, hi, -⟩ := h
        exact he ⟨i, hi⟩

/-- One kind of pieces, which the old value may be of as well. -/
theorem concat_iff {α : Type} {piece : List α → Value} (hinj : ∀ a b, piece a = piece b → a = b)
    (hpiece : ∀ a b, Context.mergeValue .concat (piece a) (piece b) = piece (a ++ b))
    (hother : ∀ e b, (∀ a, e ≠ piece a) → Context.mergeValue .concat e (piece b) = piece b)
    {g : Option Value} {as : List (List α)} (hne : as ≠ []) {r : Value}
    (hr : mergedOf .concat (g.toList ++ as.map piece) = some r) :
    r = piece as.flatten ↔ ∀ a, g = some (piece a) → a = [] := by
  have hfold : ∀ (as : List (List α)) a,
      (as.map piece).foldl (Context.mergeValue .concat) (piece a) = piece (a ++ as.flatten) := by
    intro as
    induction as with
    | nil => intro a; simp
    | cons b as ih =>
      intro a
      rw [List.map_cons, List.foldl_cons, hpiece, ih, List.flatten_cons, List.append_assoc]
  cases as with
  | nil => exact absurd rfl hne
  | cons b as =>
    have hfresh : piece (b ++ as.flatten) = r → (r = piece (b :: as).flatten) := fun h => h.symm
    cases g with
    | none => exact iff_of_true (hfresh ((hfold as b).symm.trans (Option.some.inj hr))) (by simp)
    | some e =>
      have hmerged : (as.map piece).foldl (Context.mergeValue .concat)
          (Context.mergeValue .concat e (piece b)) = r := Option.some.inj hr
      by_cases he : ∃ a, e = piece a
      · obtain ⟨a, rfl⟩ := he
        rw [hpiece, hfold, List.append_assoc] at hmerged
        rw [← hmerged, List.flatten_cons]
        constructor
        · intro h a' ha'
          have ha := List.append_left_eq_self.1 (hinj _ _ h)
          rw [← hinj _ _ (Option.some.inj ha'), ha]
        · intro h
          rw [h a rfl, List.nil_append]
      · rw [hother e b fun a ha => he ⟨a, ha⟩, hfold] at hmerged
        exact iff_of_true (hfresh hmerged) fun a ha => absurd ⟨a, Option.some.inj ha⟩ he

theorem avg_of_two {vs : List Value} (hlen : vs.length ≤ 2) {r : Value} (hr : mergedOf .avg vs = some r)
    {xs : List F64} (hxs : vs.map Value.asF64 = xs.map some) : r.asF64 = mean xs := by
  rcases vs with _ | ⟨v, _ | ⟨w, _ | ⟨_, _⟩⟩⟩
  · cases hr
  · rcases xs with _ | ⟨x, _ | ⟨y, xs⟩⟩
    · cases hxs
    · obtain rfl := Option.some.inj hr
      exact (List.cons.inj hxs).1
    · cases (List.cons.inj hxs).2
  · rcases xs with _ | ⟨x, _ | ⟨y, _ | ⟨_, xs⟩⟩⟩
    · cases hxs
    · cases (List.cons.inj hxs).2
    · obtain ⟨hv, hrest⟩ := List.cons.inj hxs
      obtain ⟨hw, -⟩ := List.cons.inj hrest
      obtain rfl := Option.some.inj hr
      rw [List.foldl_cons, List.foldl_nil, Context.mergeValue, hv, hw]
      rfl
    · cases (List.cons.inj (List.cons.inj hxs).2).2
  · simp at hlen

/-! ### The promise -/

theorem le_iff_neg (x y : Int) : x ≤ y ↔ -y ≤ -x := by omega

/-- A promise is kept exactly when the values are such; of the average only that much is said, that
one or two values without an old one have it. -/
theorem declared_iff {st : MergeStrategy} {g : Option Value} {vs : List Value} (hne : vs ≠ []) {r : Value}
    (hr : mergedOf st (g.toList ++ vs) = some r) :
    (st.Faithful g vs → st.Declared vs r) ∧ (st ≠ .avg → st.Declared vs r → st.Faithful g vs) := by
  obtain ⟨v, ws, rfl⟩ := List.exists_cons_of_ne_nil hne
  suffices h : (st ≠ .avg → (st.Declared (v :: ws) r ↔ st.Faithful g (v :: ws))) ∧
      (st = .avg → st.Faithful g (v :: ws) → st.Declared (v :: ws) r) by
    by_cases havg : st = .avg
    · exact ⟨h.2 havg, fun hst => absurd havg hst⟩
    · exact ⟨(h.1 havg).2, fun _ => (h.1 havg).1⟩
  refine ⟨fun hst => ?_, fun hst => ?_⟩
  · cases st with
    | last =>
      have hfold : ws.foldl (Context.mergeValue .last) v = r := by
        cases g with
        | none => exact Option.some.inj hr
        | some e => exact Option.some.inj hr
      refine iff_of_true ?_ trivial
      rw [MergeStrategy.Declared, ← hfold, foldl_last, List.getLast?_eq_some_getLast]
    | first =>
      cases g with
      | none =>
        have hfold : ws.foldl (Context.mergeValue .first) v = r := Option.some.inj hr
        rw [foldl_first] at hfold
        exact iff_of_true (congrArg some hfold) (by simp [MergeStrategy.Faithful])
      | some e =>
        have hfold : (v :: ws).foldl (Context.mergeValue .first) e = r := Option.some.inj hr
        rw [foldl_first] at hfold
        subst hfold
        constructor
        · exact fun h e' he' => h.trans he'
        · exact fun h => h e rfl
    | min => exact forall_congr' fun _ => extreme_iff takes_min le_iff_neg Value.double_mono hr
    | max =>
      refine forall_congr' fun _ => ?_
      exact @extreme_iff .max id (· ≥ ·) takes_max (fun _ _ => Iff.rfl)
        (fun hv hw h => Value.double_mono hw hv h) g (v :: ws) r hr
    | concat =>
      refine and_congr (forall_congr' fun ss => ?_) (forall_congr' fun as => ?_)
      · have hiff : v :: ws = ss.map Value.string →
            (r = .string ss.flatten ↔ ∀ s, g = some (.string s) → s = []) := fun heq =>
          concat_iff (fun a b => Value.string.inj) (fun _ _ => rfl)
            (fun e b he => by cases e <;> first | rfl | exact absurd rfl (he _))
            (fun hnil => by rw [hnil] at heq; cases heq) (heq ▸ hr)
        constructor
        · exact fun h s heq => (hiff heq).1 (h heq) s
        · exact fun h heq => (hiff heq).2 fun s => h s heq
      · have hiff : v :: ws = as.map Value.array →
            (r = .array as.flatten ↔ ∀ a, g = some (.array a) → a = []) := fun heq =>
          concat_iff (fun a b => Value.array.inj) (fun _ _ => rfl)
            (fun e b he => by cases e <;> first | rfl | exact absurd rfl (he _))
            (fun hnil => by rw [hnil] at heq; cases heq) (heq ▸ hr)
        constructor
        · exact fun h a heq => (hiff heq).1 (h heq) a
        · exact fun h heq => (hiff heq).2 fun a => h a heq
    | sum =>
      refine forall_congr' fun is => forall_congr' fun heq => ?_
      have hiff : ∀ s, Value.checkedI64 (is.map Int64.toInt).sum = some s → (r = .int s ↔
          ∃ i : Int64, g.getD (.int 0) = .int i ∧ leftOut i.toInt is = i.toInt) := fun s =>
        sum_iff (fun hnil => by rw [hnil] at heq; cases heq) (heq ▸ hr)
      constructor
      · intro h hsome
        obtain ⟨s, hs⟩ := Option.isSome_iff_exists.1 hsome
        exact (hiff s hs).1 (h s hs)
      · exact fun h s hs => (hiff s hs).2 (h (hs ▸ rfl))
    | avg => exact absurd rfl hst
  · subst hst
    rintro ⟨rfl, hlen⟩ xs hxs
    exact avg_of_two hlen hr hxs

/-- A PARALLEL block with an old value, and a branch for each of the values. -/
def Context.block (g : Option Value) (st : MergeStrategy) (vs : List Value) : Context :=
  ⟨g.elim Dict.empty (Dict.empty.set "x"), Dict.ofList (vs.zipIdx.map fun e =>
    (e.2, ⟨Dict.empty.set "x" e.1, Dict.empty.set "x" st⟩)), none, none⟩

theorem block_oneStrategy (g : Option Value) (st : MergeStrategy) (vs : List Value) :
    (Context.block g st vs).OneStrategy "x" st := by
  intro b sc hsc _
  obtain ⟨e, -, he⟩ := List.mem_map.1 (Dict.mem_of_get_ofList hsc)
  obtain ⟨-, rfl⟩ := Prod.mk.inj he
  rw [Scope.getMergeStrategy, Dict.get_set_self]
  rfl

-- The third value weighs as much as the first two.
example : ((Context.block none .avg [.int 0, .int 0, .int 3]).mergeBranches.get "x").bind Value.asF64 ≠
    mean [F64.ofInt 0, F64.ofInt 0, F64.ofInt 3] := by decide +kernel

end Tinypipe
