import Tinypipe.Lib.Float64

/-! Rounding to 53 significant bits, and the order of the doubles. Rounding keeps the order and
fixes what a double can hold, so it never carries a number past a double. -/

namespace Lib.F64

/-! ### Rounding a natural number -/

theorem roundDiv_cases (num den : Nat) :
    roundDiv num den = num / den ∨ roundDiv num den = num / den + 1 := by
  rw [roundDiv]
  exact (ite_eq_or_eq _ _ _).symm

theorem roundDiv_mono {a b den : Nat} (h : a ≤ b) : roundDiv a den ≤ roundDiv b den := by
  have hq : a / den ≤ b / den := Nat.div_le_div_right h
  rcases Nat.lt_or_eq_of_le hq with hlt | heq
  · rcases roundDiv_cases a den with ha | ha <;> rcases roundDiv_cases b den with hb | hb <;> omega
  · -- the quotients agree, so the greater number has the greater remainder
    have hr : a % den ≤ b % den := by
      have ha := Nat.div_add_mod a den
      have hb := Nat.div_add_mod b den
      rw [heq] at ha
      omega
    rw [roundDiv, roundDiv, heq]
    split_ifs <;> omega

theorem roundDiv_mul (m : Nat) {den : Nat} (h : 0 < den) : roundDiv (m * den) den = m := by
  rw [roundDiv, Nat.mul_div_cancel _ h, Nat.mul_mod_left]
  simp only [Nat.mul_zero, Nat.not_lt_zero, false_or]
  rw [if_neg (by omega)]

/-- The number of bits that are rounded away. -/
def excess (n : Nat) : Nat := n.log2 - 52

/-- A natural number rounded to 53 significant bits. -/
def nearest (n : Nat) : Nat := roundDiv n (2 ^ excess n) * 2 ^ excess n

theorem excess_eq_zero {n : Nat} (h : n < 2 ^ 53) : excess n = 0 := by
  rcases Nat.eq_zero_or_pos n with rfl | hpos
  · decide
  · have := (Nat.log2_lt hpos.ne').2 h
    rw [excess]
    omega

theorem nearest_of_lt {n : Nat} (h : n < 2 ^ 53) : nearest n = n := by
  have hround : roundDiv (n * 1) 1 = n := roundDiv_mul n Nat.one_pos
  rw [Nat.mul_one] at hround
  rw [nearest, excess_eq_zero h, Nat.pow_zero, hround, Nat.mul_one]

theorem le_of_excess {n : Nat} (h : 2 ^ 52 ≤ n) :
    2 ^ 52 * 2 ^ excess n ≤ n ∧ n < 2 ^ 53 * 2 ^ excess n := by
  have hpos : n ≠ 0 := by omega
  have hlog : 52 ≤ n.log2 := (Nat.le_log2 hpos).2 h
  have heq : n.log2 = 52 + excess n := by rw [excess]; omega
  have hlow : 2 ^ n.log2 ≤ n := Nat.log2_self_le hpos
  have hhigh : n < 2 ^ (n.log2 + 1) := Nat.lt_log2_self
  rw [heq] at hlow hhigh
  rw [← Nat.pow_add, ← Nat.pow_add]
  exact ⟨hlow, by rwa [show 53 + excess n = 52 + excess n + 1 by omega]⟩

/-- The significand, before it is put back in place. -/
theorem roundDiv_excess {n : Nat} (h : 2 ^ 52 ≤ n) :
    2 ^ 52 ≤ roundDiv n (2 ^ excess n) ∧ roundDiv n (2 ^ excess n) ≤ 2 ^ 53 := by
  obtain ⟨hlow, hhigh⟩ := le_of_excess h
  have hpow : 0 < 2 ^ excess n := by positivity
  constructor
  · rw [← roundDiv_mul (2 ^ 52) hpow]
    exact roundDiv_mono hlow
  · rw [← roundDiv_mul (2 ^ 53) hpow]
    exact roundDiv_mono hhigh.le

theorem nearest_mono {a b : Nat} (h : a ≤ b) : nearest a ≤ nearest b := by
  rcases Nat.lt_or_ge a (2 ^ 52) with ha | ha
  · rcases Nat.lt_or_ge b (2 ^ 53) with hb | hb
    · rw [nearest_of_lt (by omega), nearest_of_lt hb]
      exact h
    · rw [nearest_of_lt (by omega), nearest]
      have hlow := (roundDiv_excess (n := b) (by omega)).1
      have hpow : 1 ≤ 2 ^ excess b := Nat.one_le_two_pow
      calc a ≤ 2 ^ 52 * 1 := by omega
        _ ≤ roundDiv b (2 ^ excess b) * 2 ^ excess b := Nat.mul_le_mul hlow hpow
  · have hle : excess a ≤ excess b := by
      have := (Nat.le_log2 (by omega)).2 ((Nat.log2_self_le (n := a) (by omega)).trans h)
      rw [excess, excess]
      omega
    rcases Nat.lt_or_eq_of_le hle with hlt | heq
    · -- a power of two lies between the two
      calc nearest a ≤ 2 ^ 53 * 2 ^ excess a := Nat.mul_le_mul_right _ (roundDiv_excess ha).2
        _ = 2 ^ 52 * 2 ^ (excess a + 1) := by rw [Nat.pow_succ]; ring
        _ ≤ 2 ^ 52 * 2 ^ excess b := Nat.mul_le_mul_left _ (Nat.pow_le_pow_right Nat.two_pos hlt)
        _ ≤ nearest b := Nat.mul_le_mul_right _ (roundDiv_excess (ha.trans h)).1
    · rw [nearest, nearest, heq]
      exact Nat.mul_le_mul_right _ (roundDiv_mono h)

/-- What 53 bits can hold is not rounded. -/
theorem nearest_mul_pow {m : Nat} (hm : m < 2 ^ 53) (e : Nat) : nearest (m * 2 ^ e) = m * 2 ^ e := by
  rcases Nat.eq_zero_or_pos m with rfl | hpos
  · rw [Nat.zero_mul]
    exact nearest_of_lt (by norm_num)
  · have hlog : (m * 2 ^ e).log2 = m.log2 + e := by
      rw [Nat.log2_eq_iff (by positivity)]
      have hlow : 2 ^ m.log2 ≤ m := Nat.log2_self_le hpos.ne'
      have hhigh : m < 2 ^ (m.log2 + 1) := Nat.lt_log2_self
      constructor
      · rw [Nat.pow_add]
        exact Nat.mul_le_mul_right _ hlow
      · rw [show m.log2 + e + 1 = m.log2 + 1 + e by omega, Nat.pow_add]
        exact Nat.mul_lt_mul_of_pos_right hhigh (by positivity)
    have hbits : m.log2 ≤ 52 := by
      have := (Nat.log2_lt hpos.ne').2 hm
      omega
    have hle : excess (m * 2 ^ e) ≤ e := by rw [excess, hlog]; omega
    rw [nearest]
    generalize excess (m * 2 ^ e) = k at hle
    obtain ⟨d, rfl⟩ := Nat.exists_eq_add_of_le hle
    have hsplit : m * 2 ^ (k + d) = m * 2 ^ d * 2 ^ k := by
      rw [Nat.mul_assoc, ← Nat.pow_add, Nat.add_comm d]
    rw [hsplit, roundDiv_mul _ (by positivity)]

/-! ### The order of the doubles -/

/-- The place of a double that is a number, the infinities beyond all the finite ones. -/
def order (x : F64) : Int := if x.isInf then (if x.sign then -2 ^ 2200 else 2 ^ 2200) else x.scaled

theorem compare?_eq {x y : F64} (hx : x.isNan = false) (hy : y.isNan = false) :
    x.compare? y = some (compare x.order y.order) := by
  rw [compare?, hx, hy]
  rfl

theorem compare?_nan {x y : F64} (h : x.isNan ∨ y.isNan) : x.compare? y = none := by
  rw [compare?, if_pos (by rcases h with h | h <;> simp [h])]

theorem lt_iff {x y : F64} (hx : x.isNan = false) (hy : y.isNan = false) :
    x.lt y ↔ x.order < y.order := by
  rw [lt, compare?_eq hx hy]
  simp [compare_lt_iff_lt]

theorem gt_iff {x y : F64} (hx : x.isNan = false) (hy : y.isNan = false) :
    x.gt y ↔ y.order < x.order := by
  rw [gt, compare?_eq hx hy]
  simp [compare_gt_iff_gt]

theorem le_iff {x y : F64} (hx : x.isNan = false) (hy : y.isNan = false) :
    x.le y ↔ x.order ≤ y.order := by
  rw [le, compare?_eq hx hy, Bool.or_eq_true, beq_iff_eq, beq_iff_eq, Option.some_inj, Option.some_inj,
    compare_lt_iff_lt, compare_eq_iff_eq, le_iff_lt_or_eq]

theorem ge_iff {x y : F64} (hx : x.isNan = false) (hy : y.isNan = false) :
    x.ge y ↔ y.order ≤ x.order := by
  rw [ge, compare?_eq hx hy, Bool.or_eq_true, beq_iff_eq, beq_iff_eq, Option.some_inj, Option.some_inj,
    compare_gt_iff_gt, compare_eq_iff_eq, le_iff_lt_or_eq, @eq_comm _ x.order]

theorem eq_iff {x y : F64} (hx : x.isNan = false) (hy : y.isNan = false) :
    x.eq y ↔ x.order = y.order := by
  rw [eq, compare?_eq hx hy, beq_iff_eq, Option.some_inj, compare_eq_iff_eq]

theorem lt_nan {x y : F64} (h : x.isNan ∨ y.isNan) : x.lt y = false := by
  rw [lt, compare?_nan h]
  rfl

theorem gt_nan {x y : F64} (h : x.isNan ∨ y.isNan) : x.gt y = false := by
  rw [gt, compare?_nan h]
  rfl

/-- An integer rounded to 53 significant bits. -/
def round (z : Int) : Int := if z < 0 then -(nearest z.natAbs : Int) else nearest z.natAbs

theorem round_mono {a b : Int} (h : a ≤ b) : round a ≤ round b := by
  rw [round, round]
  split_ifs with ha hb hb
  · have := nearest_mono (show b.natAbs ≤ a.natAbs by omega)
    omega
  · omega
  · omega
  · have := nearest_mono (show a.natAbs ≤ b.natAbs by omega)
    omega

theorem nearest_magnitude (x : F64) : nearest x.magnitude = x.magnitude := by
  have hfrac : x.fraction < 2 ^ 52 := Nat.mod_lt _ (by norm_num)
  rw [magnitude]
  split_ifs
  · exact nearest_of_lt (by omega)
  · exact nearest_mul_pow (by omega) _

theorem round_natCast (n : Nat) : round n = nearest n := by
  rw [round, if_neg (by omega), Int.natAbs_natCast]

theorem round_neg (n : Nat) : round (-(n : Int)) = -(nearest n : Int) := by
  rw [round, Int.natAbs_neg, Int.natAbs_natCast]
  split_ifs with h
  · rfl
  · obtain rfl : n = 0 := by omega
    rw [nearest_of_lt (by norm_num)]
    rfl

/-- A double is not rounded. -/
theorem round_order (x : F64) : round x.order = x.order := by
  have hinf : nearest (1 * 2 ^ 2200) = 1 * 2 ^ 2200 := nearest_mul_pow (by norm_num) 2200
  have hcast : (2 : Int) ^ 2200 = ((1 * 2 ^ 2200 : Nat) : Int) := by
    rw [Nat.one_mul, Nat.cast_pow, Nat.cast_ofNat]
  rw [order, scaled, hcast]
  split_ifs
  · rw [round_neg, hinf]
  · rw [round_natCast, hinf]
  · rw [round_neg, nearest_magnitude]
  · rw [round_natCast, nearest_magnitude]

/-- The double of a natural number is that number rounded. -/
theorem ofUnits_nearest (neg : Bool) {n : Nat} (h : n < 2 ^ 2097) :
    (ofUnits neg n 1).magnitude = nearest n ∧ (ofUnits neg n 1).sign = neg ∧
      (ofUnits neg n 1).expField < 2047 := by
  have hlog : excess n < 2045 := by
    rcases Nat.eq_zero_or_pos n with rfl | hpos
    · decide
    · have := (Nat.log2_lt hpos.ne').2 h
      rw [excess]
      omega
  have hunits : ofUnits neg n 1 =
      let m := roundDiv n (2 ^ excess n)
      let rest := if n < 2 ^ 52 then m else (excess n + 1) * 2 ^ 52 + (m - 2 ^ 52)
      if 2047 * 2 ^ 52 ≤ rest then inf neg else mk' neg rest := by
    rw [ofUnits, Nat.div_one, Nat.one_mul]
    rfl
  have hfields : ∀ e f, e < 2047 → f < 2 ^ 52 → nearest n = (if e = 0 then f else (2 ^ 52 + f) * 2 ^ (e - 1)) →
      ofUnits neg n 1 = mk' neg (e * 2 ^ 52 + f) → (ofUnits neg n 1).magnitude = nearest n ∧
        (ofUnits neg n 1).sign = neg ∧ (ofUnits neg n 1).expField < 2047 := by
    intro e f he hf hn heq
    rw [heq, magnitude, expField_mk' neg (by omega) hf, fraction_mk' neg (by omega) hf,
      sign_mk' neg (by omega)]
    exact ⟨hn.symm, rfl, he⟩
  rcases Nat.lt_or_ge n (2 ^ 52) with hn | hn
  · have hround : roundDiv n (2 ^ excess n) = n := by
      have hone : roundDiv (n * 1) 1 = n := roundDiv_mul n Nat.one_pos
      rwa [Nat.mul_one, ← Nat.pow_zero 2, ← excess_eq_zero (n := n) (by omega)] at hone
    refine hfields 0 n (by omega) hn ?_ ?_
    · rw [nearest_of_lt (by omega), if_pos rfl]
    · rw [hunits, hround]
      dsimp only
      rw [if_pos hn, if_neg (by omega), Nat.zero_mul, Nat.zero_add]
  · obtain ⟨hlow, hhigh⟩ := roundDiv_excess hn
    have hrest : ofUnits neg n 1 =
        mk' neg ((excess n + 1) * 2 ^ 52 + (roundDiv n (2 ^ excess n) - 2 ^ 52)) := by
      rw [hunits]
      dsimp only
      rw [if_neg hn.not_gt, if_neg (by omega)]
    rcases Nat.lt_or_eq_of_le hhigh with hlt | heq
    · refine hfields (excess n + 1) (roundDiv n (2 ^ excess n) - 2 ^ 52) (by omega) (by omega) ?_ hrest
      rw [if_neg (by omega), Nat.add_sub_cancel, Nat.add_sub_cancel' hlow]
      rfl
    · -- rounded up to the next power of two
      refine hfields (excess n + 2) 0 (by omega) (by norm_num) ?_ ?_
      · rw [if_neg (by omega), nearest, heq, show excess n + 2 - 1 = excess n + 1 by omega,
          Nat.pow_succ 2 (excess n), Nat.add_zero, Nat.mul_comm (2 ^ excess n), ← Nat.mul_assoc]
        rfl
      · rw [hrest, heq]
        exact congrArg (mk' neg) (by omega)

theorem mul_pow_lt {a k m n : Nat} (ha : a < 2 ^ k) (h : k + m ≤ n) : a * 2 ^ m < 2 ^ n :=
  calc a * 2 ^ m < 2 ^ k * 2 ^ m := Nat.mul_lt_mul_of_pos_right ha (Nat.two_pow_pos m)
    _ = 2 ^ (k + m) := (Nat.pow_add 2 k m).symm
    _ ≤ 2 ^ n := Nat.pow_le_pow_right Nat.two_pos h

/-- `i as f64` is the integer rounded. -/
theorem order_ofInt {i : Int} (h : i.natAbs < 2 ^ 64) :
    (ofInt i).order = round (i * 2 ^ 1074) ∧ (ofInt i).isNan = false := by
  have hn : i.natAbs * 2 ^ 1074 < 2 ^ 2097 := mul_pow_lt h (by norm_num)
  obtain ⟨hmag, hsign, hexp⟩ := ofUnits_nearest (decide (i < 0)) hn
  rw [ofInt, ofRatio]
  generalize ofUnits (decide (i < 0)) (i.natAbs * 2 ^ 1074) 1 = x at hmag hsign hexp
  have hfin : (x.expField == 2047) = false := by
    rw [beq_eq_false_iff_ne]
    omega
  refine ⟨?_, by rw [isNan, hfin]; rfl⟩
  rw [order, isInf, hfin, Bool.false_and, if_neg Bool.false_ne_true, scaled, hsign, hmag]
  split_ifs with hneg
  · have hcast : i * 2 ^ 1074 = -((i.natAbs * 2 ^ 1074 : Nat) : Int) := by
      rw [Nat.cast_mul, Nat.cast_pow, Nat.cast_ofNat]
      have := of_decide_eq_true hneg
      rw [show i = -(i.natAbs : Int) by omega, Int.natAbs_neg, Int.natAbs_natCast, Int.neg_mul]
    rw [hcast, round_neg]
  · have hcast : i * 2 ^ 1074 = ((i.natAbs * 2 ^ 1074 : Nat) : Int) := by
      rw [Nat.cast_mul, Nat.cast_pow, Nat.cast_ofNat]
      have : ¬i < 0 := fun h => hneg (decide_eq_true h)
      rw [show i = (i.natAbs : Int) by omega, Int.natAbs_natCast]
    rw [hcast, round_natCast]

theorem round_mul_mono {a b u : Int} (hu : 0 ≤ u) (h : a ≤ b) : round (a * u) ≤ round (b * u) :=
  round_mono (Int.mul_le_mul_of_nonneg_right h hu)

/-- The doubles of two integers are in the order of the integers, or equal. -/
theorem order_ofInt_mono {i j : Int} (hi : i.natAbs < 2 ^ 64) (hj : j.natAbs < 2 ^ 64) (h : i ≤ j) :
    (ofInt i).order ≤ (ofInt j).order := by
  have hunit : (0 : Int) ≤ 2 ^ 1074 := Int.pow_nonneg (by decide)
  have hleft := (order_ofInt hi).1
  have hright := (order_ofInt hj).1
  generalize (2 : Int) ^ 1074 = u at hunit hleft hright
  rw [hleft, hright]
  exact round_mul_mono hunit h

end Lib.F64
