import Tinypipe.Lib.Text

/-! IEEE 754 binary64 computed on its bit pattern, so that every value of the
type is a double and every operation evaluates. A finite value is read as an
integer count of the least subnormal `2 ^ -1074`; rounding is to nearest, ties
to even. -/

namespace Lib

structure F64 where
  bits : BitVec 64
deriving DecidableEq

namespace F64

def sign (x : F64) : Bool := 2 ^ 63 ≤ x.bits.toNat

def expField (x : F64) : Nat := x.bits.toNat / 2 ^ 52 % 2048

def fraction (x : F64) : Nat := x.bits.toNat % 2 ^ 52

def isNan (x : F64) : Bool := x.expField == 2047 && x.fraction != 0

def isInf (x : F64) : Bool := x.expField == 2047 && x.fraction == 0

def isFinite (x : F64) : Bool := x.expField != 2047

/-- The magnitude of a finite value, counted in units of `2 ^ -1074`. -/
def magnitude (x : F64) : Nat :=
  if x.expField = 0 then x.fraction else (2 ^ 52 + x.fraction) * 2 ^ (x.expField - 1)

/-- A finite value, counted in units of `2 ^ -1074`. -/
def scaled (x : F64) : Int := if x.sign then -(x.magnitude : Int) else x.magnitude

def mk' (neg : Bool) (rest : Nat) : F64 := ⟨BitVec.ofNat 64 (cond neg (2 ^ 63) 0 + rest)⟩

def nan : F64 := mk' false (2047 * 2 ^ 52 + 2 ^ 51)

def inf (neg : Bool) : F64 := mk' neg (2047 * 2 ^ 52)

/-- `num / den` rounded to an integer, ties to even. -/
def roundDiv (num den : Nat) : Nat :=
  let q := num / den
  let r := num % den
  if den < 2 * r ∨ (2 * r = den ∧ q % 2 = 1) then q + 1 else q

/-- The double closest to `±(num / den)` units of `2 ^ -1074`. -/
def ofUnits (neg : Bool) (num den : Nat) : F64 :=
  let q := num / den
  -- the shift that leaves a significand of at most 53 bits
  let e := q.log2 - 52
  let m := roundDiv num (den * 2 ^ e)
  let rest := if q < 2 ^ 52 then m else (e + 1) * 2 ^ 52 + (m - 2 ^ 52)
  if 2047 * 2 ^ 52 ≤ rest then inf neg else mk' neg rest

/-- `num / den` as a double. -/
def ofRatio (neg : Bool) (num den : Nat) : F64 := ofUnits neg (num * 2 ^ 1074) den

/-- `i as f64` -/
def ofInt (i : Int) : F64 := ofRatio (i < 0) i.natAbs 1

/-- `x as i64`: truncation, saturating, with `NaN` sent to zero. -/
def toI64 (x : F64) : Int64 :=
  if x.isNan then 0
  else if x.isInf then (if x.sign then Int64.minValue else Int64.maxValue)
  else
    let t : Int := (x.magnitude / 2 ^ 1074 : Nat)
    let t := if x.sign then -t else t
    if t < -2 ^ 63 then Int64.minValue
    else if 2 ^ 63 ≤ t then Int64.maxValue
    else Int64.ofInt t

/-- IEEE comparison: `none` when an operand is `NaN`. -/
def compare? (x y : F64) : Option Ordering :=
  if x.isNan || y.isNan then none
  else
    let key (z : F64) : Int := if z.isInf then (if z.sign then -2 ^ 2200 else 2 ^ 2200) else z.scaled
    some (compare (key x) (key y))

def lt (x y : F64) : Bool := x.compare? y == some .lt
def gt (x y : F64) : Bool := x.compare? y == some .gt
def le (x y : F64) : Bool := x.compare? y == some .lt || x.compare? y == some .eq
def ge (x y : F64) : Bool := x.compare? y == some .gt || x.compare? y == some .eq
def eq (x y : F64) : Bool := x.compare? y == some .eq

def neg (x : F64) : F64 := ⟨x.bits ^^^ BitVec.ofNat 64 (2 ^ 63)⟩

def abs (x : F64) : F64 := if x.sign then x.neg else x

def add (x y : F64) : F64 :=
  if x.isNan || y.isNan then nan
  else if x.isInf then (if y.isInf && x.sign != y.sign then nan else x)
  else if y.isInf then y
  else
    let s := x.scaled + y.scaled
    -- an exact zero keeps the sign only when both operands are negative
    let neg := if s = 0 then x.sign && y.sign else s < 0
    ofUnits neg s.natAbs 1

def sub (x y : F64) : F64 := x.add y.neg

/-- `x / 2` -/
def half (x : F64) : F64 :=
  if x.isFinite then ofUnits x.sign x.magnitude 2 else x

/-- `f64::EPSILON` -/
def epsilon : F64 := ofRatio false 1 (2 ^ 52)

/-- The decimal grammar of `parse::<f64>`: digits with an optional point and exponent. -/
def parseDecimal (neg : Bool) (t : Text) : Option F64 :=
  let (mant, ex) := match t.span (fun c => c != 'e' && c != 'E') with
    | (m, _ :: e) => (m, some e)
    | (m, []) => (m, none)
  let (whole, frac) := match mant.span (fun c => c != '.') with
    | (w, _ :: f) => (w, f)
    | (w, []) => (w, [])
  let digits := whole ++ frac
  let ex := match ex with
    | none => some 0
    | some e => Text.parseSigned e
  match Text.parseNat digits, ex with
  | some d, some e =>
    let e := e - frac.length
    -- far outside the range the answer is known without forming the power
    if d = 0 then some (mk' neg 0)
    else if 400 < e + digits.length then some (inf neg)
    else if e + digits.length < -400 then some (mk' neg 0)
    else if 0 ≤ e then some (ofRatio neg (d * 10 ^ e.toNat) 1)
    else some (ofRatio neg d (10 ^ (-e).toNat))
  | _, _ => none

/-- `parse::<f64>` -/
def parse (t : Text) : Option F64 :=
  let (neg, body) := match t with
    | '+' :: cs => (false, cs)
    | '-' :: cs => (true, cs)
    | cs => (false, cs)
  if Text.eqIgnoreAsciiCase body "inf" || Text.eqIgnoreAsciiCase body "infinity" then some (inf neg)
  else if Text.eqIgnoreAsciiCase body "nan" then some (if neg then nan.neg else nan)
  else parseDecimal neg body

/-- The `n`-digit decimals `d * 10 ^ p` just below and just above the magnitude. -/
def decimalsAround (x : F64) (n : Nat) (top : Int) : List (Nat × Int) :=
  let p := top - n
  -- magnitude / 2 ^ 1074 / 10 ^ p
  let num := if 0 ≤ p then x.magnitude else x.magnitude * 10 ^ (-p).toNat
  let den := if 0 ≤ p then 2 ^ 1074 * 10 ^ p.toNat else 2 ^ 1074
  let lo := (num / den, p)
  let hi := (num / den + 1, p)
  if 2 * (num % den) ≤ den then [lo, hi] else [hi, lo]

def ofDecimal (d : Nat) (p : Int) : F64 :=
  if 0 ≤ p then ofRatio false (d * 10 ^ p.toNat) 1 else ofRatio false d (10 ^ (-p).toNat)

/-- The shortest digits that read back as the magnitude, with their power of ten:
try one digit, then two, up to seventeen. -/
def shortest (x : F64) : Nat × Int :=
  let whole := x.magnitude / 2 ^ 1074
  -- the position of the leading digit: the magnitude is below `10 ^ top`
  let top : Int :=
    if 0 < whole then Nat.log 10 whole + 1
    else -(Nat.log 10 (2 ^ 1074 / x.magnitude) : Int)
  let good (n : Nat) : Option (Nat × Int) :=
    (x.decimalsAround n top).find? fun c => ofDecimal c.1 c.2 == x.abs
  ((List.range 17).findSome? fun i => good (i + 1)).getD (0, 0)

/-- Strip trailing zeros of a digit string into its power of ten. -/
def normDigits : Nat → Nat × Int → Nat × Int
  | 0, c => c
  | n + 1, (d, p) => if d ≠ 0 ∧ d % 10 = 0 then normDigits n (d / 10, p + 1) else (d, p)

def digits (x : F64) : Text × Int :=
  let (d, p) := normDigits 20 x.shortest
  (Text.ofNat d, p)

/-- Positional notation of `digits * 10 ^ p`. -/
def positional (ds : Text) (p : Int) : Text :=
  if 0 ≤ p then ds ++ List.replicate p.toNat '0'
  else
    let k := (-p).toNat
    if k < ds.length then ds.take (ds.length - k) ++ '.' :: ds.drop (ds.length - k)
    else '0' :: '.' :: (List.replicate (k - ds.length) '0' ++ ds)

/-- `x.to_string()` -/
def toText (x : F64) : Text :=
  if x.isNan then "NaN"
  else
    let body : Text :=
      if x.isInf then "inf"
      else if x.magnitude = 0 then "0"
      else positional x.digits.1 x.digits.2
    if x.sign then '-' :: body else body

/-- The JSON form of a finite double: a point is always written, and exponent
notation is used outside `10 ^ -5 .. 10 ^ 16`. -/
def toJson (x : F64) : Text :=
  if !x.isFinite then "null"
  else
    let (ds, p) := x.digits
    let kk := p + ds.length
    let body : Text :=
      if x.magnitude = 0 then "0.0"
      else if 0 ≤ p ∧ kk ≤ 16 then positional ds p ++ ['.', '0']
      else if -5 < kk ∧ kk ≤ 16 then positional ds p
      else
        let mant := match ds with
          | [d] => [d]
          | d :: rest => d :: '.' :: rest
          | [] => []
        mant ++ 'e' :: Text.ofInt (kk - 1)
    if x.sign then '-' :: body else body

theorem mk'_toNat (neg : Bool) {rest : Nat} (h : rest < 2 ^ 63) :
    (mk' neg rest).bits.toNat = cond neg (2 ^ 63) 0 + rest := by
  rw [mk', BitVec.toNat_ofNat, Nat.mod_eq_of_lt]
  cases neg <;> simp <;> omega

/-- A significand of 53 bits times a power of two is represented exactly. -/
theorem ofUnits_exact (neg : Bool) {m e : Nat} (hm : 2 ^ 52 ≤ m) (hm' : m < 2 ^ 53)
    (he : e < 2046) :
    ofUnits neg (m * 2 ^ e) 1 = mk' neg ((e + 1) * 2 ^ 52 + (m - 2 ^ 52)) := by
  have hpow : 0 < 2 ^ e := by positivity
  have hlog : (m * 2 ^ e).log2 = 52 + e := by
    rw [Nat.log2_eq_iff (by positivity)]
    constructor
    · rw [pow_add]
      exact Nat.mul_le_mul_right _ hm
    · rw [show 52 + e + 1 = 53 + e by omega, pow_add]
      exact Nat.mul_lt_mul_of_pos_right hm' hpow
  have hround : roundDiv (m * 2 ^ e) (2 ^ e) = m := by
    rw [roundDiv, Nat.mul_div_cancel _ hpow, Nat.mul_mod_left]
    simp only [Nat.mul_zero, Nat.not_lt_zero, false_or]
    rw [if_neg (by omega)]
  have hbig : ¬m * 2 ^ e < 2 ^ 52 := by
    have := Nat.le_mul_of_pos_right m hpow
    omega
  simp only [ofUnits, Nat.div_one, hlog, Nat.one_mul, Nat.add_sub_cancel_left, hround, if_neg hbig]
  rw [if_neg (by omega)]

theorem sign_mk' (neg : Bool) {rest : Nat} (h : rest < 2 ^ 63) : (mk' neg rest).sign = neg := by
  rw [sign, mk'_toNat neg h]
  cases neg with
  | false => simpa using h
  | true => simp

theorem expField_mk' (neg : Bool) {e f : Nat} (he : e < 2048) (hf : f < 2 ^ 52) :
    (mk' neg (e * 2 ^ 52 + f)).expField = e := by
  rw [expField, mk'_toNat neg (by omega)]
  cases neg <;> simp <;> omega

theorem fraction_mk' (neg : Bool) {e f : Nat} (he : e < 2048) (hf : f < 2 ^ 52) :
    (mk' neg (e * 2 ^ 52 + f)).fraction = f := by
  rw [fraction, mk'_toNat neg (by omega)]
  cases neg <;> simp <;> omega

/-- A positive integer up to `2 ^ 53` is a 53-bit significand and a power of two. -/
theorem exists_significand {a : Nat} (ha : 0 < a) (ha' : a ≤ 2 ^ 53) :
    ∃ m e, 2 ^ 52 ≤ m ∧ m < 2 ^ 53 ∧ e < 2046 ∧ a * 2 ^ 1074 = m * 2 ^ e := by
  rcases Nat.lt_or_eq_of_le ha' with hlt | rfl
  · have hlog : a.log2 ≤ 52 := by
      have := (Nat.log2_lt (Nat.ne_of_gt ha)).mpr hlt
      omega
    have hlow : 2 ^ a.log2 ≤ a := Nat.log2_self_le (Nat.ne_of_gt ha)
    have hhigh : a < 2 ^ (a.log2 + 1) := Nat.lt_log2_self
    refine ⟨a * 2 ^ (52 - a.log2), 1022 + a.log2, ?_, ?_, by omega, ?_⟩
    · calc 2 ^ 52 = 2 ^ a.log2 * 2 ^ (52 - a.log2) := by rw [← pow_add]; congr 1; omega
        _ ≤ a * 2 ^ (52 - a.log2) := Nat.mul_le_mul_right _ hlow
    · calc a * 2 ^ (52 - a.log2) < 2 ^ (a.log2 + 1) * 2 ^ (52 - a.log2) :=
            Nat.mul_lt_mul_of_pos_right hhigh (by positivity)
        _ = 2 ^ 53 := by rw [← pow_add]; congr 1; omega
    · rw [Nat.mul_assoc, ← pow_add]
      congr 2
      omega
  · exact ⟨2 ^ 52, 1075, le_rfl, by norm_num, by norm_num, by rw [← pow_add, ← pow_add]⟩

/-- Integers up to `2 ^ 53` pass through a double unchanged. -/
theorem toI64_ofInt {i : Int} (h : i.natAbs ≤ 2 ^ 53) : (ofInt i).toI64 = Int64.ofInt i := by
  rcases Nat.eq_zero_or_pos i.natAbs with h0 | hpos
  · obtain rfl : i = 0 := Int.natAbs_eq_zero.mp h0
    decide +kernel
  · obtain ⟨m, e, hm, hm', he, heq⟩ := exists_significand hpos h
    have hx : ofInt i = mk' (i < 0) ((e + 1) * 2 ^ 52 + (m - 2 ^ 52)) := by
      rw [ofInt, ofRatio, heq, ofUnits_exact _ hm hm' he]
    have hexp : (ofInt i).expField = e + 1 := hx ▸ expField_mk' _ (by omega) (by omega)
    have hsign : (ofInt i).sign = decide (i < 0) := hx ▸ sign_mk' _ (by omega)
    have hfrac : (ofInt i).fraction = m - 2 ^ 52 := hx ▸ fraction_mk' _ (by omega) (by omega)
    have hmag : (ofInt i).magnitude / 2 ^ 1074 = i.natAbs := by
      have : 2 ^ 52 + (m - 2 ^ 52) = m := by omega
      rw [magnitude, hexp, hfrac, if_neg (by omega), Nat.add_sub_cancel, this, ← heq]
      exact Nat.mul_div_cancel _ (by positivity)
    have hfin : ((ofInt i).expField == 2047) = false := by
      rw [hexp]
      simp
      omega
    rw [toI64, isNan, isInf, hfin, hmag, hsign]
    simp only [Bool.false_and, Bool.false_eq_true, if_false, decide_eq_true_eq]
    have hval : (if i < 0 then -((i.natAbs : Nat) : Int) else (i.natAbs : Nat)) = i := by
      split <;> omega
    rw [hval, if_neg (by omega), if_neg (by omega)]

/-- Cutting a text at a character other than `c` loses no `c`. -/
theorem mem_of_cut {c d : Char} {p : Char → Bool} {t rest : Text} (hp : p c) (h : c ∈ t)
    (hd : t.dropWhile p = d :: rest) : c ∈ t.takeWhile p ∨ c ∈ rest := by
  have hne : c ≠ d := by
    rintro rfl
    have := List.head?_dropWhile_not p t
    simp [hd, hp] at this
  rw [← List.takeWhile_append_dropWhile (p := p) (l := t), hd] at h
  simpa [hne] using h

theorem mem_of_uncut {c : Char} {p : Char → Bool} {t : Text} (h : c ∈ t)
    (hd : t.dropWhile p = []) : c ∈ t.takeWhile p := by
  rw [← List.takeWhile_append_dropWhile (p := p) (l := t), hd] at h
  simpa using h

/-- A blank is in no decimal. -/
theorem parseDecimal_eq_none_of_blank {neg : Bool} {t : Text} (h : ' ' ∈ t) :
    parseDecimal neg t = none := by
  have hnat : ∀ s : Text, ' ' ∈ s → Text.parseNat s = none := fun s hs => by
    cases hn : Text.parseNat s with
    | none => rfl
    | some n => exact absurd ((Text.parseNat_digits hn).2 _ hs) (by decide)
  have hsigned : ∀ s : Text, ' ' ∈ s → Text.parseSigned s = none := fun s hs => by
    cases hn : Text.parseSigned s with
    | none => rfl
    | some n =>
      obtain ⟨c, cs, rfl, hc, hcs⟩ := Text.parseSigned_digits hn
      rcases List.mem_cons.mp hs with rfl | hs
      · exact absurd hc (by decide)
      · exact absurd (hcs _ hs) (by decide)
  unfold parseDecimal
  simp only [List.span_eq_takeWhile_dropWhile]
  cases hd : t.dropWhile (fun c => c != 'e' && c != 'E') with
  | nil =>
    have hm := mem_of_uncut h hd
    cases hw : (t.takeWhile fun c => c != 'e' && c != 'E').dropWhile (fun c => c != '.') with
    | nil => simp only [hnat _ (List.mem_append_left [] (mem_of_uncut hm hw))]
    | cons => simp only [hnat _ (List.mem_append.mpr (mem_of_cut (by decide) hm hw))]
  | cons d ds =>
    rcases mem_of_cut (by decide) h hd with hm | he
    · cases hw : (t.takeWhile fun c => c != 'e' && c != 'E').dropWhile (fun c => c != '.') with
      | nil => simp only [hnat _ (List.mem_append_left [] (mem_of_uncut hm hw))]
      | cons => simp only [hnat _ (List.mem_append.mpr (mem_of_cut (by decide) hm hw))]
    · simp only [hsigned ds he]
      split
      · next he' => cases he'
      · rfl

theorem parse_eq_none_of_blank {t : Text} (h : ' ' ∈ t) : parse t = none := by
  have hword : ∀ b w : Text, ' ' ∈ b → ' ' ∉ w.map Text.lower →
      Text.eqIgnoreAsciiCase b w = false := fun b w hb hw => by
    rw [Text.eqIgnoreAsciiCase, beq_eq_false_iff_ne]
    intro heq
    exact hw (heq ▸ List.mem_map.mpr ⟨' ', hb, by decide⟩)
  have hbody : ∀ (neg : Bool) (b : Text), ' ' ∈ b →
      (if Text.eqIgnoreAsciiCase b "inf" || Text.eqIgnoreAsciiCase b "infinity" then some (inf neg)
      else if Text.eqIgnoreAsciiCase b "nan" then some (if neg then nan.neg else nan)
      else parseDecimal neg b) = none := fun neg b hb => by
    rw [hword b "inf" hb (by decide), hword b "infinity" hb (by decide),
      hword b "nan" hb (by decide)]
    exact parseDecimal_eq_none_of_blank hb
  unfold parse
  split
  next neg body heq =>
    split at heq <;> cases heq
    · exact hbody false _ (by simpa using h)
    · exact hbody true _ (by simpa using h)
    · exact hbody false _ h

/-- Without an exponent, a character that is neither a digit nor the point is no part of a number. -/
theorem parseDecimal_eq_none {neg : Bool} {t : Text} {c : Char} (he : ∀ d ∈ t, d ≠ 'e' ∧ d ≠ 'E') (hc : c ∈ t)
    (hdot : c ≠ '.') (hdigit : Text.isDigit c = false) : parseDecimal neg t = none := by
  have hmant : t.span (fun c => c != 'e' && c != 'E') = (t, []) := by
    have hall : ∀ d ∈ t, (d != 'e' && d != 'E') = true := fun d hd => by simp [he d hd]
    rw [List.span_eq_takeWhile_dropWhile, List.takeWhile_eq_self_iff.2 hall, List.dropWhile_eq_nil_iff.2 hall]
  have hnat : ∀ s : Text, c ∈ s → Text.parseNat s = none := by
    intro s hs
    cases hn : Text.parseNat s with
    | none => rfl
    | some n =>
      rw [(Text.parseNat_digits hn).2 c hs] at hdigit
      cases hdigit
  unfold parseDecimal
  rw [hmant]
  simp only [List.span_eq_takeWhile_dropWhile]
  cases hw : t.dropWhile (fun c => c != '.') with
  | nil => simp only [hnat _ (List.mem_append_left [] (mem_of_uncut hc hw))]
  | cons => simp only [hnat _ (List.mem_append.mpr (mem_of_cut (by simpa using hdot) hc hw))]

theorem parse_eq_none_of_operator {d c : Char} {ds : Text} (he : ∀ x ∈ d :: ds, x ≠ 'e' ∧ x ≠ 'E') (hc : c ∈ ds)
    (hop : c ∈ ['+', '-', '*', '/']) : parse (d :: ds) = none := by
  have hchar : c ≠ '.' ∧ Text.isDigit c = false ∧ Text.lower c = c ∧ c ∉ ("infinity" : Text) ∧ c ∉ ("nan" : Text) ∧
      c ∉ ("inf" : Text) := by
    simp only [List.mem_cons, List.not_mem_nil, or_false] at hop
    rcases hop with rfl | rfl | rfl | rfl <;> decide
  obtain ⟨hdot, hdigit, hlower, hinfinity, hnan, hinf⟩ := hchar
  have hword : ∀ b w : Text, c ∈ b → w.map Text.lower = w → c ∉ w → Text.eqIgnoreAsciiCase b w = false := by
    intro b w hb hw hnot
    rw [Text.eqIgnoreAsciiCase, beq_eq_false_iff_ne, hw]
    intro heq
    exact hnot (heq ▸ List.mem_map.2 ⟨c, hb, hlower⟩)
  have hbody : ∀ (neg : Bool) (b : Text), c ∈ b → (∀ x ∈ b, x ≠ 'e' ∧ x ≠ 'E') →
      (if Text.eqIgnoreAsciiCase b "inf" || Text.eqIgnoreAsciiCase b "infinity" then some (inf neg)
      else if Text.eqIgnoreAsciiCase b "nan" then some (if neg then nan.neg else nan)
      else parseDecimal neg b) = none := by
    intro neg b hb hexp
    rw [hword b "inf" hb (by decide) hinf, hword b "infinity" hb (by decide) hinfinity,
      hword b "nan" hb (by decide) hnan]
    exact parseDecimal_eq_none hexp hb hdot hdigit
  unfold parse
  split
  next neg body heq =>
    split at heq
    next cs h =>
      cases h
      cases heq
      exact hbody false _ hc fun x hx => he x (List.mem_cons_of_mem _ hx)
    next cs h =>
      cases h
      cases heq
      exact hbody true _ hc fun x hx => he x (List.mem_cons_of_mem _ hx)
    next =>
      cases heq
      exact hbody false _ (List.mem_cons_of_mem _ hc) he

end F64

end Lib
