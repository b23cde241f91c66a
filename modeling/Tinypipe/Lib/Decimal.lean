import Tinypipe.Lib.Float64

/-! The text of a double: which characters it has, and that it is read as some number. -/

namespace Lib.F64

/-- The characters of numbers, `NaN` and `inf`. -/
def isNumeral (c : Char) : Bool := Text.isDigit c || ['-', '.', 'N', 'a', 'i', 'n', 'f'].elem c

theorem isNumeral_of_isDigit {c : Char} (h : Text.isDigit c = true) : isNumeral c = true := by
  rw [isNumeral, h, Bool.true_or]

def Digits (t : Text) : Prop := ∀ c ∈ t, Text.isDigit c = true

theorem digits_zeros (n : Nat) : Digits (List.replicate n '0') := by
  intro c hc
  rw [List.eq_of_mem_replicate hc]
  decide

theorem digits_append {s t : Text} (hs : Digits s) (ht : Digits t) : Digits (s ++ t) := by
  intro c hc
  rcases List.mem_append.1 hc with hc | hc
  · exact hs c hc
  · exact ht c hc

/-- Digits, and perhaps a point and more of them. -/
inductive Decimal : Text → Prop
  | whole {w : Text} (hne : w ≠ []) (hw : Digits w) : Decimal w
  | point {w f : Text} (hne : w ≠ []) (hw : Digits w) (hf : Digits f) : Decimal (w ++ '.' :: f)

theorem Decimal.chars {t : Text} (h : Decimal t) : ∀ c ∈ t, isNumeral c = true := by
  intro c hc
  cases h with
  | whole hne hw => exact isNumeral_of_isDigit (hw c hc)
  | @point w f hne hw hf =>
    rcases List.mem_append.1 hc with hc | hc
    · exact isNumeral_of_isDigit (hw c hc)
    · rcases List.mem_cons.1 hc with rfl | hc
      · decide
      · exact isNumeral_of_isDigit (hf c hc)

theorem Decimal.head {t : Text} (h : Decimal t) : ∃ c cs, t = c :: cs ∧ Text.isDigit c = true := by
  cases h with
  | whole hne hw =>
    obtain ⟨c, cs, rfl⟩ := List.exists_cons_of_ne_nil hne
    exact ⟨c, cs, rfl, hw c List.mem_cons_self⟩
  | @point w f hne hw hf =>
    obtain ⟨c, cs, rfl⟩ := List.exists_cons_of_ne_nil hne
    exact ⟨c, cs ++ '.' :: f, rfl, hw c List.mem_cons_self⟩

theorem decimal_positional (n : Nat) (p : Int) : Decimal (positional (Text.ofNat n) p) := by
  have hdigits : Digits (Text.ofNat n) := fun c hc => Text.isDigit_of_mem_ofNat hc
  have hne := Text.ofNat_ne_nil n
  rw [positional]
  split
  · exact .whole (by simp [hne]) (digits_append hdigits (digits_zeros _))
  · dsimp only
    split
    case isTrue hlt =>
      refine .point ?_ (fun c hc => hdigits c (List.mem_of_mem_take hc))
        fun c hc => hdigits c (List.mem_of_mem_drop hc)
      rw [Ne, List.take_eq_nil_iff, not_or]
      exact ⟨by omega, hne⟩
    case isFalse =>
      refine Decimal.point (w := ['0']) (by simp) ?_ (digits_append (digits_zeros _) hdigits)
      intro c hc
      rw [List.mem_singleton.1 hc]
      decide

theorem parseNat_isSome {t : Text} (hne : t ≠ []) (h : Digits t) : (Text.parseNat t).isSome = true := by
  have hall : t.all Text.isDigit = true := List.all_eq_true.2 h
  have hempty : t.isEmpty = false := List.isEmpty_eq_false_iff.2 hne
  rw [Text.parseNat, hall, hempty]
  rfl

theorem Decimal.parseDecimal {t : Text} (h : Decimal t) (neg : Bool) : (parseDecimal neg t).isSome = true := by
  have hchar : ∀ c, Text.isDigit c = true → c ≠ 'e' ∧ c ≠ 'E' ∧ c ≠ '.' := by
    intro c hc
    refine ⟨?_, ?_, ?_⟩ <;>
    · rintro rfl
      cases hc
  have hmant : t.span (fun c => c != 'e' && c != 'E') = (t, []) := by
    have hall : ∀ c ∈ t, (c != 'e' && c != 'E') = true := by
      intro c hc
      cases h with
      | whole hne hw => simp [hchar c (hw c hc)]
      | point hne hw hf =>
        rcases List.mem_append.1 hc with hc | hc
        · simp [hchar c (hw c hc)]
        · rcases List.mem_cons.1 hc with rfl | hc
          · decide
          · simp [hchar c (hf c hc)]
    rw [List.span_eq_takeWhile_dropWhile, List.takeWhile_eq_self_iff.2 hall, List.dropWhile_eq_nil_iff.2 hall]
  -- the digits before and behind the point
  obtain ⟨w, f, rest, hspan, hrest, hnat⟩ : ∃ w f rest, t.span (fun c => c != '.') = (w, rest) ∧
      (rest = [] ∧ f = [] ∨ rest = '.' :: f) ∧ (Text.parseNat (w ++ f)).isSome = true := by
    cases h with
    | whole hne hw =>
      have hall : ∀ c ∈ t, (c != '.') = true := fun c hc => by simp [hchar c (hw c hc)]
      refine ⟨t, [], [], ?_, .inl ⟨rfl, rfl⟩, ?_⟩
      · rw [List.span_eq_takeWhile_dropWhile, List.takeWhile_eq_self_iff.2 hall, List.dropWhile_eq_nil_iff.2 hall]
      · rw [List.append_nil]
        exact parseNat_isSome hne hw
    | @point w f hne hw hf =>
      have hall : ∀ c ∈ w, (c != '.') = true := fun c hc => by simp [hchar c (hw c hc)]
      refine ⟨w, f, '.' :: f, ?_, .inr rfl, parseNat_isSome (by simp [hne]) (digits_append hw hf)⟩
      rw [List.span_eq_takeWhile_dropWhile, List.takeWhile_append_of_pos hall, List.dropWhile_append_of_pos hall]
      simp
  obtain ⟨n, hn⟩ := Option.isSome_iff_exists.1 hnat
  rw [F64.parseDecimal, hmant]
  dsimp only
  rw [hspan]
  rcases hrest with ⟨rfl, rfl⟩ | rfl
  · dsimp only
    rw [hn]
    dsimp only
    split_ifs <;> rfl
  · dsimp only
    rw [hn]
    dsimp only
    split_ifs <;> rfl

theorem parse_isSome {t : Text} (h : t = ("inf" : Text) ∨ Decimal t) :
    (parse t).isSome = true ∧ (parse ('-' :: t)).isSome = true := by
  have hbody : ∀ neg : Bool,
      (if Text.eqIgnoreAsciiCase t "inf" || Text.eqIgnoreAsciiCase t "infinity" then some (inf neg)
      else if Text.eqIgnoreAsciiCase t "nan" then some (if neg then nan.neg else nan)
      else F64.parseDecimal neg t).isSome = true := by
    intro neg
    rcases h with rfl | h
    · rfl
    · split
      · rfl
      · split
        · rfl
        · exact h.parseDecimal neg
  obtain ⟨c, cs, rfl, hplus, hminus⟩ : ∃ c cs, t = c :: cs ∧ c ≠ '+' ∧ c ≠ '-' := by
    rcases h with rfl | h
    · exact ⟨'i', ['n', 'f'], rfl, by decide, by decide⟩
    · obtain ⟨c, cs, rfl, hc⟩ := h.head
      refine ⟨c, cs, rfl, ?_, ?_⟩ <;>
      · rintro rfl
        cases hc
  constructor
  · unfold parse
    split
    next neg body heq =>
      split at heq
      next ds hds => exact absurd (List.cons.inj hds).1 hplus
      next ds hds => exact absurd (List.cons.inj hds).1 hminus
      next =>
        cases heq
        exact hbody false
  · exact hbody true

/-- A decimal starts with a digit or with its point. -/
theorem parseDecimal_eq_none_of_head {c : Char} (hdigit : Text.isDigit c = false) (hdot : c ≠ '.') (neg : Bool)
    (cs : Text) : parseDecimal neg (c :: cs) = none := by
  have hnat : ∀ t : Text, Text.parseNat (c :: t) = none := by
    intro t
    cases hn : Text.parseNat (c :: t) with
    | none => rfl
    | some n =>
      rw [(Text.parseNat_digits hn).2 c List.mem_cons_self] at hdigit
      cases hdigit
  unfold parseDecimal
  simp only [List.span_eq_takeWhile_dropWhile]
  by_cases hexp : (c != 'e' && c != 'E') = true
  · rw [List.takeWhile_cons_of_pos (p := fun d => d != 'e' && d != 'E') hexp,
      List.dropWhile_cons_of_pos (p := fun d => d != 'e' && d != 'E') hexp]
    have hpoint : (c != '.') = true := by simpa using hdot
    cases List.dropWhile (fun d => d != 'e' && d != 'E') cs with
    | nil =>
      dsimp only
      rw [List.takeWhile_cons_of_pos (p := fun d => d != '.') hpoint,
        List.dropWhile_cons_of_pos (p := fun d => d != '.') hpoint]
      cases List.dropWhile (fun d => d != '.') (List.takeWhile (fun d => d != 'e' && d != 'E') cs) <;>
        simp only [List.cons_append, hnat]
    | cons e es =>
      dsimp only
      rw [List.takeWhile_cons_of_pos (p := fun d => d != '.') hpoint,
        List.dropWhile_cons_of_pos (p := fun d => d != '.') hpoint]
      cases List.dropWhile (fun d => d != '.') (List.takeWhile (fun d => d != 'e' && d != 'E') cs) <;>
        simp only [List.cons_append, hnat]
  · rw [Bool.not_eq_true] at hexp
    rw [List.takeWhile_cons_of_neg (p := fun d => d != 'e' && d != 'E') (by simp [hexp]),
      List.dropWhile_cons_of_neg (p := fun d => d != 'e' && d != 'E') (by simp [hexp])]
    rfl

/-- A character that is in none of the words, behind one that starts no number. -/
theorem parse_eq_none_of_head {c d : Char} {cs : Text} (hdigit : Text.isDigit c = false) (hdot : c ≠ '.')
    (hplus : c ≠ '+') (hminus : c ≠ '-') (hd : d ∈ c :: cs) (hlower : Text.lower d = d)
    (hword : d ∉ ("infinitynan" : Text)) : parse (c :: cs) = none := by
  have hne : ∀ w : Text, w.map Text.lower = w → w ⊆ ("infinitynan" : Text) →
      Text.eqIgnoreAsciiCase (c :: cs) w = false := by
    intro w hw hsub
    rw [Text.eqIgnoreAsciiCase, beq_eq_false_iff_ne, hw]
    intro heq
    exact hword (hsub (heq ▸ List.mem_map.2 ⟨d, hd, hlower⟩))
  unfold parse
  split
  next neg body heq =>
    split at heq
    next ds hds => exact absurd (List.cons.inj hds).1 hplus
    next ds hds => exact absurd (List.cons.inj hds).1 hminus
    next =>
      cases heq
      rw [hne "inf" (by decide) (by decide), hne "infinity" (by decide) (by decide),
        hne "nan" (by decide) (by decide)]
      exact parseDecimal_eq_none_of_head hdigit hdot false cs

/-- A double is printed as a decimal or as a word, with its sign before it. -/
theorem toText_cases (x : F64) : x.toText = ("NaN" : Text) ∨
    ∃ body, (body = ("inf" : Text) ∨ Decimal body) ∧ x.toText = if x.sign then '-' :: body else body := by
  rw [toText]
  split
  · exact .inl rfl
  · refine .inr ⟨_, ?_, rfl⟩
    split
    · exact .inl rfl
    · split
      · exact .inr (.whole (w := ['0']) (by simp) (digits_zeros 1))
      · exact .inr (decimal_positional _ _)

theorem toText_chars (x : F64) : ∀ c ∈ x.toText, isNumeral c = true := by
  have hbody : ∀ body : Text, body = ("inf" : Text) ∨ Decimal body → ∀ c ∈ body, isNumeral c = true := by
    rintro body (rfl | hbody)
    · exact List.all_eq_true.1 rfl
    · exact hbody.chars
  intro c hc
  rcases x.toText_cases with h | ⟨body, hword, h⟩
  · rw [h] at hc
    exact List.all_eq_true.1 (by rfl : ("NaN" : Text).all isNumeral = true) c hc
  · rw [h] at hc
    split at hc
    · rcases List.mem_cons.1 hc with rfl | hc
      · decide
      · exact hbody body hword c hc
    · exact hbody body hword c hc

theorem toText_ne_nil (x : F64) : x.toText ≠ [] := by
  rcases x.toText_cases with h | ⟨body, hword, h⟩
  · rw [h]
    decide
  · rw [h]
    split
    · exact List.cons_ne_nil _ _
    · rcases hword with rfl | hword
      · decide
      · obtain ⟨c, cs, rfl, -⟩ := hword.head
        exact List.cons_ne_nil c cs

theorem parse_toText (x : F64) : (parse x.toText).isSome = true := by
  rcases x.toText_cases with h | ⟨body, hword, h⟩
  · rw [h]
    rfl
  · rw [h]
    split
    · exact (parse_isSome hword).2
    · exact (parse_isSome hword).1

theorem parse_minus_toText {x : F64} (hx : x.sign = false) : (parse ('-' :: x.toText)).isSome = true := by
  rcases x.toText_cases with h | ⟨body, hword, h⟩
  · rw [h]
    rfl
  · rw [h, hx, if_neg Bool.false_ne_true]
    exact (parse_isSome hword).2

theorem sign_eq_msb (x : F64) : x.sign = x.bits.msb := by
  rw [sign, BitVec.msb_eq_decide]

theorem sign_neg (x : F64) : x.neg.sign = !x.sign := by
  have hbit : (BitVec.ofNat 64 (2 ^ 63)).msb = true := by decide
  rw [sign_eq_msb, sign_eq_msb, neg, BitVec.msb_xor, hbit, Bool.xor_true]

end Lib.F64
