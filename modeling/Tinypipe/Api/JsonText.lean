import Tinypipe.Compiler.Format
import Tinypipe.Lib.Decimal

/-! Reading back what was written: the compact text of a JSON value, and what `serde_json` makes of
it. A text that nests too deeply is refused; a double is read as whatever its own text comes to. -/

namespace Tinypipe

open Lib

namespace Json

mutual

/-- The arrays and objects around the innermost value. -/
def level : Json → Nat
  | null | bool _ | number _ | string _ => 0
  | array items => itemsLevel items + 1
  | object m => entriesLevel m + 1

def itemsLevel : List Json → Nat
  | [] => 0
  | j :: js => max j.level (itemsLevel js)

def entriesLevel : List (Text × Json) → Nat
  | [] => 0
  | (_, j) :: es => max j.level (entriesLevel es)

end

mutual

/-- The integers are those of `u64` and `i64`, and no object has a key twice. -/
def Wf : Json → Prop
  | null | bool _ | string _ | number (.float _) => True
  | number (.posInt n) => n < 2 ^ 64
  | number (.negInt i) => -2 ^ 63 ≤ i ∧ i < 0
  | array items => ItemsWf items
  | object m => (m.map Prod.fst).Nodup ∧ EntriesWf m

def ItemsWf : List Json → Prop
  | [] => True
  | j :: js => j.Wf ∧ ItemsWf js

def EntriesWf : List (Text × Json) → Prop
  | [] => True
  | (_, j) :: es => j.Wf ∧ EntriesWf es

end

mutual

/-- The value with its doubles read back. -/
def reread : Json → Option Json
  | number (.float f) => fromStr f.toJson
  | array items => (rereadItems items).map array
  | object m => (rereadEntries m).map object
  | j => some j

def rereadItems : List Json → Option (List Json)
  | [] => some []
  | j :: js => j.reread.bind fun j => (rereadItems js).map (j :: ·)

def rereadEntries : List (Text × Json) → Option (List (Text × Json))
  | [] => some []
  | (k, j) :: es => j.reread.bind fun j => (rereadEntries es).map ((k, j) :: ·)

end

/-! ### Strings -/

theorem stringBody_unicode {a b c d : Char} {n : Nat} (h : hex4 a b c d = some n) (hn : n < 0xD800) (t : Text) :
    stringBody ('\\' :: 'u' :: a :: b :: c :: d :: t) = (stringBody t).map fun p => (Char.ofNat n :: p.1, p.2) := by
  have hlow : ¬(0xD800 ≤ n ∧ n < 0xDC00) := by omega
  have hhigh : ¬(0xDC00 ≤ n ∧ n < 0xE000) := by omega
  have hall : ¬(0xD800 ≤ n ∧ n < 0xE000) := by omega
  rw [stringBody.eq_def]
  split
  case h_1 heq => cases heq
  case h_2 heq => cases heq
  case h_3 heq =>
    -- another escape follows, which is not the other half of a pair
    cases heq
    rw [h]
    dsimp only
    rw [if_neg hlow, if_neg hhigh]
  case h_4 heq =>
    cases heq
    rw [h]
    dsimp only
    rw [if_neg hall]
  case h_5 hno heq =>
    cases heq
    exact absurd rfl (hno a b c d t rfl)
  case h_6 hno heq =>
    cases heq
    exact absurd rfl (hno 'u' _ rfl)

theorem hexDigit_digitChar : ∀ d < 16, hexDigit (Nat.digitChar d) = some d := by decide

/-- A character that was escaped is read back. -/
theorem stringBody_escapeChar (c : Char) (t : Text) :
    stringBody (escapeChar c ++ t) = (stringBody t).map fun p => (c :: p.1, p.2) := by
  rw [escapeChar]
  split_ifs with hquote hback hnl hcr htab hbs hff hctl
  · rw [hquote]
    rfl
  · rw [hback]
    rfl
  · rw [hnl]
    rfl
  · rw [hcr]
    rfl
  · rw [htab]
    rfl
  · rw [show c = Char.ofNat 8 by rw [← hbs, Char.ofNat_toNat]]
    rfl
  · rw [show c = Char.ofNat 12 by rw [← hff, Char.ofNat_toNat]]
    rfl
  · -- a control character is written with four hexadecimal digits
    have hhi := hexDigit_digitChar (c.toNat / 16) (by omega)
    have hlo := hexDigit_digitChar (c.toNat % 16) (by omega)
    have hzero : hexDigit '0' = some 0 := by decide
    have hex : hex4 '0' '0' (Nat.digitChar (c.toNat / 16)) (Nat.digitChar (c.toNat % 16)) = some c.toNat := by
      simp only [hex4, hhi, hlo, hzero, Option.bind_eq_bind, Option.bind_some]
      exact congrArg some (by omega)
    have hbody := stringBody_unicode hex (by omega) t
    rwa [Char.ofNat_toNat] at hbody
  · have hnot : ¬(c.toNat < 0x20 ∨ c = '\\') := by tauto
    rw [List.singleton_append, stringBody.eq_def]
    split
    case h_1 heq => cases heq
    case h_2 heq => cases heq; exact absurd rfl hquote
    case h_3 heq => cases heq; exact absurd rfl hback
    case h_4 heq => cases heq; exact absurd rfl hback
    case h_5 heq => cases heq; exact absurd rfl hback
    case h_6 heq =>
      cases heq
      rw [if_neg hnot]

/-- What was quoted is read back up to its closing quote. -/
theorem stringBody_quoted (s t : Text) : stringBody (s.flatMap escapeChar ++ '"' :: t) = some (s, t) := by
  induction s with
  | nil => rfl
  | cons c s ih =>
    rw [List.flatMap_cons, List.append_assoc, stringBody_escapeChar, ih]
    rfl

/-! ### Numbers -/

/-- What may stand behind a value. -/
def Stops (rest : Text) : Prop := ∀ c ∈ rest.head?, c = ',' ∨ c = ']' ∨ c = '\x7d'

theorem span_append {p : Char → Bool} {t rest : Text} (ht : ∀ c ∈ t, p c = true)
    (hrest : ∀ c ∈ rest.head?, p c = false) : (t ++ rest).span p = (t, rest) := by
  have hempty : rest.takeWhile p = [] ∧ rest.dropWhile p = rest := by
    cases rest with
    | nil => exact ⟨rfl, rfl⟩
    | cons c cs =>
      have hc : p c = false := hrest c rfl
      rw [List.takeWhile_cons, List.dropWhile_cons, hc]
      exact ⟨rfl, rfl⟩
  rw [List.span_eq_takeWhile_dropWhile, List.takeWhile_append_of_pos ht, List.dropWhile_append_of_pos ht,
    hempty.1, hempty.2, List.append_nil]

/-- Digits without a superfluous zero in front. -/
inductive Whole : Text → Prop
  | zero : Whole ['0']
  | digits {c : Char} {cs : Text} (hc : c ≠ '0') (h : F64.Digits (c :: cs)) : Whole (c :: cs)

theorem Whole.isDigit {w : Text} (h : Whole w) : F64.Digits w := by
  cases h with
  | zero =>
    intro c hc
    rw [List.mem_singleton.1 hc]
    decide
  | digits hc h => exact h

theorem whole_ofNat (n : Nat) : Whole (Text.ofNat n) := by
  have hdigits : F64.Digits (Text.ofNat n) := fun c hc => Text.isDigit_of_mem_ofNat hc
  rcases Text.ofNat_head n with h | ⟨c, cs, h, hc⟩
  · rw [h]
    exact .zero
  · rw [h] at hdigits ⊢
    exact .digits hc hdigits

theorem wholePart_append {w rest : Text} (h : Whole w) (hrest : ∀ c ∈ rest.head?, Text.isDigit c = false) :
    wholePart (w ++ rest) = some (w, rest) := by
  rw [wholePart, span_append h.isDigit hrest]
  cases h with
  | zero => rfl
  | @digits c cs hc h =>
    split
    case h_1 heq => cases heq
    case h_2 heq => cases heq; exact absurd rfl hc
    case h_3 heq => cases heq; exact absurd rfl hc
    case h_4 => rfl

inductive Fraction : Text → Prop
  | none : Fraction []
  | digits {ds : Text} (hne : ds ≠ []) (h : F64.Digits ds) : Fraction ('.' :: ds)

theorem fractionPart_append {f rest : Text} (h : Fraction f)
    (hrest : ∀ c ∈ rest.head?, Text.isDigit c = false ∧ c ≠ '.') : fractionPart (f ++ rest) = some (f, rest) := by
  cases h with
  | none =>
    rw [List.nil_append]
    cases rest with
    | nil => rfl
    | cons c cs =>
      rw [fractionPart]
      exact fun _ heq => (hrest c rfl).2 (List.cons.inj heq).1
  | @digits ds hne h =>
    rw [List.cons_append, fractionPart, span_append h fun c hc => (hrest c hc).1]
    cases ds with
    | nil => exact absurd rfl hne
    | cons d ds => rfl

inductive Exponent : Text → Prop
  | none : Exponent []
  | plain {ds : Text} (hne : ds ≠ []) (h : F64.Digits ds) : Exponent ('e' :: ds)
  | neg {ds : Text} (hne : ds ≠ []) (h : F64.Digits ds) : Exponent ('e' :: '-' :: ds)

theorem exponentPart_append {x rest : Text} (h : Exponent x)
    (hrest : ∀ c ∈ rest.head?, Text.isDigit c = false ∧ c ≠ 'e' ∧ c ≠ 'E') :
    exponentPart (x ++ rest) = some (x, rest) := by
  have hspan : ∀ {ds : Text}, F64.Digits ds → (ds ++ rest).span Text.isDigit = (ds, rest) := fun h =>
    span_append h fun c hc => (hrest c hc).1
  cases h with
  | none =>
    rw [List.nil_append]
    cases rest with
    | nil => rfl
    | cons c cs =>
      have hc := (hrest c rfl).2
      rw [exponentPart.eq_def]
      dsimp only
      rw [if_neg (by tauto)]
  | @plain ds hne h =>
    obtain ⟨d, ds', rfl⟩ := List.exists_cons_of_ne_nil hne
    have hd : Text.isDigit d = true := h d List.mem_cons_self
    have hsign : ∀ c r, c ≠ d → d :: ds' ++ rest = c :: r → False := fun c r hc heq => hc (List.cons.inj heq).1.symm
    rw [List.cons_append, exponentPart, if_pos (.inl rfl), hspan h]
    · rfl
    · exact fun r => hsign '+' r (by rintro rfl; cases hd)
    · exact fun r => hsign '-' r (by rintro rfl; cases hd)
  | @neg ds hne h =>
    obtain ⟨d, ds', rfl⟩ := List.exists_cons_of_ne_nil hne
    rw [List.cons_append, List.cons_append, exponentPart, if_pos (.inl rfl), hspan h]
    rfl

/-- The number that the parts of a text come to. -/
def numberOf (neg : Bool) (whole frac ex : Text) : Option Number :=
  let float := (F64.parseDecimal neg (whole ++ frac ++ ex)).bind fun f => if f.isFinite then some (.float f) else none
  if frac.isEmpty && ex.isEmpty then
    match Text.parseNat whole with
    | some n =>
      if !neg && n < 2 ^ 64 then some (.posInt n)
      else if neg && n != 0 && n ≤ 2 ^ 63 then some (.negInt (-(n : Int)))
      else float
    | none => none
  else float

theorem parseNumber_append (neg : Bool) {w f x rest : Text} (hw : Whole w) (hf : Fraction f) (hx : Exponent x)
    (hrest : Stops rest) :
    parseNumber neg (w ++ (f ++ (x ++ rest))) = (numberOf neg w f x).map fun n => (n, rest) := by
  have hdigit : ∀ {t : Text}, (∀ c ∈ t.head?, Text.isDigit c = false ∧ c ≠ '.') →
      ∀ c ∈ t.head?, Text.isDigit c = false :=
    fun h c hc => (h c hc).1
  have hend : ∀ c ∈ rest.head?, Text.isDigit c = false ∧ c ≠ '.' ∧ c ≠ 'e' ∧ c ≠ 'E' := by
    intro c hc
    rcases hrest c hc with rfl | rfl | rfl <;> decide
  have hback : ∀ c ∈ (x ++ rest).head?, Text.isDigit c = false ∧ c ≠ '.' := by
    cases hx with
    | none => exact fun c hc => ⟨(hend c hc).1, (hend c hc).2.1⟩
    | plain | neg =>
      intro c hc
      obtain rfl : 'e' = c := Option.some.inj hc
      decide
  have hpoint : ∀ c ∈ (f ++ (x ++ rest)).head?, Text.isDigit c = false := by
    cases hf with
    | none => exact hdigit hback
    | digits =>
      intro c hc
      obtain rfl : '.' = c := Option.some.inj hc
      decide
  rw [parseNumber, wholePart_append hw hpoint]
  simp only [Option.bind_eq_bind, Option.bind_some]
  rw [fractionPart_append hf hback]
  simp only [Option.bind_some]
  rw [exponentPart_append hx fun c hc => ⟨(hend c hc).1, (hend c hc).2.2⟩]
  simp only [Option.bind_some, numberOf]
  have hfloat : ∀ o : Option F64, (o.bind fun f => if f.isFinite then some (Number.float f, rest) else none) =
      (o.bind fun f => if f.isFinite then some (Number.float f) else none).map fun n => (n, rest) := by
    intro o
    cases o with
    | none => rfl
    | some f => rw [Option.bind_some, Option.bind_some, apply_ite (Option.map _), Option.map_some, Option.map_none]
  rw [hfloat]
  split_ifs
  · cases Text.parseNat w with
    | none => rfl
    | some n =>
      dsimp only
      split_ifs <;> rfl
  · rfl

theorem dropWhile_isSpace {c : Char} (h : isSpace c = false) (t : Text) : (c :: t).dropWhile isSpace = c :: t := by
  rw [List.dropWhile_cons, if_neg (by rw [h]; decide)]

theorem parseValue_number (n depth : Nat) {w f x rest : Text} (hw : Whole w) (hf : Fraction f) (hx : Exponent x)
    (hrest : Stops rest) :
    parseValue (n + 1) depth (w ++ (f ++ (x ++ rest))) = (numberOf false w f x).map fun m => (.number m, rest) := by
  have hparse := parseNumber_append false hw hf hx hrest
  have hdigit := hw.isDigit
  obtain ⟨c, cs, rfl⟩ : ∃ c cs, w = c :: cs := by
    cases hw with
    | zero => exact ⟨_, _, rfl⟩
    | digits => exact ⟨_, _, rfl⟩
  have hc : Text.isDigit c = true := hdigit c List.mem_cons_self
  have hspace : isSpace c = false := by
    by_contra h
    simp only [isSpace, Bool.not_eq_false, Bool.or_eq_true, beq_iff_eq] at h
    rcases h with ((rfl | rfl) | rfl) | rfl <;> cases hc
  rw [List.cons_append, parseValue.eq_def]
  dsimp only
  rw [dropWhile_isSpace hspace]
  rw [List.cons_append] at hparse
  split
  case h_8 =>
    rw [hparse, Option.map_map]
    rfl
  all_goals
    next heq =>
      obtain rfl := (List.cons.inj heq).1
      cases hc

theorem parseValue_negative (n depth : Nat) {w f x rest : Text} (hw : Whole w) (hf : Fraction f) (hx : Exponent x)
    (hrest : Stops rest) :
    parseValue (n + 1) depth ('-' :: (w ++ (f ++ (x ++ rest)))) =
      (numberOf true w f x).map fun m => (.number m, rest) := by
  have hdash : ∀ t, parseValue (n + 1) depth ('-' :: t) = (parseNumber true t).map fun p => (.number p.1, p.2) :=
    fun _ => rfl
  rw [hdash, parseNumber_append true hw hf hx hrest, Option.map_map]
  rfl

theorem numberOf_nat {m : Nat} (hm : m < 2 ^ 64) : numberOf false (Text.ofNat m) [] [] = some (.posInt m) := by
  have hsmall : (!false && decide (m < 2 ^ 64)) = true := by rw [decide_eq_true hm]; rfl
  rw [numberOf, if_pos (show (List.isEmpty ([] : Text) && List.isEmpty ([] : Text)) = true from rfl),
    Text.parseNat_ofNat]
  exact if_pos hsmall

theorem parseValue_nat (n depth : Nat) {m : Nat} (hm : m < 2 ^ 64) {rest : Text} (hrest : Stops rest) :
    parseValue (n + 1) depth (Text.ofNat m ++ rest) = some (.number (.posInt m), rest) := by
  have hparse := parseValue_number n depth (whole_ofNat m) .none .none hrest
  rw [List.nil_append, List.nil_append, numberOf_nat hm] at hparse
  exact hparse

theorem parseValue_int (n depth : Nat) {i : Int} (hi : -2 ^ 63 ≤ i ∧ i < 0) {rest : Text} (hrest : Stops rest) :
    parseValue (n + 1) depth (Text.ofInt i ++ rest) = some (.number (.negInt i), rest) := by
  obtain ⟨m, rfl⟩ := Int.eq_negSucc_of_lt_zero hi.2
  have hm : m + 1 ≤ 2 ^ 63 := by omega
  have hnumber : numberOf true (Text.ofNat (m + 1)) [] [] = some (.negInt (Int.negSucc m)) := by
    have hsmall : (true && m + 1 != 0 && decide (m + 1 ≤ 2 ^ 63)) = true := by rw [decide_eq_true hm]; rfl
    rw [numberOf, if_pos (show (List.isEmpty ([] : Text) && List.isEmpty ([] : Text)) = true from rfl),
      Text.parseNat_ofNat]
    exact if_pos hsmall
  have hparse := parseValue_negative n depth (whole_ofNat (m + 1)) .none .none hrest
  rw [List.nil_append, List.nil_append, hnumber] at hparse
  exact hparse

/-! ### Doubles -/

/-- Positional notation has a point exactly if its power of ten is negative. -/
theorem positional_parts {n : Nat} {p : Int} (hn : n ≠ 0 ∨ p = 0) :
    ∃ w f, F64.positional (Text.ofNat n) p = w ++ f ∧ Whole w ∧ Fraction f ∧ (0 ≤ p → f = []) := by
  have hdigits : F64.Digits (Text.ofNat n) := fun c hc => Text.isDigit_of_mem_ofNat hc
  rw [F64.positional]
  split
  case isTrue hp =>
    refine ⟨_, [], (List.append_nil _).symm, ?_, .none, fun _ => rfl⟩
    rcases hn with hn | rfl
    · rcases Text.ofNat_head n with h | ⟨c, cs, h, hc⟩
      · have hzero := Text.parseNat_ofNat n
        rw [h] at hzero
        exact absurd (Option.some.inj hzero).symm hn
      · rw [h] at hdigits ⊢
        exact .digits hc (F64.digits_append hdigits (F64.digits_zeros _))
    · rw [Int.toNat_zero, List.replicate_zero, List.append_nil]
      exact whole_ofNat n
  case isFalse hp =>
    dsimp only
    split
    case isTrue hlt =>
      refine ⟨_, _, rfl, ?_, ?_, fun h => absurd h hp⟩
      · -- at least one digit stands before the point
        obtain ⟨k, hk⟩ : ∃ k, (Text.ofNat n).length - (-p).toNat = k + 1 := ⟨_, (Nat.succ_pred (by omega)).symm⟩
        rw [hk]
        rcases Text.ofNat_head n with h | ⟨c, cs, h, hc⟩
        · rw [h, List.take_succ_cons, List.take_nil]
          exact .zero
        · rw [h] at hdigits ⊢
          rw [List.take_succ_cons]
          exact .digits hc fun d hd => hdigits d (List.take_subset (k + 1) (c :: cs) hd)
      · refine .digits ?_ fun c hc => hdigits c (List.mem_of_mem_drop hc)
        rw [Ne, List.drop_eq_nil_iff]
        omega
    case isFalse =>
      refine ⟨['0'], _, rfl, .zero, .digits ?_ (F64.digits_append (F64.digits_zeros _) hdigits), fun h => absurd h hp⟩
      simp [Text.ofNat_ne_nil]

theorem ofUnits_zero (neg : Bool) (den : Nat) : F64.ofUnits neg 0 den = F64.mk' neg 0 := by
  have hround : ∀ d, F64.roundDiv 0 d = 0 := by
    intro d
    rw [F64.roundDiv, Nat.zero_div, Nat.zero_mod, if_neg (by omega)]
  rw [F64.ofUnits, Nat.zero_div, hround]
  rfl

theorem ofDecimal_zero (p : Int) : F64.ofDecimal 0 p = F64.mk' false 0 := by
  rw [F64.ofDecimal, F64.ofRatio, F64.ofRatio, Nat.zero_mul, Nat.zero_mul, ofUnits_zero, ofUnits_zero, ite_self]

theorem magnitude_of_abs {x : F64} (h : x.abs = F64.mk' false 0) : x.magnitude = 0 := by
  have hzero : F64.mk' false 0 = ⟨0#64⟩ := rfl
  rw [hzero, F64.abs] at h
  split at h
  · have hbits : x.bits ^^^ BitVec.ofNat 64 (2 ^ 63) = 0#64 := congrArg F64.bits h
    have hx : x = ⟨BitVec.ofNat 64 (2 ^ 63)⟩ := congrArg F64.mk (BitVec.xor_eq_zero_iff.1 hbits)
    rw [hx]
    rfl
  · rw [h]
    rfl

theorem normDigits_zero (p : Int) : ∀ n, F64.normDigits n (0, p) = (0, p)
  | 0 => rfl
  | n + 1 => by rw [F64.normDigits, if_neg (by simp)]

theorem normDigits_ne_zero : ∀ (n : Nat) {d : Nat} (p : Int), d ≠ 0 → (F64.normDigits n (d, p)).1 ≠ 0
  | 0, _, _, h => h
  | n + 1, d, p, h => by
    rw [F64.normDigits]
    split_ifs with hd
    · exact normDigits_ne_zero n (p + 1) (by omega)
    · exact h

/-- The digits of a double that is not zero. -/
theorem digits_cases (x : F64) (hx : x.magnitude ≠ 0) : ∃ n p, x.digits = (Text.ofNat n, p) ∧ (n ≠ 0 ∨ p = 0) := by
  refine ⟨(F64.normDigits 20 x.shortest).1, (F64.normDigits 20 x.shortest).2, rfl, ?_⟩
  obtain ⟨d, p, hshort⟩ : ∃ d p, x.shortest = (d, p) := ⟨_, _, rfl⟩
  rw [hshort]
  by_cases hd : d = 0
  · -- no digits read back
    subst hd
    rw [normDigits_zero]
    right
    rw [F64.shortest] at hshort
    dsimp only at hshort
    generalize hfound : List.findSome? _ _ = found at hshort
    cases found with
    | none => exact (Prod.mk.inj hshort).2.symm
    | some c =>
      obtain rfl : c = (0, p) := hshort
      obtain ⟨i, -, hi⟩ := List.exists_of_findSome?_eq_some hfound
      have hback := List.find?_some hi
      rw [beq_iff_eq, ofDecimal_zero] at hback
      exact absurd (magnitude_of_abs hback.symm) hx
  · exact .inl (normDigits_ne_zero 20 p hd)

theorem exponent_ofInt (i : Int) : Exponent ('e' :: Text.ofInt i) := by
  have hdigits : ∀ n, F64.Digits (Text.ofNat n) := fun n c hc => Text.isDigit_of_mem_ofNat hc
  cases i with
  | ofNat n => exact .plain (Text.ofNat_ne_nil n) (hdigits n)
  | negSucc n => exact .neg (Text.ofNat_ne_nil (n + 1)) (hdigits (n + 1))

/-- The one digit before the point of exponent notation. -/
theorem mantissa_parts (n : Nat) : ∃ c cs, Text.ofNat n = c :: cs ∧ Whole [c] ∧ F64.Digits cs := by
  have hdigits : F64.Digits (Text.ofNat n) := fun c hc => Text.isDigit_of_mem_ofNat hc
  rcases Text.ofNat_head n with h | ⟨c, cs, h, hc⟩
  · exact ⟨'0', [], h, .zero, fun c hc => absurd hc List.not_mem_nil⟩
  · rw [h] at hdigits
    refine ⟨c, cs, h, .digits hc fun d hd => ?_, fun d hd => hdigits d (List.mem_cons_of_mem c hd)⟩
    rw [List.mem_singleton.1 hd]
    exact hdigits c List.mem_cons_self

/-- The text of a finite double is a JSON number. -/
theorem float_parts (x : F64) (hfin : x.isFinite = true) : ∃ w f e, Whole w ∧ Fraction f ∧ Exponent e ∧
    x.toJson = (if x.sign then ['-'] else []) ++ (w ++ (f ++ e)) := by
  have hpoint : Fraction ['.', '0'] := .digits (List.cons_ne_nil _ _) (F64.digits_zeros 1)
  have hsign : ∀ body : Text, (if x.sign then '-' :: body else body) = (if x.sign then ['-'] else []) ++ body := by
    intro body
    split <;> rfl
  rw [F64.toJson, hfin, if_neg (by decide)]
  by_cases hzero : x.magnitude = 0
  · dsimp only
    rw [if_pos hzero, hsign]
    exact ⟨['0'], ['.', '0'], [], .zero, hpoint, .none, rfl⟩
  obtain ⟨n, p, hdigits, hn⟩ := digits_cases x hzero
  obtain ⟨w, f, hpos, hw, hf, hwhole⟩ := positional_parts hn
  rw [hdigits]
  dsimp only
  rw [if_neg hzero, hsign]
  generalize (if x.sign = true then (['-'] : Text) else []) = minus
  split_ifs with hlarge hsmall
  · refine ⟨w, ['.', '0'], [], hw, hpoint, .none, ?_⟩
    rw [hpos, hwhole hlarge.1, List.append_nil, List.append_nil]
  · refine ⟨w, f, [], hw, hf, .none, ?_⟩
    rw [hpos, List.append_nil]
  · obtain ⟨c, cs, hcs, hc, htail⟩ := mantissa_parts n
    rw [hcs]
    cases cs with
    | nil => exact ⟨[c], [], _, hc, .none, exponent_ofInt _, rfl⟩
    | cons d ds => exact ⟨[c], '.' :: d :: ds, _, hc, .digits (List.cons_ne_nil d ds) htail, exponent_ofInt _, rfl⟩

/-- Whatever is behind it, the text of a double is read as it is alone. -/
theorem parseValue_float (n depth : Nat) (x : F64) {rest : Text} (hrest : Stops rest) :
    parseValue (n + 1) depth (x.toJson ++ rest) = (fromStr x.toJson).map fun j => (j, rest) := by
  have hnil : Stops [] := fun c hc => by cases hc
  obtain ⟨r, hr⟩ : ∃ r : Option Json, ∀ n depth rest, Stops rest →
      parseValue (n + 1) depth (x.toJson ++ rest) = r.map fun j => (j, rest) := by
    cases hfin : x.isFinite with
    | false =>
      have hnull : x.toJson = ("null" : Text) := by rw [F64.toJson, hfin, if_pos (by decide)]
      rw [hnull]
      exact ⟨some .null, fun _ _ _ _ => rfl⟩
    | true =>
      obtain ⟨w, f, e, hw, hf, he, htext⟩ := float_parts x hfin
      refine ⟨(numberOf x.sign w f e).map .number, fun n depth rest hrest => ?_⟩
      rw [htext, Option.map_map, List.append_assoc, List.append_assoc, List.append_assoc]
      cases hsign : x.sign with
      | false => exact parseValue_number n depth hw hf he hrest
      | true => exact parseValue_negative n depth hw hf he hrest
  have hfrom : fromStr x.toJson = r := by
    have halone := hr (2 * x.toJson.length + 1) 128 [] hnil
    rw [List.append_nil] at halone
    rw [fromStr, halone]
    cases r <;> rfl
  rw [hfrom]
  exact hr n depth rest hrest

/-! ### Values -/

/-- A value begins with neither a blank nor a closing bracket. -/
theorem toText_head (j : Json) : ∃ c cs, j.toText = c :: cs ∧ isSpace c = false ∧ c ≠ ']' := by
  have hdigit : ∀ {c : Char} {cs t : Text}, F64.Digits t → t = c :: cs → isSpace c = false ∧ c ≠ ']' := by
    rintro c cs t h rfl
    have hc : Text.isDigit c = true := h c List.mem_cons_self
    constructor
    · by_contra hspace
      simp only [isSpace, Bool.not_eq_false, Bool.or_eq_true, beq_iff_eq] at hspace
      rcases hspace with ((rfl | rfl) | rfl) | rfl <;> cases hc
    · rintro rfl
      cases hc
  have hnat : ∀ n, ∃ c cs, Text.ofNat n = c :: cs ∧ isSpace c = false ∧ c ≠ ']' := by
    intro n
    obtain ⟨c, cs, hcs⟩ := List.exists_cons_of_ne_nil (Text.ofNat_ne_nil n)
    exact ⟨c, cs, hcs, hdigit (fun c hc => Text.isDigit_of_mem_ofNat hc) hcs⟩
  cases j with
  | null => exact ⟨_, _, rfl, by decide, by decide⟩
  | bool b =>
    cases b with
    | false => exact ⟨_, _, rfl, by decide, by decide⟩
    | true => exact ⟨_, _, rfl, by decide, by decide⟩
  | string s => exact ⟨_, _, rfl, by decide, by decide⟩
  | array items => exact ⟨_, _, rfl, by decide, by decide⟩
  | object m => exact ⟨_, _, rfl, by decide, by decide⟩
  | number m =>
    cases m with
    | posInt n => exact hnat n
    | negInt i =>
      cases i with
      | ofNat n => exact hnat n
      | negSucc n => exact ⟨_, _, rfl, by decide, by decide⟩
    | float x =>
      rw [toText, numberText]
      cases hfin : x.isFinite with
      | false =>
        rw [F64.toJson, hfin]
        exact ⟨_, _, rfl, by decide, by decide⟩
      | true =>
        obtain ⟨w, f, e, hw, -, -, htext⟩ := float_parts x hfin
        rw [htext]
        split
        · exact ⟨_, _, rfl, by decide, by decide⟩
        · obtain ⟨c, cs, rfl⟩ : ∃ c cs, w = c :: cs := by
            cases hw with
            | zero => exact ⟨_, _, rfl⟩
            | digits => exact ⟨_, _, rfl⟩
          exact ⟨c, _, rfl, hdigit hw.isDigit rfl⟩

theorem intercalate_cons_cons (t u : Text) (ts : List Text) :
    Text.intercalate [','] (t :: u :: ts) = t ++ ',' :: Text.intercalate [','] (u :: ts) := by
  rw [Text.intercalate, List.append_assoc, List.singleton_append]
  exact List.cons_ne_nil u ts

/-- The text of an item starts with no blank, and is not taken for the end of the array. -/
theorem itemTexts_head (j : Json) (js : List Json) (rest : Text) :
    ∃ c cs, Text.intercalate [','] (itemTexts (j :: js)) ++ rest = c :: cs ∧ isSpace c = false ∧ c ≠ ']' := by
  obtain ⟨c, cs, hcs, hc⟩ := toText_head j
  cases js with
  | nil => exact ⟨c, _, by rw [itemTexts, itemTexts, Text.intercalate, hcs, List.cons_append], hc⟩
  | cons k ks =>
    rw [itemTexts, itemTexts, intercalate_cons_cons, hcs]
    exact ⟨c, _, rfl, hc⟩

theorem entryTexts_head (k : Text) (j : Json) (es : List (Text × Json)) (rest : Text) :
    ∃ t, Text.intercalate [','] (entryTexts ((k, j) :: es)) ++ rest = '"' :: t := by
  cases es with
  | nil => exact ⟨_, by rw [entryTexts, entryTexts, Text.intercalate, quote, List.cons_append, List.cons_append]⟩
  | cons e es =>
    rw [entryTexts, entryTexts, intercalate_cons_cons, quote]
    exact ⟨_, rfl⟩

theorem stops_cons {c : Char} (h : c = ',' ∨ c = ']' ∨ c = '\x7d') (t : Text) : Stops (c :: t) := by
  intro d hd
  rwa [← Option.some.inj hd]

theorem toText_array (items : List Json) :
    (array items).toText = '[' :: (Text.intercalate [','] (itemTexts items) ++ [']']) := rfl

theorem toText_object (m : List (Text × Json)) :
    (object m).toText = '\x7b' :: (Text.intercalate [','] (entryTexts m) ++ ['\x7d']) := rfl

section Containers

variable {n depth : Nat} {t u rest : Text} {j : Json} {k : Text} {m : List (Text × Json)}

theorem parseItems_refused (h : parseValue n depth t = none) : parseItems (n + 1) depth t = none := by
  rw [parseItems, h]

theorem parseItems_last (h : parseValue n depth t = some (j, ']' :: rest)) :
    parseItems (n + 1) depth t = some ([j], rest) := by
  rw [parseItems, h]
  rfl

theorem parseItems_more (h : parseValue n depth t = some (j, ',' :: rest)) :
    parseItems (n + 1) depth t = (parseItems n depth rest).map fun p => (j :: p.1, p.2) := by
  rw [parseItems, h]
  rfl

/-- The key and the colon are passed over. -/
theorem key_colon (k t : Text) : (quote k ++ ':' :: t).dropWhile isSpace =
    '"' :: (k.flatMap escapeChar ++ '"' :: ':' :: t) ∧
    (':' :: t).dropWhile isSpace = ':' :: t := by
  rw [quote, List.cons_append, List.append_assoc, dropWhile_isSpace rfl, dropWhile_isSpace rfl]
  exact ⟨rfl, rfl⟩

theorem parseMembers_refused (h : parseValue n depth t = none) :
    parseMembers (n + 1) depth m (quote k ++ ':' :: t) = none := by
  simp only [parseMembers, (key_colon k t).1, stringBody_quoted, (key_colon k t).2, h]

theorem parseMembers_last (h : parseValue n depth t = some (j, '\x7d' :: rest)) :
    parseMembers (n + 1) depth m (quote k ++ ':' :: t) = some (insertKey k j m, rest) := by
  simp only [parseMembers, (key_colon k t).1, stringBody_quoted, (key_colon k t).2, h]
  rfl

theorem parseMembers_more (h : parseValue n depth t = some (j, ',' :: rest)) :
    parseMembers (n + 1) depth m (quote k ++ ':' :: t) = parseMembers n depth (insertKey k j m) rest := by
  simp only [parseMembers, (key_colon k t).1, stringBody_quoted, (key_colon k t).2, h]
  rfl

theorem parseValue_array (h : ∃ c cs, t = c :: cs ∧ isSpace c = false ∧ c ≠ ']') :
    parseValue (n + 1) depth ('[' :: t) =
      if depth ≤ 1 then none else (parseItems n (depth - 1) t).map fun p => (.array p.1, p.2) := by
  obtain ⟨c, cs, rfl, hspace, hc⟩ := h
  rw [parseValue.eq_def]
  dsimp only
  rw [dropWhile_isSpace (c := '[') (by decide)]
  split
  case h_6 heq =>
    rw [← (List.cons.inj heq).2, dropWhile_isSpace hspace]
    split_ifs
    · rfl
    · split
      case h_1 hclose => exact absurd (List.cons.inj hclose).1 hc
      case h_2 => rfl
  case h_8 hno _ => exact absurd rfl (hno (c :: cs))
  all_goals
    next heq => cases heq

theorem parseValue_object : parseValue (n + 1) depth ('\x7b' :: '"' :: t) =
    if depth ≤ 1 then none else (parseMembers n (depth - 1) [] ('"' :: t)).map fun p => (.object p.1, p.2) := rfl

theorem insertKey_new (h : k ∉ m.map Prod.fst) : insertKey k j m = m ++ [(k, j)] :=
  Dict.put_of_find_none k j (Dict.find_eq_none h)

theorem not_mem_keys {es : List (Text × Json)} (h : ((m ++ (k, j) :: es).map Prod.fst).Nodup) : k ∉ m.map Prod.fst := by
  rw [List.map_append, List.nodup_append] at h
  exact fun hk => h.2.2 k hk k List.mem_cons_self rfl

end Containers

mutual

/-- The text of a value is read as the value with its doubles read back, or refused where it
nests too deeply. -/
theorem parseValue_text : ∀ (j : Json) (n depth : Nat) (rest : Text), j.Wf → j.toText.length ≤ n → 0 < depth →
    Stops rest → parseValue n depth (j.toText ++ rest) =
      if j.level < depth then j.reread.map fun j => (j, rest) else none
  | j, 0, _, _, _, hlen, _, _ => by
    obtain ⟨c, cs, hcs, -⟩ := toText_head j
    rw [hcs] at hlen
    exact absurd hlen (Nat.not_succ_le_zero _)
  | .null, n + 1, depth, rest, _, _, hdepth, _ => (if_pos hdepth).symm
  | .bool b, n + 1, depth, rest, _, _, hdepth, _ => by
    cases b <;> exact (if_pos hdepth).symm
  | .number (.posInt m), n + 1, depth, rest, hwf, _, hdepth, hrest =>
    (parseValue_nat n depth hwf hrest).trans (if_pos hdepth).symm
  | .number (.negInt i), n + 1, depth, rest, hwf, _, hdepth, hrest =>
    (parseValue_int n depth hwf hrest).trans (if_pos hdepth).symm
  | .number (.float x), n + 1, depth, rest, _, _, hdepth, hrest =>
    (parseValue_float n depth x hrest).trans (if_pos hdepth).symm
  | .string s, n + 1, depth, rest, _, _, hdepth, _ => by
    have hquote : ∀ t, parseValue (n + 1) depth ('"' :: t) = (stringBody t).map fun p => (.string p.1, p.2) :=
      fun _ => rfl
    rw [toText, quote, List.cons_append, List.append_assoc, hquote, List.singleton_append, stringBody_quoted]
    exact (if_pos hdepth).symm
  | .array [], n + 1, depth, rest, _, _, _, _ => by
    have hempty : parseValue (n + 1) depth ('[' :: ']' :: rest) =
        if depth ≤ 1 then none else some (.array [], rest) := rfl
    rw [toText_array, itemTexts, Text.intercalate, List.cons_append, List.nil_append, List.singleton_append, hempty]
    by_cases hd : depth ≤ 1
    · rw [if_pos hd, if_neg (by rw [level, itemsLevel]; omega)]
    · rw [if_neg hd, if_pos (by rw [level, itemsLevel]; omega)]
      rfl
  | .array (j :: js), n + 1, depth, rest, hwf, hlen, hdepth, hrest => by
    have hhead := itemTexts_head j js (']' :: rest)
    rw [toText_array, List.cons_append, List.append_assoc, List.singleton_append, parseValue_array hhead]
    rw [toText_array, List.length_cons, List.length_append, List.length_singleton] at hlen
    by_cases hd : depth ≤ 1
    · rw [if_pos hd, if_neg (by rw [level]; omega)]
    · rw [if_neg hd, parseItems_text (j :: js) n (depth - 1) rest (List.cons_ne_nil j js) hwf (by omega) (by omega)]
      by_cases hl : itemsLevel (j :: js) < depth - 1
      · rw [if_pos hl, if_pos (by rw [level]; omega), reread, Option.map_map, Option.map_map]
        rfl
      · rw [if_neg hl, if_neg (by rw [level]; omega)]
        rfl
  | .object [], n + 1, depth, rest, _, _, _, _ => by
    have hempty : parseValue (n + 1) depth ('\x7b' :: '\x7d' :: rest) =
      if depth ≤ 1 then none else some (.object [], rest) := rfl
    rw [toText_object, entryTexts, Text.intercalate, List.cons_append, List.nil_append, List.singleton_append, hempty]
    by_cases hd : depth ≤ 1
    · rw [if_pos hd, if_neg (by rw [level, entriesLevel]; omega)]
    · rw [if_neg hd, if_pos (by rw [level, entriesLevel]; omega)]
      rfl
  | .object ((k, j) :: es), n + 1, depth, rest, hwf, hlen, hdepth, hrest => by
    obtain ⟨t, ht⟩ := entryTexts_head k j es ('\x7d' :: rest)
    rw [toText_object, List.cons_append, List.append_assoc, List.singleton_append, ht, parseValue_object, ← ht]
    rw [toText_object, List.length_cons, List.length_append, List.length_singleton] at hlen
    by_cases hd : depth ≤ 1
    · rw [if_pos hd, if_neg (by rw [level]; omega)]
    · rw [if_neg hd, parseMembers_text ((k, j) :: es) n (depth - 1) [] rest (List.cons_ne_nil _ es) hwf.2 hwf.1
        (by omega) (by omega)]
      by_cases hl : entriesLevel ((k, j) :: es) < depth - 1
      · rw [if_pos hl, if_pos (by rw [level]; omega), reread, Option.map_map, Option.map_map]
        rfl
      · rw [if_neg hl, if_neg (by rw [level]; omega)]
        rfl

theorem parseItems_text : ∀ (items : List Json) (n depth : Nat) (rest : Text), items ≠ [] → ItemsWf items →
    (Text.intercalate [','] (itemTexts items)).length + 1 ≤ n → 0 < depth →
    parseItems n depth (Text.intercalate [','] (itemTexts items) ++ ']' :: rest) =
      if itemsLevel items < depth then (rereadItems items).map fun js => (js, rest) else none
  | [], _, _, _, hne, _, _, _ => absurd rfl hne
  | _ :: _, 0, _, _, _, _, hlen, _ => absurd hlen (Nat.not_succ_le_zero _)
  | [j], n + 1, depth, rest, _, hwf, hlen, hdepth => by
    rw [itemTexts, itemTexts, Text.intercalate] at hlen ⊢
    have hj := parseValue_text j n depth (']' :: rest) hwf.1 (by omega) hdepth (stops_cons (by simp) rest)
    rw [itemsLevel, itemsLevel, Nat.max_zero, rereadItems, rereadItems]
    by_cases hl : j.level < depth
    · rw [if_pos hl] at hj ⊢
      cases hback : j.reread with
      | none =>
        rw [hback] at hj
        exact parseItems_refused hj
      | some j' =>
        rw [hback] at hj
        exact parseItems_last hj
    · rw [if_neg hl] at hj ⊢
      exact parseItems_refused hj
  | j :: k :: ks, n + 1, depth, rest, _, hwf, hlen, hdepth => by
    have htexts : itemTexts (j :: k :: ks) = j.toText :: itemTexts (k :: ks) := rfl
    have hlevel : itemsLevel (j :: k :: ks) = max j.level (itemsLevel (k :: ks)) := rfl
    have hreread : rereadItems (j :: k :: ks) = j.reread.bind fun j => (rereadItems (k :: ks)).map (j :: ·) := rfl
    rw [htexts, itemTexts, intercalate_cons_cons, ← itemTexts, List.length_append, List.length_cons] at hlen
    rw [htexts, itemTexts, intercalate_cons_cons, ← itemTexts, List.append_assoc, List.cons_append, hlevel, hreread]
    have hj := parseValue_text j n depth (',' :: (Text.intercalate [','] (itemTexts (k :: ks)) ++ ']' :: rest)) hwf.1
      (by omega) hdepth (stops_cons (by simp) _)
    have hks := parseItems_text (k :: ks) n depth rest (List.cons_ne_nil k ks) hwf.2 (by omega) hdepth
    by_cases hl : j.level < depth
    · rw [if_pos hl] at hj
      cases hback : j.reread with
      | none =>
        rw [hback] at hj
        rw [parseItems_refused hj, Option.bind_none, Option.map_none, ite_self]
      | some j' =>
        rw [hback] at hj
        rw [parseItems_more hj, hks, Option.bind_some]
        by_cases hl' : itemsLevel (k :: ks) < depth
        · rw [if_pos hl', if_pos (by omega), Option.map_map, Option.map_map]
          rfl
        · rw [if_neg hl', if_neg (by omega)]
          rfl
    · rw [if_neg hl] at hj
      rw [parseItems_refused hj, if_neg (by omega)]

theorem parseMembers_text : ∀ (es : List (Text × Json)) (n depth : Nat) (m : List (Text × Json)) (rest : Text),
    es ≠ [] → EntriesWf es → ((m ++ es).map Prod.fst).Nodup →
    (Text.intercalate [','] (entryTexts es)).length + 1 ≤ n → 0 < depth →
    parseMembers n depth m (Text.intercalate [','] (entryTexts es) ++ '\x7d' :: rest) =
      if entriesLevel es < depth then (rereadEntries es).map fun es => (m ++ es, rest) else none
  | [], _, _, _, _, hne, _, _, _, _ => absurd rfl hne
  | _ :: _, 0, _, _, _, _, _, _, hlen, _ => absurd hlen (Nat.not_succ_le_zero _)
  | [(k, j)], n + 1, depth, m, rest, _, hwf, hkeys, hlen, hdepth => by
    rw [entryTexts, entryTexts, Text.intercalate] at hlen ⊢
    rw [List.length_append, List.length_cons] at hlen
    have hj := parseValue_text j n depth ('\x7d' :: rest) hwf.1 (by omega) hdepth (stops_cons (by simp) rest)
    rw [List.append_assoc, List.cons_append, entriesLevel, entriesLevel, Nat.max_zero, rereadEntries, rereadEntries]
    by_cases hl : j.level < depth
    · rw [if_pos hl] at hj ⊢
      cases hback : j.reread with
      | none =>
        rw [hback] at hj
        exact parseMembers_refused hj
      | some j' =>
        rw [hback] at hj
        rw [parseMembers_last hj, insertKey_new (not_mem_keys hkeys)]
        rfl
    · rw [if_neg hl] at hj ⊢
      exact parseMembers_refused hj
  | (k, j) :: e :: es, n + 1, depth, m, rest, _, hwf, hkeys, hlen, hdepth => by
    have htexts : entryTexts ((k, j) :: e :: es) = (quote k ++ ':' :: j.toText) :: entryTexts (e :: es) := rfl
    have hlevel : entriesLevel ((k, j) :: e :: es) = max j.level (entriesLevel (e :: es)) := rfl
    have hreread : rereadEntries ((k, j) :: e :: es) =
      j.reread.bind fun j => (rereadEntries (e :: es)).map ((k, j) :: ·) := rfl
    have hne : entryTexts (e :: es) = (quote e.1 ++ ':' :: e.2.toText) :: entryTexts es := rfl
    rw [htexts, hne, intercalate_cons_cons, ← hne, List.length_append, List.length_append, List.length_cons,
      List.length_cons] at hlen
    rw [htexts, hne, intercalate_cons_cons, ← hne, List.append_assoc, List.append_assoc, List.cons_append,
      List.cons_append, hlevel, hreread]
    have hj := parseValue_text j n depth
      (',' :: (Text.intercalate [','] (entryTexts (e :: es)) ++ '\x7d' :: rest)) hwf.1 (by omega) hdepth
      (stops_cons (by simp) _)
    by_cases hl : j.level < depth
    · rw [if_pos hl] at hj
      cases hback : j.reread with
      | none =>
        rw [hback] at hj
        rw [parseMembers_refused hj, Option.bind_none, Option.map_none, ite_self]
      | some j' =>
        rw [hback] at hj
        have hes := parseMembers_text (e :: es) n depth (m ++ [(k, j')]) rest (List.cons_ne_nil e es) hwf.2
          (by simpa using hkeys) (by omega) hdepth
        rw [parseMembers_more hj, insertKey_new (not_mem_keys hkeys), hes, Option.bind_some]
        by_cases hl' : entriesLevel (e :: es) < depth
        · rw [if_pos hl', if_pos (by omega), Option.map_map]
          congr 1
          funext es'
          rw [List.append_assoc]
          rfl
        · rw [if_neg hl', if_neg (by omega)]
    · rw [if_neg hl] at hj
      rw [parseMembers_refused hj, if_neg (by omega)]

end

theorem fromStr_toText {j : Json} (h : j.Wf) : fromStr j.toText = if j.level < 128 then j.reread else none := by
  have hparse := parseValue_text j (2 * j.toText.length + 2) 128 [] h (by omega) (by omega) fun c hc => by cases hc
  rw [List.append_nil] at hparse
  rw [fromStr, hparse]
  split_ifs
  · cases j.reread <;> rfl
  · rfl

end Json

namespace Value

mutual

/-- `serde_json::to_value` -/
def toJson : Value → Json
  | null => .null
  | bool b => .bool b
  | int i => .number (if 0 ≤ i.toInt then .posInt i.toInt.toNat else .negInt i.toInt)
  | float f => if f.isFinite then .number (.float f) else .null
  | string s => .string s
  | array items => .array (toJsonItems items)
  | object m => .object (toJsonEntries m)

def toJsonItems : List Value → List Json
  | [] => []
  | v :: vs => v.toJson :: toJsonItems vs

def toJsonEntries : List (Text × Value) → List (Text × Json)
  | [] => []
  | (k, v) :: es => (k, v.toJson) :: toJsonEntries es

end

mutual

/-- No object has a key twice. -/
def Wf : Value → Prop
  | null | bool _ | int _ | float _ | string _ => True
  | array items => ItemsWf items
  | object m => (m.map Prod.fst).Nodup ∧ EntriesWf m

def ItemsWf : List Value → Prop
  | [] => True
  | v :: vs => v.Wf ∧ ItemsWf vs

def EntriesWf : List (Text × Value) → Prop
  | [] => True
  | (_, v) :: es => v.Wf ∧ EntriesWf es

end

/-- The arrays and objects around the innermost value. -/
def level (v : Value) : Nat := v.toJson.level

mutual

/-- All doubles of a value. -/
def floats : Value → List F64
  | null | bool _ | int _ | string _ => []
  | float f => [f]
  | array items => itemsFloats items
  | object m => entriesFloats m

def itemsFloats : List Value → List F64
  | [] => []
  | v :: vs => v.floats ++ itemsFloats vs

def entriesFloats : List (Text × Value) → List F64
  | [] => []
  | (_, v) :: es => v.floats ++ entriesFloats es

end

mutual

/-- The value with its doubles read back. -/
def reread : Value → Option Value
  | float f => (Json.fromStr f.toJson).map jsonToTp
  | array items => (rereadItems items).map array
  | object m => (rereadEntries m).map object
  | v => some v

def rereadItems : List Value → Option (List Value)
  | [] => some []
  | v :: vs => v.reread.bind fun v => (rereadItems vs).map (v :: ·)

def rereadEntries : List (Text × Value) → Option (List (Text × Value))
  | [] => some []
  | (k, v) :: es => v.reread.bind fun v => (rereadEntries es).map ((k, v) :: ·)

end

/-- A double is the one its text is read as. -/
def ReadsBack (f : F64) : Prop := (Json.fromStr f.toJson).map jsonToTp = some (.float f)

section Induction

set_option linter.unusedSectionVars false

variable {P : Value → Prop} (null : P .null) (bool : ∀ b, P (.bool b)) (int : ∀ i, P (.int i))
  (float : ∀ f, P (.float f))
  (string : ∀ s, P (.string s)) (array : ∀ items : List Value, (∀ v ∈ items, P v) → P (.array items))
  (object : ∀ m : List (Text × Value), (∀ e ∈ m, P e.2) → P (.object m))

include null bool int float string array object

mutual

/-- The elements of an array and the entries of an object come first. -/
theorem induction : ∀ v : Value, P v
  | .null => null
  | .bool b => bool b
  | .int i => int i
  | .float f => float f
  | .string s => string s
  | .array items => array items (induction_mem items)
  | .object m => object m (induction_entry m)

theorem induction_mem : ∀ (items : List Value) (v : Value), v ∈ items → P v
  | w :: _, _, .head _ => induction w
  | _ :: ws, v, .tail _ h => induction_mem ws v h

theorem induction_entry : ∀ (m : List (Text × Value)) (e : Text × Value), e ∈ m → P e.2
  | (_, w) :: _, _, .head _ => induction w
  | _ :: es, e, .tail _ h => induction_entry es e h

end

end Induction

theorem toText_toJson (v : Value) : v.toJson.toText = v.toJsonText := by
  induction v using induction with
  | null | bool b | string s => rfl
  | int i =>
    rw [toJson, Json.toText, toJsonText]
    split_ifs with hi
    · obtain ⟨n, hn⟩ := Int.eq_ofNat_of_zero_le hi
      rw [hn]
      rfl
    · rfl
  | float f =>
    rw [toJson, toJsonText]
    cases hf : f.isFinite with
    | true => rfl
    | false => rw [F64.toJson, hf]; rfl
  | array items ih =>
    have hitems : Json.itemTexts (toJsonItems items) = itemsJson items := by
      induction items with
      | nil => rfl
      | cons v vs ihs =>
        rw [toJsonItems, Json.itemTexts, itemsJson, ih v List.mem_cons_self, ihs fun w hw =>
          ih w (List.mem_cons_of_mem v hw)]
    rw [toJson, Json.toText_array, toJsonText, hitems]
  | object m ih =>
    have hentries : Json.entryTexts (toJsonEntries m) = entriesJson m := by
      induction m with
      | nil => rfl
      | cons e es ihs =>
        rw [toJsonEntries, Json.entryTexts, entriesJson, ih e List.mem_cons_self, ihs fun w hw =>
          ih w (List.mem_cons_of_mem e hw)]
    rw [toJson, Json.toText_object, toJsonText, hentries]

theorem keys_toJsonEntries (m : List (Text × Value)) : (toJsonEntries m).map Prod.fst = m.map Prod.fst := by
  induction m with
  | nil => rfl
  | cons e es ih => rw [toJsonEntries, List.map_cons, List.map_cons, ih]

mutual

theorem wf_toJson : ∀ {v : Value}, v.Wf → v.toJson.Wf
  | null, _ | bool _, _ | string _, _ => trivial
  | int i, _ => by
    have hlow := i.le_toInt
    have hhigh := i.toInt_lt
    rw [toJson]
    split_ifs with hi
    · rw [Json.Wf]
      omega
    · rw [Json.Wf]
      omega
  | float f, _ => by
    rw [toJson]
    split_ifs <;> trivial
  | array items, h => itemsWf_toJson h
  | object m, h => ⟨(keys_toJsonEntries m).symm ▸ h.1, entriesWf_toJson h.2⟩

theorem itemsWf_toJson : ∀ {items : List Value}, ItemsWf items → Json.ItemsWf (toJsonItems items)
  | [], _ => trivial
  | _ :: _, h => ⟨wf_toJson h.1, itemsWf_toJson h.2⟩

theorem entriesWf_toJson : ∀ {m : List (Text × Value)}, EntriesWf m → Json.EntriesWf (toJsonEntries m)
  | [], _ => trivial
  | (_, _) :: _, h => ⟨wf_toJson h.1, entriesWf_toJson h.2⟩

end

theorem reread_toJson (v : Value) : v.toJson.reread.map jsonToTp = v.reread := by
  induction v using induction with
  | null | bool b | string s => rfl
  | int i =>
    rw [toJson]
    split_ifs with hi
    · have hhigh := i.toInt_lt
      have hsmall : i.toInt.toNat < 2 ^ 63 := by omega
      have hback : Int64.ofNat i.toInt.toNat = i := by
        rw [← Int64.ofInt_eq_ofNat, Int.toNat_of_nonneg hi, Int64.ofInt_toInt]
      rw [Json.reread, Option.map_some, jsonToTp, if_pos hsmall, hback]
      all_goals simp [reread]
    · rw [Json.reread, Option.map_some, jsonToTp, Int64.ofInt_toInt]
      all_goals simp [reread]
  | float f =>
    rw [toJson, reread]
    cases hf : f.isFinite with
    | true => rfl
    | false =>
      have hnull : f.toJson = ("null" : Text) := by rw [F64.toJson, hf]; rfl
      rw [hnull]
      rfl
  | array items ih =>
    have hitems : (Json.rereadItems (toJsonItems items)).map jsonItems = rereadItems items := by
      induction items with
      | nil => rfl
      | cons v vs ihs =>
        rw [toJsonItems, Json.rereadItems, rereadItems, ← ih v List.mem_cons_self,
          ← ihs fun w hw => ih w (List.mem_cons_of_mem v hw)]
        cases v.toJson.reread with
        | none => rfl
        | some j => cases Json.rereadItems (toJsonItems vs) <;> rfl
    rw [toJson, Json.reread, reread, ← hitems, Option.map_map, Option.map_map]
    rfl
  | object m ih =>
    have hentries : (Json.rereadEntries (toJsonEntries m)).map jsonEntries = rereadEntries m := by
      induction m with
      | nil => rfl
      | cons e es ihs =>
        rw [toJsonEntries, Json.rereadEntries, rereadEntries, ← ih e List.mem_cons_self,
          ← ihs fun w hw => ih w (List.mem_cons_of_mem e hw)]
        cases e.2.toJson.reread with
        | none => rfl
        | some j => cases Json.rereadEntries (toJsonEntries es) <;> rfl
    rw [toJson, Json.reread, reread, ← hentries, Option.map_map, Option.map_map]
    rfl

theorem reread_eq_some (v : Value) : v.reread = some v ↔ ∀ f ∈ v.floats, ReadsBack f := by
  induction v using induction with
  | null | bool b | int i | string s => simp [reread, floats]
  | float f =>
    rw [reread, floats, List.forall_mem_singleton]
    rfl
  | array items ih =>
    have hitems : rereadItems items = some items ↔ ∀ f ∈ itemsFloats items, ReadsBack f := by
      induction items with
      | nil => simp [rereadItems, itemsFloats]
      | cons v vs ihs =>
        rw [itemsFloats, List.forall_mem_append, ← ih v List.mem_cons_self,
          ← ihs fun w hw => ih w (List.mem_cons_of_mem v hw), rereadItems, Option.bind_eq_some_iff]
        simp [Option.map_eq_some_iff]
    rw [floats, ← hitems, reread, Option.map_eq_some_iff]
    simp
  | object m ih =>
    have hentries : rereadEntries m = some m ↔ ∀ f ∈ entriesFloats m, ReadsBack f := by
      induction m with
      | nil => simp [rereadEntries, entriesFloats]
      | cons e es ihs =>
        obtain ⟨k, v⟩ := e
        rw [entriesFloats, List.forall_mem_append, ← ih (k, v) List.mem_cons_self,
          ← ihs fun w hw => ih w (List.mem_cons_of_mem (k, v) hw), rereadEntries, Option.bind_eq_some_iff]
        simp [Option.map_eq_some_iff]
    rw [floats, ← hentries, reread, Option.map_eq_some_iff]
    simp

theorem fromStr_toJsonText {v : Value} (h : v.Wf) :
    (Json.fromStr v.toJsonText).map jsonToTp = if v.level < 128 then v.reread else none := by
  rw [← toText_toJson, Json.fromStr_toText (wf_toJson h), ← reread_toJson, level]
  split_ifs <;> rfl

end Value

end Tinypipe
