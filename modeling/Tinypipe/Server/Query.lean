import Tinypipe.Server.Http

/-! Query parameters that were percent-encoded for the wire come back as they were sent: the bytes,
then the characters, then the pairs, then the scalars. -/

namespace Tinypipe

open Lib

/-! ### Bytes and characters -/

namespace Utf8

theorem follow_cons {lo hi : UInt8} {more : List (UInt8 × UInt8)} {n k : Nat} {rest : List UInt8} (hk : k < 64)
    (hlo : lo.toNat ≤ k + 0x80) (hhi : k + 0x80 ≤ hi.toNat) :
    follow ((lo, hi) :: more) n (UInt8.ofNat (k + 0x80) :: rest) = follow more (n * 64 + k) rest := by
  have hbyte : (UInt8.ofNat (k + 0x80)).toNat = k + 0x80 := by
    rw [UInt8.toNat_ofNat']
    omega
  rw [follow, if_pos, hbyte, Nat.add_sub_cancel]
  rw [UInt8.le_iff_toNat_le, UInt8.le_iff_toNat_le, hbyte]
  exact ⟨hlo, hhi⟩

theorem follow_middle {more : List (UInt8 × UInt8)} {n k : Nat} {rest : List UInt8} (hk : k < 64) :
    follow ((0x80, 0xBF) :: more) n (UInt8.ofNat (k + 0x80) :: rest) = follow more (n * 64 + k) rest := by
  refine follow_cons hk (Nat.le_add_left _ _) ?_
  change k + 0x80 ≤ 0xBF
  omega

theorem continuation_two : ∀ k < 32, 2 ≤ k → continuation (UInt8.ofNat (k + 0xC0)) = [(0x80, 0xBF)] := by
  decide

theorem continuation_three : ∀ k < 16, continuation (UInt8.ofNat (k + 0xE0)) =
    [(if k = 0 then 0xA0 else 0x80, if k = 13 then 0x9F else 0xBF), (0x80, 0xBF)] := by
  decide

theorem continuation_four : ∀ k < 5, continuation (UInt8.ofNat (k + 0xF0)) =
    [(if k = 0 then 0x90 else 0x80, if k = 4 then 0x8F else 0xBF), (0x80, 0xBF), (0x80, 0xBF)] := by
  decide

/-- A first byte of a longer sequence begins as many bytes as its ranges say. -/
theorem chunks_sequence {n : Nat} {b : UInt8} {rest : List UInt8} {ranges : List (UInt8 × UInt8)} (hb : 0x80 ≤ b.toNat)
    (hranges : continuation b = ranges) (hne : ranges ≠ []) {code : Nat} {rest' : List UInt8}
    (hfollow : follow ranges (leading b ranges.length) rest = (some code, rest')) :
    chunks (n + 1) (b :: rest) = some (Char.ofNat code) :: chunks n rest' := by
  have hlead : ¬b < 0x80 := by
    rw [UInt8.lt_iff_toNat_lt]
    exact Nat.not_lt.2 hb
  rw [chunks, if_neg hlead, hranges]
  cases ranges with
  | nil => exact absurd rfl hne
  | cons r rs => simp only [hfollow, Option.map_some]

theorem toNat_ofNat {k : Nat} (h : k < 256) : (UInt8.ofNat k).toNat = k := by
  rw [UInt8.toNat_ofNat']
  omega

theorem chunks_two {n a b : Nat} {rest : List UInt8} (ha : a < 32) (hb : b < 64) (hshort : 2 ≤ a) :
    chunks (n + 1) (UInt8.ofNat (a + 0xC0) :: UInt8.ofNat (b + 0x80) :: rest) =
      some (Char.ofNat (a * 64 + b)) :: chunks n rest := by
  have hbyte := toNat_ofNat (k := a + 0xC0) (by omega)
  have hlead : 0x80 ≤ a + 0xC0 := by omega
  have hcode : leading (UInt8.ofNat (a + 0xC0)) 1 = a := Nat.sub_eq_of_eq_add hbyte
  refine chunks_sequence (hbyte.symm ▸ hlead) (continuation_two a ha hshort) (List.cons_ne_nil _ _) ?_
  exact (follow_middle hb).trans (congrArg (fun x => (some (x * 64 + b), rest)) hcode)

theorem chunks_three {n a b c : Nat} {rest : List UInt8} (ha : a < 16) (hb : b < 64) (hc : c < 64)
    (hshort : a = 0 → 0x20 ≤ b) (hsurrogate : a = 13 → b < 0x20) :
    chunks (n + 1) (UInt8.ofNat (a + 0xE0) :: UInt8.ofNat (b + 0x80) :: UInt8.ofNat (c + 0x80) :: rest) =
      some (Char.ofNat ((a * 64 + b) * 64 + c)) :: chunks n rest := by
  have hbyte := toNat_ofNat (k := a + 0xE0) (by omega)
  have hlead : 0x80 ≤ a + 0xE0 := by omega
  have hcode : leading (UInt8.ofNat (a + 0xE0)) 2 = a := Nat.sub_eq_of_eq_add hbyte
  refine chunks_sequence (hbyte.symm ▸ hlead) (continuation_three a ha) (List.cons_ne_nil _ _) ?_
  have hlo : (if a = 0 then 0xA0 else 0x80 : UInt8).toNat ≤ b + 0x80 := by
    by_cases h : a = 0
    · rw [if_pos h]
      have := hshort h
      change 0xA0 ≤ b + 0x80
      omega
    · rw [if_neg h]
      exact Nat.le_add_left _ _
  have hhi : b + 0x80 ≤ (if a = 13 then 0x9F else 0xBF : UInt8).toNat := by
    by_cases h : a = 13
    · rw [if_pos h]
      have := hsurrogate h
      change b + 0x80 ≤ 0x9F
      omega
    · rw [if_neg h]
      change b + 0x80 ≤ 0xBF
      omega
  refine ((follow_cons hb hlo hhi).trans (follow_middle hc)).trans ?_
  exact congrArg (fun x => (some ((x * 64 + b) * 64 + c), rest)) hcode

theorem chunks_four {n a b c d : Nat} {rest : List UInt8} (ha : a < 5) (hb : b < 64) (hc : c < 64) (hd : d < 64)
    (hshort : a = 0 → 0x10 ≤ b) (hlarge : a = 4 → b < 0x10) :
    chunks (n + 1) (UInt8.ofNat (a + 0xF0) :: UInt8.ofNat (b + 0x80) :: UInt8.ofNat (c + 0x80) ::
      UInt8.ofNat (d + 0x80) :: rest) =
      some (Char.ofNat (((a * 64 + b) * 64 + c) * 64 + d)) :: chunks n rest := by
  have hbyte := toNat_ofNat (k := a + 0xF0) (by omega)
  have hlead : 0x80 ≤ a + 0xF0 := by omega
  have hcode : leading (UInt8.ofNat (a + 0xF0)) 3 = a := Nat.sub_eq_of_eq_add hbyte
  refine chunks_sequence (hbyte.symm ▸ hlead) (continuation_four a ha) (List.cons_ne_nil _ _) ?_
  have hlo : (if a = 0 then 0x90 else 0x80 : UInt8).toNat ≤ b + 0x80 := by
    by_cases h : a = 0
    · rw [if_pos h]
      have := hshort h
      change 0x90 ≤ b + 0x80
      omega
    · rw [if_neg h]
      exact Nat.le_add_left _ _
  have hhi : b + 0x80 ≤ (if a = 4 then 0x8F else 0xBF : UInt8).toNat := by
    by_cases h : a = 4
    · rw [if_pos h]
      have := hlarge h
      change b + 0x80 ≤ 0x8F
      omega
    · rw [if_neg h]
      change b + 0x80 ≤ 0xBF
      omega
  refine ((follow_cons hb hlo hhi).trans ((follow_middle hc).trans (follow_middle hd))).trans ?_
  exact congrArg (fun x => (some (((x * 64 + b) * 64 + c) * 64 + d), rest)) hcode

/-- The decoder reads back the bytes of one character. -/
theorem chunks_encodeChar (n : Nat) (c : Char) (rest : List UInt8) :
    chunks (n + 1) (String.utf8EncodeChar c ++ rest) = some c :: chunks n rest := by
  have hvalid : c.toNat < 0xD800 ∨ 0xDFFF < c.toNat ∧ c.toNat < 0x110000 := c.valid
  have hchar : Char.ofNat c.toNat = c := Char.ofNat_toNat c
  have hval : c.val.toNat = c.toNat := rfl
  generalize c.toNat = v at hvalid hchar hval
  simp only [String.utf8EncodeChar, hval]
  by_cases h1 : v ≤ 0x7F
  · have hbyte := toNat_ofNat (k := v) (by omega)
    have hlead : UInt8.ofNat v < 0x80 := by
      rw [UInt8.lt_iff_toNat_lt, hbyte]
      exact Nat.lt_succ_of_le h1
    rw [if_pos h1, List.singleton_append, chunks, if_pos hlead, hbyte, hchar]
  rw [if_neg h1]
  by_cases h2 : v ≤ 0x7FF
  · rw [if_pos h2]
    refine (chunks_two (by omega) (by omega) (by omega)).trans ?_
    rw [show v / 64 % 32 * 64 + v % 64 = v by omega, hchar]
    rfl
  rw [if_neg h2]
  by_cases h3 : v ≤ 0xFFFF
  · rw [if_pos h3]
    refine (chunks_three (by omega) (by omega) (by omega) (by omega) (by omega)).trans ?_
    rw [show (v / 4096 % 16 * 64 + v / 64 % 64) * 64 + v % 64 = v by omega, hchar]
    rfl
  · rw [if_neg h3]
    refine (chunks_four (by omega) (by omega) (by omega) (by omega) (by omega) (by omega)).trans ?_
    rw [show ((v / 262144 % 8 * 64 + v / 4096 % 64) * 64 + v / 64 % 64) * 64 + v % 64 = v by omega, hchar]
    rfl

theorem chunks_encode : ∀ (t : Text) (n : Nat), t.length ≤ n → chunks n (encode t) = t.map some := by
  intro t
  induction t with
  | nil =>
    intro n _
    cases n <;> rfl
  | cons c t ih =>
    intro n hn
    obtain ⟨m, rfl⟩ : ∃ m, n = m + 1 := ⟨n - 1, by rw [List.length_cons] at hn; omega⟩
    rw [encode, List.flatMap_cons, chunks_encodeChar, ← encode, ih m (Nat.le_of_succ_le_succ hn), List.map_cons]

theorem length_le_encode (t : Text) : t.length ≤ (encode t).length := by
  induction t with
  | nil => exact Nat.le_refl _
  | cons c t ih =>
    have hpos := Char.utf8Size_pos c
    rw [encode, List.flatMap_cons, ← encode, List.length_append, String.length_utf8EncodeChar, List.length_cons]
    omega

/-- Lossy decoding of a text's own bytes loses nothing. -/
theorem decodeLossy_encode (t : Text) : decodeLossy (encode t) = t := by
  rw [decodeLossy, chunks_encode t _ (length_le_encode t), List.map_map]
  exact List.map_id t

theorem encode_append (s t : Text) : encode (s ++ t) = encode s ++ encode t := List.flatMap_append

theorem encode_cons (c : Char) (t : Text) : encode (c :: t) = String.utf8EncodeChar c ++ encode t := List.flatMap_cons

/-- A byte of a character is the character, or no ASCII. -/
theorem mem_encodeChar {c : Char} {b : UInt8} (h : b ∈ String.utf8EncodeChar c) : 0x80 ≤ b.toNat ∨ b.toNat = c.toNat := by
  have hval : c.val.toNat = c.toNat := rfl
  have hmiddle : ∀ k, k < 128 → (UInt8.ofNat (k + 0x80)).toNat = k + 0x80 := fun k hk => toNat_ofNat (by omega)
  simp only [String.utf8EncodeChar, hval] at h
  split at h
  · rw [List.mem_singleton.1 h]
    exact Or.inr (toNat_ofNat (by omega))
  · refine Or.inl ?_
    have hbyte : ∃ k < 128, b = UInt8.ofNat (k + 0x80) := by
      split at h
      · simp only [List.mem_cons, List.not_mem_nil, or_false] at h
        rcases h with rfl | rfl
        · exact ⟨c.toNat / 64 % 32 + 0x40, by omega, rfl⟩
        · exact ⟨c.toNat % 64, by omega, rfl⟩
      · split at h
        · simp only [List.mem_cons, List.not_mem_nil, or_false] at h
          rcases h with rfl | rfl | rfl
          · exact ⟨c.toNat / 4096 % 16 + 0x60, by omega, rfl⟩
          · exact ⟨c.toNat / 64 % 64, by omega, rfl⟩
          · exact ⟨c.toNat % 64, by omega, rfl⟩
        · simp only [List.mem_cons, List.not_mem_nil, or_false] at h
          rcases h with rfl | rfl | rfl | rfl
          · exact ⟨c.toNat / 262144 % 8 + 0x70, by omega, rfl⟩
          · exact ⟨c.toNat / 4096 % 64, by omega, rfl⟩
          · exact ⟨c.toNat / 64 % 64, by omega, rfl⟩
          · exact ⟨c.toNat % 64, by omega, rfl⟩
    obtain ⟨k, hk, rfl⟩ := hbyte
    rw [hmiddle k hk]
    exact Nat.le_add_left _ _

end Utf8

namespace Query

/-! ### Percent-encoding -/

/-- A hexadecimal digit in either case. -/
def HexDigit (d : Char) (n : Nat) : Prop := d = Nat.digitChar n ∨ d = (Nat.digitChar n).toUpper

/-- A byte as `%` and two digits. -/
def EscapesByte (b : UInt8) (t : Text) : Prop :=
  ∃ h l, t = ['%', h, l] ∧ HexDigit h (b.toNat / 16) ∧ HexDigit l (b.toNat % 16)

/-- The characters that have to be encoded. -/
def reserved : List Char := ['+', '%', '&', '=', ' ']

inductive EncodesChar : Char → Text → Prop
  | plain (c : Char) (h : c ∉ reserved) : EncodesChar c [c]
  | escaped (c : Char) (parts : List Text) (h : List.Forall₂ EscapesByte (String.utf8EncodeChar c) parts) :
      EncodesChar c parts.flatten
  | plus : EncodesChar ' ' ['+']

/-- The forms of a text in a query. -/
def Encodes (t e : Text) : Prop := ∃ parts, List.Forall₂ EncodesChar t parts ∧ e = parts.flatten

/-- What `hex` reads of a digit, and the separators it is not. -/
structure Digit (d : Char) (n : Nat) : Prop where
  bytes : String.utf8EncodeChar d = [UInt8.ofNat d.toNat]
  hex : hex (UInt8.ofNat d.toNat) = some (UInt8.ofNat n)
  ampersand : d ≠ '&'
  equals : d ≠ '='

theorem HexDigit.digit {d : Char} {n : Nat} (h : HexDigit d n) (hn : n < 16) : Digit d n := by
  have hlower : ∀ n < 16, String.utf8EncodeChar (Nat.digitChar n) = [UInt8.ofNat (Nat.digitChar n).toNat] ∧
      hex (UInt8.ofNat (Nat.digitChar n).toNat) = some (UInt8.ofNat n) ∧ Nat.digitChar n ≠ '&' ∧
      Nat.digitChar n ≠ '=' := by decide
  have hupper : ∀ n < 16, String.utf8EncodeChar (Nat.digitChar n).toUpper =
        [UInt8.ofNat (Nat.digitChar n).toUpper.toNat] ∧
      hex (UInt8.ofNat (Nat.digitChar n).toUpper.toNat) = some (UInt8.ofNat n) ∧ (Nat.digitChar n).toUpper ≠ '&' ∧
      (Nat.digitChar n).toUpper ≠ '=' := by decide
  rcases h with rfl | rfl
  · obtain ⟨h1, h2, h3, h4⟩ := hlower n hn
    exact ⟨h1, h2, h3, h4⟩
  · obtain ⟨h1, h2, h3, h4⟩ := hupper n hn
    exact ⟨h1, h2, h3, h4⟩

theorem percentBytes_escape {h l a b : UInt8} (hh : hex h = some a) (hl : hex l = some b) (rest : List UInt8) :
    percentBytes (0x25 :: h :: l :: rest) = (a * 16 + b) :: percentBytes rest := by
  rw [percentBytes]
  simp only [hh, hl]

theorem percentBytes_cons {b : UInt8} (h : b ≠ 0x25) (rest : List UInt8) :
    percentBytes (b :: rest) = (if b = 0x2B then 0x20 else b) :: percentBytes rest := by
  rw [percentBytes]
  rintro h l rest' ⟨rfl, -⟩
  exact absurd rfl h

theorem percentBytes_plain {bs : List UInt8} (h : ∀ b ∈ bs, b ≠ 0x25 ∧ b ≠ 0x2B) (rest : List UInt8) :
    percentBytes (bs ++ rest) = bs ++ percentBytes rest := by
  induction bs with
  | nil => rfl
  | cons b bs ih =>
    obtain ⟨hpercent, hplus⟩ := h b List.mem_cons_self
    rw [List.cons_append, percentBytes_cons hpercent, if_neg hplus, ih fun c hc => h c (List.mem_cons_of_mem _ hc)]
    rfl

theorem percentBytes_escapes {b : UInt8} {t : Text} (h : EscapesByte b t) (rest : List UInt8) :
    percentBytes (Utf8.encode t ++ rest) = b :: percentBytes rest := by
  obtain ⟨d, e, rfl, hd, he⟩ := h
  have hbound : b.toNat < 256 := b.toNat_lt
  have hhigh := hd.digit (by omega)
  have hlow := he.digit (by omega)
  have hbytes : Utf8.encode ['%', d, e] = [0x25, UInt8.ofNat d.toNat, UInt8.ofNat e.toNat] := by
    rw [Utf8.encode_cons, Utf8.encode_cons, Utf8.encode_cons, hhigh.bytes, hlow.bytes]
    rfl
  rw [hbytes]
  refine (percentBytes_escape hhigh.hex hlow.hex rest).trans (congrArg (· :: percentBytes rest) ?_)
  refine UInt8.toNat_inj.1 ?_
  have hsixteen : (16 : UInt8).toNat = 16 := rfl
  simp only [UInt8.toNat_add, UInt8.toNat_mul, UInt8.toNat_ofNat', hsixteen]
  omega

theorem percentBytes_encodesChar {c : Char} {e : Text} (h : EncodesChar c e) (rest : List UInt8) :
    percentBytes (Utf8.encode e ++ rest) = String.utf8EncodeChar c ++ percentBytes rest := by
  cases h with
  | plain _ hplain =>
    rw [Utf8.encode_cons, Utf8.encode, List.flatMap_nil, List.append_nil]
    refine percentBytes_plain (fun b hb => ?_) rest
    have hchar : ∀ d : Char, d ∈ reserved → c.toNat ≠ d.toNat := by
      intro d hd heq
      exact hplain ((Char.toNat_inj.1 heq).symm ▸ hd)
    have hpercent := hchar '%' (by decide)
    have hplus := hchar '+' (by decide)
    rcases Utf8.mem_encodeChar hb with hlarge | heq
    · constructor
      · rintro rfl
        exact absurd hlarge (by decide)
      · rintro rfl
        exact absurd hlarge (by decide)
    · constructor
      · rintro rfl
        exact hpercent heq.symm
      · rintro rfl
        exact hplus heq.symm
  | escaped _ parts hparts =>
    generalize String.utf8EncodeChar c = bs at hparts
    induction hparts with
    | nil => rfl
    | cons hhead _ ih =>
      rw [List.flatten_cons, Utf8.encode_append, List.append_assoc, percentBytes_escapes hhead, ih, List.cons_append]
  | plus => rfl

theorem percentBytes_encodes {t e : Text} (h : Encodes t e) : percentBytes (Utf8.encode e) = Utf8.encode t := by
  obtain ⟨parts, hparts, rfl⟩ := h
  induction hparts with
  | nil => rfl
  | cons hhead _ ih =>
    rw [List.flatten_cons, Utf8.encode_append, percentBytes_encodesChar hhead, ih, Utf8.encode_cons]

theorem percentDecode_encodes {t e : Text} (h : Encodes t e) : percentDecode e = t := by
  rw [percentDecode, percentBytes_encodes h, Utf8.decodeLossy_encode]

/-! ### Pairs -/

/-- A key and a value around an equals sign. -/
def EncodesPair (p : Text × Text) (t : Text) : Prop := ∃ k v, Encodes p.1 k ∧ Encodes p.2 v ∧ t = k ++ '=' :: v

/-- The forms of a list of pairs as a query. -/
def EncodesPairs (pairs : List (Text × Text)) (raw : Text) : Prop :=
  ∃ parts, List.Forall₂ EncodesPair pairs parts ∧ raw = Text.intercalate ['&'] parts

theorem EncodesChar.separators {c : Char} {e : Text} (h : EncodesChar c e) : '&' ∉ e ∧ '=' ∉ e := by
  cases h with
  | plain _ hplain =>
    simp only [List.mem_singleton]
    constructor
    · rintro rfl
      exact hplain (by decide)
    · rintro rfl
      exact hplain (by decide)
  | escaped _ parts hparts =>
    generalize String.utf8EncodeChar c = bs at hparts
    induction hparts with
    | nil => exact ⟨List.not_mem_nil, List.not_mem_nil⟩
    | @cons b t bs ts hhead _ ih =>
      obtain ⟨d, e, rfl, hd, he⟩ := hhead
      have hbound : b.toNat < 256 := b.toNat_lt
      have hhigh := hd.digit (by omega)
      have hlow := he.digit (by omega)
      simp only [List.flatten_cons, List.mem_append, List.mem_cons, List.not_mem_nil, or_false, not_or]
      exact ⟨⟨⟨by decide, hhigh.ampersand.symm, hlow.ampersand.symm⟩, ih.1⟩,
        ⟨by decide, hhigh.equals.symm, hlow.equals.symm⟩, ih.2⟩
  | plus => decide

theorem Encodes.separators {t e : Text} (h : Encodes t e) : '&' ∉ e ∧ '=' ∉ e := by
  obtain ⟨parts, hparts, rfl⟩ := h
  induction hparts with
  | nil => exact ⟨List.not_mem_nil, List.not_mem_nil⟩
  | cons hhead _ ih =>
    rw [List.flatten_cons, List.mem_append, List.mem_append, not_or, not_or]
    exact ⟨⟨hhead.separators.1, ih.1⟩, hhead.separators.2, ih.2⟩

theorem EncodesPair.no_ampersand {p : Text × Text} {t : Text} (h : EncodesPair p t) : '&' ∉ t := by
  obtain ⟨k, v, hk, hv, rfl⟩ := h
  simp only [List.mem_append, List.mem_cons, not_or]
  exact ⟨hk.separators.1, by decide, hv.separators.1⟩

theorem no_ampersand_of_encodes {pairs : List (Text × Text)} {parts : List Text}
    (h : List.Forall₂ EncodesPair pairs parts) : ∀ t ∈ parts, '&' ∉ t := by
  induction h with
  | nil => exact fun t ht => absurd ht List.not_mem_nil
  | cons hhead _ ih => exact List.forall_mem_cons.2 ⟨hhead.no_ampersand, ih⟩

theorem splitAt_of_not_mem {sep : Char} {p : Text} (h : sep ∉ p) : splitAt sep p = [p] := by
  induction p with
  | nil => rfl
  | cons c cs ih =>
    rw [List.mem_cons, not_or] at h
    rw [splitAt, if_neg (Ne.symm h.1), ih h.2]

theorem splitAt_append {sep : Char} {p : Text} (h : sep ∉ p) (rest : Text) :
    splitAt sep (p ++ sep :: rest) = p :: splitAt sep rest := by
  induction p with
  | nil => rw [List.nil_append, splitAt, if_pos rfl]
  | cons c cs ih =>
    rw [List.mem_cons, not_or] at h
    rw [List.cons_append, splitAt, if_neg (Ne.symm h.1), ih h.2]

/-- Splitting takes apart what was put together without the separator. -/
theorem splitAt_intercalate {sep : Char} : ∀ {parts : List Text}, parts ≠ [] → (∀ p ∈ parts, sep ∉ p) →
    splitAt sep (Text.intercalate [sep] parts) = parts := by
  intro parts
  induction parts with
  | nil => exact fun hne => absurd rfl hne
  | cons p ps ih =>
    intro _ h
    have hp := h p List.mem_cons_self
    cases ps with
    | nil => exact splitAt_of_not_mem hp
    | cons q qs =>
      rw [Text.intercalate, List.append_assoc, List.singleton_append, splitAt_append hp,
        ih (List.cons_ne_nil _ _) fun x hx => h x (List.mem_cons_of_mem _ hx)]
      exact fun hnil => List.cons_ne_nil _ _ hnil

theorem queryPair_encodes {p : Text × Text} {t : Text} (h : EncodesPair p t) (hkey : p.1 ≠ []) (m : List (Text × Json)) :
    queryPair m t = Json.insertKey p.1 (parseScalar p.2) m := by
  obtain ⟨k, v, hk, hv, rfl⟩ := h
  have hne : k ++ '=' :: v ≠ [] := List.append_ne_nil_of_right_ne_nil _ (List.cons_ne_nil _ _)
  rw [queryPair, if_neg hne, Text.splitOnce_append v hk.separators.2]
  simp only [percentDecode_encodes hk, percentDecode_encodes hv, if_neg hkey]

/-- The parser collects the pairs in the order they were sent in. -/
theorem foldl_queryPair {pairs : List (Text × Text)} {parts : List Text} (h : List.Forall₂ EncodesPair pairs parts) :
    ∀ m : List (Text × Json), (m.map Prod.fst ++ pairs.map Prod.fst).Nodup → [] ∉ pairs.map Prod.fst →
      parts.foldl queryPair m = m ++ pairs.map fun p => (p.1, parseScalar p.2) := by
  induction h with
  | nil =>
    intro m _ _
    simp
  | @cons p t pairs parts hhead _ ih =>
    intro m hnodup hkeys
    rw [List.map_cons, List.mem_cons, not_or] at hkeys
    have hnew : p.1 ∉ m.map Prod.fst := by
      intro hmem
      exact (List.nodup_append.1 hnodup).2.2 p.1 hmem p.1 List.mem_cons_self rfl
    rw [List.foldl_cons, queryPair_encodes hhead (Ne.symm hkeys.1), Json.insertKey,
      Dict.put_of_find_none _ _ (Dict.find_eq_none hnew), ih _ _ hkeys.2, List.append_assoc]
    · rfl
    · rw [List.map_append, List.append_assoc]
      exact hnodup

theorem queryEntries_encodes {pairs : List (Text × Text)} {raw : Text} (h : EncodesPairs pairs raw)
    (hnodup : (pairs.map Prod.fst).Nodup) (hkeys : [] ∉ pairs.map Prod.fst) :
    queryEntries raw = pairs.map fun p => (p.1, parseScalar p.2) := by
  obtain ⟨parts, hparts, rfl⟩ := h
  cases hparts with
  | nil => rfl
  | cons hhead htail =>
    have hall := List.Forall₂.cons hhead htail
    rw [queryEntries, splitAt_intercalate (List.cons_ne_nil _ _) (no_ampersand_of_encodes hall),
      foldl_queryPair hall [] hnodup hkeys, List.nil_append]

/-! ### Scalars -/

/-- The number is the integer. -/
def Denotes (n : Json.Number) (i : Int) : Prop :=
  match n with
  | .posInt k => (k : Int) = i
  | .negInt j => j = i
  | .float f => f.isFinite ∧ f.scaled = i * 2 ^ 1074

/-- What a text in a query stands for: a word, an integer, another finite decimal number, or itself. -/
def StandsFor (s : Text) (j : Json) : Prop :=
  if s = ("true" : Text) then j = .bool true
  else if s = ("false" : Text) then j = .bool false
  else if s = ("null" : Text) then j = .null
  else match Text.parseSigned s with
    | some i => ∃ n, j = .number n ∧ Denotes n i
    | none => match F64.parse s with
      | some f => if f.isFinite then j = .number (.float f) else j = .string s
      | none => j = .string s

/-- An integer is in the range of `i64` or one of the doubles, and another number is finite. -/
structure Carried (v : Text) : Prop where
  integer : ∀ i, Text.parseSigned v = some i →
    (-2 ^ 63 ≤ i ∧ i < 2 ^ 63) ∨ ∃ f, F64.parse v = some f ∧ f.isFinite ∧ f.scaled = i * 2 ^ 1074
  finite : Text.parseSigned v = none → ∀ f, F64.parse v = some f → f.isFinite

theorem numberOfI64_denotes {i : Int} (h : -2 ^ 63 ≤ i ∧ i < 2 ^ 63) :
    ∃ n, numberOfI64 (Int64.ofInt i) = .number n ∧ Denotes n i := by
  have hint : (Int64.ofInt i).toInt = i := Int64.toInt_ofInt_of_le h.1 h.2
  refine ⟨_, rfl, ?_⟩
  rw [hint]
  by_cases hsign : 0 ≤ i
  · rw [if_pos hsign]
    exact Int.toNat_of_nonneg hsign
  · rw [if_neg hsign]
    rfl

theorem standsFor_integer {v : Text} {i : Int} (hwords : v ≠ ("true" : Text) ∧ v ≠ ("false" : Text) ∧ v ≠ ("null" : Text))
    (h : Text.parseSigned v = some i) {j : Json} : StandsFor v j ↔ ∃ n, j = .number n ∧ Denotes n i := by
  rw [StandsFor, if_neg hwords.1, if_neg hwords.2.1, if_neg hwords.2.2, h]

/-- An integer is read as itself when it is in range, or a double. -/
theorem integer_iff {v : Text} {i : Int} (hwords : v ≠ ("true" : Text) ∧ v ≠ ("false" : Text) ∧ v ≠ ("null" : Text))
    (h : Text.parseSigned v = some i) : StandsFor v (parseScalar v) ↔ Carried v := by
  have hcarried : Carried v ↔
      (-2 ^ 63 ≤ i ∧ i < 2 ^ 63) ∨ ∃ f, F64.parse v = some f ∧ f.isFinite ∧ f.scaled = i * 2 ^ 1074 := by
    refine ⟨fun hv => hv.integer i h, fun hi => ⟨fun i' hi' => ?_, fun hnone => ?_⟩⟩
    · obtain rfl : i = i' := Option.some.inj (h.symm.trans hi')
      exact hi
    · cases h.symm.trans hnone
  rw [hcarried, standsFor_integer hwords h, parseScalar, if_neg hwords.1, if_neg hwords.2.1, if_neg hwords.2.2]
  by_cases hrange : -2 ^ 63 ≤ i ∧ i < 2 ^ 63
  · rw [Text.parseI64_of_parseSigned h hrange]
    exact iff_of_true (numberOfI64_denotes hrange) (Or.inl hrange)
  · have hnone : Text.parseI64 v = none := by
      rw [Text.parseI64, h]
      exact if_neg hrange
    rw [hnone, or_iff_right hrange]
    cases hparse : F64.parse v with
    | none =>
      refine iff_of_false ?_ ?_
      · rintro ⟨n, hn, -⟩
        cases hn
      · rintro ⟨f, hf, -⟩
        cases hf
    | some f =>
      simp only [floatJson]
      by_cases hfinite : f.isFinite = true
      · rw [if_pos hfinite]
        constructor
        · rintro ⟨n, hn, hdenotes⟩
          obtain rfl : Json.Number.float f = n := Json.number.inj hn
          exact ⟨f, rfl, hdenotes⟩
        · rintro ⟨f', hf, hdenotes⟩
          obtain rfl : f = f' := Option.some.inj hf
          exact ⟨_, rfl, hdenotes⟩
      · rw [if_neg hfinite]
        refine iff_of_false ?_ ?_
        · rintro ⟨n, hn, -⟩
          cases hn
        · rintro ⟨f', hf, hfinite', -⟩
          obtain rfl : f = f' := Option.some.inj hf
          exact hfinite hfinite'

theorem text_iff {v : Text} (hwords : v ≠ ("true" : Text) ∧ v ≠ ("false" : Text) ∧ v ≠ ("null" : Text))
    (h : Text.parseSigned v = none) : StandsFor v (parseScalar v) ↔ Carried v := by
  have hcarried : Carried v ↔ ∀ f, F64.parse v = some f → f.isFinite := by
    refine ⟨fun hv => hv.finite h, fun hf => ⟨fun i hi => ?_, fun _ => hf⟩⟩
    cases h.symm.trans hi
  have hnone : Text.parseI64 v = none := by
    rw [Text.parseI64, h]
  rw [hcarried, StandsFor, parseScalar, if_neg hwords.1, if_neg hwords.2.1, if_neg hwords.2.2, if_neg hwords.1,
    if_neg hwords.2.1, if_neg hwords.2.2, h, hnone]
  cases hparse : F64.parse v with
  | none => simp
  | some f =>
    by_cases hfinite : f.isFinite = true
    · simp [floatJson, hfinite]
    · simp [floatJson, hfinite]

theorem carried_word {w : Text} (hsigned : Text.parseSigned w = none) (hparse : F64.parse w = none) : Carried w := by
  refine ⟨fun i hi => ?_, fun _ f hf => ?_⟩
  · cases hsigned.symm.trans hi
  · cases hparse.symm.trans hf

/-- The scalar stands for the text exactly when a number in it is carried. -/
theorem parseScalar_iff (v : Text) : StandsFor v (parseScalar v) ↔ Carried v := by
  by_cases htrue : v = ("true" : Text)
  · subst htrue
    exact iff_of_true (by rw [StandsFor, if_pos rfl, parseScalar, if_pos rfl]) (carried_word (by decide) (by decide +kernel))
  by_cases hfalse : v = ("false" : Text)
  · subst hfalse
    refine iff_of_true ?_ (carried_word (by decide) (by decide +kernel))
    rw [StandsFor, if_neg (by decide), if_pos rfl, parseScalar, if_neg (by decide), if_pos rfl]
  by_cases hnull : v = ("null" : Text)
  · subst hnull
    refine iff_of_true ?_ (carried_word (by decide) (by decide +kernel))
    rw [StandsFor, if_neg (by decide), if_neg (by decide), if_pos rfl, parseScalar, if_neg (by decide), if_neg (by decide),
      if_pos rfl]
  cases hsigned : Text.parseSigned v with
  | none => exact text_iff ⟨htrue, hfalse, hnull⟩ hsigned
  | some i => exact integer_iff ⟨htrue, hfalse, hnull⟩ hsigned

/-! ### Queries -/

/-- An object with exactly the keys that were sent, each with what its value stands for. -/
def Received (pairs : List (Text × Text)) (j : Json) : Prop :=
  ∃ m, j = .object m ∧ (m.map Prod.fst).Perm (pairs.map Prod.fst) ∧
    ∀ p ∈ pairs, ∃ v, (p.1, v) ∈ m ∧ StandsFor p.2 v

theorem received_iff {pairs : List (Text × Text)} {raw : Text} (h : EncodesPairs pairs raw)
    (hnodup : (pairs.map Prod.fst).Nodup) (hkeys : [] ∉ pairs.map Prod.fst) :
    Received pairs (parseQuery raw) ↔ ∀ p ∈ pairs, StandsFor p.2 (parseScalar p.2) := by
  have hperm : (Json.sortKeys (queryEntries raw)).Perm (pairs.map fun p => (p.1, parseScalar p.2)) := by
    rw [← queryEntries_encodes h hnodup hkeys]
    exact List.perm_insertionSort _ _
  have hentries : (pairs.map fun p => (p.1, parseScalar p.2)).map Prod.fst = pairs.map Prod.fst := by
    rw [List.map_map]
    rfl
  constructor
  · rintro ⟨m, hm, -, hvalues⟩ p hp
    obtain rfl : Json.sortKeys (queryEntries raw) = m := Json.object.inj hm
    obtain ⟨v, hv, hstands⟩ := hvalues p hp
    obtain ⟨q, hq, hpair⟩ := List.mem_map.1 (hperm.mem_iff.1 hv)
    obtain ⟨hkey, rfl⟩ := Prod.mk.inj hpair
    obtain rfl : q = p := List.inj_on_of_nodup_map hnodup hq hp hkey
    exact hstands
  · intro hstands
    refine ⟨_, rfl, ?_, fun p hp => ⟨parseScalar p.2, ?_, hstands p hp⟩⟩
    · rw [← hentries]
      exact hperm.map Prod.fst
    · exact hperm.mem_iff.2 (List.mem_map.2 ⟨p, hp, rfl⟩)

def unreserved (c : Char) : Bool := c.isAlphanum || c == '-' || c == '_' || c == '.' || c == '~'

def escapeByte (b : UInt8) : Text := ['%', Nat.digitChar (b.toNat / 16), Nat.digitChar (b.toNat % 16)]

def sendChar (c : Char) : Text :=
  if c = ' ' then ['+'] else if unreserved c then [c] else ((String.utf8EncodeChar c).map escapeByte).flatten

def sendText (t : Text) : Text := (t.map sendChar).flatten

def sendQuery (pairs : List (Text × Text)) : Text :=
  Text.intercalate ['&'] (pairs.map fun p => sendText p.1 ++ '=' :: sendText p.2)

theorem sendChar_encodes (c : Char) : EncodesChar c (sendChar c) := by
  rw [sendChar]
  by_cases hspace : c = ' '
  · subst hspace
    exact EncodesChar.plus
  · rw [if_neg hspace]
    by_cases hplain : unreserved c = true
    · rw [if_pos hplain]
      refine EncodesChar.plain c fun hmem => ?_
      have hall : (reserved.all fun d => !unreserved d) = true := by decide
      have hnot := List.all_eq_true.1 hall c hmem
      rw [hplain] at hnot
      cases hnot
    · rw [if_neg hplain]
      refine EncodesChar.escaped c _ ?_
      rw [List.forall₂_map_right_iff, List.forall₂_same]
      exact fun b _ => ⟨_, _, rfl, Or.inl rfl, Or.inl rfl⟩

theorem sendText_encodes (t : Text) : Encodes t (sendText t) := by
  refine ⟨t.map sendChar, ?_, rfl⟩
  rw [List.forall₂_map_right_iff, List.forall₂_same]
  exact fun c _ => sendChar_encodes c

/-- What the sender writes is a form of the pairs. -/
theorem sendQuery_encodes (pairs : List (Text × Text)) : EncodesPairs pairs (sendQuery pairs) := by
  refine ⟨_, ?_, rfl⟩
  rw [List.forall₂_map_right_iff, List.forall₂_same]
  exact fun p _ => ⟨_, _, sendText_encodes p.1, sendText_encodes p.2, rfl⟩

end Query

end Tinypipe
