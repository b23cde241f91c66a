import Mathlib

/-! Text as a list of characters, with the string operations of a systems
language read on it: blank trimming, splitting at a first occurrence, decimal
parsing with a sign and a range. Every delimiter the development splits at is an
ASCII character, so character positions and byte positions cut the same pieces. -/

namespace Lib

abbrev Text := List Char

instance : Coe String Text := ⟨String.toList⟩

instance Text.lawfulBEq : LawfulBEq Text := inferInstance

namespace Text

/-- Unicode `White_Space`. -/
def isBlank (c : Char) : Bool :=
  let n := c.toNat
  (9 ≤ n && n ≤ 13) || n == 32 || n == 0x85 || n == 0xA0 || n == 0x1680 ||
    (0x2000 ≤ n && n ≤ 0x200A) || n == 0x2028 || n == 0x2029 || n == 0x202F ||
    n == 0x205F || n == 0x3000

def trimStart (t : Text) : Text := t.dropWhile isBlank

def trimEnd (t : Text) : Text := (t.reverse.dropWhile isBlank).reverse

def trim (t : Text) : Text := trimEnd (trimStart t)

/-- Strip every leading and trailing character that satisfies `p`. -/
def trimMatches (p : Char → Bool) (t : Text) : Text :=
  ((t.dropWhile p).reverse.dropWhile p).reverse

/-- The parts before and after the first occurrence of `pat`. -/
def splitOnce (pat : Text) : Text → Option (Text × Text)
  | [] => if pat.isEmpty then some ([], []) else none
  | c :: cs =>
    if pat.isPrefixOf (c :: cs) then some ([], (c :: cs).drop pat.length)
    else (splitOnce pat cs).map fun p => (c :: p.1, p.2)

def contains (pat t : Text) : Bool := (splitOnce pat t).isSome

/-- Remove `pat` from the front once, if it is there. -/
def stripPrefix (pat t : Text) : Option Text :=
  if pat.isPrefixOf t then some (t.drop pat.length) else none

/-- Remove `pat` from the front as often as it is there. -/
def trimStartMatches (pat t : Text) : Text :=
  go t.length t
where
  go : Nat → Text → Text
    | 0, t => t
    | n + 1, t => if pat ≠ [] ∧ pat.isPrefixOf t then go n (t.drop pat.length) else t

def lower (c : Char) : Char := if 'A' ≤ c ∧ c ≤ 'Z' then Char.ofNat (c.toNat + 32) else c

def eqIgnoreAsciiCase (a b : Text) : Bool := a.map lower == b.map lower

def isDigit (c : Char) : Bool := '0' ≤ c && c ≤ '9'

def digit (c : Char) : Nat := c.toNat - 48

/-- The value of a non-empty run of decimal digits. -/
def parseNat (t : Text) : Option Nat :=
  if t.isEmpty || !t.all isDigit then none
  else some (t.foldl (fun n c => 10 * n + digit c) 0)

/-- An optional sign and a run of digits. -/
def parseSigned : Text → Option Int
  | '+' :: cs => (parseNat cs).map Int.ofNat
  | '-' :: cs => (parseNat cs).map fun n => -(n : Int)
  | cs => (parseNat cs).map Int.ofNat

/-- `parse::<i64>` -/
def parseI64 (t : Text) : Option Int64 :=
  match parseSigned t with
  | some i => if -2 ^ 63 ≤ i ∧ i < 2 ^ 63 then some (Int64.ofInt i) else none
  | none => none

/-- The parser of an unsigned type of `bits` bits: an optional `+` and digits. -/
def parseUnsigned (bits : Nat) (t : Text) : Option Nat :=
  let digits := match t with
    | '+' :: cs => cs
    | cs => cs
  match parseNat digits with
  | some n => if n < 2 ^ bits then some n else none
  | none => none

theorem parseUnsigned_lt {bits n : Nat} {t : Text} (h : parseUnsigned bits t = some n) :
    n < 2 ^ bits := by
  simp only [parseUnsigned] at h
  split at h
  · split at h
    · cases h
      assumption
    · cases h
  · cases h

def ofNat (n : Nat) : Text := Nat.toDigits 10 n

def ofInt : Int → Text
  | .ofNat n => ofNat n
  | .negSucc n => '-' :: ofNat (n + 1)

/-- The number of bytes of the UTF-8 form. -/
def utf8Len (t : Text) : Nat := (t.map fun c => c.utf8Size).sum

def intercalate (sep : Text) : List Text → Text
  | [] => []
  | [t] => t
  | t :: ts => t ++ sep ++ intercalate sep ts

def concat (ts : List Text) : Text := ts.flatten

theorem isDigit_of_mem_ofNat {n : Nat} {c : Char} (hc : c ∈ ofNat n) : isDigit c := by
  have h := Nat.isDigit_of_mem_toDigits (by decide) (by decide) hc
  simpa [isDigit, Char.isDigit, Char.le_def] using h

theorem ofNat_ne_nil (n : Nat) : ofNat n ≠ [] := Nat.toDigits_ne_nil

theorem parseNat_ofNat (n : Nat) : parseNat (ofNat n) = some n := by
  have hall : ∀ c ∈ ofNat n, isDigit c := fun c => isDigit_of_mem_ofNat
  have hval : (ofNat n).foldl (fun n c => 10 * n + digit c) 0 = n :=
    Nat.ofDigitChars_toDigits (b := 10) (by decide) (by decide)
  simp [parseNat, ofNat_ne_nil, hval, List.all_eq_true.mpr hall]

theorem ofNat_head (n : Nat) : ofNat n = ['0'] ∨ ∃ c cs, ofNat n = c :: cs ∧ c ≠ '0' := by
  induction n using Nat.strong_induction_on with
  | _ n ih =>
    by_cases hsmall : n < 10
    · have hone : ofNat n = [Nat.digitChar n] := Nat.toDigits_of_lt_base hsmall
      by_cases hzero : Nat.digitChar n = '0'
      · exact Or.inl (by rw [hone, hzero])
      · exact Or.inr ⟨_, [], hone, hzero⟩
    · have hten : 10 ≤ n := Nat.le_of_not_lt hsmall
      have hsplit : ofNat n = ofNat (n / 10) ++ [Nat.digitChar (n % 10)] :=
        Nat.toDigits_of_base_le (by decide) hten
      rcases ih (n / 10) (Nat.div_lt_self (by omega) (by decide)) with hzero | ⟨c, cs, hcs, hc⟩
      · have h := parseNat_ofNat (n / 10)
        rw [hzero] at h
        have hdiv : 0 = n / 10 := Option.some.inj h
        omega
      · exact Or.inr ⟨c, cs ++ [Nat.digitChar (n % 10)], by rw [hsplit, hcs]; rfl, hc⟩

theorem parseNat_digits {t : Text} {n : Nat} (h : parseNat t = some n) :
    t ≠ [] ∧ ∀ c ∈ t, isDigit c := by
  simp only [parseNat] at h
  split at h
  · cases h
  · next hc => simpa [List.all_eq_true] using hc

theorem parseNat_eq_none {u : Text} {c : Char} (hc : c ∈ u) (hdigit : isDigit c = false) :
    parseNat u = none := by
  cases hn : parseNat u with
  | none => rfl
  | some n =>
    rw [(parseNat_digits hn).2 c hc] at hdigit
    cases hdigit

theorem parseUnsigned_eq_none {bits : Nat} {d c : Char} {ds : Text} (hc : c ∈ ds) (hdigit : isDigit c = false) :
    parseUnsigned bits (d :: ds) = none := by
  by_cases hplus : d = '+'
  · subst hplus
    simp [parseUnsigned, parseNat_eq_none hc hdigit]
  · have hds : parseNat (d :: ds) = none := parseNat_eq_none (List.mem_cons_of_mem d hc) hdigit
    rw [parseUnsigned, hds]
    rintro cs heq
    exact hplus (List.cons.inj heq).1

theorem parseSigned_ofNat (n : Nat) : parseSigned (ofNat n) = some (n : Int) := by
  obtain ⟨c, cs, hcs⟩ := List.exists_cons_of_ne_nil (ofNat_ne_nil n)
  have hc : isDigit c := isDigit_of_mem_ofNat (n := n) (by simp [hcs])
  have hparse := parseNat_ofNat n
  rw [hcs] at hparse ⊢
  unfold parseSigned
  split
  · next heq => cases heq; exact absurd hc (by decide)
  · next heq => cases heq; exact absurd hc (by decide)
  · simp [hparse]

/-- A number has a sign at most in front; the rest is digits. -/
theorem parseSigned_digits {t : Text} {i : Int} (h : parseSigned t = some i) :
    ∃ c cs, t = c :: cs ∧ (isDigit c ∨ c = '+' ∨ c = '-') ∧ ∀ d ∈ cs, isDigit d := by
  unfold parseSigned at h
  split at h
  · next cs =>
    obtain ⟨n, hn, -⟩ := Option.map_eq_some_iff.mp h
    exact ⟨'+', cs, rfl, by simp, (parseNat_digits hn).2⟩
  · next cs =>
    obtain ⟨i, hi, -⟩ := Option.map_eq_some_iff.mp h
    obtain ⟨n, hn, -⟩ := Option.bind_eq_some_iff.mp hi
    exact ⟨'-', cs, rfl, by simp, (parseNat_digits hn).2⟩
  · obtain ⟨n, hn, -⟩ := Option.map_eq_some_iff.mp h
    obtain ⟨hne, hd⟩ := parseNat_digits hn
    obtain ⟨c, cs, rfl⟩ := List.exists_cons_of_ne_nil hne
    exact ⟨c, cs, rfl, .inl (hd c (by simp)), fun d hd' => hd d (by simp [hd'])⟩

theorem parseI64_of_parseSigned {t : Text} {i : Int} (h : parseSigned t = some i)
    (hi : -2 ^ 63 ≤ i ∧ i < 2 ^ 63) : parseI64 t = some (Int64.ofInt i) := by
  simp only [parseI64, h]
  exact if_pos hi

theorem parseI64_parseSigned {t : Text} {i : Int64} (h : parseI64 t = some i) :
    ∃ n, parseSigned t = some n := by
  unfold parseI64 at h
  split at h
  · next i hi => exact ⟨i, hi⟩
  · cases h

theorem splitOnce_eq_none {c : Char} {t : Text} (h : c ∉ t) : splitOnce [c] t = none := by
  induction t with
  | nil => rfl
  | cons d ds ih =>
    obtain ⟨hd, hds⟩ := not_or.mp (fun h' => h (List.mem_cons.mpr h'))
    simp [splitOnce, List.isPrefixOf, hd, ih hds]

/-- The cut is at the first occurrence. -/
theorem splitOnce_append {c : Char} {l : Text} (r : Text) (h : c ∉ l) :
    splitOnce [c] (l ++ c :: r) = some (l, r) := by
  induction l with
  | nil => simp [splitOnce, List.isPrefixOf]
  | cons d ds ih =>
    obtain ⟨hd, hds⟩ := not_or.mp (fun h' => h (List.mem_cons.mpr h'))
    simp [splitOnce, List.isPrefixOf, hd, ih hds]

theorem splitOnce_eq_some {c : Char} {t l r : Text} (h : splitOnce [c] t = some (l, r)) :
    t = l ++ c :: r := by
  induction t generalizing l with
  | nil => simp [splitOnce] at h
  | cons d ds ih =>
    simp only [splitOnce] at h
    split at h
    · next hp =>
      have hd : c = d := by simpa [List.isPrefixOf] using hp
      cases h
      simp [hd]
    · obtain ⟨⟨l', r'⟩, hs, heq⟩ := Option.map_eq_some_iff.mp h
      cases heq
      simp [ih hs]

/-- A pattern does not occur where its first character does not. -/
theorem splitOnce_eq_none_of_head {p : Char} {ps t : Text} (h : p ∉ t) :
    splitOnce (p :: ps) t = none := by
  induction t with
  | nil => rfl
  | cons d ds ih =>
    obtain ⟨hd, hds⟩ := not_or.mp (fun h' => h (List.mem_cons.mpr h'))
    simp [splitOnce, List.isPrefixOf, hd, ih hds]

/-- A front in which the first character of the pattern does not occur is read over. -/
theorem splitOnce_append_left {p : Char} {ps l : Text} (s : Text) (h : p ∉ l) :
    splitOnce (p :: ps) (l ++ s) = (splitOnce (p :: ps) s).map fun q => (l ++ q.1, q.2) := by
  induction l with
  | nil => simp
  | cons d ds ih =>
    obtain ⟨hd, hds⟩ := not_or.mp (fun h' => h (List.mem_cons.mpr h'))
    rw [List.cons_append, splitOnce, if_neg (by simp [List.isPrefixOf, hd]), ih hds]
    cases splitOnce (p :: ps) s <;> rfl

theorem stripPrefix_eq_none {p : Char} {pat t : Text} (hp : p ∈ pat) (h : p ∉ t) :
    stripPrefix pat t = none := by
  unfold stripPrefix
  rw [if_neg]
  intro hpre
  exact h ((List.isPrefixOf_iff_prefix.mp hpre).subset hp)

theorem trim_eq_self {t : Text} (hhead : ∀ c, t.head? = some c → isBlank c = false)
    (hlast : ∀ c, t.getLast? = some c → isBlank c = false) : trim t = t := by
  have hstart : trimStart t = t := by
    cases t with
    | nil => rfl
    | cons c cs => simp [trimStart, hhead c rfl]
  rw [trim, hstart, trimEnd]
  cases hr : t.reverse with
  | nil => simpa using hr.symm
  | cons c cs =>
    have hc := hlast c (by rw [← List.head?_reverse, hr]; rfl)
    rw [List.dropWhile_cons_of_neg (by simp [hc]), ← hr, List.reverse_reverse]

theorem trim_cons_blank {b : Char} {t : Text} (h : isBlank b) : trim (b :: t) = trim t := by
  rw [trim, trimStart, List.dropWhile_cons_of_pos h]
  rfl

theorem trim_append_blank {b : Char} {t : Text} (h : isBlank b) : trim (t ++ [b]) = trim t := by
  have hend : ∀ s : Text, trimEnd (s ++ [b]) = trimEnd s := fun s => by
    simp [trimEnd, h]
  rw [trim, trim, trimStart, List.dropWhile_append]
  split
  · next hempty =>
    simp [trimEnd, trimStart, List.isEmpty_iff.mp hempty, h]
  · exact hend _

/-- What stands between two solid characters stays. -/
theorem trim_between (l : Text) {u x : Char} (m r : Text) (hu : isBlank u = false)
    (hx : isBlank x = false) :
    ∃ l' r', trim (l ++ u :: m ++ x :: r) = l' ++ u :: m ++ x :: r' := by
  have hdrop : ∀ (p s : Text) {c : Char}, isBlank c = false →
      ∃ p', (p ++ c :: s).dropWhile isBlank = p' ++ c :: s := by
    intro p s c hc
    induction p with
    | nil => exact ⟨[], by simp [hc]⟩
    | cons d ds ih =>
      cases hd : isBlank d with
      | true => simpa [hd] using ih
      | false => exact ⟨d :: ds, by simp [hd]⟩
  obtain ⟨l', hl⟩ := hdrop l (m ++ x :: r) hu
  obtain ⟨r', hr⟩ := hdrop r.reverse (l' ++ u :: m).reverse hx
  refine ⟨l', r'.reverse, ?_⟩
  have hrev : (l' ++ u :: (m ++ x :: r)).reverse = r.reverse ++ x :: (l' ++ u :: m).reverse := by
    simp
  rw [trim, trimStart, trimEnd, List.append_assoc, List.cons_append, hl, hrev, hr]
  simp

theorem trim_length (t : Text) : (trim t).length ≤ t.length := by
  have hstart : (trimStart t).length ≤ t.length := List.length_dropWhile_le isBlank t
  have hend : (trimEnd (trimStart t)).length ≤ (trimStart t).length := by
    rw [trimEnd, List.length_reverse]
    exact (List.length_dropWhile_le isBlank _).trans (List.length_reverse ..).le
  exact hend.trans hstart

theorem splitOnce_eq {pat t l r : Text} (h : splitOnce pat t = some (l, r)) : t = l ++ pat ++ r := by
  induction t generalizing l with
  | nil =>
    rw [splitOnce] at h
    split at h
    case isTrue hempty =>
      cases h
      rw [List.isEmpty_iff.1 hempty]
      rfl
    case isFalse => cases h
  | cons c cs ih =>
    rw [splitOnce] at h
    split at h
    case isTrue hpre =>
      cases h
      rw [List.nil_append]
      exact (List.prefix_iff_eq_append.1 (List.isPrefixOf_iff_prefix.1 hpre)).symm
    case isFalse =>
      obtain ⟨p, hp, heq⟩ := Option.map_eq_some_iff.1 h
      obtain ⟨rfl, rfl⟩ := Prod.mk.inj heq
      rw [ih hp]
      rfl

theorem stripPrefix_eq {pat t r : Text} (h : stripPrefix pat t = some r) : t = pat ++ r := by
  rw [stripPrefix] at h
  split at h
  case isTrue hpre =>
    cases h
    exact (List.prefix_iff_eq_append.1 (List.isPrefixOf_iff_prefix.1 hpre)).symm
  case isFalse => cases h

/-- A last character that is not in the pattern stays behind it. -/
theorem splitOnce_append_right {pat : Text} {c : Char} (t : Text) (hc : c ∉ pat) (hpat : pat ≠ []) :
    splitOnce pat (t ++ [c]) = (splitOnce pat t).map fun q => (q.1, q.2 ++ [c]) := by
  have hpre : ∀ u : Text, pat.isPrefixOf (u ++ [c]) = pat.isPrefixOf u := by
    intro u
    rw [Bool.eq_iff_iff, List.isPrefixOf_iff_prefix, List.isPrefixOf_iff_prefix]
    refine ⟨fun h => ?_, fun h => h.trans (List.prefix_append u [c])⟩
    rcases List.prefix_concat_iff.1 h with heq | h
    · exact absurd (heq ▸ List.mem_append_right u (List.mem_singleton_self c)) hc
    · exact h
  induction t with
  | nil =>
    have hnone : pat.isPrefixOf [] = false := by
      rw [← Bool.not_eq_true, List.isPrefixOf_iff_prefix, List.prefix_nil]
      exact hpat
    have hempty : splitOnce pat [] = none := if_neg (by rw [List.isEmpty_iff]; exact hpat)
    have hone : pat.isPrefixOf [c] = false := (hpre []).trans hnone
    rw [List.nil_append, hempty, splitOnce, hone, if_neg Bool.false_ne_true, hempty]
    rfl
  | cons d ds ih =>
    rw [List.cons_append, splitOnce, splitOnce, ← List.cons_append, hpre]
    split
    case isTrue hpre =>
      have hlen := (List.isPrefixOf_iff_prefix.1 hpre).length_le
      rw [Option.map_some, List.drop_append_of_le_length hlen]
    case isFalse =>
      rw [ih]
      cases splitOnce pat ds <;> rfl

theorem mem_trim {t : Text} {c : Char} (hmem : c ∈ t) (hc : isBlank c = false) : c ∈ trim t := by
  have hdrop : ∀ u : Text, c ∈ u → c ∈ u.dropWhile isBlank := by
    intro u hu
    rw [← List.takeWhile_append_dropWhile (p := isBlank) (l := u)] at hu
    rcases List.mem_append.1 hu with h | h
    · rw [List.mem_takeWhile_imp h] at hc
      cases hc
    · exact h
  rw [trim, trimEnd, List.mem_reverse]
  refine hdrop _ (List.mem_reverse.2 ?_)
  exact hdrop t hmem

theorem trim_ne_nil {t : Text} {c : Char} (hmem : c ∈ t) (hc : isBlank c = false) : trim t ≠ [] :=
  List.ne_nil_of_mem (mem_trim hmem hc)

theorem dropWhile_eq_self {p : Char → Bool} {t : Text} :
    t.dropWhile p = t ↔ ∀ c, t.head? = some c → p c = false := by
  cases t with
  | nil => simp
  | cons c cs =>
    rw [List.head?_cons]
    constructor
    · intro h d hd
      cases hd
      cases hp : p c with
      | false => rfl
      | true =>
        rw [List.dropWhile_cons_of_pos hp] at h
        have hlen := congrArg List.length h
        have hle := List.length_dropWhile_le p cs
        rw [List.length_cons] at hlen
        omega
    · intro h
      exact List.dropWhile_cons_of_neg (by rw [h c rfl]; exact Bool.false_ne_true)

theorem trimMatches_eq_self {p : Char → Bool} {t : Text} : trimMatches p t = t ↔
    (∀ c, t.head? = some c → p c = false) ∧ ∀ c, t.getLast? = some c → p c = false := by
  have hback : ∀ u : Text, (u.reverse.dropWhile p).reverse = u ↔ ∀ c, u.getLast? = some c → p c = false := by
    intro u
    rw [List.reverse_eq_iff, dropWhile_eq_self, List.head?_reverse]
  rw [← dropWhile_eq_self, ← hback]
  constructor
  · intro h
    have hstart : t.dropWhile p = t := by
      refine (List.dropWhile_suffix p).eq_of_length (le_antisymm (List.length_dropWhile_le p t) ?_)
      have hlen := congrArg List.length h
      rw [trimMatches, List.length_reverse] at hlen
      have hle := List.length_dropWhile_le p (t.dropWhile p).reverse
      rw [List.length_reverse] at hle
      omega
    rw [trimMatches, hstart] at h
    exact ⟨hstart, h⟩
  · rintro ⟨hstart, hend⟩
    rw [trimMatches, hstart, hend]

/-- Characters that are trimmed anyway make no difference at the ends. -/
theorem trimMatches_wrap {p : Char → Bool} {c d : Char} (hc : p c = true) (hd : p d = true) (t : Text) :
    trimMatches p (c :: (t ++ [d])) = trimMatches p t := by
  rw [trimMatches, List.dropWhile_cons_of_pos hc, List.dropWhile_append, trimMatches]
  split
  case isTrue hempty =>
    rw [List.isEmpty_iff.1 hempty, List.dropWhile_cons_of_pos hd]
    rfl
  case isFalse => rw [List.reverse_append, List.reverse_singleton, List.singleton_append, List.dropWhile_cons_of_pos hd]

theorem contains_iff_infix {pat t : Text} (hpat : pat ≠ []) : contains pat t = true ↔ pat <:+: t := by
  rw [contains]
  induction t with
  | nil =>
    rw [splitOnce, if_neg (by rw [List.isEmpty_iff]; exact hpat), List.infix_nil]
    exact iff_of_false Bool.false_ne_true hpat
  | cons d ds ih =>
    rw [splitOnce, List.infix_cons_iff, ← ih]
    split
    case isTrue hpre => exact iff_of_true rfl (Or.inl (List.isPrefixOf_iff_prefix.1 hpre))
    case isFalse hpre =>
      rw [Option.isSome_map]
      refine ⟨Or.inr, fun h => h.resolve_left fun hpre' => hpre (List.isPrefixOf_iff_prefix.2 hpre')⟩

/-- Blanks behind a character that is none. -/
theorem trimEnd_append {c : Char} (hc : isBlank c = false) (l t : Text) :
    trimEnd (l ++ c :: t) = l ++ c :: trimEnd t := by
  rw [trimEnd, List.reverse_append, List.reverse_cons, List.append_assoc, List.dropWhile_append]
  have hstop : ([c] ++ l.reverse).dropWhile isBlank = [c] ++ l.reverse :=
    List.dropWhile_cons_of_neg (by rw [hc]; exact Bool.false_ne_true)
  split
  case isTrue hempty =>
    rw [hstop, trimEnd, List.isEmpty_iff.1 hempty]
    simp
  case isFalse => simp [trimEnd]

theorem trimMatches_subset (p : Char → Bool) (t : Text) : trimMatches p t ⊆ t := by
  intro c hc
  have hstart : c ∈ (t.dropWhile p).reverse := (List.dropWhile_subset p) (List.mem_reverse.1 hc)
  exact (List.dropWhile_subset p) (List.mem_reverse.1 hstart)

theorem trimMatches_ends (p : Char → Bool) (t : Text) : (∀ c, (trimMatches p t).head? = some c → p c = false) ∧
    ∀ c, (trimMatches p t).getLast? = some c → p c = false := by
  constructor
  · intro c hc
    obtain ⟨tail, htail⟩ : trimMatches p t <+: t.dropWhile p := by
      rw [trimMatches, ← List.reverse_suffix, List.reverse_reverse]
      exact List.dropWhile_suffix _
    have h := List.head?_dropWhile_not p t
    rw [← htail, List.head?_append, hc] at h
    simpa using h
  · intro c hc
    have h := List.head?_dropWhile_not p (t.dropWhile p).reverse
    rw [trimMatches, List.getLast?_reverse] at hc
    rw [hc] at h
    simpa using h

theorem trimMatches_trimMatches (p : Char → Bool) (t : Text) : trimMatches p (trimMatches p t) = trimMatches p t :=
  trimMatches_eq_self.2 (trimMatches_ends p t)

theorem trimStart_trim (t : Text) : trimStart (trim t) = trim t := by
  rw [trimStart, dropWhile_eq_self]
  exact (trimMatches_ends isBlank t).1

theorem trim_trim (t : Text) : trim (trim t) = trim t := trimMatches_trimMatches isBlank t

end Text

end Lib
