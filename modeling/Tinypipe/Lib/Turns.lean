import Mathlib

/-! Turns given out by a counter that wraps. From the counter `c` the turn `j` goes to
`(c + j) % w % n`. How even the shares are depends on the residues of `w` and of the two ends of
the run only. -/

namespace Lib.Turns

/-- As even as `k` turns can be shared among `n`. -/
def Fair (n k : Nat) (share : Nat → Nat) : Prop := ∀ i < n, k / n ≤ share i ∧ share i ≤ (k + n - 1) / n

/-- The turns of `i` among `k` turns. -/
def share (w n c k i : Nat) : Nat := Nat.count (fun j => (c + j) % w % n = i) k

/-- The counter does not wrap within the run, it wraps at a multiple of `n`, or the wraps cancel out. -/
def Unskewed (w n c k : Nat) : Prop :=
  (c + k) / w = 0 ∨ w % n = 0 ∨
    ((c + k) / w = 1 ∧ ((c + k) % w % n = 0 ∨
      min (w % n) ((c + k) % w % n) ≤ c % n ∧ c % n ≤ max (w % n) ((c + k) % w % n))) ∨
    ((c + k) / w = 2 ∧ (c + k) % w % n = 0 ∧ c % n = w % n)

instance (w n c k : Nat) : Decidable (Unskewed w n c k) := by
  unfold Unskewed
  infer_instance

/-! ### Even shares -/

section Fair

variable {n k : Nat} {share : Nat → Nat}

/-- Even shares are those that differ by at most one. -/
theorem fair_iff_close (hn : 0 < n) (hsum : ∑ i ∈ Finset.range n, share i = k) :
    Fair n k share ↔ ∀ i < n, ∀ j < n, share i ≤ share j + 1 := by
  have hceil : (k + n - 1) / n ≤ k / n + 1 := by
    calc (k + n - 1) / n ≤ (k + n) / n := Nat.div_le_div_right (Nat.sub_le _ _)
      _ = k / n + 1 := Nat.add_div_right k hn
  constructor
  · intro hfair i hi j hj
    have := (hfair i hi).2
    have := (hfair j hj).1
    omega
  · intro hclose i hi
    have hmem : i ∈ Finset.range n := Finset.mem_range.2 hi
    constructor
    · -- Were one share below, the others would add up to too little.
      by_contra hlow
      have hlt : ∑ j ∈ Finset.range n, share j < ∑ _j ∈ Finset.range n, k / n := by
        refine Finset.sum_lt_sum (fun j hj => ?_) ⟨i, hmem, by omega⟩
        have := hclose j (Finset.mem_range.1 hj) i hi
        omega
      rw [hsum, Finset.sum_const, Finset.card_range, smul_eq_mul] at hlt
      exact absurd (Nat.mul_div_le k n) (by omega)
    · by_contra hhigh
      have hlt : ∑ _j ∈ Finset.range n, (k + n - 1) / n < ∑ j ∈ Finset.range n, share j := by
        refine Finset.sum_lt_sum (fun j hj => ?_) ⟨i, hmem, by omega⟩
        have := hclose i hi j (Finset.mem_range.1 hj)
        omega
      rw [hsum, Finset.sum_const, Finset.card_range, smul_eq_mul] at hlt
      have hdiv := Nat.div_add_mod (k + n - 1) n
      have hmod := Nat.mod_lt (k + n - 1) hn
      omega

end Fair

/-! ### Counting the turns -/

theorem sum_share (w c k : Nat) {n : Nat} (hn : 0 < n) : ∑ i ∈ Finset.range n, share w n c k i = k := by
  induction k with
  | zero => simp [share]
  | succ k ih =>
    have hone : ∑ i ∈ Finset.range n, (if (c + k) % w % n = i then 1 else 0) = 1 := by
      rw [Finset.sum_ite_eq, if_pos (Finset.mem_range.2 (Nat.mod_lt _ hn))]
    simp only [share, Nat.count_succ, Finset.sum_add_distrib] at ih ⊢
    rw [ih, hone]

theorem count_congr {p q : Nat → Prop} [DecidablePred p] [DecidablePred q] {k : Nat}
    (h : ∀ j < k, (p j ↔ q j)) : Nat.count p k = Nat.count q k := by
  induction k with
  | zero => simp
  | succ k ih =>
    rw [Nat.count_succ, Nat.count_succ, ih fun j hj => h j (Nat.lt_succ_of_lt hj)]
    simp only [h k (Nat.lt_succ_self k)]

/-- One more turn for those below `r`. -/
def bit (i r : Nat) : Nat := if i < r then 1 else 0

/-- The numbers below `t` that have the residue `i`. -/
theorem count_residue {n i : Nat} (hi : i < n) (t : Nat) :
    Nat.count (fun j => j % n = i) t = t / n + bit i (t % n) := by
  have hcount := Nat.count_modEq_card t (Nat.zero_lt_of_lt hi) i
  rw [Nat.mod_eq_of_lt hi] at hcount
  rw [bit, ← hcount]
  refine count_congr fun j _ => ?_
  rw [Nat.ModEq, Nat.mod_eq_of_lt hi]

/-- The residues of a counter that has wrapped `m` times. -/
theorem count_wrapped {w n : Nat} (i m : Nat) {d : Nat} (hd : d ≤ w) :
    Nat.count (fun j => j % w % n = i) (m * w + d) =
      m * Nat.count (fun j => j % n = i) w + Nat.count (fun j => j % n = i) d := by
  have hbelow : ∀ t ≤ w, Nat.count (fun j => j % w % n = i) t = Nat.count (fun j => j % n = i) t := by
    refine fun t ht => count_congr fun j hj => ?_
    rw [Nat.mod_eq_of_lt (hj.trans_le ht)]
  induction m with
  | zero => rw [Nat.zero_mul, Nat.zero_mul, Nat.zero_add, Nat.zero_add, hbelow d hd]
  | succ m ih =>
    have hshift : Nat.count (fun j => (w + j) % w % n = i) (m * w + d) =
        Nat.count (fun j => j % w % n = i) (m * w + d) :=
      count_congr fun j _ => by rw [Nat.add_mod_left]
    rw [Nat.succ_mul, Nat.succ_mul, Nat.add_comm (m * w) w, Nat.add_assoc, Nat.count_add, hshift, ih,
      hbelow w le_rfl]
    omega

/-- What is in front of the run and the share in it make up the turns from zero. -/
theorem share_add {w n c k i : Nat} (hc : c < w) (hi : i < n) :
    share w n c k i + (c / n + bit i (c % n)) =
      (c + k) / w * (w / n + bit i (w % n)) + ((c + k) % w / n + bit i ((c + k) % w % n)) := by
  have hmod : (c + k) % w ≤ w := (Nat.mod_lt _ (Nat.zero_lt_of_lt hc)).le
  have htotal := count_wrapped (n := n) i ((c + k) / w) hmod
  have hfront := count_wrapped (n := n) i 0 hc.le
  rw [Nat.div_add_mod', Nat.count_add] at htotal
  rw [Nat.zero_mul, Nat.zero_mul, Nat.zero_add, Nat.zero_add] at hfront
  rw [hfront, count_residue hi, count_residue hi, count_residue hi] at htotal
  rw [share]
  omega

/-! ### The exact condition -/

theorem bit_of_lt {i r : Nat} (h : i < r) : bit i r = 1 := if_pos h

theorem bit_of_le {i r : Nat} (h : r ≤ i) : bit i r = 0 := if_neg (Nat.not_lt.2 h)

@[simp] theorem bit_zero (i : Nat) : bit i 0 = 0 := bit_of_le (Nat.zero_le i)

theorem bit_le_one (i r : Nat) : bit i r ≤ 1 := by
  unfold bit
  split <;> omega

theorem bit_mono {i r r' : Nat} (h : r ≤ r') : bit i r ≤ bit i r' := by
  unfold bit
  split_ifs <;> omega

/-- The shares differ by at most one, where the wraps add `m` turns below `r`. -/
def Close (n m r rd rc : Nat) : Prop := ∀ i < n, ∀ j < n,
  m * bit i r + bit i rd + bit j rc ≤ m * bit j r + bit j rd + bit i rc + 1

theorem two_bits (i j r r' : Nat) : bit i r + bit j r' ≤ bit j r + bit i r' + 1 := by
  unfold bit
  split_ifs <;> omega

section Close

variable {n m r rd rc : Nat}

theorem close_once (hrest : rd = 0 ∨ min r rd ≤ rc ∧ rc ≤ max r rd) : Close n 1 r rd rc := by
  intro i _ j _
  have hij := two_bits i j r rd
  rcases hrest with rfl | ⟨hlow, hhigh⟩
  · have := two_bits i j r rc
    rw [bit_zero, bit_zero]
    omega
  · -- `rc` lies between the other two steps, so that its step down undoes one of theirs.
    rcases Nat.le_total r rd with hle | hle
    · rw [Nat.min_eq_left hle] at hlow
      rw [Nat.max_eq_right hle] at hhigh
      have := bit_mono (i := i) hlow
      have := bit_mono (i := j) hhigh
      have := bit_le_one i rd
      omega
    · rw [Nat.min_eq_right hle] at hlow
      rw [Nat.max_eq_left hle] at hhigh
      have := bit_mono (i := i) hlow
      have := bit_mono (i := j) hhigh
      have := bit_le_one i r
      omega

theorem eq_of_close_once (h : Close n 1 r rd rc) (hr : r < n) (hrd : rd < n) (hrc : rc < n) (hpos : 0 < r) :
    rd = 0 ∨ min r rd ≤ rc ∧ rc ≤ max r rd := by
  refine or_iff_not_imp_left.2 fun hne => ⟨?_, ?_⟩
  · by_contra hlow
    have := h rc hrc (n - 1) (by omega)
    rw [bit_of_lt (by omega : rc < r), bit_of_lt (by omega : rc < rd), bit_of_le (le_refl rc),
      bit_of_le (by omega : rc ≤ n - 1), bit_of_le (by omega : r ≤ n - 1),
      bit_of_le (by omega : rd ≤ n - 1)] at this
    omega
  · by_contra hhigh
    have := h 0 (by omega) (max r rd) (by omega)
    rw [bit_of_lt hpos, bit_of_lt (by omega : 0 < rd), bit_of_lt (by omega : max r rd < rc),
      bit_of_le (le_max_left r rd), bit_of_le (le_max_right r rd), bit_of_lt (by omega : 0 < rc)] at this
    omega

theorem eq_of_close_twice (h : Close n 2 r rd rc) (hr : r < n) (hrd : rd < n) (hrc : rc < n) (hpos : 0 < r) :
    rd = 0 ∧ rc = r := by
  have hends := h 0 (by omega) (n - 1) (by omega)
  rw [bit_of_lt hpos, bit_of_le (by omega : rc ≤ n - 1), bit_of_le (by omega : r ≤ n - 1),
    bit_of_le (by omega : rd ≤ n - 1)] at hends
  have hzero : rd = 0 := by
    by_contra hne
    rw [bit_of_lt (Nat.pos_of_ne_zero hne)] at hends
    have := bit_le_one 0 rc
    omega
  subst hzero
  refine ⟨rfl, Nat.le_antisymm ?_ ?_⟩
  · by_contra hlt
    have := h 0 (by omega) r hr
    rw [bit_of_lt hpos, bit_of_le (le_refl r), bit_of_lt (by omega : r < rc), bit_zero, bit_zero] at this
    have := bit_le_one 0 rc
    omega
  · by_contra hlt
    have := h rc hrc (n - 1) (by omega)
    rw [bit_of_lt (by omega : rc < r), bit_of_le (le_refl rc), bit_of_le (by omega : rc ≤ n - 1),
      bit_of_le (by omega : r ≤ n - 1), bit_zero, bit_zero] at this
    omega

theorem close_iff (hr : r < n) (hrd : rd < n) (hrc : rc < n) : Close n m r rd rc ↔
    m = 0 ∨ r = 0 ∨ (m = 1 ∧ (rd = 0 ∨ min r rd ≤ rc ∧ rc ≤ max r rd)) ∨ (m = 2 ∧ rd = 0 ∧ rc = r) := by
  constructor
  · intro h
    rcases Nat.eq_zero_or_pos r with rfl | hpos
    · exact Or.inr (Or.inl rfl)
    have hends := h 0 (by omega) (n - 1) (by omega)
    rw [bit_of_lt hpos, bit_of_le (by omega : rc ≤ n - 1), bit_of_le (by omega : r ≤ n - 1),
      bit_of_le (by omega : rd ≤ n - 1)] at hends
    have hlast := bit_le_one 0 rc
    obtain rfl | rfl | rfl : m = 0 ∨ m = 1 ∨ m = 2 := by omega
    · exact Or.inl rfl
    · exact Or.inr (Or.inr (Or.inl ⟨rfl, eq_of_close_once h hr hrd hrc hpos⟩))
    · exact Or.inr (Or.inr (Or.inr ⟨rfl, eq_of_close_twice h hr hrd hrc hpos⟩))
  · rintro (rfl | rfl | ⟨rfl, hrest⟩ | ⟨rfl, rfl, rfl⟩)
    · intro i _ j _
      have := two_bits i j rd rc
      omega
    · intro i _ j _
      have := two_bits i j rd rc
      rw [bit_zero, bit_zero]
      omega
    · exact close_once hrest
    · intro i _ j _
      have := bit_le_one i rc
      rw [bit_zero, bit_zero]
      omega

end Close

/-- The turns are even exactly if no wrap skews them. -/
theorem fair_share_iff {w n c : Nat} (k : Nat) (hn : 0 < n) (hc : c < w) :
    Fair n k (share w n c k) ↔ Unskewed w n c k := by
  rw [fair_iff_close hn (sum_share w c k hn), Unskewed,
    ← close_iff (Nat.mod_lt w hn) (Nat.mod_lt ((c + k) % w) hn) (Nat.mod_lt c hn)]
  refine forall₂_congr fun i hi => forall₂_congr fun j hj => ?_
  have hshare := share_add (k := k) hc hi
  have hshare' := share_add (k := k) hc hj
  rw [Nat.mul_add] at hshare hshare'
  omega

end Lib.Turns
