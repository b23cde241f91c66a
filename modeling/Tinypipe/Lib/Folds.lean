import Mathlib

/-! Folding contributions into one value: when the order, or keeping only the last of them,
makes no difference. -/

namespace Lib.Folds

variable {α β : Type}

theorem foldl_or_some (g : α → Option β) (v : β) :
    ∀ l : List α, l.foldl (fun o a => o.or (g a)) (some v) = some v
  | [] => rfl
  | _ :: l => foldl_or_some g v l

/-- First come, first served. -/
theorem foldl_or_eq_head? (f : α → Option β) : ∀ (l : List α) (o : Option β),
    l.foldl (fun o a => o.or (f a)) o = (o.toList ++ l.filterMap f).head?
  | l, some v => by rw [foldl_or_some]; rfl
  | [], none => rfl
  | a :: l, none => by
    rw [List.foldl_cons, Option.none_or, foldl_or_eq_head? f l (f a)]
    cases h : f a <;> simp [h]

/-- A fold that keeps what it has or takes the next ends with one of the list, or as it started. -/
theorem foldl_eq_or_mem {f : Option α → α → Option α} (hf : ∀ o a, f o a = o ∨ f o a = some a) {v : α} :
    ∀ (l : List α) (o : Option α), l.foldl f o = some v → o = some v ∨ v ∈ l
  | [], _, h => Or.inl h
  | a :: l, o, h => by
    rcases foldl_eq_or_mem hf l (f o a) h with ha | hl
    · rcases hf o a with hkeep | htake
      · exact Or.inl (hkeep.symm.trans ha)
      · exact Or.inr (Option.some.inj (htake.symm.trans ha) ▸ List.mem_cons_self)
    · exact Or.inr (List.mem_cons_of_mem a hl)

/-- The last one counts. -/
theorem foldl_or_eq_getLast? (f : α → Option β) : ∀ (l : List α) (o : Option β),
    l.foldl (fun o a => (f a).or o) o = (o.toList ++ l.filterMap f).getLast?
  | [], o => by cases o <;> rfl
  | a :: l, o => by
    rw [List.foldl_cons, foldl_or_eq_getLast? f l]
    cases h : f a with
    | none => rw [List.filterMap_cons_none h, Option.none_or]
    | some v =>
      rw [List.filterMap_cons_some h, Option.some_or, Option.toList_some, List.singleton_append,
        List.getLast?_append_of_ne_nil _ (List.cons_ne_nil _ _)]

/-- Falling back on the value there was from the start changes nothing. -/
theorem foldl_or_or (f : α → Option β) (l : List α) (o : Option β) :
    l.foldl (fun x a => x.or ((f a).or o)) o = l.foldl (fun x a => x.or (f a)) o := by
  cases o with
  | none => simp only [Option.or_none]
  | some v => rw [foldl_or_some, foldl_or_some]

theorem foldl_last_add {k : α → Nat} (m : Nat) : ∀ (l : List α) (c : Nat),
    l.foldl (fun c a => if 0 < k a then m + k a else c) (m + c) =
      m + l.foldl (fun c a => if 0 < k a then k a else c) c
  | [], _ => rfl
  | a :: l, c => by
    rw [List.foldl_cons, List.foldl_cons, ← foldl_last_add m l]
    congr 1
    split <;> rfl

/-- Keeping the last increment loses nothing exactly when there is one at most. -/
theorem foldl_last_eq_sum {k : α → Nat} : ∀ (l : List α) (m : Nat),
    l.foldl (fun c a => if 0 < k a then k a else c) m ≤ m + (l.map k).sum ∧
      (l.foldl (fun c a => if 0 < k a then k a else c) m = m + (l.map k).sum ↔
        (m = 0 ∨ ∀ a ∈ l, k a = 0) ∧ l.Pairwise fun a b => k a = 0 ∨ k b = 0)
  | [], m => by simp
  | a :: l, m => by
    rw [List.foldl_cons, List.map_cons, List.sum_cons, List.pairwise_cons]
    by_cases ha : 0 < k a
    · obtain ⟨hle, hiff⟩ := foldl_last_eq_sum l (k a) (k := k)
      rw [if_pos ha]
      refine ⟨by omega, ?_⟩
      have hne : k a ≠ 0 := by omega
      constructor
      · intro h
        have heq : l.foldl (fun c a => if 0 < k a then k a else c) (k a) = k a + (l.map k).sum := by
          omega
        obtain ⟨hzero, hp⟩ := hiff.1 heq
        exact ⟨Or.inl (by omega), fun b hb => Or.inr (hzero.resolve_left hne b hb), hp⟩
      · rintro ⟨hm, hzero, hp⟩
        have hm0 : m = 0 := hm.resolve_right fun h => hne (h a List.mem_cons_self)
        have heq := hiff.2 ⟨Or.inr fun b hb => (hzero b hb).resolve_left hne, hp⟩
        omega
    · obtain ⟨hle, hiff⟩ := foldl_last_eq_sum l m (k := k)
      have ha0 : k a = 0 := by omega
      rw [if_neg ha, ha0, Nat.zero_add]
      refine ⟨hle, hiff.trans ?_⟩
      constructor
      · rintro ⟨hm, hp⟩
        refine ⟨hm.imp_right fun h b hb => ?_, fun b _ => Or.inl rfl, hp⟩
        rcases List.mem_cons.1 hb with rfl | hb
        · exact ha0
        · exact h b hb
      · rintro ⟨hm, -, hp⟩
        exact ⟨hm.imp_right fun h b hb => h b (List.mem_cons_of_mem _ hb), hp⟩

/-! ### The first of the greatest -/

section Pick

variable {κ : Type} [LinearOrder κ] (key : α → κ)

/-- The best so far, until a strictly better one comes. -/
def pick (best a : α) : α := if key best < key a then a else best

/-- An element before which all are less, and behind which none is greater. -/
def FirstGreatest (l : List α) (r : α) : Prop :=
  ∃ pre post, l = pre ++ r :: post ∧ (∀ p ∈ pre, key p < key r) ∧ ∀ q ∈ post, key q ≤ key r

theorem FirstGreatest.mem {l : List α} {r : α} (h : FirstGreatest key l r) : r ∈ l := by
  obtain ⟨pre, post, rfl, -, -⟩ := h
  exact List.mem_append_right _ List.mem_cons_self

theorem FirstGreatest.le {l : List α} {r : α} (h : FirstGreatest key l r) : ∀ a ∈ l, key a ≤ key r := by
  obtain ⟨pre, post, rfl, hpre, hpost⟩ := h
  intro a ha
  rcases List.mem_append.1 ha with ha | ha
  · exact (hpre a ha).le
  · rcases List.mem_cons.1 ha with rfl | ha
    · exact le_rfl
    · exact hpost a ha

/-- There is only one. -/
theorem FirstGreatest.unique {l : List α} {r r' : α} (h : FirstGreatest key l r)
    (h' : FirstGreatest key l r') : r = r' := by
  have heq : key r = key r' := le_antisymm (h'.le key r (h.mem key)) (h.le key r' (h'.mem key))
  obtain ⟨pre, post, rfl, hpre, -⟩ := h
  obtain ⟨pre', post', hl, hpre', -⟩ := h'
  rcases List.append_eq_append_iff.1 hl with ⟨a, ha, hpost⟩ | ⟨a, ha, hpost⟩
  · cases a with
    | nil => exact (List.cons.inj hpost).1
    | cons b a =>
      obtain ⟨rfl, -⟩ := List.cons.inj hpost
      exact absurd heq (hpre' r (by simp [ha])).ne
  · cases a with
    | nil => exact (List.cons.inj hpost).1.symm
    | cons b a =>
      obtain ⟨rfl, -⟩ := List.cons.inj hpost
      exact absurd heq.symm (hpre r' (by simp [ha])).ne

theorem foldl_pick (l : List α) (b : α) : FirstGreatest key (b :: l) (l.foldl (pick key) b) := by
  induction l generalizing b with
  | nil => exact ⟨[], [], rfl, by simp, by simp⟩
  | cons a l ih =>
    rw [List.foldl_cons]
    by_cases hlt : key b < key a
    · rw [pick, if_pos hlt]
      have hle := (ih a).le key a List.mem_cons_self
      obtain ⟨pre, post, heq, hpre, hpost⟩ := ih a
      refine ⟨b :: pre, post, by rw [heq]; rfl, fun p hp => ?_, hpost⟩
      rcases List.mem_cons.1 hp with rfl | hp
      · exact hlt.trans_le hle
      · exact hpre p hp
    · rw [pick, if_neg hlt]
      have hb := ih b
      generalize l.foldl (pick key) b = r at hb ⊢
      obtain ⟨pre, post, heq, hpre, hpost⟩ := hb
      cases pre with
      | nil =>
        obtain ⟨rfl, rfl⟩ := List.cons.inj heq
        refine ⟨[], a :: l, rfl, by simp, fun q hq => ?_⟩
        rcases List.mem_cons.1 hq with rfl | hq
        · exact not_lt.1 hlt
        · exact hpost q hq
      | cons c pre =>
        obtain ⟨rfl, rfl⟩ := List.cons.inj heq
        refine ⟨b :: a :: pre, post, rfl, fun p hp => ?_, hpost⟩
        have hb := hpre b List.mem_cons_self
        rcases List.mem_cons.1 hp with rfl | hp
        · exact hb
        · rcases List.mem_cons.1 hp with rfl | hp
          · exact (not_lt.1 hlt).trans_lt hb
          · exact hpre p (List.mem_cons_of_mem _ hp)

variable {key} {f : Option α → α → Option α} (hnone : ∀ a, f none a = some a)
  (hsome : ∀ b a, f (some b) a = some (pick key b a))

include hsome in
theorem foldl_pick_some (l : List α) (b : α) : l.foldl f (some b) = some (l.foldl (pick key) b) := by
  induction l generalizing b with
  | nil => rfl
  | cons a l ih => rw [List.foldl_cons, hsome, ih, List.foldl_cons]

include hnone hsome in
theorem eq_nil_of_foldl_pick {l : List α} (h : l.foldl f none = none) : l = [] := by
  cases l with
  | nil => rfl
  | cons b l =>
    rw [List.foldl_cons, hnone, foldl_pick_some hsome] at h
    cases h

include hnone hsome in
/-- The same, with nothing to start from. -/
theorem firstGreatest_of_foldl {l : List α} {r : α} (h : l.foldl f none = some r) :
    FirstGreatest key l r := by
  cases l with
  | nil => cases h
  | cons b l =>
    rw [List.foldl_cons, hnone, foldl_pick_some hsome] at h
    rw [← Option.some.inj h]
    exact foldl_pick key l b

end Pick

end Lib.Folds
