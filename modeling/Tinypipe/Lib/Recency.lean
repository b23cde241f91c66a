import Tinypipe.Lib.Dict

/-! Recency of use. A log has the keys that were used, the latest first; the entries of a map carry
the instant of a use. The two agree as long as every use is recorded in both. -/

namespace Lib

variable {α β : Type} [DecidableEq α]

/-- The instants of the entries order them as the log does. -/
structure Follows (time : β → Nat) (uses : List α) (m : Dict α β) : Prop where
  used : ∀ k v, m.get k = some v → k ∈ uses
  order : ∀ j v k w, m.get j = some v → m.get k = some w → (time v ≤ time w ↔ uses.idxOf k ≤ uses.idxOf j)

namespace Follows

variable {time : β → Nat} {uses : List α} {m : Dict α β}

theorem empty (time : β → Nat) : Follows time ([] : List α) Dict.empty where
  used k v h := by simp at h
  order j v k w h := by simp at h

theorem erase (h : Follows time uses m) (k : α) : Follows time uses (m.erase k) := by
  have hkept : ∀ j v, (m.erase k).get j = some v → m.get j = some v := by
    intro j v hj
    by_cases hjk : j = k
    · rw [hjk, Dict.get_erase_self] at hj
      cases hj
    · rwa [Dict.get_erase_ne m hjk] at hj
  exact ⟨fun j v hj => h.used j v (hkept j v hj),
    fun i v j w hi hj => h.order i v j w (hkept i v hi) (hkept j w hj)⟩

/-- A use at an instant after all the others. -/
theorem set (h : Follows time uses m) {k : α} {v : β}
    (hlater : ∀ j w, m.get j = some w → j ≠ k → time w < time v) : Follows time (k :: uses) (m.set k v) := by
  constructor
  case used =>
    intro j w hj
    rw [Dict.get_set] at hj
    by_cases hjk : k = j
    · exact hjk ▸ List.mem_cons_self
    · rw [if_neg hjk] at hj
      exact List.mem_cons_of_mem _ (h.used j w hj)
  case order =>
    intro i u j w hi hj
    rw [Dict.get_set] at hi hj
    by_cases hik : k = i <;> by_cases hjk : k = j
    · rw [if_pos hik, Option.some.injEq] at hi
      rw [if_pos hjk, Option.some.injEq] at hj
      subst hi hj hik hjk
      simp
    · rw [if_pos hik, Option.some.injEq] at hi
      rw [if_neg hjk] at hj
      subst hi hik
      have hlt := hlater j w hj (Ne.symm hjk)
      rw [List.idxOf_cons_ne _ hjk, List.idxOf_cons_self]
      omega
    · rw [if_neg hik] at hi
      rw [if_pos hjk, Option.some.injEq] at hj
      subst hj hjk
      have hlt := hlater i u hi (Ne.symm hik)
      rw [List.idxOf_cons_ne _ hik, List.idxOf_cons_self]
      omega
    · rw [if_neg hik] at hi
      rw [if_neg hjk] at hj
      rw [List.idxOf_cons_ne _ hik, List.idxOf_cons_ne _ hjk, h.order i u j w hi hj]
      omega

/-- A use of the newest entry leaves its instant as it is. -/
theorem touch (h : Follows time uses m) {k : α} {v : β} (hk : m.get k = some v)
    (hnewest : ∀ j w, m.get j = some w → time w ≤ time v) : Follows time (k :: uses) m := by
  rw [← Dict.set_of_get hk]
  refine h.set fun j w hj hjk => lt_of_le_of_ne (hnewest j w hj) fun heq => hjk ?_
  -- equal instants would be equal places in the log
  have hle := (h.order j w k v hj hk).1 heq.le
  have hge := (h.order k v j w hk hj).1 heq.ge
  exact (List.idxOf_inj (h.used j w hj)).1 (le_antisymm hge hle)

end Follows

end Lib
