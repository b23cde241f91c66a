import Mathlib

/-! A finite map as its list of entries, one for each key. `set` overwrites in
place or appends, so the order of the entries is the order of first insertion. -/

namespace Lib

structure Dict (α β : Type) where
  entries : List (α × β)
  nodup : (entries.map Prod.fst).Nodup

namespace Dict

variable {α β : Type}

@[ext] theorem ext {m m' : Dict α β} (h : m.entries = m'.entries) : m = m' := by
  cases m; cases m'; simp_all

variable [DecidableEq α]

instance [DecidableEq β] : DecidableEq (Dict α β) := fun m m' =>
  decidable_of_iff (m.entries = m'.entries) ⟨ext, fun h => h ▸ rfl⟩

def empty : Dict α β := ⟨[], List.nodup_nil⟩

instance : Inhabited (Dict α β) := ⟨empty⟩

/-- The value of the first entry with the key. -/
def find (k : α) : List (α × β) → Option β
  | [] => none
  | (k', v) :: es => if k' = k then some v else find k es

def put (k : α) (v : β) : List (α × β) → List (α × β)
  | [] => [(k, v)]
  | (k', v') :: es => if k' = k then (k, v) :: es else (k', v') :: put k v es

theorem put_keys (k : α) (v : β) (es : List (α × β)) :
    (put k v es).map Prod.fst =
      if k ∈ es.map Prod.fst then es.map Prod.fst else es.map Prod.fst ++ [k] := by
  induction es with
  | nil => simp [put]
  | cons e es ih =>
    obtain ⟨k', v'⟩ := e
    by_cases h : k' = k
    · simp [put, h]
    · have hk : ¬ k = k' := fun e => h e.symm
      simp only [put, if_neg h, List.map_cons, ih, List.mem_cons, hk, false_or]
      split_ifs <;> simp

theorem put_nodup (k : α) (v : β) {es : List (α × β)} (h : (es.map Prod.fst).Nodup) :
    ((put k v es).map Prod.fst).Nodup := by
  rw [put_keys]
  split_ifs with hk
  · exact h
  · exact List.nodup_append.2 ⟨h, List.nodup_singleton k, by
      intro a ha b hb
      rw [List.mem_singleton.1 hb]
      rintro rfl
      exact hk ha⟩

def get (m : Dict α β) (k : α) : Option β := find k m.entries

def contains (m : Dict α β) (k : α) : Bool := (m.get k).isSome

def set (m : Dict α β) (k : α) (v : β) : Dict α β := ⟨put k v m.entries, put_nodup k v m.nodup⟩

def erase (m : Dict α β) (k : α) : Dict α β :=
  ⟨m.entries.filter (fun e => e.1 ≠ k), m.nodup.sublist (List.filter_sublist.map _)⟩

/-- Insert every entry of a list, later ones over earlier ones. -/
def ofList (es : List (α × β)) : Dict α β := es.foldl (fun m e => m.set e.1 e.2) empty

/-- Insert every entry of the second map into the first. -/
def extend (m m' : Dict α β) : Dict α β := m'.entries.foldl (fun m e => m.set e.1 e.2) m

def keys (m : Dict α β) : List α := m.entries.map Prod.fst

@[simp] theorem get_empty (k : α) : (empty : Dict α β).get k = none := rfl

theorem find_put (k j : α) (v : β) (es : List (α × β)) :
    find j (put k v es) = if k = j then some v else find j es := by
  induction es with
  | nil => simp [put, find]
  | cons e es ih =>
    obtain ⟨k', v'⟩ := e
    by_cases h : k' = k
    · subst h
      by_cases hj : k' = j <;> simp [put, find, hj]
    · by_cases hj : k' = j
      · subst hj
        simp [put, find, h, Ne.symm h]
      · simp [put, find, h, hj, ih]

theorem get_set (m : Dict α β) (k j : α) (v : β) :
    (m.set k v).get j = if k = j then some v else m.get j :=
  find_put k j v m.entries

@[simp] theorem get_set_self (m : Dict α β) (k : α) (v : β) : (m.set k v).get k = some v := by
  simp [get_set]

theorem get_set_ne (m : Dict α β) {k j : α} (h : k ≠ j) (v : β) :
    (m.set k v).get j = m.get j := by
  simp [get_set, h]

theorem put_of_find (k : α) (v : β) {es : List (α × β)} (h : find k es = some v) :
    put k v es = es := by
  induction es with
  | nil => simp [find] at h
  | cons e es ih =>
    obtain ⟨k', v'⟩ := e
    by_cases hk : k' = k
    · subst hk
      have hv : v' = v := by simpa [find] using h
      simp [put, hv]
    · have hf : find k es = some v := by simpa [find, hk] using h
      simp [put, hk, ih hf]

/-- A new key comes last. -/
theorem put_of_find_none (k : α) (v : β) {es : List (α × β)} (h : find k es = none) :
    put k v es = es ++ [(k, v)] := by
  induction es with
  | nil => rfl
  | cons e es ih =>
    obtain ⟨k', v'⟩ := e
    by_cases hk : k' = k
    · simp [find, hk] at h
    · simp only [find, if_neg hk] at h
      rw [put, if_neg hk, ih h, List.cons_append]

theorem entries_set_of_get_none {m : Dict α β} {k : α} (h : m.get k = none) (v : β) :
    (m.set k v).entries = m.entries ++ [(k, v)] := put_of_find_none k v h

/-- A value that is replaced is not seen by what does not tell the two apart. -/
theorem map_entries_set {γ : Type} {f : α × β → γ} {m : Dict α β} {k : α} {v w : β} (h : m.get k = some v)
    (hf : f (k, w) = f (k, v)) : (m.set k w).entries.map f = m.entries.map f := by
  have hput : ∀ {es : List (α × β)}, find k es = some v → (put k w es).map f = es.map f := by
    intro es hes
    induction es with
    | nil => cases hes
    | cons e es ih =>
      obtain ⟨k', v'⟩ := e
      rw [find] at hes
      rw [put]
      split at hes
      case isTrue hk =>
        cases hes
        rw [if_pos hk, List.map_cons, List.map_cons, hf, hk]
      case isFalse hk => rw [if_neg hk, List.map_cons, List.map_cons, ih hes]
  exact hput h

theorem put_put (k : α) (v w : β) (es : List (α × β)) : put k w (put k v es) = put k w es := by
  induction es with
  | nil => simp [put]
  | cons e es ih =>
    obtain ⟨k', v'⟩ := e
    by_cases hk : k' = k
    · simp [put, hk]
    · simp [put, hk, ih]

@[simp] theorem set_set (m : Dict α β) (k : α) (v w : β) : (m.set k v).set k w = m.set k w :=
  ext (put_put k v w m.entries)

/-- Writing the value a key already has changes nothing. -/
theorem set_of_get {m : Dict α β} {k : α} {v : β} (h : m.get k = some v) : m.set k v = m :=
  ext (put_of_find k v h)

theorem isSome_get_foldl_set (es : List (α × β)) (m : Dict α β) (k : α) :
    ((es.foldl (fun m e => m.set e.1 e.2) m).get k).isSome ↔
      (m.get k).isSome ∨ k ∈ es.map Prod.fst := by
  induction es generalizing m with
  | nil => simp
  | cons e es ih =>
    rw [List.foldl_cons, ih, get_set]
    by_cases h : e.1 = k
    · simp [h]
    · simp [h, Ne.symm h]

/-- The keys of a map made from a list are those of the list. -/
theorem isSome_get_ofList (es : List (α × β)) (k : α) :
    ((ofList es).get k).isSome ↔ k ∈ es.map Prod.fst := by
  simp [ofList, isSome_get_foldl_set]

theorem mem_of_get_foldl_set (es : List (α × β)) (m : Dict α β) {k : α} {v : β}
    (h : (es.foldl (fun m e => m.set e.1 e.2) m).get k = some v) :
    m.get k = some v ∨ (k, v) ∈ es := by
  induction es generalizing m with
  | nil => exact Or.inl h
  | cons e es ih =>
    rcases ih _ h with hm | hm
    · by_cases hk : e.1 = k
      · subst hk
        have hv : e.2 = v := by simpa using hm
        exact Or.inr (by simp [← hv])
      · exact Or.inl (by rwa [get_set_ne _ hk] at hm)
    · exact Or.inr (List.mem_cons_of_mem _ hm)

/-- A map made from a list only has entries of the list. -/
theorem mem_of_get_ofList {es : List (α × β)} {k : α} {v : β}
    (h : (ofList es).get k = some v) : (k, v) ∈ es :=
  (mem_of_get_foldl_set es empty h).resolve_left (by simp)

theorem find_eq_none {k : α} : ∀ {es : List (α × β)}, k ∉ es.map Prod.fst → find k es = none
  | [], _ => rfl
  | e :: es, h => by
    rw [List.map_cons, List.mem_cons, not_or] at h
    rw [find, if_neg (Ne.symm h.1)]
    exact find_eq_none h.2

theorem find_eq_some_iff {k : α} {v : β} : ∀ {es : List (α × β)}, (es.map Prod.fst).Nodup →
    (find k es = some v ↔ (k, v) ∈ es)
  | [], _ => by simp [find]
  | (k', v') :: es, h => by
    rw [List.map_cons, List.nodup_cons] at h
    by_cases hk : k' = k
    · subst hk
      have hnot : (k', v) ∉ es := fun hm => h.1 (List.mem_map.2 ⟨_, hm, rfl⟩)
      simp [find, hnot, eq_comm]
    · simp [find, hk, Ne.symm hk, find_eq_some_iff h.2]

theorem get_eq_some_iff {m : Dict α β} {k : α} {v : β} : m.get k = some v ↔ (k, v) ∈ m.entries :=
  find_eq_some_iff m.nodup

theorem mem_entries_set {m : Dict α β} {k : α} {v : β} {e : α × β} :
    e ∈ (m.set k v).entries ↔ e = (k, v) ∨ e.1 ≠ k ∧ e ∈ m.entries := by
  obtain ⟨j, w⟩ := e
  rw [← get_eq_some_iff, ← get_eq_some_iff, get_set, Prod.mk.injEq]
  by_cases h : k = j
  · simp [h, eq_comm]
  · simp [h, Ne.symm h]

theorem mem_entries_erase {m : Dict α β} {k : α} {e : α × β} :
    e ∈ (m.erase k).entries ↔ e.1 ≠ k ∧ e ∈ m.entries := by
  rw [erase, List.mem_filter, decide_eq_true_iff, and_comm]

omit [DecidableEq α] in
theorem mem_keys {m : Dict α β} {k : α} : k ∈ m.keys ↔ ∃ v, (k, v) ∈ m.entries := by
  rw [keys, List.mem_map]
  exact ⟨fun ⟨e, he, hk⟩ => ⟨e.2, hk ▸ he⟩, fun ⟨v, hv⟩ => ⟨_, hv, rfl⟩⟩

theorem length_set_of_mem {m : Dict α β} {k : α} (h : k ∈ m.keys) (v : β) :
    (m.set k v).entries.length = m.entries.length := by
  have hkeys := put_keys k v m.entries
  rw [if_pos (show k ∈ m.entries.map Prod.fst from h)] at hkeys
  simpa [set] using congrArg List.length hkeys

theorem length_set_of_not_mem {m : Dict α β} {k : α} (h : k ∉ m.keys) (v : β) :
    (m.set k v).entries.length = m.entries.length + 1 := by
  have hkeys := put_keys k v m.entries
  rw [if_neg (show k ∉ m.entries.map Prod.fst from h)] at hkeys
  simpa [set] using congrArg List.length hkeys

theorem length_erase_lt {m : Dict α β} {k : α} (h : k ∈ m.keys) :
    (m.erase k).entries.length < m.entries.length := by
  obtain ⟨v, hv⟩ := mem_keys.1 h
  exact List.length_filter_lt_length_iff_exists.2 ⟨(k, v), hv, by simp⟩

theorem find_filter_ne {k j : α} (h : k ≠ j) (es : List (α × β)) :
    find k (es.filter fun e => e.1 ≠ j) = find k es := by
  induction es with
  | nil => rfl
  | cons e es ih =>
    by_cases he : e.1 = j
    · rw [List.filter_cons_of_neg (by simpa using he), ih, find, if_neg fun hk => h (hk.symm.trans he)]
    · rw [List.filter_cons_of_pos (by simpa using he), find, find, ih]

theorem get_erase_ne (m : Dict α β) {k j : α} (h : k ≠ j) : (m.erase j).get k = m.get k :=
  find_filter_ne h m.entries

theorem get_erase_self (m : Dict α β) (k : α) : (m.erase k).get k = none :=
  find_eq_none (by simp [erase])

theorem get_foldl_set {k : α} : ∀ {es : List (α × β)} (m : Dict α β), (es.map Prod.fst).Nodup →
    (es.foldl (fun m e => m.set e.1 e.2) m).get k = (find k es).or (m.get k)
  | [], _, _ => rfl
  | (k', v') :: es, m, h => by
    rw [List.map_cons, List.nodup_cons] at h
    rw [List.foldl_cons, get_foldl_set _ h.2, get_set, find]
    by_cases hk : k' = k
    · subst hk
      rw [find_eq_none h.1, if_pos rfl, if_pos rfl, Option.none_or, Option.some_or]
    · rw [if_neg hk, if_neg hk]

theorem get_extend (m m' : Dict α β) (k : α) : (m.extend m').get k = (m'.get k).or (m.get k) :=
  get_foldl_set m m'.nodup

end Dict

end Lib
