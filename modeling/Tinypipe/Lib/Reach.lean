import Mathlib

/-! Reachability by a worklist over a list of edges: a vertex goes on the worklist
the first time it is met. -/

namespace Lib.Reach

variable {α : Type} [DecidableEq α]

/-- Meet each target once: new ones are marked and put on the worklist. -/
def meet : List α → Finset α → List α → Finset α × List α
  | [], visited, stack => (visited, stack)
  | t :: ts, visited, stack =>
    if t ∈ visited then meet ts visited stack else meet ts (insert t visited) (t :: stack)

def targets (edges : List (α × α)) (v : α) : List α :=
  (edges.filter (fun e => e.1 = v)).map Prod.snd

def run (edges : List (α × α)) : Nat → Finset α → List α → Finset α
  | 0, visited, _ => visited
  | _ + 1, visited, [] => visited
  | n + 1, visited, v :: stack =>
    let r := meet (targets edges v) visited stack
    run edges n r.1 r.2

/-- The vertices met from `starts`. Every pop but the starts' own is of a vertex an
edge leads to, so the edges bound the number of pops. -/
def reachable (edges : List (α × α)) (starts : List α) : Finset α :=
  run edges (starts.length + edges.length) starts.toFinset starts.reverse

/-! ### What is met is reachable -/

/-- A path along the edges. -/
def Path (edges : List (α × α)) : α → α → Prop := Relation.ReflTransGen fun a b => (a, b) ∈ edges

/-- Some start leads to the vertex. -/
def From (edges : List (α × α)) (starts : List α) (v : α) : Prop := ∃ s ∈ starts, Path edges s v

theorem mem_targets {edges : List (α × α)} {v t : α} : t ∈ targets edges v ↔ (v, t) ∈ edges := by
  simp only [targets, List.mem_map, List.mem_filter, decide_eq_true_eq]
  constructor
  · rintro ⟨⟨a, b⟩, ⟨he, rfl⟩, rfl⟩
    exact he
  · exact fun h => ⟨(v, t), ⟨h, rfl⟩, rfl⟩

theorem mem_meet : ∀ (ts : List α) (visited : Finset α) (stack : List α) (x : α),
    (x ∈ (meet ts visited stack).1 ↔ x ∈ visited ∨ x ∈ ts) ∧
      (x ∈ (meet ts visited stack).2 → x ∈ stack ∨ x ∈ ts)
  | [], visited, stack, x => by simp [meet]
  | t :: ts, visited, stack, x => by
    simp only [meet]
    split
    case isTrue h =>
      obtain ⟨h1, h2⟩ := mem_meet ts visited stack x
      refine ⟨h1.trans ⟨fun hx => hx.imp_right (List.mem_cons_of_mem _), ?_⟩,
        fun hx => (h2 hx).imp_right (List.mem_cons_of_mem _)⟩
      rintro (hx | hx)
      · exact Or.inl hx
      · rcases List.mem_cons.1 hx with rfl | hx
        · exact Or.inl h
        · exact Or.inr hx
    case isFalse h =>
      obtain ⟨h1, h2⟩ := mem_meet ts (insert t visited) (t :: stack) x
      constructor
      · rw [h1, Finset.mem_insert, List.mem_cons]
        tauto
      · intro hx
        have := h2 hx
        simp only [List.mem_cons] at this ⊢
        tauto

theorem run_sound (edges : List (α × α)) (starts : List α) :
    ∀ (n : Nat) (visited : Finset α) (stack : List α),
      (∀ x ∈ visited, From edges starts x) → (∀ x ∈ stack, From edges starts x) →
        ∀ x ∈ run edges n visited stack, From edges starts x
  | 0, _, _, hv, _ => hv
  | _ + 1, _, [], hv, _ => hv
  | n + 1, visited, v :: stack, hv, hs => by
    have htargets : ∀ x ∈ targets edges v, From edges starts x := by
      intro x hx
      obtain ⟨s, hs', hp⟩ := hs v List.mem_cons_self
      exact ⟨s, hs', hp.tail (mem_targets.1 hx)⟩
    refine run_sound edges starts n _ _ (fun x hx => ?_) fun x hx => ?_
    · rcases (mem_meet _ _ _ x).1.1 hx with h | h
      · exact hv x h
      · exact htargets x h
    · rcases (mem_meet _ _ _ x).2 hx with h | h
      · exact hs x (List.mem_cons_of_mem _ h)
      · exact htargets x h

/-- Every vertex met is reachable from a start. -/
theorem reachable_sound {edges : List (α × α)} {starts : List α} {x : α}
    (h : x ∈ reachable edges starts) : From edges starts x := by
  have hstart : ∀ y, y ∈ starts → From edges starts y := fun y hy => ⟨y, hy, .refl⟩
  exact run_sound edges starts _ _ _ (fun y hy => hstart y (List.mem_toFinset.1 hy))
    (fun y hy => hstart y (List.mem_reverse.1 hy)) x h

/-! ### What is reachable is met -/

/-- The vertices an edge leads to that were not met yet. -/
def fresh (edges : List (α × α)) (visited : Finset α) : Finset α :=
  (edges.map Prod.snd).toFinset \ visited

/-- What is met for the first time goes from the fresh vertices to the worklist. -/
theorem meet_measure (edges : List (α × α)) : ∀ (ts : List α) (visited : Finset α) (stack : List α),
    (∀ t ∈ ts, t ∈ (edges.map Prod.snd).toFinset) →
      (meet ts visited stack).2.length + (fresh edges (meet ts visited stack).1).card =
        stack.length + (fresh edges visited).card
  | [], _, _, _ => rfl
  | t :: ts, visited, stack, h => by
    have hts : ∀ t ∈ ts, t ∈ (edges.map Prod.snd).toFinset :=
      fun t ht => h t (List.mem_cons_of_mem _ ht)
    simp only [meet]
    split
    case isTrue => exact meet_measure edges ts visited stack hts
    case isFalse hnew =>
      have hfresh : t ∈ fresh edges visited := Finset.mem_sdiff.2 ⟨h t List.mem_cons_self, hnew⟩
      have herase : fresh edges (insert t visited) = (fresh edges visited).erase t := by
        rw [fresh, Finset.sdiff_insert, ← fresh]
      have hpos := Finset.card_pos.2 ⟨t, hfresh⟩
      rw [meet_measure edges ts _ _ hts, herase, Finset.card_erase_of_mem hfresh,
        List.length_cons]
      omega

theorem subset_meet_stack : ∀ (ts : List α) (visited : Finset α) (stack : List α),
    stack ⊆ (meet ts visited stack).2
  | [], _, _ => fun _ h => h
  | t :: ts, visited, stack => by
    simp only [meet]
    split
    · exact subset_meet_stack ts visited stack
    · exact fun x hx => subset_meet_stack ts _ _ (List.mem_cons_of_mem _ hx)

theorem mem_meet_stack : ∀ (ts : List α) (visited : Finset α) (stack : List α) (x : α),
    x ∈ (meet ts visited stack).1 → x ∈ visited ∨ x ∈ (meet ts visited stack).2
  | [], _, _, _, h => Or.inl h
  | t :: ts, visited, stack, x, h => by
    simp only [meet] at h ⊢
    split at h
    case isTrue ht =>
      rw [if_pos ht]
      exact mem_meet_stack ts visited stack x h
    case isFalse ht =>
      rw [if_neg ht]
      rcases mem_meet_stack ts _ _ x h with hx | hx
      · rcases Finset.mem_insert.1 hx with rfl | hx
        · exact Or.inr (subset_meet_stack ts _ _ List.mem_cons_self)
        · exact Or.inl hx
      · exact Or.inr hx

/-- Every visited vertex waits on the worklist or has its targets visited. -/
def Pending (edges : List (α × α)) (visited : Finset α) (stack : List α) : Prop :=
  ∀ x ∈ visited, x ∈ stack ∨ ∀ y, (x, y) ∈ edges → y ∈ visited

/-- With enough steps the worklist runs empty. -/
theorem run_complete (edges : List (α × α)) :
    ∀ (n : Nat) (visited : Finset α) (stack : List α), Pending edges visited stack →
      stack.length + (fresh edges visited).card ≤ n →
        visited ⊆ run edges n visited stack ∧ Pending edges (run edges n visited stack) []
  | 0, visited, stack, hp, hn => by
    obtain rfl : stack = [] := List.length_eq_zero_iff.1 (by omega)
    exact ⟨Finset.Subset.refl _, hp⟩
  | _ + 1, _, [], hp, _ => ⟨Finset.Subset.refl _, hp⟩
  | n + 1, visited, v :: stack, hp, hn => by
    have htargets : ∀ t ∈ targets edges v, t ∈ (edges.map Prod.snd).toFinset := fun t ht =>
      List.mem_toFinset.2 (List.mem_map.2 ⟨_, mem_targets.1 ht, rfl⟩)
    have hmeasure := meet_measure edges (targets edges v) visited stack htargets
    have hstep : Pending edges (meet (targets edges v) visited stack).1
        (meet (targets edges v) visited stack).2 := by
      intro x hx
      have hkeep : ∀ y, y ∈ visited → y ∈ (meet (targets edges v) visited stack).1 :=
        fun y hy => (mem_meet _ _ _ y).1.2 (Or.inl hy)
      rcases mem_meet_stack _ _ _ x hx with hold | hnew
      · rcases hp x hold with hstack | hdone
        · rcases List.mem_cons.1 hstack with rfl | hstack
          · exact Or.inr fun y hy => (mem_meet _ _ _ y).1.2 (Or.inr (mem_targets.2 hy))
          · exact Or.inl (subset_meet_stack _ _ _ hstack)
        · exact Or.inr fun y hy => hkeep y (hdone y hy)
      · exact Or.inl hnew
    have ⟨hsub, hend⟩ := run_complete edges n _ _ hstep (by
      rw [hmeasure]
      rw [List.length_cons] at hn
      omega)
    exact ⟨fun x hx => hsub ((mem_meet _ _ _ x).1.2 (Or.inl hx)), hend⟩

theorem mem_reachable {edges : List (α × α)} {starts : List α} {x : α} :
    x ∈ reachable edges starts ↔ From edges starts x := by
  refine ⟨reachable_sound, ?_⟩
  have hcard : (fresh edges starts.toFinset).card ≤ edges.length :=
    ((Finset.card_le_card Finset.sdiff_subset).trans (List.toFinset_card_le _)).trans (by simp)
  obtain ⟨hstart, hclosed⟩ := run_complete edges (starts.length + edges.length) starts.toFinset
    starts.reverse (fun y hy => Or.inl (List.mem_reverse.2 (List.mem_toFinset.1 hy)))
    (by rw [List.length_reverse]; omega)
  rintro ⟨s, hs, hpath⟩
  induction hpath with
  | refl => exact hstart (List.mem_toFinset.2 hs)
  | tail _ hedge ih =>
    rcases hclosed _ ih with h | h
    · cases h
    · exact h _ hedge

end Lib.Reach
