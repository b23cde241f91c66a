import Mathlib

/-! Kahn's algorithm with a last-in-first-out worklist, over any vertex type and
a list of edges. Multiplicities count: a repeated edge is relaxed once for each
copy. -/

namespace Lib.Kahn

variable {α : Type} [DecidableEq α]

def inDegree (edges : List (α × α)) (v : α) : Nat := edges.countP (fun e => e.2 = v)

/-- The targets of the edges that leave `v`, in edge order. -/
def targets (edges : List (α × α)) (v : α) : List α :=
  (edges.filter (fun e => e.1 = v)).map Prod.snd

/-- Count one edge into each target; a target that reaches zero goes on the worklist. -/
def relax : List α → (α → Nat) → List α → (α → Nat) × List α
  | [], deg, stack => (deg, stack)
  | t :: ts, deg, stack =>
    let d := deg t - 1
    relax ts (Function.update deg t d) (if d = 0 then t :: stack else stack)

def run (edges : List (α × α)) : Nat → (α → Nat) → List α → List α
  | 0, _, _ => []
  | _ + 1, _, [] => []
  | n + 1, deg, v :: stack =>
    let r := relax (targets edges v) deg stack
    v :: run edges n r.1 r.2

/-- The order the worklist pops the vertices in. The initial worklist pops the
last vertex first. -/
def sort (vs : List α) (edges : List (α × α)) : List α :=
  run edges vs.length (inDegree edges) (vs.filter (fun v => inDegree edges v = 0)).reverse

/-! ### Every popped vertex has its sources behind it -/

/-- Each vertex of the list comes after the sources of the edges into it, given the
vertices that came before the list. -/
def Ordered (edges : List (α × α)) : List α → List α → Prop
  | _, [] => True
  | done, v :: rest => (∀ e ∈ edges, e.2 = v → e.1 ∈ done) ∧ Ordered edges (v :: done) rest

/-- The edges into a vertex from outside a list. -/
def pending (edges : List (α × α)) (done : List α) (v : α) : Nat :=
  edges.countP fun e => e.2 = v ∧ e.1 ∉ done

theorem pending_nil (edges : List (α × α)) (v : α) : pending edges [] v = inDegree edges v := by
  simp [pending, inDegree]

theorem pending_eq_zero {edges : List (α × α)} {done : List α} {v : α} :
    pending edges done v = 0 ↔ ∀ e ∈ edges, e.2 = v → e.1 ∈ done := by
  simp [pending, List.countP_eq_zero]

theorem count_targets (edges : List (α × α)) (v x : α) :
    (targets edges v).count x = edges.countP fun e => e.2 = x ∧ e.1 = v := by
  rw [targets, List.count_eq_countP, List.countP_map, List.countP_filter]
  congr 1
  funext e
  by_cases h : e.2 = x <;> simp [h]

/-- Popping a vertex settles one edge for each of its targets. -/
theorem pending_cons (edges : List (α × α)) (done : List α) {v : α} (hv : v ∉ done) (x : α) :
    pending edges done x = pending edges (v :: done) x + (targets edges v).count x := by
  rw [count_targets, pending, pending]
  induction edges with
  | nil => rfl
  | cons e es ih =>
    simp only [List.countP_cons, ih]
    by_cases hx : e.2 = x
    · by_cases hs : e.1 = v
      · simp [hx, hs, hv]
        omega
      · by_cases hd : e.1 ∈ done
        · simp [hs, hd]
        · simp [hx, hs, hd]
          omega
    · simp [hx]

/-- What the worklist holds: vertices without pending edges, each once. -/
structure Waiting (base : α → Nat) (stack : List α) : Prop where
  zero : ∀ x ∈ stack, base x = 0
  nodup : stack.Nodup

theorem relax_spec (base : α → Nat) : ∀ (ts : List α) (deg : α → Nat) (stack : List α),
    (∀ x, deg x = base x + ts.count x) → Waiting deg stack →
      (∀ x, (relax ts deg stack).1 x = base x) ∧ Waiting base (relax ts deg stack).2 ∧
        ∀ x ∈ (relax ts deg stack).2, x ∈ stack ∨ x ∈ ts
  | [], deg, stack, hdeg, hw => by
    have hb : deg = base := funext fun x => by simpa using hdeg x
    subst hb
    exact ⟨fun _ => rfl, hw, fun x hx => Or.inl hx⟩
  | t :: ts, deg, stack, hdeg, hw => by
    have ht : deg t = base t + ts.count t + 1 := by rw [hdeg t, List.count_cons_self]; omega
    have hts : t ∉ stack := fun hm => by have := hw.zero t hm; omega
    have hdeg' : ∀ x, Function.update deg t (deg t - 1) x = base x + ts.count x := by
      intro x
      by_cases hx : x = t
      · subst hx; rw [Function.update_self]; omega
      · rw [Function.update_of_ne hx, hdeg x, List.count_cons_of_ne (Ne.symm hx)]
    have hstack : ∀ x ∈ stack, Function.update deg t (deg t - 1) x = 0 := by
      intro x hx
      rw [Function.update_of_ne (fun h : x = t => hts (h ▸ hx))]
      exact hw.zero x hx
    simp only [relax]
    split
    case isTrue h0 =>
      have hw' : Waiting (Function.update deg t (deg t - 1)) (t :: stack) := by
        refine ⟨fun x hx => ?_, List.nodup_cons.2 ⟨hts, hw.nodup⟩⟩
        rcases List.mem_cons.1 hx with rfl | hx
        · rw [Function.update_self]; exact h0
        · exact hstack x hx
      obtain ⟨h1, h2, h3⟩ := relax_spec base ts _ _ hdeg' hw'
      refine ⟨h1, h2, fun x hx => ?_⟩
      rcases h3 x hx with hx | hx
      · rcases List.mem_cons.1 hx with rfl | hx
        · exact Or.inr List.mem_cons_self
        · exact Or.inl hx
      · exact Or.inr (List.mem_cons_of_mem _ hx)
    case isFalse h0 =>
      obtain ⟨h1, h2, h3⟩ := relax_spec base ts _ _ hdeg' ⟨hstack, hw.nodup⟩
      exact ⟨h1, h2, fun x hx => (h3 x hx).imp_right (List.mem_cons_of_mem _)⟩

/-- One pop keeps the counts right; the new worklist is disjoint from what was popped. -/
theorem run_spec (edges : List (α × α)) : ∀ (n : Nat) (deg : α → Nat) (stack done : List α),
    (∀ x, deg x = pending edges done x) → Waiting deg stack →
    (∀ x ∈ done, deg x = 0) → (∀ x ∈ done, x ∉ stack) →
      Ordered edges done (run edges n deg stack) ∧ (run edges n deg stack).Nodup ∧
        (∀ x ∈ run edges n deg stack, x ∉ done) ∧
        ∀ x ∈ run edges n deg stack, x ∈ stack ∨ ∃ e ∈ edges, e.2 = x
  | 0, _, _, _, _, _, _, _ => by simp [run, Ordered]
  | _ + 1, _, [], _, _, _, _, _ => by simp [run, Ordered]
  | n + 1, deg, v :: stack, done, hdeg, hw, hzero, hdisj => by
    have hv : v ∉ done := fun hm => hdisj v hm List.mem_cons_self
    obtain ⟨hvs, hnd⟩ := List.nodup_cons.1 hw.nodup
    have hv0 : pending edges done v = 0 := by rw [← hdeg]; exact hw.zero v List.mem_cons_self
    have hdeg' : ∀ x, deg x = pending edges (v :: done) x + (targets edges v).count x :=
      fun x => (hdeg x).trans (pending_cons edges done hv x)
    obtain ⟨h1, h2, h3⟩ := relax_spec (pending edges (v :: done)) (targets edges v) deg stack hdeg'
      ⟨fun x hx => hw.zero x (List.mem_cons_of_mem _ hx), hnd⟩
    have hsettled : ∀ x, x ∈ v :: done → deg x = 0 := by
      intro x hx
      rcases List.mem_cons.1 hx with rfl | hx
      · exact hw.zero x List.mem_cons_self
      · exact hzero x hx
    have hdisj' : ∀ x ∈ v :: done, x ∉ (relax (targets edges v) deg stack).2 := by
      intro x hx hr
      rcases h3 x hr with hs | ht
      · rcases List.mem_cons.1 hx with rfl | hx
        · exact hvs hs
        · exact hdisj x hx (List.mem_cons_of_mem _ hs)
      · have hc := List.count_pos_iff.2 ht
        have := hdeg' x
        have := hsettled x hx
        omega
    have hzero' : ∀ x ∈ v :: done, (relax (targets edges v) deg stack).1 x = 0 := by
      intro x hx
      have := hdeg' x
      have := hsettled x hx
      rw [h1 x]
      omega
    obtain ⟨i1, i2, i3, i4⟩ := run_spec edges n _ _ (v :: done) h1 (by
      have hf : (relax (targets edges v) deg stack).1 = pending edges (v :: done) := funext h1
      rw [hf]; exact h2) hzero' hdisj'
    refine ⟨⟨pending_eq_zero.1 hv0, i1⟩, List.nodup_cons.2 ⟨fun hm => i3 v hm List.mem_cons_self, i2⟩,
      fun x hx => ?_, fun x hx => ?_⟩
    · rcases List.mem_cons.1 hx with rfl | hx
      · exact hv
      · exact fun hd => i3 x hx (List.mem_cons_of_mem _ hd)
    · rcases List.mem_cons.1 hx with rfl | hx
      · exact Or.inl List.mem_cons_self
      · rcases i4 x hx with hr | hr
        · rcases h3 x hr with hs | ht
          · exact Or.inl (List.mem_cons_of_mem _ hs)
          · obtain ⟨e, he, rfl⟩ := List.mem_map.1 ht
            exact Or.inr ⟨e, (List.mem_filter.1 he).1, rfl⟩
        · exact Or.inr hr

theorem sort_spec (vs : List α) (edges : List (α × α)) (hvs : vs.Nodup) :
    Ordered edges [] (sort vs edges) ∧ (sort vs edges).Nodup ∧
      ∀ x ∈ sort vs edges, x ∈ vs ∨ ∃ e ∈ edges, e.2 = x := by
  have hw : Waiting (inDegree edges) (vs.filter (fun v => inDegree edges v = 0)).reverse :=
    ⟨fun x hx => by simpa using (List.mem_filter.1 (List.mem_reverse.1 hx)).2,
      List.nodup_reverse.2 (hvs.filter _)⟩
  obtain ⟨h1, h2, -, h4⟩ := run_spec edges vs.length (inDegree edges) _ []
    (fun x => (pending_nil edges x).symm) hw (by simp) (by simp)
  refine ⟨h1, h2, fun x hx => (h4 x hx).imp_left fun hm => ?_⟩
  exact (List.mem_filter.1 (List.mem_reverse.1 hm)).1

/-- Less fuel cuts the order off. -/
theorem run_take (edges : List (α × α)) : ∀ (n : Nat) (deg : α → Nat) (stack : List α),
    run edges n deg stack = (run edges (n + 1) deg stack).take n
  | 0, _, _ => rfl
  | _ + 1, _, [] => rfl
  | n + 1, _, v :: _ => congrArg (v :: ·) (run_take edges n _ _)

/-- No more than all vertices are popped, so one more unit of fuel changes nothing. -/
theorem run_succ_length {vs : List α} {edges : List (α × α)} (hvs : vs.Nodup) (hedges : ∀ e ∈ edges, e.2 ∈ vs) :
    run edges (vs.length + 1) (inDegree edges) (vs.filter (fun v => inDegree edges v = 0)).reverse = sort vs edges := by
  have hw : Waiting (inDegree edges) (vs.filter (fun v => inDegree edges v = 0)).reverse :=
    ⟨fun x hx => by simpa using (List.mem_filter.1 (List.mem_reverse.1 hx)).2,
      List.nodup_reverse.2 (hvs.filter _)⟩
  obtain ⟨-, hnodup, -, hmem⟩ := run_spec edges (vs.length + 1) (inDegree edges) _ []
    (fun x => (pending_nil edges x).symm) hw (by simp) (by simp)
  have hsub : run edges (vs.length + 1) (inDegree edges) (vs.filter (fun v => inDegree edges v = 0)).reverse ⊆ vs := by
    intro x hx
    rcases hmem x hx with hx | ⟨e, he, rfl⟩
    · exact (List.mem_filter.1 (List.mem_reverse.1 hx)).1
    · exact hedges e he
  rw [sort, run_take edges vs.length, List.take_of_length_le (hnodup.subperm hsub).length_le]

/-- A result of full length lists every vertex once. -/
theorem sort_perm {vs : List α} {edges : List (α × α)} (hvs : vs.Nodup)
    (hedges : ∀ e ∈ edges, e.2 ∈ vs) (hlen : (sort vs edges).length = vs.length) :
    (sort vs edges).Perm vs := by
  obtain ⟨-, hnd, hsub⟩ := sort_spec vs edges hvs
  have hs : sort vs edges ⊆ vs := fun x hx => by
    rcases hsub x hx with h | ⟨e, he, rfl⟩
    · exact h
    · exact hedges e he
  exact (List.Nodup.subperm hnd hs).perm_of_length_le (Nat.le_of_eq hlen.symm)

omit [DecidableEq α] in
theorem Ordered.source_mem {edges : List (α × α)} {e : α × α} (he : e ∈ edges) :
    ∀ {l done : List α}, Ordered edges done l → ∀ {pre post : List α}, l = pre ++ e.2 :: post →
      e.1 ∈ pre ∨ e.1 ∈ done
  | v :: rest, done, ⟨hv, hr⟩, pre, post, hl => by
    cases pre with
    | nil =>
      obtain ⟨rfl, -⟩ := List.cons.inj hl
      exact Or.inr (hv e he rfl)
    | cons p pre =>
      obtain ⟨rfl, hl'⟩ := List.cons.inj hl
      rcases Ordered.source_mem he hr hl' with h | h
      · exact Or.inl (List.mem_cons_of_mem _ h)
      · rcases List.mem_cons.1 h with h | h
        · exact Or.inl (h ▸ List.mem_cons_self)
        · exact Or.inr h
  | [], _, _, pre, post, hl => by simp at hl

/-- In an ordered list the source of an edge stands before its target. -/
theorem Ordered.idxOf_lt {edges : List (α × α)} {l : List α} (h : Ordered edges [] l)
    {e : α × α} (he : e ∈ edges) (hm : e.2 ∈ l) : l.idxOf e.1 < l.idxOf e.2 := by
  obtain ⟨pre, post, hl, hn⟩ : ∃ pre post, l = pre ++ e.2 :: post ∧ e.2 ∉ pre :=
    List.eq_append_cons_of_mem hm
  have hs : e.1 ∈ pre := (Ordered.source_mem he h hl).resolve_right (by simp)
  have h2 : l.idxOf e.2 = pre.length := by
    rw [hl, List.idxOf_append_of_notMem hn, List.idxOf_cons_self, Nat.add_zero]
  have h1 : l.idxOf e.1 < pre.length := by
    rw [hl, List.idxOf_append_of_mem hs]
    exact List.idxOf_lt_length_of_mem hs
  omega

/-! ### When every vertex is popped -/

theorem relax_keeps : ∀ (ts : List α) (deg : α → Nat) (stack : List α) (x : α), x ∈ stack →
    x ∈ (relax ts deg stack).2
  | [], _, _, _, h => h
  | t :: ts, deg, stack, x, h => by
    simp only [relax]
    refine relax_keeps ts _ _ x ?_
    split
    · exact List.mem_cons_of_mem _ h
    · exact h

/-- A target without edges left goes on the worklist. -/
theorem relax_meets (base : α → Nat) : ∀ (ts : List α) (deg : α → Nat) (stack : List α),
    (∀ x, deg x = base x + ts.count x) → ∀ x ∈ ts, base x = 0 → x ∈ (relax ts deg stack).2
  | t :: ts, deg, stack, hdeg, x, hx, h0 => by
    have hdeg' : ∀ y, Function.update deg t (deg t - 1) y = base y + ts.count y := by
      intro y
      by_cases hy : y = t
      · subst hy
        rw [Function.update_self, hdeg y, List.count_cons_self]
        omega
      · rw [Function.update_of_ne hy, hdeg y, List.count_cons_of_ne (Ne.symm hy)]
    simp only [relax]
    by_cases hts : x ∈ ts
    · exact relax_meets base ts _ _ hdeg' x hts h0
    · obtain rfl : x = t := (List.mem_cons.1 hx).resolve_right hts
      have hd : deg x - 1 = 0 := by
        have := hdeg x
        rw [List.count_cons_self, List.count_eq_zero_of_not_mem hts] at this
        omega
      rw [if_pos hd]
      exact relax_keeps ts _ _ x List.mem_cons_self

/-- The worklist holds every vertex that is ready and has not been popped. -/
def Covers (vs : List α) (deg : α → Nat) (stack done : List α) : Prop :=
  ∀ x ∈ vs, deg x = 0 → x ∈ done ∨ x ∈ stack

/-- A vertex whose sources are all popped is popped. -/
theorem run_closed {vs : List α} {edges : List (α × α)} (hedges : ∀ e ∈ edges, e.2 ∈ vs) :
    ∀ (n : Nat) (deg : α → Nat) (stack done : List α), (∀ x, deg x = pending edges done x) →
      Waiting deg stack → (∀ x ∈ done, deg x = 0) → (∀ x ∈ done, x ∉ stack) → done.Nodup →
      done ⊆ vs → stack ⊆ vs → vs.length ≤ n + done.length → Covers vs deg stack done →
      ∀ x ∈ vs, (∀ e ∈ edges, e.2 = x → e.1 ∈ run edges n deg stack ∨ e.1 ∈ done) →
        x ∈ run edges n deg stack ∨ x ∈ done
  | 0, _, _, done, _, _, _, _, hnd, hsub, _, hlen, _, x, hx, _ => by
    have hperm : done.Perm vs := (List.Nodup.subperm hnd hsub).perm_of_length_le (by omega)
    exact Or.inr (hperm.mem_iff.2 hx)
  | _ + 1, deg, [], done, hdeg, _, _, _, _, _, _, _, hcov, x, hx, hsrc => by
    have h0 : deg x = 0 := by
      rw [hdeg, pending_eq_zero]
      intro e he hex
      exact (hsrc e he hex).resolve_left (by simp [run])
    exact Or.inr ((hcov x hx h0).resolve_right (by simp))
  | n + 1, deg, v :: stack, done, hdeg, hw, hzero, hdisj, hnd, hsub, hss, hlen, hcov, x, hx, hsrc => by
    have hv : v ∉ done := fun hm => hdisj v hm List.mem_cons_self
    obtain ⟨hvs, hnds⟩ := List.nodup_cons.1 hw.nodup
    have hdeg' : ∀ x, deg x = pending edges (v :: done) x + (targets edges v).count x :=
      fun x => (hdeg x).trans (pending_cons edges done hv x)
    obtain ⟨h1, h2, h3⟩ := relax_spec (pending edges (v :: done)) (targets edges v) deg stack hdeg'
      ⟨fun x hx => hw.zero x (List.mem_cons_of_mem _ hx), hnds⟩
    have hsettled : ∀ y ∈ v :: done, deg y = 0 := by
      intro y hy
      rcases List.mem_cons.1 hy with rfl | hy
      · exact hw.zero y List.mem_cons_self
      · exact hzero y hy
    have hnew : ∀ y ∈ v :: done, y ∉ targets edges v := by
      intro y hy ht
      have hc := List.count_pos_iff.2 ht
      have := hdeg' y
      have := hsettled y hy
      omega
    have hstack : (relax (targets edges v) deg stack).2 ⊆ vs := by
      intro y hy
      rcases h3 y hy with hy | hy
      · exact hss (List.mem_cons_of_mem _ hy)
      · obtain ⟨e, he, rfl⟩ := List.mem_map.1 hy
        exact hedges e (List.mem_filter.1 he).1
    have hcov' : Covers vs (relax (targets edges v) deg stack).1
        (relax (targets edges v) deg stack).2 (v :: done) := by
      intro y hy h0
      rw [h1] at h0
      by_cases ht : y ∈ targets edges v
      · exact Or.inr (relax_meets _ _ _ _ hdeg' y ht h0)
      · have hy0 : deg y = 0 := by
          have := hdeg' y
          rw [List.count_eq_zero_of_not_mem ht] at this
          omega
        rcases hcov y hy hy0 with h | h
        · exact Or.inl (List.mem_cons_of_mem _ h)
        · rcases List.mem_cons.1 h with rfl | h
          · exact Or.inl List.mem_cons_self
          · exact Or.inr (relax_keeps _ _ _ y h)
    have ih := run_closed hedges n (relax (targets edges v) deg stack).1
      (relax (targets edges v) deg stack).2 (v :: done) h1
      (by rw [funext h1]; exact h2)
      (fun y hy => by
        have := hdeg' y
        have := hsettled y hy
        rw [h1]
        omega)
      (fun y hy hr => by
        rcases h3 y hr with hs | ht
        · rcases List.mem_cons.1 hy with rfl | hy
          · exact hvs hs
          · exact hdisj y hy (List.mem_cons_of_mem _ hs)
        · exact hnew y hy ht)
      (List.nodup_cons.2 ⟨hv, hnd⟩) (List.cons_subset.2 ⟨hss List.mem_cons_self, hsub⟩) hstack
      (by rw [List.length_cons]; omega) hcov' x hx
    have hmove : ∀ y, y ∈ run edges (n + 1) deg (v :: stack) ∨ y ∈ done ↔
        y ∈ run edges n (relax (targets edges v) deg stack).1
          (relax (targets edges v) deg stack).2 ∨ y ∈ v :: done := by
      intro y
      simp only [run, List.mem_cons]
      tauto
    rw [hmove]
    exact ih fun e he hex => (hmove e.1).1 (hsrc e he hex)

/-- No path leads from a vertex back to it. -/
def Acyclic (edges : List (α × α)) : Prop :=
  ∀ v, ¬ Relation.TransGen (fun a b => (a, b) ∈ edges) v v

omit [DecidableEq α] in
/-- Edges that lead upward form no cycle. -/
theorem acyclic_of_lt {edges : List (α × α)} (rank : α → Nat) (h : ∀ e ∈ edges, rank e.1 < rank e.2) :
    Acyclic edges := by
  have hpath : ∀ {a b : α}, Relation.TransGen (fun a b => (a, b) ∈ edges) a b → rank a < rank b := by
    intro a b hab
    induction hab with
    | single hab => exact h _ hab
    | tail _ hbc ih => exact ih.trans (h _ hbc)
  exact fun v hv => lt_irrefl _ (hpath hv)

theorem idxOf_lt_of_sublist {a b : α} {l : List α} (hl : l.Nodup) (h : [a, b].Sublist l) : l.idxOf a < l.idxOf b := by
  obtain ⟨r₁, r₂, rfl, ha, hb⟩ := List.cons_sublist_iff.1 h
  have hnot : b ∉ r₁ := fun hmem => (List.nodup_append.1 hl).2.2 b hmem b (hb.subset List.mem_cons_self) rfl
  rw [List.idxOf_append_of_mem ha, List.idxOf_append_of_notMem hnot]
  exact (List.idxOf_lt_length_iff.2 ha).trans_le (Nat.le_add_right _ _)

/-- Edges that all lead forward in one list form no cycle. -/
theorem acyclic_of_sublist {edges : List (α × α)} {l : List α} (hl : l.Nodup)
    (h : ∀ e ∈ edges, [e.1, e.2].Sublist l) : Acyclic edges :=
  acyclic_of_lt l.idxOf fun e he => idxOf_lt_of_sublist hl (h e he)

/-- The edges join vertices and form no cycle. -/
structure Orderable (vs : List α) (edges : List (α × α)) : Prop where
  known : ∀ e ∈ edges, e.1 ∈ vs
  acyclic : Acyclic edges

theorem sort_closed {vs : List α} {edges : List (α × α)} (hvs : vs.Nodup)
    (hedges : ∀ e ∈ edges, e.2 ∈ vs) {x : α} (hx : x ∈ vs)
    (hsrc : ∀ e ∈ edges, e.2 = x → e.1 ∈ sort vs edges) : x ∈ sort vs edges := by
  have hw : Waiting (inDegree edges) (vs.filter (fun v => inDegree edges v = 0)).reverse :=
    ⟨fun x hx => by simpa using (List.mem_filter.1 (List.mem_reverse.1 hx)).2,
      List.nodup_reverse.2 (hvs.filter _)⟩
  have h := run_closed hedges vs.length (inDegree edges) _ [] (fun x => (pending_nil edges x).symm)
    hw (by simp) (by simp) List.nodup_nil (List.nil_subset _)
    (fun y hy => (List.mem_filter.1 (List.mem_reverse.1 hy)).1) (by simp)
    (fun y hy h0 => Or.inr (List.mem_reverse.2 (List.mem_filter.2 ⟨hy, by simpa using h0⟩)))
    x hx fun e he hex => Or.inl (hsrc e he hex)
  exact h.resolve_right (by simp)

/-- The sort is complete exactly when the graph can be ordered. -/
theorem sort_length_iff {vs : List α} {edges : List (α × α)} (hvs : vs.Nodup)
    (hedges : ∀ e ∈ edges, e.2 ∈ vs) :
    (sort vs edges).length = vs.length ↔ Orderable vs edges := by
  obtain ⟨hord, hnd, -⟩ := sort_spec vs edges hvs
  constructor
  · intro hlen
    have hperm := sort_perm hvs hedges hlen
    have hlt : ∀ a b, (a, b) ∈ edges → (sort vs edges).idxOf a < (sort vs edges).idxOf b :=
      fun a b he => hord.idxOf_lt he (hperm.mem_iff.2 (hedges _ he))
    refine ⟨fun e he => hperm.mem_iff.1 (List.idxOf_lt_length_iff.1 ?_),
      acyclic_of_lt (sort vs edges).idxOf fun e he => hlt e.1 e.2 he⟩
    exact (hlt e.1 e.2 he).trans (List.idxOf_lt_length_iff.2 (hperm.mem_iff.2 (hedges e he)))
  · intro h
    have hstrict : IsStrictOrder α (Relation.TransGen fun a b => (a, b) ∈ edges) :=
      { irrefl := h.acyclic, trans := fun _ _ _ => Relation.TransGen.trans }
    have hall : ∀ x ∈ vs, x ∈ sort vs edges := by
      have hwf : ({x | x ∈ vs} : Set α).WellFoundedOn
          (Relation.TransGen fun a b => (a, b) ∈ edges) := vs.finite_toSet.wellFoundedOn
      intro x hx
      -- along the paths, as the vertices are finitely many
      refine hwf.induction hx fun y hy ih => sort_closed hvs hedges hy fun e he hey => ?_
      subst hey
      exact ih e.1 (h.known e he) (Relation.TransGen.single he)
    have hle := (List.Nodup.subperm hvs hall).length_le
    have hge : (sort vs edges).length ≤ vs.length := by
      have hs : sort vs edges ⊆ vs := by
        intro x hx
        rcases (sort_spec vs edges hvs).2.2 x hx with hx | ⟨e, he, rfl⟩
        · exact hx
        · exact hedges e he
      exact (List.Nodup.subperm hnd hs).length_le
    omega

/-- The vertices of a graph that can be ordered can be numbered along the edges. -/
theorem Orderable.exists_rank {vs : List α} {edges : List (α × α)} (hvs : vs.Nodup) (hedges : ∀ e ∈ edges, e.2 ∈ vs)
    (h : Orderable vs edges) : ∃ rank : α → Nat, ∀ e ∈ edges, rank e.1 < rank e.2 := by
  have hperm := sort_perm hvs hedges ((sort_length_iff hvs hedges).2 h)
  refine ⟨(sort vs edges).idxOf, fun e he => ?_⟩
  exact (sort_spec vs edges hvs).1.idxOf_lt he (hperm.mem_iff.2 (hedges e he))

end Lib.Kahn
