import Tinypipe.Compiler.Validator
import Tinypipe.Ir.Compiled
import Tinypipe.Vm.Executor

/-! The graph under a run: a validated plan lowers to a well-formed one, the execution
order lists each node once and behind its predecessors, and no predecessor of a LOOP
is in the body of the LOOP. -/

namespace Tinypipe

open Lib

/-- Every node stands at its index, and every edge joins two nodes. -/
structure CompiledPlan.WellFormed (plan : CompiledPlan) : Prop where
  index : ∀ i nd, plan.getNode i = some nd → nd.index = i
  edges : ∀ e ∈ plan.edges, e.fromIndex < plan.nodes.length ∧ e.toIndex < plan.nodes.length

namespace CompiledPlan

theorem compileNodes_length : ∀ (k : Nat) (groups : List Text) (nodes : List Node),
    (compileNodes k groups nodes).1.length = nodes.length
  | _, _, [] => rfl
  | k, groups, nd :: rest => by
    simp only [compileNodes, List.length_cons]
    rw [compileNodes_length]

theorem compileNodes_index : ∀ (k : Nat) (groups : List Text) (nodes : List Node) (i : Nat)
    (nd : CompiledNode), (compileNodes k groups nodes).1[i]? = some nd → nd.index = k + i
  | _, _, [], _, _, h => by simp [compileNodes] at h
  | k, groups, n :: rest, i, nd, h => by
    simp only [compileNodes] at h
    cases i with
    | zero =>
      rw [List.getElem?_cons_zero, Option.some.injEq] at h
      rw [← h]
      rfl
    | succ i =>
      rw [List.getElem?_cons_succ] at h
      rw [compileNodes_index (k + 1) _ rest i nd h]
      omega

theorem fromExecutionPlan_index (p : ExecutionPlan) (opts : List Text) :
    ∀ i nd, (fromExecutionPlan p opts).getNode i = some nd → nd.index = i := by
  intro i nd hi
  have := compileNodes_index 0 [] p.nodes i nd hi
  omega

theorem idToIndex_lt {ids : List Text} {id : Text} (h : id ∈ ids) :
    ∃ i, (idToIndex ids).get id = some i ∧ i < ids.length := by
  have hs : ((idToIndex ids).get id).isSome := by
    rw [idToIndex, Dict.isSome_get_ofList]
    exact List.mem_map.2 (by
      obtain ⟨i, hi, rfl⟩ := List.mem_iff_getElem.1 h
      exact ⟨(ids[i], i), List.mem_zipIdx_iff_getElem?.2 (by simp [hi]), rfl⟩)
  obtain ⟨i, hi⟩ := Option.isSome_iff_exists.1 hs
  refine ⟨i, hi, ?_⟩
  have hmem := Dict.mem_of_get_ofList hi
  simpa using (List.mem_zipIdx hmem).2.1

theorem wellFormed_of_known {p : ExecutionPlan} (opts : List Text)
    (h : ∀ e ∈ p.edges, e.fromId ∈ p.ids ∧ e.toId ∈ p.ids) :
    (fromExecutionPlan p opts).WellFormed := by
  have hlen : (fromExecutionPlan p opts).nodes.length = p.ids.length := by
    simp [fromExecutionPlan, compileNodes_length, ExecutionPlan.ids]
  refine ⟨fromExecutionPlan_index p opts, ?_⟩
  · intro e he
    obtain ⟨e', he', rfl⟩ := List.mem_map.1 he
    obtain ⟨i, hi, hilt⟩ := idToIndex_lt (h e' he').1
    obtain ⟨j, hj, hjlt⟩ := idToIndex_lt (h e' he').2
    simp only [compileEdge, hi, hj, Option.getD_some, hlen]
    exact ⟨hilt, hjlt⟩

end CompiledPlan

theorem known_of_validate {p : ExecutionPlan} (h : validate p = .ok ()) :
    ∀ e ∈ p.edges, e.fromId ∈ p.ids ∧ e.toId ∈ p.ids := by
  have hd : p.danglingErrors = [] := by
    simp only [validate] at h
    split at h
    · cases h
    case isFalse hs => exact (List.append_eq_nil_iff.1 (not_not.1 hs)).2
  intro e he
  have hnil := List.flatMap_eq_nil_iff.1 hd e he
  obtain ⟨h1, h2⟩ := List.append_eq_nil_iff.1 hnil
  exact ⟨by_contra fun hn => by simp [hn] at h1, by_contra fun hn => by simp [hn] at h2⟩

theorem wellFormed_of_validate {p : ExecutionPlan} (opts : List Text) (h : validate p = .ok ()) :
    (CompiledPlan.fromExecutionPlan p opts).WellFormed :=
  CompiledPlan.wellFormed_of_known opts (known_of_validate h)

/-! ### The execution order -/

namespace CompiledPlan

variable {plan : CompiledPlan} {order : List Nat}

theorem topologicalOrder_eq (h : plan.topologicalOrder = .ok order) :
    order = Kahn.sort (List.range plan.nodes.length)
      (plan.arcs.filter fun e => e.2 < plan.nodes.length) ∧ order.length = plan.nodes.length := by
  simp only [topologicalOrder] at h
  split at h
  · cases h
  case isFalse hl =>
    cases h
    exact ⟨rfl, not_not.1 hl⟩

theorem order_perm (h : plan.topologicalOrder = .ok order) :
    order.Perm (List.range plan.nodes.length) := by
  obtain ⟨rfl, hlen⟩ := topologicalOrder_eq h
  refine Kahn.sort_perm List.nodup_range (fun e he => ?_) (by rw [hlen, List.length_range])
  simpa using (List.mem_filter.1 he).2

theorem mem_order (h : plan.topologicalOrder = .ok order) {i : Nat} :
    i ∈ order ↔ i < plan.nodes.length := by
  rw [(order_perm h).mem_iff, List.mem_range]

/-- An edge leads forward in the order. -/
theorem order_lt (hwf : plan.WellFormed) (h : plan.topologicalOrder = .ok order) {e : CompiledEdge}
    (he : e ∈ plan.edges) : order.idxOf e.fromIndex < order.idxOf e.toIndex := by
  have hlt := (hwf.edges e he).2
  have harc : (e.fromIndex, e.toIndex) ∈
      plan.arcs.filter fun e => e.2 < plan.nodes.length :=
    List.mem_filter.2 ⟨List.mem_map.2 ⟨e, he, rfl⟩, by simpa using hlt⟩
  have hord : Kahn.Ordered (plan.arcs.filter fun e => e.2 < plan.nodes.length) [] order := by
    obtain ⟨rfl, -⟩ := topologicalOrder_eq h
    exact (Kahn.sort_spec _ _ List.nodup_range).1
  exact hord.idxOf_lt harc ((mem_order h).2 hlt)

theorem order_le_of_path (hwf : plan.WellFormed) (h : plan.topologicalOrder = .ok order)
    {i j : Nat} (hp : Reach.Path plan.arcs i j) : order.idxOf i ≤ order.idxOf j := by
  induction hp with
  | refl => exact le_rfl
  | tail _ hstep ih =>
    obtain ⟨e, he, heq⟩ := List.mem_map.1 hstep
    obtain ⟨rfl, rfl⟩ := Prod.mk.inj heq
    exact ih.trans (order_lt hwf h he).le

/-- Body nodes come after their LOOP. -/
theorem loop_lt_body (hwf : plan.WellFormed) (h : plan.topologicalOrder = .ok order)
    {loop i : Nat} (hi : i ∈ plan.loopBody loop) : order.idxOf loop < order.idxOf i := by
  have hr : i ∈ plan.collectReachableIndices (plan.anchors loop false) := by
    simp only [loopBody] at hi
    split at hi
    · exact hi
    · exact (Finset.mem_sdiff.1 hi).1
  obtain ⟨a, ha, hpath⟩ := Reach.reachable_sound hr
  obtain ⟨e, he, rfl⟩ := List.mem_map.1 ha
  obtain ⟨he, hfrom⟩ := List.mem_filter.1 he
  have hloop : e.fromIndex = loop := by simp at hfrom; exact hfrom.1.1
  calc order.idxOf loop = order.idxOf e.fromIndex := by rw [hloop]
    _ < order.idxOf e.toIndex := order_lt hwf h he
    _ ≤ order.idxOf i := order_le_of_path hwf h hpath

theorem pred_notMem_loopBody (hwf : plan.WellFormed) (h : plan.topologicalOrder = .ok order)
    {e : CompiledEdge} (he : e ∈ plan.edges) : e.fromIndex ∉ plan.loopBody e.toIndex := by
  intro hb
  have h1 := order_lt hwf h he
  have h2 := loop_lt_body hwf h hb
  omega

end CompiledPlan

/-- The bound of a LOOP only looks at the outputs of its predecessors. -/
theorem loopBound_congr {plan : CompiledPlan} {nd : CompiledNode} {o o' : Nat → Option Value}
    (h : ∀ e ∈ plan.edges, e.toIndex = nd.index → o e.fromIndex = o' e.fromIndex) :
    loopBound plan o nd = loopBound plan o' nd := by
  have hgo : ∀ l : List CompiledEdge, (∀ e ∈ l, e ∈ plan.edges) →
      l.findSome? (edgeBound plan o nd) = l.findSome? (edgeBound plan o' nd) := by
    intro l hl
    induction l with
    | nil => rfl
    | cons e l ih =>
      rw [List.findSome?_cons, List.findSome?_cons, ih fun e' he' => hl e' (by simp [he'])]
      by_cases hto : e.toIndex = nd.index
      · simp only [edgeBound, h e (hl e (by simp)) hto]
      · simp [edgeBound, hto]
  rw [loopBound, loopBound, hgo plan.edges fun _ he => he]

end Tinypipe
