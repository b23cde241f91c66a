import Tinypipe.Vm.Runnable

/-! What the lowering to `u32` indices keeps of a plan (`CompiledPlan::from_execution_plan`,
`tinypipe-ir/src/compiled.rs`), and the two topological sorts. -/

namespace Tinypipe

open Lib

/-- `as u32` -/
def asU32 (n : Nat) : Nat := n % 2 ^ 32

theorem asU32_lt (n : Nat) : asU32 n < 2 ^ 32 := Nat.mod_lt n (Nat.two_pow_pos 32)

theorem asU32_of_lt {n : Nat} (h : n < 2 ^ 32) : asU32 n = n := Nat.mod_eq_of_lt h

namespace CompiledPlan

/-- `from_execution_plan` with the casts of its indices. -/
def fromExecutionPlan32 (p : ExecutionPlan) (optimizations : List Text) : CompiledPlan :=
  let ids := Dict.ofList (p.ids.zipIdx.map fun e => (e.1, asU32 e.2))
  let (nodes, groups) := compileNodes 0 [] p.nodes
  { version := 4
    nodes := nodes.map fun nd => { nd with index := asU32 nd.index, groupId := nd.groupId.map asU32 }
    edges := p.edges.map (compileEdge ids)
    metadata := { p.metadata with optimizations := optimizations }
    idMap := some ids.entries
    groups := groups }

/-! ### The parts of the lowered plan -/

/-- The lowered form of a node at a position. -/
structure NodeImage (groups : List Text) (i : Nat) (nd : Node) (cn : CompiledNode) : Prop where
  index : cn.index = i
  id : cn.id = nd.id
  op : cn.op = nd.op
  args : cn.args = nd.args.map compileArg
  inferredType : cn.inferredType = nd.inferredType
  branchId : cn.branchId = nd.branchId
  group : ∀ k, cn.groupId = some k ↔ ∃ g, nd.group = some g ∧ groups[k]? = some g

theorem groupIndex_spec {groups : List Text} (hnodup : groups.Nodup) (g : Text) :
    groups <+: (groupIndex groups g).2 ∧ (groupIndex groups g).2.Nodup ∧
      (groupIndex groups g).2[(groupIndex groups g).1]? = some g ∧
      ∀ g', g' ∈ (groupIndex groups g).2 ↔ g' ∈ groups ∨ g' = g := by
  rw [groupIndex]
  by_cases h : g ∈ groups
  · rw [if_pos h]
    refine ⟨List.prefix_refl _, hnodup, ?_, fun g' => (or_iff_left_of_imp fun heq => heq ▸ h).symm⟩
    rw [List.getElem?_eq_some_iff]
    exact ⟨List.idxOf_lt_length_iff.2 h, List.getElem_idxOf _⟩
  · rw [if_neg h]
    refine ⟨List.prefix_append _ _, ?_, by simp, fun g' => by simp⟩
    exact hnodup.append (List.nodup_singleton g) (List.disjoint_singleton.2 h)

/-- The first node, lowered with its group id, stands in front of the rest. -/
theorem NodeImage.cons {groups : List Text} {k : Nat} {nd : Node} {rest : List Node} {cn : CompiledNode}
    {cs : List CompiledNode} (hhead : NodeImage groups k nd cn)
    (hrest : ∀ i nd', rest[i]? = some nd' → ∃ cn', cs[i]? = some cn' ∧ NodeImage groups (k + 1 + i) nd' cn')
    (i : Nat) (nd' : Node) (h : (nd :: rest)[i]? = some nd') :
    ∃ cn', (cn :: cs)[i]? = some cn' ∧ NodeImage groups (k + i) nd' cn' := by
  cases i with
  | zero =>
    cases h
    exact ⟨cn, rfl, hhead⟩
  | succ i =>
    obtain ⟨cn', hcn', himage⟩ := hrest i nd' h
    rw [Nat.add_right_comm] at himage
    exact ⟨cn', hcn', himage⟩

theorem compileNodes_spec : ∀ (nodes : List Node) (k : Nat) (groups : List Text), groups.Nodup →
    groups <+: (compileNodes k groups nodes).2 ∧ (compileNodes k groups nodes).2.Nodup ∧
      (∀ g, g ∈ (compileNodes k groups nodes).2 ↔ g ∈ groups ∨ ∃ nd ∈ nodes, nd.group = some g) ∧
      ∀ i nd, nodes[i]? = some nd → ∃ cn, (compileNodes k groups nodes).1[i]? = some cn ∧
        NodeImage (compileNodes k groups nodes).2 (k + i) nd cn
  | [], k, groups, hnodup => ⟨List.prefix_refl _, hnodup, fun g => by simp [compileNodes], fun i nd h => by simp at h⟩
  | nd :: rest, k, groups, hnodup => by
    cases hgroup : nd.group with
    | none =>
      obtain ⟨hgrows, hnodup', hmem, himage⟩ := compileNodes_spec rest (k + 1) groups hnodup
      rw [compileNodes, hgroup]
      refine ⟨hgrows, hnodup', fun g => ?_, NodeImage.cons ⟨rfl, rfl, rfl, rfl, rfl, rfl, fun j => ?_⟩ himage⟩
      · rw [hmem, List.exists_mem_cons_iff, hgroup]
        simp
      · rw [hgroup]
        exact iff_of_false (by rintro ⟨⟩) (by rintro ⟨g, hg, -⟩; cases hg)
    | some g =>
      obtain ⟨hstart, hgroups, hat, hadded⟩ := groupIndex_spec hnodup g
      obtain ⟨hgrows, hnodup', hmem, himage⟩ := compileNodes_spec rest (k + 1) (groupIndex groups g).2 hgroups
      have hat' : (compileNodes (k + 1) (groupIndex groups g).2 rest).2[(groupIndex groups g).1]? = some g := by
        obtain ⟨more, hmore⟩ := hgrows
        rw [← hmore, List.getElem?_append_left (List.getElem?_eq_some_iff.1 hat).1]
        exact hat
      rw [compileNodes, hgroup]
      refine ⟨hstart.trans hgrows, hnodup', fun g' => ?_,
        NodeImage.cons ⟨rfl, rfl, rfl, rfl, rfl, rfl, fun j => ?_⟩ himage⟩
      · rw [hmem, hadded, List.exists_mem_cons_iff, hgroup]
        simp [eq_comm, or_assoc]
      · rw [hgroup]
        constructor
        · intro h
          cases h
          exact ⟨g, rfl, hat'⟩
        · rintro ⟨g', heq, hj⟩
          cases heq
          have hlt := (List.getElem?_eq_some_iff.1 hat').1
          exact congrArg some ((List.getElem?_inj hlt hnodup').1 (hat'.trans hj.symm))

theorem idToIndex_iff {ids : List Text} (hids : ids.Nodup) {id : Text} {i : Nat} :
    (idToIndex ids).get id = some i ↔ ids[i]? = some id := by
  refine ⟨idToIndex_sound, fun h => ?_⟩
  obtain ⟨j, hj, hlt⟩ := idToIndex_lt (List.mem_of_getElem? h)
  rw [hj, (List.getElem?_inj hlt hids).1 ((idToIndex_sound hj).trans h.symm)]

/-- The lowered form of an edge. -/
structure EdgeImage (p : ExecutionPlan) (e : Edge) (ce : CompiledEdge) : Prop where
  fromIndex : p.nodes[ce.fromIndex]?.map Node.id = some e.fromId
  toIndex : p.nodes[ce.toIndex]?.map Node.id = some e.toId
  condition : ce.condition = e.condition
  mapping : ce.mapping = e.mapping
  priority : ce.priority = e.priority
  label : ce.label = e.label
  kind : ce.kind = e.kind

/-- The compiled plan is the plan over positions: node by node, edge by edge, and group by group. -/
structure Lowers (p : ExecutionPlan) (opts : List Text) (c : CompiledPlan) : Prop where
  length : c.nodes.length = p.nodes.length
  node : ∀ i nd, p.nodes[i]? = some nd → ∃ cn, c.nodes[i]? = some cn ∧ NodeImage c.groups i nd cn
  idMap : ∃ m, c.idMap = some m ∧ (m.map Prod.fst).Nodup ∧
    ∀ id i, (id, i) ∈ m ↔ c.nodes[i]?.map CompiledNode.id = some id
  edge : List.Forall₂ (EdgeImage p) p.edges c.edges
  groups : c.groups.Nodup ∧ ∀ g, g ∈ c.groups ↔ ∃ nd ∈ p.nodes, nd.group = some g
  member : ∀ k g, c.groups[k]? = some g →
    ((c.nodes.filter fun cn => cn.groupId = some k).map CompiledNode.index).Nodup ∧
    ∀ i, i ∈ (c.nodes.filter fun cn => cn.groupId = some k).map CompiledNode.index ↔
      ∃ nd, p.nodes[i]? = some nd ∧ nd.group = some g
  metadata : c.metadata = { p.metadata with optimizations := opts }

theorem fromExecutionPlan_node (p : ExecutionPlan) (opts : List Text) (i : Nat) (nd : Node)
    (h : p.nodes[i]? = some nd) : ∃ cn, (fromExecutionPlan p opts).nodes[i]? = some cn ∧
      NodeImage (fromExecutionPlan p opts).groups i nd cn := by
  obtain ⟨cn, hcn, hfields⟩ := (compileNodes_spec p.nodes 0 [] List.nodup_nil).2.2.2 i nd h
  rw [Nat.zero_add] at hfields
  exact ⟨cn, hcn, hfields⟩

theorem fromExecutionPlan_length (p : ExecutionPlan) (opts : List Text) :
    (fromExecutionPlan p opts).nodes.length = p.nodes.length :=
  compileNodes_length 0 [] p.nodes

theorem fromExecutionPlan_origin (p : ExecutionPlan) (opts : List Text) (i : Nat) (cn : CompiledNode)
    (h : (fromExecutionPlan p opts).nodes[i]? = some cn) : ∃ nd, p.nodes[i]? = some nd ∧
      NodeImage (fromExecutionPlan p opts).groups i nd cn := by
  have hlt : i < p.nodes.length := fromExecutionPlan_length p opts ▸ (List.getElem?_eq_some_iff.1 h).1
  obtain ⟨cn', hcn', hfields⟩ := fromExecutionPlan_node p opts i _ (List.getElem?_eq_getElem hlt)
  cases h.symm.trans hcn'
  exact ⟨_, List.getElem?_eq_getElem hlt, hfields⟩

theorem lowers_fromExecutionPlan {p : ExecutionPlan} (opts : List Text) (hids : p.ids.Nodup)
    (hedges : ∀ e ∈ p.edges, e.fromId ∈ p.ids ∧ e.toId ∈ p.ids) : Lowers p opts (fromExecutionPlan p opts) := by
  obtain ⟨-, hnodup, hmem, -⟩ := compileNodes_spec p.nodes 0 [] List.nodup_nil
  have hlen := fromExecutionPlan_length p opts
  have hnode := fromExecutionPlan_node p opts
  have hback := fromExecutionPlan_origin p opts
  have hat : ∀ i, p.ids[i]? = p.nodes[i]?.map Node.id := fun i => List.getElem?_map
  have hindex : (fromExecutionPlan p opts).nodes.map CompiledNode.index =
      List.range (fromExecutionPlan p opts).nodes.length := by
    refine List.ext_getElem (by simp) fun i h _ => ?_
    rw [List.length_map] at h
    obtain ⟨nd, -, hfields⟩ := hback i _ (List.getElem?_eq_getElem h)
    rw [List.getElem_map, List.getElem_range, hfields.index]
  refine ⟨hlen, hnode, ⟨_, rfl, (idToIndex p.ids).nodup, fun id i => ?_⟩, ?_, ⟨hnodup, fun g => ?_⟩,
    fun k g hk => ⟨?_, fun i => ?_⟩, rfl⟩
  · have hsame : (fromExecutionPlan p opts).nodes[i]?.map CompiledNode.id = p.nodes[i]?.map Node.id := by
      cases hnd : p.nodes[i]? with
      | none =>
        rw [List.getElem?_eq_none (hlen ▸ List.getElem?_eq_none_iff.1 hnd)]
        rfl
      | some nd =>
        obtain ⟨cn, hcn, hfields⟩ := hnode i nd hnd
        rw [hcn, Option.map_some, Option.map_some, hfields.id]
    rw [hsame, ← hat, ← idToIndex_iff hids]
    exact Dict.get_eq_some_iff.symm
  · change List.Forall₂ (EdgeImage p) p.edges (p.edges.map (compileEdge (idToIndex p.ids)))
    rw [List.forall₂_map_right_iff, List.forall₂_same]
    intro e he
    obtain ⟨i, hi, -⟩ := idToIndex_lt (hedges e he).1
    obtain ⟨j, hj, -⟩ := idToIndex_lt (hedges e he).2
    refine ⟨?_, ?_, rfl, rfl, rfl, rfl, rfl⟩
    · simp only [compileEdge, hi, Option.getD_some]
      rw [← hat]
      exact idToIndex_sound hi
    · simp only [compileEdge, hj, Option.getD_some]
      rw [← hat]
      exact idToIndex_sound hj
  · exact (hmem g).trans (or_iff_right List.not_mem_nil)
  · refine List.Nodup.sublist (List.filter_sublist.map _) ?_
    rw [hindex]
    exact List.nodup_range
  · constructor
    · intro hi
      obtain ⟨cn, hcn, rfl⟩ := List.mem_map.1 hi
      obtain ⟨hcn, hgroup⟩ := List.mem_filter.1 hcn
      obtain ⟨j, hj⟩ := List.mem_iff_getElem?.1 hcn
      obtain ⟨nd, hnd, hfields⟩ := hback j cn hj
      obtain ⟨g', hg', hk'⟩ := (hfields.group k).1 (of_decide_eq_true hgroup)
      cases hk.symm.trans hk'
      exact ⟨nd, hfields.index ▸ hnd, hg'⟩
    · rintro ⟨nd, hnd, hg⟩
      obtain ⟨cn, hcn, hfields⟩ := hnode i nd hnd
      refine List.mem_map.2 ⟨cn, List.mem_filter.2 ⟨List.mem_of_getElem? hcn, ?_⟩, hfields.index⟩
      exact decide_eq_true ((hfields.group k).2 ⟨g, hg, hk⟩)

/-- Each group has a node. -/
theorem groups_length_le (p : ExecutionPlan) (opts : List Text) :
    (fromExecutionPlan p opts).groups.length ≤ p.nodes.length := by
  obtain ⟨-, hnodup, hmem, -⟩ := compileNodes_spec p.nodes 0 [] List.nodup_nil
  have hsub : (compileNodes 0 [] p.nodes).2 ⊆ p.nodes.filterMap Node.group := by
    intro g hg
    obtain ⟨nd, hnd, hgroup⟩ := ((hmem g).1 hg).resolve_left nofun
    exact List.mem_filterMap.2 ⟨nd, hnd, hgroup⟩
  exact (hnodup.subperm hsub).length_le.trans (List.length_filterMap_le _ _)

/-- The casts change nothing up to 2^32 nodes. -/
theorem fromExecutionPlan32_eq {p : ExecutionPlan} (opts : List Text) (hsize : p.nodes.length ≤ 2 ^ 32) :
    fromExecutionPlan32 p opts = fromExecutionPlan p opts := by
  have hzip : p.ids.zipIdx.map (fun e => (e.1, asU32 e.2)) = p.ids.zipIdx := by
    have hlen : p.ids.length = p.nodes.length := List.length_map _
    refine (List.map_congr_left fun e he => ?_).trans (List.map_id _)
    have hlt := (List.mem_zipIdx he).2.1
    rw [asU32_of_lt (by omega)]
    rfl
  have hnodes : (compileNodes 0 [] p.nodes).1.map (fun nd => { nd with
      index := asU32 nd.index, groupId := nd.groupId.map asU32 }) = (compileNodes 0 [] p.nodes).1 := by
    refine (List.map_congr_left fun cn hcn => ?_).trans (List.map_id _)
    obtain ⟨i, hi⟩ := List.mem_iff_getElem?.1 hcn
    obtain ⟨nd, hnd, hfields⟩ := fromExecutionPlan_origin p opts i cn hi
    have hlt := (List.getElem?_eq_some_iff.1 hnd).1
    have hindex : asU32 cn.index = cn.index := asU32_of_lt (by rw [hfields.index]; omega)
    have hgroup : cn.groupId.map asU32 = cn.groupId := by
      cases hk : cn.groupId with
      | none => rfl
      | some k =>
        obtain ⟨g, -, hg⟩ := (hfields.group k).1 hk
        have hgt := (List.getElem?_eq_some_iff.1 hg).1
        have hle := groups_length_le p opts
        rw [Option.map_some, asU32_of_lt (by omega)]
    rw [hindex, hgroup]
    rfl
  simp only [fromExecutionPlan32, fromExecutionPlan, hzip, hnodes, idToIndex]

theorem fromExecutionPlan32_length (p : ExecutionPlan) (opts : List Text) :
    (fromExecutionPlan32 p opts).nodes.length = p.nodes.length :=
  (List.length_map _).trans (compileNodes_length 0 [] p.nodes)

theorem fromExecutionPlan32_arcs {p : ExecutionPlan} (opts : List Text) (h : p.edges = []) :
    (fromExecutionPlan32 p opts).arcs = [] := by
  simp only [fromExecutionPlan32, arcs, h, List.map_nil]

theorem fromExecutionPlan32_index_lt {p : ExecutionPlan} {opts : List Text} {cn : CompiledNode}
    (h : cn ∈ (fromExecutionPlan32 p opts).nodes) : cn.index < 2 ^ 32 := by
  obtain ⟨cn', -, rfl⟩ := List.mem_map.1 h
  exact asU32_lt cn'.index

end CompiledPlan

/-- A group of two nodes, an edge between them, and a node of no group. -/
def groupedPlan : ExecutionPlan := ExecutionPlan.new
  [⟨"n0", .input, [⟨"name", .string ['x']⟩], none, none, some "g"⟩,
   ⟨"n1", .calc, [⟨"expr", .string ['x']⟩], none, none, some "g"⟩,
   ⟨"n2", .act, [⟨"type", .string "return"⟩], none, none, none⟩]
  [Edge.new "n0" "n1", Edge.control "n1" "n2"]

/-- As many nodes as given, and no edge. -/
def looseNodes (n : Nat) : ExecutionPlan :=
  ExecutionPlan.new ((List.range n).map fun k => ⟨Text.ofNat k, .calc, [], none, none, none⟩) []

theorem looseNodes_length (n : Nat) : (looseNodes n).nodes.length = n := by
  rw [looseNodes, ExecutionPlan.new, List.length_map, List.length_range]

theorem looseNodes_ids (n : Nat) : (looseNodes n).ids.Nodup := by
  rw [ExecutionPlan.ids, looseNodes, ExecutionPlan.new, List.map_map]
  refine List.Nodup.map (fun j k h => ?_) List.nodup_range
  have hparse : Text.parseNat (Text.ofNat j) = Text.parseNat (Text.ofNat k) := congrArg Text.parseNat h
  rw [Text.parseNat_ofNat, Text.parseNat_ofNat] at hparse
  exact Option.some.inj hparse

namespace CompiledPlan

/-- The in-degrees are `u32` counters. -/
def inDegree32 (plan : CompiledPlan) (v : Nat) : Nat := asU32 (Kahn.inDegree plan.liveArcs v)

/-- `topological_order` with `u32` indices and counters. A counter that wrapped can make a node come up twice;
what is popped beyond one more than the nodes is left out, as the length is wrong by then. -/
def topologicalOrder32 (plan : CompiledPlan) : Except ExecutionError (List Nat) :=
  let n := plan.nodes.length
  let order := Kahn.run plan.liveArcs (n + 1) plan.inDegree32
    ((List.range (asU32 n)).filter fun v => plan.inDegree32 v = 0).reverse
  if order.length ≠ n then .error .cycleDetected else .ok order

theorem topologicalOrder32_empty {plan : CompiledPlan} (hzero : asU32 plan.nodes.length = 0)
    (hne : plan.nodes.length ≠ 0) : plan.topologicalOrder32 = .error .cycleDetected := by
  rw [topologicalOrder32, hzero]
  exact if_pos hne.symm

/-- No counter and no index wraps. -/
theorem topologicalOrder32_eq {plan : CompiledPlan} (hsize : plan.nodes.length < 2 ^ 32)
    (hdegree : ∀ v, Kahn.inDegree plan.arcs v < 2 ^ 32) : plan.topologicalOrder32 = plan.topologicalOrder := by
  have hdeg : plan.inDegree32 = Kahn.inDegree plan.liveArcs :=
    funext fun v => asU32_of_lt ((List.filter_sublist.countP_le).trans_lt (hdegree v))
  have hedges : ∀ e ∈ plan.liveArcs, e.2 ∈ List.range plan.nodes.length := fun e he =>
    List.mem_range.2 (of_decide_eq_true (List.mem_filter.1 he).2)
  have hrun := Kahn.run_succ_length List.nodup_range hedges
  rw [List.length_range] at hrun
  rw [topologicalOrder32, hdeg, asU32_of_lt hsize, hrun]
  rfl

theorem liveArcs_eq {plan : CompiledPlan}
    (hrange : ∀ e ∈ plan.edges, e.fromIndex < plan.nodes.length ∧ e.toIndex < plan.nodes.length) :
    plan.liveArcs = plan.arcs := by
  refine List.filter_eq_self.2 fun arc harc => ?_
  obtain ⟨e, he, rfl⟩ := List.mem_map.1 harc
  exact decide_eq_true (hrange e he).2

/-- The order is one exactly when the edges form no cycle. -/
theorem topologicalOrder_acyclic {plan : CompiledPlan}
    (hrange : ∀ e ∈ plan.edges, e.fromIndex < plan.nodes.length ∧ e.toIndex < plan.nodes.length) :
    (∃ order, plan.topologicalOrder = .ok order) ↔ Kahn.Acyclic plan.arcs := by
  rw [topologicalOrder_iff, Orderable, liveArcs_eq hrange]
  refine ⟨fun h => h.acyclic, fun h => ⟨fun arc harc => ?_, h⟩⟩
  obtain ⟨e, he, rfl⟩ := List.mem_map.1 harc
  exact List.mem_range.2 (hrange e he).1

theorem topologicalOrder_forward {plan : CompiledPlan} {order : List Nat} (h : plan.topologicalOrder = .ok order)
    {e : CompiledEdge} (he : e ∈ plan.edges) (hto : e.toIndex < plan.nodes.length) :
    order.idxOf e.fromIndex < order.idxOf e.toIndex := by
  have harc : (e.fromIndex, e.toIndex) ∈ plan.liveArcs :=
    List.mem_filter.2 ⟨List.mem_map.2 ⟨e, he, rfl⟩, decide_eq_true hto⟩
  have hord : Kahn.Ordered plan.liveArcs [] order := by
    obtain ⟨rfl, -⟩ := topologicalOrder_eq h
    exact (Kahn.sort_spec _ _ List.nodup_range).1
  exact hord.idxOf_lt harc ((mem_order h).2 hto)

theorem idxOf_of_idToIndex {ids : List Text} (hids : ids.Nodup) {id : Text} {i : Nat}
    (h : (idToIndex ids).get id = some i) : ids.idxOf id = i := by
  have hmem : id ∈ ids := List.mem_of_getElem? (idToIndex_sound h)
  have hlt := List.idxOf_lt_length_iff.2 hmem
  refine (List.getElem?_inj hlt hids).1 (Eq.trans ?_ (idToIndex_sound h).symm)
  rw [List.getElem?_eq_getElem hlt, List.getElem_idxOf]

/-- A cycle of ids is one of indices. -/
theorem ids_of_orderable {p : ExecutionPlan} {opts : List Text} (hids : p.ids.Nodup)
    (hsize : p.nodes.length ≤ u32Max) (h : (fromExecutionPlan p opts).Orderable) : p.Orderable := by
  have hlen := fromExecutionPlan_length p opts
  have harc : ∀ x y, (x, y) ∈ p.arcs p.edges → x ∈ p.ids ∧
      (p.ids.idxOf x, p.ids.idxOf y) ∈ (fromExecutionPlan p opts).liveArcs := by
    intro x y hxy
    obtain ⟨e, he, heq⟩ := List.mem_map.1 hxy
    cases heq
    obtain ⟨he, hto⟩ := List.mem_filter.1 he
    obtain ⟨j, hj, hjlt⟩ := idToIndex_lt (of_decide_eq_true hto)
    have hlive : (((idToIndex p.ids).get e.fromId).getD u32Max, j) ∈ (fromExecutionPlan p opts).liveArcs := by
      refine List.mem_filter.2 ⟨List.mem_map.2 ⟨compileEdge (idToIndex p.ids) e, List.mem_map_of_mem he, ?_⟩, ?_⟩
      · simp only [compileEdge, hj, Option.getD_some]
      · rw [hlen]
        exact decide_eq_true (hjlt.trans_eq (List.length_map _))
    cases hi : (idToIndex p.ids).get e.fromId with
    | none =>
      rw [hi] at hlive
      have hknown := List.mem_range.1 (h.known _ hlive)
      rw [hlen, Option.getD_none] at hknown
      exact absurd hknown (Nat.not_lt.2 hsize)
    | some i =>
      rw [hi] at hlive
      rw [idxOf_of_idToIndex hids hi, idxOf_of_idToIndex hids hj]
      exact ⟨List.mem_of_getElem? (idToIndex_sound hi), hlive⟩
  refine ⟨fun arc hmem => (harc arc.1 arc.2 hmem).1, fun v hv => ?_⟩
  exact h.acyclic _ (hv.lift p.ids.idxOf fun a b hab => (harc a b hab).2)

end CompiledPlan

/-- With fewer than 2^32 nodes, and fewer than 2^32 edges into each. -/
theorem topological_sorts :
    (∀ plan : CompiledPlan, plan.nodes.length < 2 ^ 32 → (∀ v, Kahn.inDegree plan.arcs v < 2 ^ 32) →
      (∀ e ∈ plan.edges, e.fromIndex < plan.nodes.length ∧ e.toIndex < plan.nodes.length) →
      ((∃ order, plan.topologicalOrder32 = .ok order) ↔ Kahn.Acyclic plan.arcs) ∧
      ∀ order, plan.topologicalOrder32 = .ok order → order.Perm (List.range plan.nodes.length) ∧
        ∀ e ∈ plan.edges, order.idxOf e.fromIndex < order.idxOf e.toIndex) ∧
    ∀ (p : ExecutionPlan) (opts : List Text), p.ids.Nodup → p.nodes.length < 2 ^ 32 → p.edges.length < 2 ^ 32 →
      ((∃ order, p.topologicalOrder = .ok order) ↔
        ∃ order, (CompiledPlan.fromExecutionPlan32 p opts).topologicalOrder32 = .ok order) := by
  refine ⟨fun plan hsize hdegree hrange => ?_, fun p opts hids hsize hcount => ?_⟩
  · rw [CompiledPlan.topologicalOrder32_eq hsize hdegree]
    refine ⟨CompiledPlan.topologicalOrder_acyclic hrange, fun order horder => ⟨CompiledPlan.order_perm horder, ?_⟩⟩
    exact fun e he => CompiledPlan.topologicalOrder_forward horder he (hrange e he).2
  · have hlen := CompiledPlan.fromExecutionPlan_length p opts
    have hdegree : ∀ v, Kahn.inDegree (CompiledPlan.fromExecutionPlan p opts).arcs v < 2 ^ 32 := by
      intro v
      have hle : Kahn.inDegree (CompiledPlan.fromExecutionPlan p opts).arcs v ≤
          (CompiledPlan.fromExecutionPlan p opts).arcs.length := List.countP_le_length
      have harcs : (CompiledPlan.fromExecutionPlan p opts).arcs.length = p.edges.length := by
        rw [CompiledPlan.arcs, List.length_map]
        exact List.length_map _
      omega
    rw [CompiledPlan.fromExecutionPlan32_eq opts hsize.le,
      CompiledPlan.topologicalOrder32_eq (by omega) hdegree, CompiledPlan.topologicalOrder_iff,
      ExecutionPlan.topologicalOrder_iff hids]
    have hle : p.nodes.length ≤ u32Max := Nat.le_sub_one_of_lt hsize
    exact ⟨fun h => CompiledPlan.orderable_of_ids opts h hle, CompiledPlan.ids_of_orderable hids hle⟩

theorem topological_sorts_grouped : (∃ order, groupedPlan.topologicalOrder = .ok order) ∧
    Kahn.Acyclic (CompiledPlan.fromExecutionPlan32 groupedPlan []).arcs := by
  have horder : ∃ order, (CompiledPlan.fromExecutionPlan32 groupedPlan []).topologicalOrder32 = .ok order :=
    ⟨[0, 1, 2], rfl⟩
  have hdegree : ∀ v, Kahn.inDegree (CompiledPlan.fromExecutionPlan32 groupedPlan []).arcs v < 2 ^ 32 := fun v =>
    List.countP_le_length.trans_lt (by decide)
  refine ⟨(topological_sorts.2 groupedPlan [] (by decide +kernel) (by decide) (by decide)).2 horder, ?_⟩
  exact (topological_sorts.1 _ (by decide +kernel) hdegree (by decide +kernel)).1.1 horder

/-- 2^32 nodes are an empty range of indices. -/
theorem topological_sort_wraps : (looseNodes (2 ^ 32)).edges = [] ∧
    Kahn.Acyclic (CompiledPlan.fromExecutionPlan32 (looseNodes (2 ^ 32)) []).arcs ∧
    (CompiledPlan.fromExecutionPlan32 (looseNodes (2 ^ 32)) []).topologicalOrder32 = .error .cycleDetected := by
  have hlen := CompiledPlan.fromExecutionPlan32_length (looseNodes (2 ^ 32)) []
  rw [looseNodes_length] at hlen
  refine ⟨rfl, ?_, CompiledPlan.topologicalOrder32_empty ?_ ?_⟩
  · rw [CompiledPlan.fromExecutionPlan32_arcs [] rfl]
    exact Kahn.acyclic_of_lt (fun _ => 0) nofun
  · rw [hlen]
    exact Nat.mod_self _
  · rw [hlen]
    exact (Nat.two_pow_pos 32).ne'

end Tinypipe
