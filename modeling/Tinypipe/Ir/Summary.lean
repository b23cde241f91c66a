import Tinypipe.Ir.Projection
import Tinypipe.Vm.Order

/-! The summary of a view is its quotient by the groups. Groups take indices counted down from the
largest, so the nodes have to leave those free; the positions a compiled plan numbers its nodes by do. -/

namespace Tinypipe.PlanView

open Lib Lib.Frontier

/-- The summary node `k` stands for the view's node `n`: its group's node, or `n` itself. -/
def Stands (summary : ViewGraph) (k n : ViewNode) : Prop :=
  match n.groupId with
  | some g => summary.nodes[g]? = some k
  | none => k = n

instance decidableStands : ∀ summary k n, Decidable (Stands summary k n)
  | summary, k, ⟨_, _, _, some g⟩ => inferInstanceAs (Decidable (summary.nodes[g]? = some k))
  | _, k, ⟨i, label, shape, none⟩ => inferInstanceAs (Decidable (k = ⟨i, label, shape, none⟩))

instance decidableConnects (view : ViewGraph) (a b : Nat) : Decidable (view.Connects a b) :=
  inferInstanceAs (Decidable (∃ e ∈ view.edges, e.ends = (a, b)))

/-- The summary is the quotient of the view. -/
structure Quotient (view summary : ViewGraph) : Prop where
  distinct : (summary.nodes.map ViewNode.index).Nodup
  stands : ∀ n ∈ view.nodes, ∃! k, k ∈ summary.nodes ∧ Stands summary k n
  edge : ∀ k ∈ summary.nodes, ∀ k' ∈ summary.nodes, k ≠ k' →
    ((summary.edges.map ViewEdge.ends).count (k.index, k'.index) = 1 ↔
      ∃ n ∈ view.nodes, ∃ n' ∈ view.nodes, Stands summary k n ∧ Stands summary k' n' ∧
        view.Connects n.index n'.index)
  once : (summary.edges.map ViewEdge.ends).Nodup
  known : ∀ a b, summary.Connects a b →
    a ≠ b ∧ a ∈ summary.nodes.map ViewNode.index ∧ b ∈ summary.nodes.map ViewNode.index

/-- What the summary relies on. -/
structure Tidy (view : ViewGraph) : Prop where
  distinct : (view.nodes.map ViewNode.index).Nodup
  known : ∀ a b, view.Connects a b → a ∈ view.nodes.map ViewNode.index ∧ b ∈ view.nodes.map ViewNode.index
  group : ∀ n ∈ view.nodes, ∀ g, n.groupId = some g → g < view.groups.length
  free : ∀ n ∈ view.nodes, n.groupId = none → n.index + view.groups.length < 2 ^ 32
  few : view.groups.length ≤ 2 ^ 32

/-! ### Nodes -/

/-- The index of the summary node that stands for a node. -/
def keyOf (n : ViewNode) : Nat :=
  match n.groupId with
  | some g => u32Max - g
  | none => n.index

section Collapse

variable {view : ViewGraph}

theorem collapse_nodes (h : view.groups ≠ []) :
    (collapse view).nodes = view.groups.zipIdx.map (groupNode view) ++ view.nodes.filter fun n => n.groupId = none := by
  rw [collapse, if_neg h]

theorem collapse_edges (h : view.groups ≠ []) :
    (collapse view).edges = (view.edges.foldl (collapseEdge view) Linking.empty).edges := by
  rw [collapse, if_neg h]

theorem groupNode_index (x : Text × Nat) : (groupNode view x).index = u32Max - x.2 % 2 ^ 32 := rfl

theorem collapse_getElem? (h : view.groups ≠ []) {g : Nat} (hg : g < view.groups.length) :
    (collapse view).nodes[g]? = some (groupNode view (view.groups[g], g)) := by
  rw [collapse_nodes h, List.getElem?_append_left (by simpa using hg)]
  simp [hg]

/-- The indices of the groups, then those of the nodes outside the groups. -/
theorem collapse_indices (h : view.groups ≠ []) (htidy : Tidy view) :
    (collapse view).nodes.map ViewNode.index =
      (List.range view.groups.length).map (fun g => u32Max - g) ++
        (view.nodes.filter fun n => n.groupId = none).map ViewNode.index := by
  rw [collapse_nodes h, List.map_append, List.map_map]
  congr 1
  refine List.ext_getElem (by simp) fun g hg _ => ?_
  have hlt : g < 2 ^ 32 := by
    have hfew := htidy.few
    have hlen : g < view.groups.length := by simpa using hg
    omega
  simp only [List.getElem_map, Function.comp_apply, groupNode_index, List.getElem_zipIdx, List.getElem_range, Nat.zero_add]
  rw [Nat.mod_eq_of_lt hlt]

theorem collapse_distinct (h : view.groups ≠ []) (htidy : Tidy view) :
    ((collapse view).nodes.map ViewNode.index).Nodup := by
  have hfew := htidy.few
  rw [collapse_indices h htidy, List.nodup_append]
  refine ⟨?_, htidy.distinct.sublist (List.filter_sublist.map _), ?_⟩
  · refine List.Nodup.map_on (fun a ha b hb hab => ?_) List.nodup_range
    rw [List.mem_range] at ha hb
    simp only [u32Max] at hab
    omega
  · intro i hi j hj hij
    obtain ⟨g, hg, rfl⟩ := List.mem_map.1 hi
    obtain ⟨n, hn, rfl⟩ := List.mem_map.1 hj
    obtain ⟨hmem, hnone⟩ := List.mem_filter.1 hn
    have hfree := htidy.free n hmem (of_decide_eq_true hnone)
    rw [List.mem_range] at hg
    simp only [u32Max] at hij
    omega

theorem eq_of_index {ns : List ViewNode} (h : (ns.map ViewNode.index).Nodup) {k k' : ViewNode} (hk : k ∈ ns) (hk' : k' ∈ ns)
    (hindex : k.index = k'.index) : k = k' :=
  List.inj_on_of_nodup_map h hk hk' hindex

/-- The node that stands for a node is the one with its key. -/
theorem stands_iff (h : view.groups ≠ []) (htidy : Tidy view) {k n : ViewNode} (hk : k ∈ (collapse view).nodes)
    (hn : n ∈ view.nodes) : Stands (collapse view) k n ↔ k.index = keyOf n := by
  have hdistinct := collapse_distinct h htidy
  rw [Stands, keyOf]
  cases hgroup : n.groupId with
  | none =>
    refine ⟨congrArg ViewNode.index, eq_of_index hdistinct hk ?_⟩
    rw [collapse_nodes h]
    exact List.mem_append_right _ (List.mem_filter.2 ⟨hn, decide_eq_true hgroup⟩)
  | some g =>
    have hg := htidy.group n hn g hgroup
    have hlt : g < 2 ^ 32 := hg.trans_le htidy.few
    have hat := collapse_getElem? h hg
    have hindex : (groupNode view (view.groups[g], g)).index = u32Max - g := by
      rw [groupNode_index, Nat.mod_eq_of_lt hlt]
    simp only [hat, Option.some.injEq]
    constructor
    · rintro rfl
      exact hindex
    · exact fun hkey => eq_of_index hdistinct (List.mem_of_getElem? hat) hk (hindex.trans hkey.symm)

theorem exists_stands (h : view.groups ≠ []) (htidy : Tidy view) {n : ViewNode} (hn : n ∈ view.nodes) :
    ∃ k ∈ (collapse view).nodes, k.index = keyOf n := by
  rw [keyOf]
  cases hgroup : n.groupId with
  | none =>
    refine ⟨n, ?_, rfl⟩
    rw [collapse_nodes h]
    exact List.mem_append_right _ (List.mem_filter.2 ⟨hn, decide_eq_true hgroup⟩)
  | some g =>
    have hg := htidy.group n hn g hgroup
    refine ⟨_, List.mem_of_getElem? (collapse_getElem? h hg), ?_⟩
    rw [groupNode_index, Nat.mod_eq_of_lt (hg.trans_le htidy.few)]

/-! ### Edges -/

theorem mem_collapseEdge {e : ViewEdge} {st : Linking} {p : Nat × Nat} :
    p ∈ (collapseEdge view st e).pairs ↔
      p ∈ st.pairs ∨ p.1 ≠ p.2 ∧ p = (summaryKey view e.fromIndex, summaryKey view e.toIndex) := by
  rw [collapseEdge]
  by_cases hkeys : summaryKey view e.fromIndex = summaryKey view e.toIndex
  · rw [if_pos hkeys]
    refine ⟨Or.inl, Or.rec id ?_⟩
    rintro ⟨hne, rfl⟩
    exact absurd hkeys hne
  · rw [if_neg hkeys, Linking.mem_insert]
    refine or_congr_right ⟨?_, And.right⟩
    rintro rfl
    exact ⟨hkeys, rfl⟩

theorem mem_foldl_collapseEdge {p : Nat × Nat} {es : List ViewEdge} {st : Linking} :
    p ∈ (es.foldl (collapseEdge view) st).pairs ↔ p ∈ st.pairs ∨
      p.1 ≠ p.2 ∧ ∃ e ∈ es, p = (summaryKey view e.fromIndex, summaryKey view e.toIndex) := by
  induction es generalizing st with
  | nil => simp
  | cons e es ih =>
    rw [List.foldl_cons, ih, mem_collapseEdge, or_assoc, ← and_or_left, List.exists_mem_cons_iff]

/-- The summary joins the keys of what the view joins. -/
theorem collapse_connects_iff (h : view.groups ≠ []) {a b : Nat} :
    (collapse view).Connects a b ↔
      a ≠ b ∧ ∃ i j, view.Connects i j ∧ summaryKey view i = a ∧ summaryKey view j = b := by
  have hempty : (a, b) ∉ Linking.empty.pairs := List.not_mem_nil
  rw [ViewGraph.Connects, ← List.mem_map, collapse_edges h, ← Linking.pairs, mem_foldl_collapseEdge, or_iff_right hempty]
  refine and_congr_right fun _ => ⟨?_, ?_⟩
  · rintro ⟨e, he, heq⟩
    obtain ⟨rfl, rfl⟩ := Prod.mk.inj heq
    exact ⟨_, _, ⟨e, he, rfl⟩, rfl, rfl⟩
  · rintro ⟨i, j, ⟨e, he, hends⟩, rfl, rfl⟩
    obtain ⟨rfl, rfl⟩ := Prod.mk.inj hends
    exact ⟨e, he, rfl⟩

theorem summaryKey_eq (htidy : Tidy view) {n : ViewNode} (hn : n ∈ view.nodes) : summaryKey view n.index = keyOf n := by
  have hfind : (view.nodes.find? fun m => m.index == n.index) = some n := by
    have hsome : (view.nodes.find? fun m => m.index == n.index).isSome :=
      List.find?_isSome.2 ⟨n, hn, beq_self_eq_true _⟩
    obtain ⟨m, hm⟩ := Option.isSome_iff_exists.1 hsome
    have hindex : m.index = n.index := eq_of_beq (List.find?_some (p := fun m : ViewNode => m.index == n.index) hm)
    rw [hm, eq_of_index htidy.distinct (List.mem_of_find?_eq_some hm) hn hindex]
  cases hgroup : n.groupId <;> simp only [summaryKey, nodeGroup, hfind, Option.bind_some, keyOf, hgroup]

theorem collapse_once (h : view.groups ≠ []) : ((collapse view).edges.map ViewEdge.ends).Nodup := by
  rw [collapse_edges h]
  exact Linking.nodup_pairs _

theorem count_eq_one_iff {ps : List (Nat × Nat)} (h : ps.Nodup) {p : Nat × Nat} : ps.count p = 1 ↔ p ∈ ps := by
  refine ⟨fun hcount => List.count_pos_iff.1 (by omega), List.count_eq_one_of_mem h⟩

/-- The summary of a tidy view is its quotient. -/
theorem quotient_of_tidy (h : view.groups ≠ []) (htidy : Tidy view) : Quotient view (collapse view) := by
  have hdistinct := collapse_distinct h htidy
  refine ⟨hdistinct, fun n hn => ?_, fun k hk k' hk' hne => ?_, collapse_once h, fun a b hab => ?_⟩
  · obtain ⟨k, hk, hkey⟩ := exists_stands h htidy hn
    refine ⟨k, ⟨hk, (stands_iff h htidy hk hn).2 hkey⟩, ?_⟩
    rintro k' ⟨hk', hstands⟩
    exact eq_of_index hdistinct hk' hk (((stands_iff h htidy hk' hn).1 hstands).trans hkey.symm)
  · rw [count_eq_one_iff (collapse_once h), List.mem_map]
    have hindex : k.index ≠ k'.index := fun heq => hne (eq_of_index hdistinct hk hk' heq)
    have hconnects := collapse_connects_iff h (a := k.index) (b := k'.index)
    rw [ViewGraph.Connects] at hconnects
    rw [hconnects]
    constructor
    · rintro ⟨-, i, j, hij, hi, hj⟩
      obtain ⟨hfrom, hto⟩ := htidy.known i j hij
      obtain ⟨n, hn, rfl⟩ := List.mem_map.1 hfrom
      obtain ⟨n', hn', rfl⟩ := List.mem_map.1 hto
      rw [summaryKey_eq htidy hn] at hi
      rw [summaryKey_eq htidy hn'] at hj
      exact ⟨n, hn, n', hn', (stands_iff h htidy hk hn).2 hi.symm, (stands_iff h htidy hk' hn').2 hj.symm, hij⟩
    · rintro ⟨n, hn, n', hn', hstands, hstands', hij⟩
      refine ⟨hindex, _, _, hij, ?_, ?_⟩
      · rw [summaryKey_eq htidy hn, (stands_iff h htidy hk hn).1 hstands]
      · rw [summaryKey_eq htidy hn', (stands_iff h htidy hk' hn').1 hstands']
  · obtain ⟨hne, i, j, hij, rfl, rfl⟩ := (collapse_connects_iff h).1 hab
    obtain ⟨hfrom, hto⟩ := htidy.known i j hij
    have hkey : ∀ i ∈ view.nodes.map ViewNode.index, summaryKey view i ∈ (collapse view).nodes.map ViewNode.index := by
      intro i hi
      obtain ⟨n, hn, rfl⟩ := List.mem_map.1 hi
      obtain ⟨k, hk, hkeyOf⟩ := exists_stands h htidy hn
      rw [summaryKey_eq htidy hn, ← hkeyOf]
      exact List.mem_map_of_mem hk
    exact ⟨hne, hkey i hfrom, hkey j hto⟩

end Collapse

/-! ### Views of plans -/

/-- The nodes of a plan are told apart by their indices, the edges join them, and the indices counted
down from the largest are left to the groups. -/
structure Numbered (plan : CompiledPlan) : Prop where
  distinct : (plan.nodes.map CompiledNode.index).Nodup
  known : ∀ a b, Arc (planArcs plan) a b →
    a ∈ plan.nodes.map CompiledNode.index ∧ b ∈ plan.nodes.map CompiledNode.index
  free : ∀ nd ∈ plan.nodes, nd.groupId = none → nd.index + plan.groups.length < 2 ^ 32
  few : plan.groups.length ≤ 2 ^ 32

/-- There is a group, and the nodes' groups are in the list. -/
structure Grouped (plan : CompiledPlan) : Prop where
  some : plan.groups ≠ []
  mem : ∀ nd ∈ plan.nodes, ∀ g, nd.groupId = .some g → g < plan.groups.length

section Views

variable {u : Casing} {fuel : Nat} {plan : CompiledPlan} {hidden : Finset Nat} {view : ViewGraph}

theorem exists_shown {nds : List CompiledNode} {ns : List ViewNode} (h : List.Forall₂ (Shows u) nds ns) {n : ViewNode}
    (hn : n ∈ ns) : ∃ nd ∈ nds, Shows u nd n := by
  induction h with
  | nil => cases hn
  | cons hhead _ ih =>
    rcases List.mem_cons.1 hn with rfl | hn
    · exact ⟨_, List.mem_cons_self, hhead⟩
    · obtain ⟨nd, hnd, hshows⟩ := ih hn
      exact ⟨nd, List.mem_cons_of_mem _ hnd, hshows⟩

theorem shown_indices {nds : List CompiledNode} {ns : List ViewNode} (h : List.Forall₂ (Shows u) nds ns) :
    ns.map ViewNode.index = nds.map CompiledNode.index := by
  induction h with
  | nil => rfl
  | cons hhead _ ih => rw [List.map_cons, List.map_cons, hhead.index, ih]

theorem mem_indices_of_reach (hnumbered : Numbered plan) {a b : Nat} (ha : a ∈ plan.nodes.map CompiledNode.index)
    (h : Relation.ReflTransGen (Step hidden (planArcs plan)) a b) : b ∈ plan.nodes.map CompiledNode.index := by
  induction h with
  | refl => exact ha
  | tail _ hstep _ => exact (hnumbered.known _ _ hstep.2).2

/-- The views of a numbered plan are tidy. -/
theorem tidy_of_project (hnumbered : Numbered plan) (hgrouped : Grouped plan)
    (h : project u fuel plan hidden = some view) : Tidy view := by
  have hconnects := connects_iff h
  obtain ⟨nodes, st, hnodes, -, rfl⟩ := project_eq_some h
  have hshows := viewNodes_shows hnodes
  have hindices := shown_indices hshows
  have hvisible : ∀ i, i ∈ plan.nodes.map CompiledNode.index → i ∉ hidden → i ∈ nodes.map ViewNode.index := by
    intro i hi hout
    obtain ⟨nd, hnd, rfl⟩ := List.mem_map.1 hi
    rw [hindices]
    exact List.mem_map_of_mem (List.mem_filter.2 ⟨hnd, decide_eq_true hout⟩)
  refine ⟨?_, fun a b hab => ?_, fun n hn g hg => ?_, fun n hn hnone => ?_, hnumbered.few⟩
  · rw [hindices]
    exact hnumbered.distinct.sublist (List.filter_sublist.map _)
  · obtain ⟨-, ha, hb, c, hc, hpath⟩ := (hconnects a b).1 hab
    obtain ⟨hfrom, hto⟩ := hnumbered.known a c hc
    exact ⟨hvisible a hfrom ha, hvisible b (mem_indices_of_reach hnumbered hto hpath) hb⟩
  · obtain ⟨nd, hnd, hshown⟩ := exists_shown hshows hn
    exact hgrouped.mem nd (List.mem_of_mem_filter hnd) g (hshown.groupId ▸ hg)
  · obtain ⟨nd, hnd, hshown⟩ := exists_shown hshows hn
    rw [hshown.index]
    exact hnumbered.free nd (List.mem_of_mem_filter hnd) (hshown.groupId ▸ hnone)

/-- The summary of any view of a numbered plan with a group is the quotient of the view. -/
theorem collapse_quotient (hnumbered : Numbered plan) (hgrouped : Grouped plan)
    (h : project u fuel plan hidden = some view) : Quotient view (collapse view) := by
  have htidy := tidy_of_project hnumbered hgrouped h
  obtain ⟨nodes, st, -, -, rfl⟩ := project_eq_some h
  exact quotient_of_tidy hgrouped.some htidy

end Views

/-- Two groups and a result outside of them. -/
def groupedPlan : CompiledPlan :=
  planOf [(0, .input, some 0, []), (1, .call, some 0, []), (2, .call, some 1, []), (3, .act, none, [])]
    [(0, 1), (1, 2), (0, 2), (2, 3)] ["Seeding", "Result"]

theorem collapse_quotient_grouped :
    ∃ view, project Casing.asciiOnly 5 groupedPlan ∅ = some view ∧ Quotient view (collapse view) := by
  obtain ⟨view, hview⟩ := Option.isSome_iff_exists.1
    (by decide +kernel : (project Casing.asciiOnly 5 groupedPlan ∅).isSome = true)
  refine ⟨view, hview, collapse_quotient ⟨by decide, ?_, ?_, by decide⟩ ⟨by decide, ?_⟩ hview⟩
  · exact fun a b h => (by decide : ∀ e ∈ planArcs groupedPlan, e.1 ∈ groupedPlan.nodes.map CompiledNode.index ∧
      e.2 ∈ groupedPlan.nodes.map CompiledNode.index) (a, b) h
  · decide +kernel
  · simp [groupedPlan, planOf]

/-- A node outside the groups has the index of a group. -/
def takenPlan : CompiledPlan := planOf [(0, .input, some 0, []), (4294967295, .act, none, [])] [] ["Seeding"]

/-- An edge leads to no node. -/
def danglingPlan : CompiledPlan := planOf [(0, .input, some 0, [])] [(0, 7)] ["Seeding"]

/-- Two nodes have one index. -/
def twinPlan : CompiledPlan :=
  planOf [(0, .input, some 0, []), (0, .call, some 1, []), (1, .act, none, [])] [(0, 1)] ["Seeding", "Result"]

theorem collapse_not_quotient :
    (Grouped takenPlan ∧ ∃ view, project Casing.asciiOnly 5 takenPlan ∅ = some view ∧ ¬Quotient view (collapse view)) ∧
    (Grouped danglingPlan ∧
      ∃ view, project Casing.asciiOnly 5 danglingPlan ∅ = some view ∧ ¬Quotient view (collapse view)) ∧
    (Grouped twinPlan ∧ ∃ view, project Casing.asciiOnly 5 twinPlan ∅ = some view ∧ ¬Quotient view (collapse view)) := by
  refine ⟨⟨⟨by decide, by simp [takenPlan, planOf]⟩, ?_⟩, ⟨⟨by decide, by simp [danglingPlan, planOf]⟩, ?_⟩,
    ⟨by decide, by simp [twinPlan, planOf]⟩, ?_⟩
  · have hbad : (project Casing.asciiOnly 5 takenPlan ∅).any
        (fun view => !decide ((collapse view).nodes.map ViewNode.index).Nodup) = true := by decide +kernel
    obtain ⟨view, hview, hnodup⟩ := (Option.any_eq_true _ _).1 hbad
    exact ⟨view, hview, fun h => by simp [h.distinct] at hnodup⟩
  · have hbad : (project Casing.asciiOnly 5 danglingPlan ∅).any (fun view =>
        (collapse view).Connects u32Max 7 && decide (7 ∉ (collapse view).nodes.map ViewNode.index)) = true := by
      decide +kernel
    obtain ⟨view, hview, hedge⟩ := (Option.any_eq_true _ _).1 hbad
    obtain ⟨hconnects, hmissing⟩ := Bool.and_eq_true_iff.1 hedge
    exact ⟨view, hview, fun h => of_decide_eq_true hmissing (h.known _ _ (of_decide_eq_true hconnects)).2.2⟩
  · have hbad : (project Casing.asciiOnly 5 twinPlan ∅).any (fun view => decide
        (∃ k ∈ (collapse view).nodes, ∃ k' ∈ (collapse view).nodes, k ≠ k' ∧
          ((collapse view).edges.map ViewEdge.ends).count (k.index, k'.index) ≠ 1 ∧
          ∃ n ∈ view.nodes, ∃ n' ∈ view.nodes, Stands (collapse view) k n ∧ Stands (collapse view) k' n' ∧
            view.Connects n.index n'.index)) = true := by decide +kernel
    obtain ⟨view, hview, hedge⟩ := (Option.any_eq_true _ _).1 hbad
    obtain ⟨k, hk, k', hk', hne, hcount, hjoined⟩ := of_decide_eq_true hedge
    exact ⟨view, hview, fun h => hcount ((h.edge k hk k' hk' hne).2 hjoined)⟩

/-- Compiled plans are numbered by position, which leaves the high indices free. -/
theorem numbered_of_wellFormed {plan : CompiledPlan} (h : plan.WellFormed)
    (hroom : plan.nodes.length + plan.groups.length ≤ 2 ^ 32) : Numbered plan := by
  have hindex : plan.nodes.map CompiledNode.index = List.range plan.nodes.length := by
    refine List.ext_getElem (by simp) fun i hi _ => ?_
    rw [List.length_map] at hi
    rw [List.getElem_map, List.getElem_range, h.index i _ (List.getElem?_eq_getElem hi)]
  refine ⟨?_, fun a b hab => ?_, fun nd hnd _ => ?_, by omega⟩
  · rw [hindex]
    exact List.nodup_range
  · obtain ⟨e, he, hends⟩ := List.mem_map.1 hab
    obtain ⟨rfl, rfl⟩ := Prod.mk.inj hends
    rw [hindex, List.mem_range, List.mem_range]
    exact h.edges e he
  · obtain ⟨i, hi, rfl⟩ := List.mem_iff_getElem.1 hnd
    have := h.index i _ (List.getElem?_eq_getElem hi)
    omega

theorem quotient_of_wellFormed {u : Casing} {fuel : Nat} {plan : CompiledPlan} {hidden : Finset Nat} {view : ViewGraph}
    (h : plan.WellFormed) (hroom : plan.nodes.length + plan.groups.length ≤ 2 ^ 32) (hgrouped : Grouped plan)
    (hview : project u fuel plan hidden = some view) : Quotient view (collapse view) := by
  have htidy := tidy_of_project (numbered_of_wellFormed h hroom) hgrouped hview
  obtain ⟨nodes, st, -, -, rfl⟩ := project_eq_some hview
  exact quotient_of_tidy hgrouped.some htidy

end Tinypipe.PlanView
