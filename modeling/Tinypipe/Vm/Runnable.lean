import Tinypipe.Compiler.FusionRounds
import Tinypipe.Compiler.GraphChecks
import Tinypipe.Vm.Errors
import Tinypipe.Programs

/-! From an accepted plan to its runs. The validation leaves edges into LOOP nodes out of
its cycle check; code generation and the executor do not. -/

namespace Tinypipe

open Lib Lib.Stateful

/-! ### The ids behind the optimizer -/

namespace Optimize

theorem foldNode_id (nd : Node) : (foldNode nd).id = nd.id := by
  unfold foldNode
  split <;> rfl

theorem constantFolding_ids (p : ExecutionPlan) : (constantFolding p).1.ids = p.ids := by
  simp only [constantFolding, ExecutionPlan.ids, List.map_map]
  exact List.map_congr_left fun nd _ => foldNode_id nd

theorem deadNodeElimination_ids (p : ExecutionPlan) :
    ((deadNodeElimination p).1.ids).Sublist p.ids := by
  simp only [deadNodeElimination]
  split <;> exact List.filter_sublist.map _

theorem multiBranchFusion_ids (p : ExecutionPlan) :
    ((multiBranchFusion p).1.ids).Sublist p.ids := by
  simp only [multiBranchFusion]
  split
  · exact List.Sublist.refl _
  · exact List.filter_sublist.map _

theorem optimizeAll_ids (p : ExecutionPlan) : ((optimizeAll p).1.ids).Sublist p.ids := by
  have h1 := (constantFolding_ids p).symm ▸ deadNodeElimination_ids (constantFolding p).1
  exact (multiBranchFusion_ids _).trans ((calcFusion_ids _).trans h1)

end Optimize

/-! ### The orders -/

namespace ExecutionPlan

/-- The edges into known nodes come from known nodes and form no cycle. -/
def Orderable (p : ExecutionPlan) : Prop := Kahn.Orderable p.ids (p.arcs p.edges)

theorem topologicalOrder_iff {p : ExecutionPlan} (hids : p.ids.Nodup) :
    (∃ order, p.topologicalOrder = .ok order) ↔ p.Orderable := by
  have hedges : ∀ e ∈ p.arcs p.edges, e.2 ∈ p.ids := by
    intro e he
    obtain ⟨e', he', rfl⟩ := List.mem_map.1 he
    simpa using (List.mem_filter.1 he').2
  have hlen : p.nodes.length = p.ids.length := by simp [ids]
  rw [Orderable, ← Kahn.sort_length_iff hids hedges, topologicalOrder, orderOver, hlen]
  split
  case isTrue h => exact ⟨fun hex => hex.elim fun _ ho => (by cases ho), fun ho => absurd ho h⟩
  case isFalse h => exact ⟨fun _ => not_not.1 h, fun _ => ⟨_, rfl⟩⟩

end ExecutionPlan

namespace CompiledPlan

/-- The edges into nodes, by index. -/
def liveArcs (plan : CompiledPlan) : List (Nat × Nat) :=
  plan.arcs.filter fun e => e.2 < plan.nodes.length

def Orderable (plan : CompiledPlan) : Prop :=
  Kahn.Orderable (List.range plan.nodes.length) plan.liveArcs

theorem topologicalOrder_iff (plan : CompiledPlan) :
    (∃ order, plan.topologicalOrder = .ok order) ↔ plan.Orderable := by
  have hedges : ∀ e ∈ plan.liveArcs, e.2 ∈ List.range plan.nodes.length := by
    intro e he
    simpa using (List.mem_filter.1 he).2
  rw [Orderable, ← Kahn.sort_length_iff List.nodup_range hedges, List.length_range,
    topologicalOrder, liveArcs]
  split
  case isTrue h => exact ⟨fun hex => hex.elim fun _ ho => (by cases ho), fun ho => absurd ho h⟩
  case isFalse h => exact ⟨fun _ => not_not.1 h, fun _ => ⟨_, rfl⟩⟩

/-- What an index was inserted for. -/
theorem idToIndex_sound {ids : List Text} {id : Text} {i : Nat}
    (h : (idToIndex ids).get id = some i) : ids[i]? = some id :=
  List.mem_zipIdx_iff_getElem?.1 (Dict.mem_of_get_ofList h)

/-- Lowering keeps the order, as long as no index is the one of unknown nodes. -/
theorem orderable_of_ids {q : ExecutionPlan} (opts : List Text) (hq : q.Orderable)
    (hsize : q.nodes.length ≤ u32Max) : (fromExecutionPlan q opts).Orderable := by
  have hlen : (fromExecutionPlan q opts).nodes.length = q.nodes.length := by
    simp [fromExecutionPlan, compileNodes_length]
  have hids : q.ids.length = q.nodes.length := by simp [ExecutionPlan.ids]
  -- an arc between indices comes from one between the ids
  have harc : ∀ a b, (a, b) ∈ (fromExecutionPlan q opts).liveArcs →
      ∃ x y, q.ids[a]? = some x ∧ q.ids[b]? = some y ∧ (x, y) ∈ q.arcs q.edges := by
    intro a b hab
    obtain ⟨hab, hlt⟩ := List.mem_filter.1 hab
    rw [hlen, decide_eq_true_eq] at hlt
    obtain ⟨ce, hce, heq⟩ := List.mem_map.1 hab
    obtain ⟨e, he, rfl⟩ := List.mem_map.1 hce
    simp only [compileEdge, Prod.mk.injEq] at heq
    obtain ⟨rfl, rfl⟩ := heq
    cases hto : (idToIndex q.ids).get e.toId with
    | none =>
      rw [hto, Option.getD_none] at hlt
      omega
    | some j =>
      have hmem : e.toId ∈ q.ids := List.mem_of_getElem? (idToIndex_sound hto)
      have hx : (e.fromId, e.toId) ∈ q.arcs q.edges :=
        List.mem_map.2 ⟨e, List.mem_filter.2 ⟨he, by simpa using hmem⟩, rfl⟩
      obtain ⟨i, hfrom, -⟩ := idToIndex_lt (hq.known _ hx)
      simp only [hfrom, Option.getD_some]
      exact ⟨_, _, idToIndex_sound hfrom, idToIndex_sound hto, hx⟩
  refine ⟨fun e he => ?_, fun v hv => ?_⟩
  · obtain ⟨x, y, hx, -, -⟩ := harc e.1 e.2 he
    rw [List.mem_range, hlen, ← hids]
    exact (List.getElem?_eq_some_iff.1 hx).1
  · have hpath : ∀ {a b : Nat},
        Relation.TransGen (fun a b => (a, b) ∈ (fromExecutionPlan q opts).liveArcs) a b →
        ∃ x y, q.ids[a]? = some x ∧ q.ids[b]? = some y ∧
          Relation.TransGen (fun a b => (a, b) ∈ q.arcs q.edges) x y := by
      intro a b h
      induction h with
      | single h =>
        obtain ⟨x, y, hx, hy, hxy⟩ := harc _ _ h
        exact ⟨x, y, hx, hy, Relation.TransGen.single hxy⟩
      | tail _ h ih =>
        obtain ⟨x, y, hx, hy, hxy⟩ := ih
        obtain ⟨y', z, hy', hz, hyz⟩ := harc _ _ h
        rw [hy] at hy'
        cases hy'
        exact ⟨x, z, hx, hz, hxy.tail hyz⟩
    obtain ⟨x, y, hx, hy, hxy⟩ := hpath hv
    rw [hx] at hy
    cases hy
    exact hq.acyclic x hxy

end CompiledPlan

/-! ### Accepted plans -/

/-- The edges of the optimized plan can be ordered, those into LOOP nodes included; past
`u32::MAX` nodes, where an edge to no node leads to one, also by index. -/
def ExecutionPlan.Runnable (p : ExecutionPlan) : Prop :=
  (Optimize.optimizeAll p).1.Orderable ∧ (u32Max < (Optimize.optimizeAll p).1.nodes.length →
    (CompiledPlan.fromExecutionPlan (Optimize.optimizeAll p).1 []).Orderable)

theorem codegen_cases (now : Nat) (p : ExecutionPlan) (hashes : Dict Text Text) :
    (∃ order, (Optimize.optimizeAll p).1.topologicalOrder = .ok order ∧
      ∃ m opts out, codegenWithSchemaHashes now p hashes = .ok out ∧
        out.compiled = .fromExecutionPlan { (Optimize.optimizeAll p).1 with metadata := m } opts) ∨
    ((∀ order, (Optimize.optimizeAll p).1.topologicalOrder ≠ .ok order) ∧
      ∃ e, codegenWithSchemaHashes now p hashes = .error e) := by
  simp only [codegenWithSchemaHashes]
  cases h : (Optimize.optimizeAll p).1.topologicalOrder with
  | ok order => exact Or.inl ⟨order, rfl, _, _, _, rfl, rfl⟩
  | error e => exact Or.inr ⟨fun order h => (by cases h), _, rfl⟩

/-- The arcs do not depend on the metadata. -/
theorem orderable_metadata (q : ExecutionPlan) (m : Metadata) (opts opts' : List Text) :
    (CompiledPlan.fromExecutionPlan { q with metadata := m } opts).Orderable ↔
      (CompiledPlan.fromExecutionPlan q opts').Orderable := Iff.rfl

/-- No segment of any run of a plan fails on its graph. -/
def NeverFailsOnGraph (plan : CompiledPlan) : Prop :=
  ∀ registry depth inputs policies n e,
    (segment ⟨plan, registry, depth⟩ inputs policies n).result = .error e →
      e.isGraphError = false

theorem neverFailsOnGraph_iff (p : ExecutionPlan) (opts : List Text) :
    NeverFailsOnGraph (.fromExecutionPlan p opts) ↔
      (CompiledPlan.fromExecutionPlan p opts).Orderable := by
  rw [← CompiledPlan.topologicalOrder_iff]
  constructor
  · intro h
    cases horder : (CompiledPlan.fromExecutionPlan p opts).topologicalOrder with
    | ok order => exact ⟨order, rfl⟩
    | error e =>
      -- the first segment reports the cycle
      have hcycle : e = .cycleDetected := by
        simp only [CompiledPlan.topologicalOrder] at horder
        split at horder
        · cases horder
          rfl
        · cases horder
      have hrun : (segment ⟨.fromExecutionPlan p opts, echo, 0⟩ (inputsOf [])
          (fun _ => .default) 0).result = .error e := by
        simp only [segment, executeWith, horder]
        rfl
      have := h echo 0 (inputsOf []) _ 0 e hrun
      rw [hcycle] at this
      cases this
  · rintro ⟨order, horder⟩ registry depth inputs policies n e he
    exact (@segment_walked ⟨.fromExecutionPlan p opts, registry, depth⟩ order
      (CompiledPlan.fromExecutionPlan_index p opts) horder inputs policies n).1 e he

/-- An accepted plan compiles, and no run of it fails on its graph, exactly when the
optimized plan can be ordered. -/
theorem validate_runnable {p : ExecutionPlan} (hv : validate p = .ok ()) (now : Nat)
    (hashes : Dict Text Text) :
    (∃ out, codegenWithSchemaHashes now p hashes = .ok out ∧ NeverFailsOnGraph out.compiled) ↔
      p.Runnable := by
  have hids : (Optimize.optimizeAll p).1.ids.Nodup :=
    (ids_nodup_of_validate hv).sublist (Optimize.optimizeAll_ids p)
  have hiff := ExecutionPlan.topologicalOrder_iff hids
  rcases codegen_cases now p hashes with ⟨order, horder, m, opts, out, hout, hcomp⟩ | ⟨hno, e, he⟩
  · have hord : (Optimize.optimizeAll p).1.Orderable := hiff.1 ⟨order, horder⟩
    have hrun : NeverFailsOnGraph out.compiled ↔
        (CompiledPlan.fromExecutionPlan (Optimize.optimizeAll p).1 []).Orderable := by
      rw [hcomp, neverFailsOnGraph_iff]
      exact orderable_metadata _ m opts []
    constructor
    · rintro ⟨out', hout', hnever⟩
      rw [hout] at hout'
      cases hout'
      exact ⟨hord, fun _ => hrun.1 hnever⟩
    · intro hr
      refine ⟨out, hout, hrun.2 ?_⟩
      by_cases hsize : (Optimize.optimizeAll p).1.nodes.length ≤ u32Max
      · exact CompiledPlan.orderable_of_ids [] hord hsize
      · exact hr.2 (by omega)
  · constructor
    · rintro ⟨out, hout, -⟩
      rw [he] at hout
      cases hout
    · intro hr
      obtain ⟨order, horder⟩ := hiff.2 hr.1
      exact absurd horder (hno order)

/-- A loop body with an edge back to its LOOP. -/
def backEdge : ExecutionPlan := ExecutionPlan.new
  [⟨"n0", .loop, [⟨"target", .string "i"⟩, ⟨"max_iterations", .int 1⟩], none, none, none⟩,
   ⟨"n1", .act, [⟨"type", .string "continue"⟩], none, none, none⟩,
   ⟨"n2", .calc, [⟨"expr", .string "1"⟩], none, none, none⟩]
  [Edge.new "n2" "n0", Edge.new "n0" "n1", Edge.new "n1" "n0"]

/-- It is accepted, and cannot be compiled. -/
theorem validate_backEdge : validate backEdge = .ok () ∧
    ∀ now hashes out, codegenWithSchemaHashes now backEdge hashes ≠ .ok out := by
  refine ⟨by decide +kernel, fun now hashes out hout => ?_⟩
  have herr : (Optimize.optimizeAll backEdge).1.topologicalOrder.isOk = false := by decide +kernel
  rcases codegen_cases now backEdge hashes with ⟨order, horder, -⟩ | ⟨-, e, he⟩
  · rw [horder] at herr
    cases herr
  · rw [he] at hout
    cases hout

theorem validate_runnable_countingLoop :
    (∃ out, codegenWithSchemaHashes 0 (countingLoop "i") Dict.empty = .ok out ∧
      NeverFailsOnGraph out.compiled) ↔ (countingLoop "i").Runnable :=
  validate_runnable rfl 0 Dict.empty

end Tinypipe
