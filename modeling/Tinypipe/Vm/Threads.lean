import Tinypipe.Vm.Trace
import Tinypipe.Lib.Folds
import Tinypipe.Programs

/-! The branch threads of a PARALLEL against the same groups run one behind the other on the
shared state. A group is described by what it changes; groups that do not interfere change
the same from the snapshot of a thread as from the shared state, and the question is whether
the merge puts the changes together. -/

namespace Tinypipe

open Lib Lib.Stateful Lib.Folds

/-! ### The groups of a PARALLEL -/

namespace CompiledPlan

variable (plan : CompiledPlan) (order : List Nat) (nd : CompiledNode)

def children : List Nat := (plan.edgesFrom nd.index).map CompiledEdge.toIndex

def group (b : Nat) : List Nat :=
  branchGroup plan order (plan.collectReachableIndices (plan.children nd)) b

def groupIds : List Nat := branchIds plan order (plan.collectReachableIndices (plan.children nd))

end CompiledPlan

section Arm

variable (ex : Executor) (order : List Nat) (runNode : List Frame → CompiledNode → M NodeOutcome)
  (visit : List Frame) (nd : CompiledNode)

/-- What a PARALLEL does before it looks at its groups. -/
def openParallel : M Unit := do
  modify fun s => { s with ctx := s.ctx.enterParallel }
  (ex.plan.edgesFrom nd.index).forM fun e => do
    applyMapping e.mapping
    enable e.toIndex
  insertOutput nd.index .null

/-- The main pass is to skip the groups. -/
def setAside : M Unit :=
  modify fun s => { s with loopSkipped := s.loopSkipped ∪
    ((ex.plan.groupIds order nd).flatMap (ex.plan.group order nd)).toFinset }

def runBranch (b : Nat) : M Unit :=
  runGroup (runNode (visit ++ [.branch nd.index b])) ex.plan (ex.plan.group order nd b)

/-- The state the thread of a group starts from. -/
def branchState (s : ExecState) (b : Nat) : ExecState :=
  threadState s (ex.plan.children nd) (ex.plan.group order nd b)

/-- A group on the shared state. -/
def soloGroup (b : Nat) : M Unit := do
  modify fun s => { s with loopSkipped := s.loopSkipped.filter (· ∉ ex.plan.group order nd b) }
  runBranch ex order runNode visit nd b
  modify fun s => { s with loopSkipped := s.loopSkipped ∪ (ex.plan.group order nd b).toFinset }

/-- A PARALLEL without threads: the groups one behind the other. -/
def armSequential : M Unit := do
  openParallel ex nd
  if ex.plan.groupIds order nd = [] then pure ()
  else do
    setAside ex order nd
    (ex.plan.groupIds order nd).forM (soloGroup ex order runNode visit nd)

/-- The state in which the groups start. -/
def parallelStart (s : ExecState) : ExecState :=
  finalState ((openParallel ex nd >>= fun _ => setAside ex order nd) s)

end Arm

/-! ### What a group changes -/

/-- The changes of one group: values it writes, nodes it enables, control edges it counts,
nodes it sets aside, how many and which nodes it runs, and the scope it ends with. -/
structure Delta where
  outputs : Nat → Option Value
  enabled : Finset Nat
  control : Nat → Nat
  loopSkipped : Finset Nat
  nodeCount : Nat
  executionOrder : List Text
  scope : Option Scope

/-- From one state to the other, branch `b` has made the changes and nothing else. -/
structure Changes (b : Nat) (d : Delta) (s t : ExecState) : Prop where
  nodeOutputs : ∀ i, t.nodeOutputs i = (d.outputs i).or (s.nodeOutputs i)
  enabled : t.enabled = s.enabled ∪ d.enabled
  controlSatisfied : ∀ i, t.controlSatisfied i = s.controlSatisfied i + d.control i
  loopSkipped : t.loopSkipped = s.loopSkipped ∪ d.loopSkipped
  nodeCount : t.nodeCount = s.nodeCount + d.nodeCount
  executionOrder : t.executionOrder = s.executionOrder ++ d.executionOrder
  scope : t.ctx.branchScopes.get b = d.scope
  scopes : ∀ c, c ≠ b → t.ctx.branchScopes.get c = s.ctx.branchScopes.get c

/-- The state behind a PARALLEL, as far as the merge puts it together. -/
structure SameState (s t : ExecState) : Prop where
  nodeOutputs : s.nodeOutputs = t.nodeOutputs
  enabled : s.enabled = t.enabled
  controlSatisfied : s.controlSatisfied = t.controlSatisfied
  loopSkipped : s.loopSkipped = t.loopSkipped
  nodeCount : s.nodeCount = t.nodeCount
  executed : ∀ id, id ∈ s.executionOrder ↔ id ∈ t.executionOrder
  branchScopes : ∀ b, s.ctx.branchScopes.get b = t.ctx.branchScopes.get b

/-- Each group makes its changes in its turn. -/
def SoloRuns (solo : Nat → M Unit) (delta : Nat → Delta) : List Nat → ExecState → Prop
  | [], _ => True
  | b :: rest, s => ∃ t, solo b s = .ok () t ∧ Changes b (delta b) s t ∧ SoloRuns solo delta rest t

/-- The groups are independent: each makes the same changes from its thread's snapshot as in
its turn on the shared state. -/
structure Independent (ex : Executor) (order : List Nat)
    (runNode : List Frame → CompiledNode → M NodeOutcome) (visit : List Frame) (nd : CompiledNode)
    (delta : Nat → Delta) (s : ExecState) : Prop where
  thread : ∀ b ∈ ex.plan.groupIds order nd, ∃ t,
    runBranch ex order runNode visit nd b (branchState ex order nd s b) = .ok () t ∧
      Changes b (delta b) (branchState ex order nd s b) t
  solo : SoloRuns (soloGroup ex order runNode visit nd) delta (ex.plan.groupIds order nd) s

/-- The values recorded for a node, the one from before the groups first. -/
def recordedValues (before : Nat → Option Value) (delta : Nat → Delta) (bids : List Nat) (i : Nat) :
    List Value :=
  (before i).toList ++ bids.filterMap fun b => (delta b).outputs i

/-- What the merge needs of independent groups: at most one of them counts a control edge into
a node, the first value recorded for a node is the last, and the loops in the groups set aside
nothing that is not set aside yet. -/
structure Mergeable (ex : Executor) (order : List Nat) (nd : CompiledNode) (delta : Nat → Delta)
    (s : ExecState) : Prop where
  control : ∀ i, (ex.plan.groupIds order nd).Pairwise fun b c =>
    (delta b).control i = 0 ∨ (delta c).control i = 0
  outputs : ∀ i, (recordedValues s.nodeOutputs delta (ex.plan.groupIds order nd) i).head? =
    (recordedValues s.nodeOutputs delta (ex.plan.groupIds order nd) i).getLast?
  loopSkipped : ∀ b ∈ ex.plan.groupIds order nd, (delta b).loopSkipped ⊆ s.loopSkipped

/-- A chain of changes. -/
inductive Chain (delta : Nat → Delta) : List Nat → ExecState → ExecState → Prop
  | nil {s : ExecState} : Chain delta [] s s
  | cons {b : Nat} {rest : List Nat} {s t u : ExecState} :
      Changes b (delta b) s t → Chain delta rest t u → Chain delta (b :: rest) s u

section Chain

variable {delta : Nat → Delta} {bids : List Nat} {s t : ExecState}

theorem chain_of_soloRuns {solo : Nat → M Unit} : ∀ {bids : List Nat} {s : ExecState},
    SoloRuns solo delta bids s → ∃ t, (bids.forM solo : M PUnit) s = .ok () t ∧ Chain delta bids s t
  | [], s, _ => ⟨s, rfl, .nil⟩
  | b :: rest, s, h => by
    obtain ⟨t, ht, hc, hrest⟩ := h
    obtain ⟨u, hu, hchain⟩ := chain_of_soloRuns hrest
    refine ⟨u, ?_, .cons hc hchain⟩
    rw [forM_cons, bind_of_ok _ ht]
    exact hu

theorem Chain.nodeOutputs (h : Chain delta bids s t) (i : Nat) :
    t.nodeOutputs i = bids.foldl (fun o b => ((delta b).outputs i).or o) (s.nodeOutputs i) := by
  induction h with
  | nil => rfl
  | cons hc _ ih => rw [ih, hc.nodeOutputs i, List.foldl_cons]

theorem Chain.enabled (h : Chain delta bids s t) (i : Nat) :
    i ∈ t.enabled ↔ i ∈ s.enabled ∨ ∃ b ∈ bids, i ∈ (delta b).enabled := by
  induction h with
  | nil => simp
  | cons hc _ ih =>
    simp only [ih, hc.enabled, Finset.mem_union, List.mem_cons, exists_eq_or_imp, or_assoc]

theorem Chain.controlSatisfied (h : Chain delta bids s t) (i : Nat) :
    t.controlSatisfied i = s.controlSatisfied i + (bids.map fun b => (delta b).control i).sum := by
  induction h with
  | nil => rfl
  | cons hc _ ih => rw [ih, hc.controlSatisfied i, List.map_cons, List.sum_cons, Nat.add_assoc]

theorem Chain.loopSkipped (h : Chain delta bids s t) (i : Nat) :
    i ∈ t.loopSkipped ↔ i ∈ s.loopSkipped ∨ ∃ b ∈ bids, i ∈ (delta b).loopSkipped := by
  induction h with
  | nil => simp
  | cons hc _ ih =>
    simp only [ih, hc.loopSkipped, Finset.mem_union, List.mem_cons, exists_eq_or_imp, or_assoc]

theorem Chain.nodeCount (h : Chain delta bids s t) :
    t.nodeCount = s.nodeCount + (bids.map fun b => (delta b).nodeCount).sum := by
  induction h with
  | nil => rfl
  | cons hc _ ih => rw [ih, hc.nodeCount, List.map_cons, List.sum_cons, Nat.add_assoc]

theorem Chain.executionOrder (h : Chain delta bids s t) :
    t.executionOrder = s.executionOrder ++ bids.flatMap fun b => (delta b).executionOrder := by
  induction h with
  | nil => simp
  | cons hc _ ih => rw [ih, hc.executionOrder, List.flatMap_cons, List.append_assoc]

theorem Chain.scopes (h : Chain delta bids s t) (c : Nat) (hc : c ∉ bids) :
    t.ctx.branchScopes.get c = s.ctx.branchScopes.get c := by
  induction h with
  | nil => rfl
  | cons hchanges _ ih =>
    rw [List.mem_cons, not_or] at hc
    rw [ih hc.2, hchanges.scopes c hc.1]

theorem Chain.scope (h : Chain delta bids s t) (hnd : bids.Nodup) (b : Nat) (hb : b ∈ bids) :
    t.ctx.branchScopes.get b = (delta b).scope := by
  induction h with
  | nil => exact absurd hb List.not_mem_nil
  | cons hchanges hrest ih =>
    rw [List.nodup_cons] at hnd
    rcases List.mem_cons.1 hb with rfl | hb
    · rw [hrest.scopes _ hnd.1, hchanges.scope]
    · exact ih hnd.2 hb

end Chain

/-! ### The merge -/

section Join

variable {before : Nat → Nat} {thread : Nat → ExecState}

theorem joinThreads_cons (b : Nat) (t : ExecState) (threads : List (Nat × ExecState))
    (s : ExecState) :
    joinThreads before ((b, t) :: threads) s = joinThreads before threads (mergeThread before b t s) :=
  rfl

theorem join_nodeOutputs (i : Nat) : ∀ (bids : List Nat) (s : ExecState),
    (joinThreads before (bids.map fun b => (b, thread b)) s).nodeOutputs i =
      bids.foldl (fun o b => o.or ((thread b).nodeOutputs i)) (s.nodeOutputs i)
  | [], _ => rfl
  | b :: bids, s => by
    rw [List.map_cons, joinThreads_cons, join_nodeOutputs i bids, List.foldl_cons]
    rfl

theorem join_enabled (i : Nat) : ∀ (bids : List Nat) (s : ExecState),
    i ∈ (joinThreads before (bids.map fun b => (b, thread b)) s).enabled ↔
      i ∈ s.enabled ∨ ∃ b ∈ bids, i ∈ (thread b).enabled
  | [], s => by simp [joinThreads]
  | b :: bids, s => by
    rw [List.map_cons, joinThreads_cons, join_enabled i bids]
    simp only [mergeThread, Finset.mem_union, List.mem_cons, exists_eq_or_imp, or_assoc]

theorem join_controlSatisfied (i : Nat) : ∀ (bids : List Nat) (s : ExecState),
    (joinThreads before (bids.map fun b => (b, thread b)) s).controlSatisfied i =
      bids.foldl (fun c b => if before i < (thread b).controlSatisfied i then
        (thread b).controlSatisfied i else c) (s.controlSatisfied i)
  | [], _ => rfl
  | b :: bids, s => by
    rw [List.map_cons, joinThreads_cons, join_controlSatisfied i bids, List.foldl_cons]
    rfl

theorem join_loopSkipped : ∀ (bids : List Nat) (s : ExecState),
    (joinThreads before (bids.map fun b => (b, thread b)) s).loopSkipped = s.loopSkipped
  | [], _ => rfl
  | b :: bids, s => by
    rw [List.map_cons, joinThreads_cons, join_loopSkipped bids]
    rfl

theorem join_executionOrder : ∀ (bids : List Nat) (s : ExecState),
    (joinThreads before (bids.map fun b => (b, thread b)) s).executionOrder =
      s.executionOrder ++ bids.flatMap fun b => (thread b).executionOrder
  | [], s => by simp [joinThreads]
  | b :: bids, s => by
    rw [List.map_cons, joinThreads_cons, join_executionOrder bids, List.flatMap_cons,
      ← List.append_assoc]
    rfl

theorem mergeThread_scopes (b : Nat) (t s : ExecState) (c : Nat) :
    (mergeThread before b t s).ctx.branchScopes.get c =
      if c = b then (t.ctx.branchScopes.get b).or (s.ctx.branchScopes.get b)
      else s.ctx.branchScopes.get c := by
  simp only [mergeThread]
  cases t.ctx.branchScopes.get b with
  | none =>
    by_cases hc : c = b
    · rw [if_pos hc, Option.none_or, hc]
    · rw [if_neg hc]
  | some scope =>
    simp only [Context.insertBranchScope, Dict.get_set, Option.some_or]
    by_cases hc : c = b
    · rw [if_pos hc, if_pos hc.symm]
    · rw [if_neg hc, if_neg fun h => hc h.symm]

theorem join_scopes (c : Nat) : ∀ (bids : List Nat) (s : ExecState), bids.Nodup →
    (joinThreads before (bids.map fun b => (b, thread b)) s).ctx.branchScopes.get c =
      if c ∈ bids then ((thread c).ctx.branchScopes.get c).or (s.ctx.branchScopes.get c)
      else s.ctx.branchScopes.get c
  | [], s, _ => by simp [joinThreads]
  | b :: bids, s, hnd => by
    rw [List.nodup_cons] at hnd
    rw [List.map_cons, joinThreads_cons, join_scopes c bids _ hnd.2, mergeThread_scopes]
    by_cases hcb : c = b
    · subst hcb
      rw [if_neg hnd.1, if_pos rfl, if_pos List.mem_cons_self]
    · rw [if_neg hcb]
      simp [hcb]

end Join

/-! ### Both ways -/

section Arm

variable {ex : Executor} {order : List Nat} {runNode : List Frame → CompiledNode → M NodeOutcome}
  {visit : List Frame} {nd : CompiledNode}

/-- What opening a PARALLEL does to the scopes and the enabled nodes. -/
structure Opened (edges : List CompiledEdge) (s : ExecState) : Prop where
  activeBranch : s.ctx.activeBranch = none
  branchScopes : s.ctx.branchScopes = Dict.empty
  enabled : ∀ e ∈ edges, e.toIndex ∈ s.enabled

theorem Opened.set {edges : List CompiledEdge} {s : ExecState} (h : Opened edges s) (k : Text)
    (v : Value) : Opened edges { s with ctx := s.ctx.set k v, log := s.log ++ [.write k v] } := by
  have hset : (s.ctx.set k v).activeBranch = none ∧ (s.ctx.set k v).branchScopes = Dict.empty := by
    unfold Context.set
    split
    case h_1 b hb =>
      rw [h.activeBranch] at hb
      cases hb
    · exact ⟨h.activeBranch, h.branchScopes⟩
  exact ⟨hset.1, hset.2, h.enabled⟩

theorem applyPairs_opened {edges : List CompiledEdge} : ∀ (pairs : List (Text × Text)) (s : ExecState),
    Opened edges s → ∃ t, applyPairs pairs s = .ok () t ∧ Opened edges t
  | [], s, h => ⟨s, rfl, h⟩
  | (a, b) :: pairs, s, h => by
    cases hv : s.ctx.get a with
    | none =>
      obtain ⟨t, ht, ho⟩ := applyPairs_opened pairs s h
      have hcopy : copyVar a b s = .ok () s := by simp only [copyVar, get_bind, hv, pure_apply]
      exact ⟨t, by rw [applyPairs, bind_of_ok _ hcopy, ht], ho⟩
    | some v =>
      obtain ⟨t, ht, ho⟩ := applyPairs_opened pairs _ (h.set b v)
      have hcopy : copyVar a b s =
          .ok () { s with ctx := s.ctx.set b v, log := s.log ++ [.write b v] } := by
        simp only [copyVar, get_bind, hv, setVar, modify_apply]
      exact ⟨t, by rw [applyPairs, bind_of_ok _ hcopy, ht], ho⟩

theorem openEdges_opened : ∀ (edges done : List CompiledEdge) (s : ExecState), Opened done s →
    ∃ t, (edges.forM fun e => do applyMapping e.mapping; enable e.toIndex : M PUnit) s = .ok () t ∧
      Opened (done ++ edges) t
  | [], done, s, h => ⟨s, rfl, by rwa [List.append_nil]⟩
  | e :: edges, done, s, h => by
    obtain ⟨t, ht, ho⟩ := applyPairs_opened (e.mapping.getD []) s h
    have hone : Opened (done ++ [e]) { t with enabled := insert e.toIndex t.enabled } := by
      refine ⟨ho.activeBranch, ho.branchScopes, fun e' he' => ?_⟩
      rcases List.mem_append.1 he' with he' | he'
      · exact Finset.mem_insert_of_mem (ho.enabled e' he')
      · rw [List.mem_singleton.1 he']
        exact Finset.mem_insert_self _ _
    obtain ⟨u, hu, ho'⟩ := openEdges_opened edges (done ++ [e]) _ hone
    refine ⟨u, ?_, by rwa [List.append_assoc, List.singleton_append] at ho'⟩
    have hstep : (do applyMapping e.mapping; enable e.toIndex : M PUnit) s =
        .ok () { t with enabled := insert e.toIndex t.enabled } := by
      rw [applyMapping, bind_of_ok _ ht]
      rfl
    rw [forM_cons, bind_of_ok _ hstep, hu]

theorem openParallel_opened (s : ExecState) :
    ∃ t, openParallel ex nd s = .ok () t ∧ Opened (ex.plan.edgesFrom nd.index) t := by
  obtain ⟨t, ht, ho⟩ := openEdges_opened (ex.plan.edgesFrom nd.index) []
    { s with ctx := s.ctx.enterParallel } ⟨rfl, rfl, by simp⟩
  refine ⟨{ t with nodeOutputs := Function.update t.nodeOutputs nd.index (some .null) }, ?_,
    ho.activeBranch, ho.branchScopes, ho.enabled⟩
  rw [openParallel, modify_bind, bind_of_ok _ ht]
  rfl

theorem armParallel_eq : armParallel ex order runNode visit nd = (do
    openParallel ex nd
    if ex.plan.groupIds order nd = [] then pure ()
    else do
      setAside ex order nd
      let s ← get
      let results := (ex.plan.groupIds order nd).map fun b =>
        (b, runBranch ex order runNode visit nd b (branchState ex order nd s b))
      modify fun s => { s with log := s.log ++ results.flatMap fun r => threadLog r.2 }
      match collectThreads results with
      | .error e => throw e
      | .ok threads => modify (joinThreads s.controlSatisfied threads)) := by
  unfold openParallel
  simp only [bind_assoc]
  rfl

theorem collectThreads_ok {results : Nat → EStateM.Result ExecutionError ExecState Unit}
    {thread : Nat → ExecState} : ∀ {bids : List Nat}, (∀ b ∈ bids, results b = .ok () (thread b)) →
      collectThreads (bids.map fun b => (b, results b)) = .ok (bids.map fun b => (b, thread b))
  | [], _ => rfl
  | b :: bids, h => by
    rw [List.map_cons, List.map_cons, h b List.mem_cons_self, collectThreads,
      collectThreads_ok fun c hc => h c (List.mem_cons_of_mem _ hc)]
    rfl

section Merge

variable {delta : Nat → Delta} {s u : ExecState} {thread : Nat → ExecState} {log : List Event}
  (hthread : ∀ b ∈ ex.plan.groupIds order nd,
    Changes b (delta b) (branchState ex order nd s b) (thread b))
  (hchain : Chain delta (ex.plan.groupIds order nd) s u)

/-- The state behind the merge. -/
def joined (ex : Executor) (order : List Nat) (nd : CompiledNode) (thread : Nat → ExecState)
    (log : List Event) (s : ExecState) : ExecState :=
  joinThreads s.controlSatisfied ((ex.plan.groupIds order nd).map fun b => (b, thread b))
    { s with log := log }

include hthread hchain

theorem joined_nodeOutputs_iff : (joined ex order nd thread log s).nodeOutputs = u.nodeOutputs ↔
    ∀ i, (recordedValues s.nodeOutputs delta (ex.plan.groupIds order nd) i).head? =
      (recordedValues s.nodeOutputs delta (ex.plan.groupIds order nd) i).getLast? := by
  refine funext_iff.trans (forall_congr' fun i => ?_)
  have hfold : (joined ex order nd thread log s).nodeOutputs i =
      (ex.plan.groupIds order nd).foldl
        (fun o b => o.or (((delta b).outputs i).or (s.nodeOutputs i))) (s.nodeOutputs i) := by
    rw [joined, join_nodeOutputs]
    exact List.foldl_ext _ _ _ fun o b hb => by rw [(hthread b hb).nodeOutputs i]; rfl
  rw [hfold, hchain.nodeOutputs, foldl_or_or, foldl_or_eq_head?, foldl_or_eq_getLast?]
  rfl

theorem joined_controlSatisfied_iff :
    (joined ex order nd thread log s).controlSatisfied = u.controlSatisfied ↔
      ∀ i, (ex.plan.groupIds order nd).Pairwise fun b c =>
        (delta b).control i = 0 ∨ (delta c).control i = 0 := by
  refine funext_iff.trans (forall_congr' fun i => ?_)
  have hfold : (joined ex order nd thread log s).controlSatisfied i =
      s.controlSatisfied i + (ex.plan.groupIds order nd).foldl
        (fun c b => if 0 < (delta b).control i then (delta b).control i else c) 0 := by
    rw [joined, join_controlSatisfied, ← foldl_last_add, Nat.add_zero]
    refine List.foldl_ext _ _ _ fun c b hb => ?_
    rw [(hthread b hb).controlSatisfied i]
    simp [branchState, threadState]
  have hlast := (foldl_last_eq_sum (k := fun b => (delta b).control i)
    (ex.plan.groupIds order nd) 0).2
  rw [Nat.zero_add] at hlast
  rw [hfold, hchain.controlSatisfied, Nat.add_left_cancel_iff, hlast]
  simp

omit hthread in
theorem joined_loopSkipped_iff :
    (joined ex order nd thread log s).loopSkipped = u.loopSkipped ↔
      ∀ b ∈ ex.plan.groupIds order nd, (delta b).loopSkipped ⊆ s.loopSkipped := by
  rw [joined, join_loopSkipped, Finset.ext_iff]
  constructor
  · intro heq b hb i hi
    exact (heq i).2 ((hchain.loopSkipped i).2 (Or.inr ⟨b, hb, hi⟩))
  · intro hsub i
    rw [hchain.loopSkipped i]
    refine ⟨Or.inl, ?_⟩
    rintro (hi | ⟨b, hb, hi⟩)
    · exact hi
    · exact hsub b hb hi

theorem joined_enabled (henabled : ∀ i ∈ ex.plan.children nd, i ∈ s.enabled) :
    (joined ex order nd thread log s).enabled = u.enabled := by
  ext i
  rw [joined, join_enabled, hchain.enabled]
  constructor
  · rintro (hi | ⟨b, hb, hi⟩)
    · exact Or.inl hi
    · rw [(hthread b hb).enabled, Finset.mem_union] at hi
      rcases hi with hi | hi
      · -- a thread starts with children of the PARALLEL, which are enabled in the snapshot
        rw [branchState, threadState, List.mem_toFinset, List.mem_filter] at hi
        exact Or.inl (henabled i hi.1)
      · exact Or.inr ⟨b, hb, hi⟩
  · rintro (hi | ⟨b, hb, hi⟩)
    · exact Or.inl hi
    · refine Or.inr ⟨b, hb, ?_⟩
      rw [(hthread b hb).enabled]
      exact Finset.mem_union_right _ hi

theorem joined_nodeCount : (joined ex order nd thread log s).nodeCount = u.nodeCount := by
  rw [joined, joinThreads_count, hchain.nodeCount, List.map_map]
  congr 2
  refine List.map_congr_left fun b hb => ?_
  rw [Function.comp_apply, (hthread b hb).nodeCount]
  exact Nat.zero_add _

theorem joined_executionOrder :
    (joined ex order nd thread log s).executionOrder = u.executionOrder := by
  rw [joined, join_executionOrder, hchain.executionOrder]
  congr 1
  refine List.flatMap_congr fun b hb => ?_
  rw [(hthread b hb).executionOrder]
  rfl

theorem joined_branchScopes (hscopes : s.ctx.branchScopes = Dict.empty) (b : Nat) :
    (joined ex order nd thread log s).ctx.branchScopes.get b = u.ctx.branchScopes.get b := by
  have hnd : (ex.plan.groupIds order nd).Nodup := branchIds_nodup _ _ _
  rw [joined, join_scopes b _ _ hnd]
  by_cases hb : b ∈ ex.plan.groupIds order nd
  · rw [if_pos hb, hchain.scope hnd b hb, (hthread b hb).scope]
    simp [hscopes]
  · rw [if_neg hb, hchain.scopes b hb]

theorem joined_sameState_iff (hscopes : s.ctx.branchScopes = Dict.empty)
    (henabled : ∀ i ∈ ex.plan.children nd, i ∈ s.enabled) :
    SameState (joined ex order nd thread log s) u ↔ Mergeable ex order nd delta s := by
  constructor
  · intro h
    exact ⟨(joined_controlSatisfied_iff hthread hchain).1 h.controlSatisfied,
      (joined_nodeOutputs_iff hthread hchain).1 h.nodeOutputs,
      (joined_loopSkipped_iff hchain).1 h.loopSkipped⟩
  · intro h
    exact {
      nodeOutputs := (joined_nodeOutputs_iff hthread hchain).2 h.outputs
      enabled := joined_enabled hthread hchain henabled
      controlSatisfied := (joined_controlSatisfied_iff hthread hchain).2 h.control
      loopSkipped := (joined_loopSkipped_iff hchain).2 h.loopSkipped
      nodeCount := joined_nodeCount hthread hchain
      executed := fun id => by rw [joined_executionOrder hthread hchain]
      branchScopes := joined_branchScopes hthread hchain hscopes }

end Merge

end Arm

/-! ### A node behind two branches -/

/-- Two branches of one node each, and a return behind both. -/
def joinPlan : ExecutionPlan := ExecutionPlan.new
  [⟨"n0", .parallel, [], none, none, none⟩,
   ⟨"n1", .wait, [], none, some 0, none⟩,
   ⟨"n2", .wait, [], none, some 1, none⟩,
   ⟨"n3", .act, [⟨"type", .string "return"⟩], none, none, none⟩]
  [Edge.new "n0" "n1", Edge.new "n0" "n2", Edge.control "n1" "n3", Edge.control "n2" "n3"]

def joinExecutor : Executor := Executor.of (CompiledPlan.fromExecutionPlan joinPlan [])

def joinOrder : List Nat := joinExecutor.plan.topologicalOrder.toOption.getD []

def joinNode : CompiledNode := ⟨0, "n0", .parallel, [], none, none, none⟩

def joinRunNode (visit : List Frame) (nd : CompiledNode) : M NodeOutcome :=
  runNode joinExecutor joinOrder [] 1 visit none nd

/-- The state in which the opcode arm of the PARALLEL starts. -/
def joinStart : ExecState :=
  finalState (enterNode joinExecutor [] joinNode (initialState joinExecutor (inputsOf [])))

def joinThreaded : ExecState :=
  finalState (armParallel joinExecutor joinOrder joinRunNode [] joinNode joinStart)

def joinSequential : ExecState :=
  finalState (armSequential joinExecutor joinOrder joinRunNode [] joinNode joinStart)

/-- What branch `b` of the two changes. -/
def joinDelta (b : Nat) : Delta where
  outputs := fun i => if i = b + 1 then some .null else none
  enabled := {3}
  control := fun i => if i = 3 then 1 else 0
  loopSkipped := ∅
  nodeCount := 1
  executionOrder := [("n" : Text) ++ Text.ofNat (b + 1)]
  scope := some Scope.new

theorem update_some (f : Nat → Option Value) (k i : Nat) (v : Value) :
    Function.update f k (some v) i = (if i = k then some v else none).or (f i) := by
  by_cases h : i = k
  · rw [h, Function.update_self, if_pos rfl, Option.some_or]
  · rw [Function.update_of_ne h, if_neg h, Option.none_or]

theorem update_add_one (f : Nat → Nat) (k i : Nat) :
    Function.update f k (f k + 1) i = f i + if i = k then 1 else 0 := by
  by_cases h : i = k
  · rw [h, Function.update_self, if_pos rfl]
  · rw [Function.update_of_ne h, if_neg h, Nat.add_zero]

theorem joinDelta_threads : ∀ b ∈ [0, 1], ∃ t,
    runBranch joinExecutor joinOrder joinRunNode [] joinNode b
      (branchState joinExecutor joinOrder joinNode
        (parallelStart joinExecutor joinOrder joinNode joinStart) b) = .ok () t ∧
      Changes b (joinDelta b) (branchState joinExecutor joinOrder joinNode
        (parallelStart joinExecutor joinOrder joinNode joinStart) b) t := by
  intro b hb
  rcases List.mem_pair.1 hb with rfl | rfl
  all_goals
    exact ⟨_, rfl, fun i => update_some _ _ i _, by decide +kernel, fun i => update_add_one _ _ i,
      by decide +kernel, by decide +kernel, by decide +kernel, by decide +kernel,
      fun c hc => Dict.get_set_ne _ hc.symm _⟩

theorem joinDelta_solo :
    SoloRuns (soloGroup joinExecutor joinOrder joinRunNode [] joinNode) joinDelta [0, 1]
      (parallelStart joinExecutor joinOrder joinNode joinStart) := by
  refine ⟨_, rfl, ?_, _, rfl, ?_, trivial⟩
  all_goals
    exact ⟨fun i => update_some _ _ i _, by decide +kernel, fun i => update_add_one _ _ i,
      by decide +kernel, by decide +kernel, by decide +kernel, by decide +kernel,
      fun c hc => Dict.get_set_ne _ hc.symm _⟩

theorem joinExecutor_groupIds : joinExecutor.plan.groupIds joinOrder joinNode = [0, 1] := by
  decide +kernel

theorem joinDelta_independent :
    Independent joinExecutor joinOrder joinRunNode [] joinNode joinDelta
      (parallelStart joinExecutor joinOrder joinNode joinStart) where
  thread := joinExecutor_groupIds ▸ joinDelta_threads
  solo := joinExecutor_groupIds ▸ joinDelta_solo

end Tinypipe
