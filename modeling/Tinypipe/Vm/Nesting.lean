import Tinypipe.Vm.Errors
import Tinypipe.Programs

/-! Nested subgraph executions (`tinypipe-tools/src/registry.rs`). Each nested call is run
by an executor of its own, which starts its depth counter at zero. -/

namespace Tinypipe

open Lib Lib.Stateful

/-! ### The limit of one executor -/

def CompiledPlan.withLimit (plan : CompiledPlan) (k : Nat) : CompiledPlan :=
  { plan with metadata := { plan.metadata with maxRecursionDepth := k } }

def Executor.withLimit (ex : Executor) (k : Nat) : Executor :=
  { ex with plan := ex.plan.withLimit k }

section Limit

variable {ex : Executor} {k : Nat} (h : ex.recursionDepth < ex.plan.metadata.maxRecursionDepth)
  (hk : ex.recursionDepth < k)

include h hk

theorem callSubgraph_withLimit (nd : CompiledNode) (name : Text) (params : Dict Text Value)
    (out : Option Text) :
    callSubgraph (ex.withLimit k) nd name params out = callSubgraph ex nd name params out := by
  have hno : ¬ex.plan.metadata.maxRecursionDepth ≤ ex.recursionDepth := by omega
  have hno' : ¬(ex.withLimit k).plan.metadata.maxRecursionDepth ≤ (ex.withLimit k).recursionDepth :=
    Nat.not_le.2 hk
  unfold callSubgraph
  rw [failIf_neg hno, failIf_neg hno']
  rfl

theorem armCall_withLimit (nd : CompiledNode) : armCall (ex.withLimit k) nd = armCall ex nd := by
  unfold armCall
  simp only [callSubgraph_withLimit h hk]
  rfl

theorem nodeArm_withLimit (visit : List Frame) (nd : CompiledNode) :
    nodeArm (ex.withLimit k) visit nd = nodeArm ex visit nd := by
  unfold nodeArm
  rw [armCall_withLimit h hk]
  rfl

theorem bodyArm_withLimit (visit : List Frame) (nd : CompiledNode) :
    bodyArm (ex.withLimit k) visit nd = bodyArm ex visit nd := by
  have hcall : bodyCall (ex.withLimit k) nd = bodyCall ex nd := by
    unfold bodyCall
    simp only [callSubgraph_withLimit h hk]
    rfl
  unfold bodyArm
  rw [hcall]
  rfl

theorem bodyNode_withLimit (visit : List Frame) (idx : Nat) :
    bodyNode (ex.withLimit k) visit idx = bodyNode ex visit idx := by
  unfold bodyNode
  simp only [bodyArm_withLimit h hk]
  rfl

theorem runBody_withLimit (visit : List Frame) (pause : Option PausePolicy) :
    ∀ (nodes : List Nat) (position : Nat),
      runBody (ex.withLimit k) visit pause position nodes = runBody ex visit pause position nodes
  | [], _ => rfl
  | idx :: rest, position => by
    unfold runBody
    simp only [bodyNode_withLimit h hk, runBody_withLimit visit pause rest]

theorem runIterations_withLimit (visit : List Frame) (pause : Option PausePolicy) (loop : Nat)
    (target : Option Text) (body : List Nat) : ∀ remaining iteration start,
      runIterations (ex.withLimit k) visit pause loop target body remaining iteration start =
        runIterations ex visit pause loop target body remaining iteration start
  | 0, _, _ => rfl
  | remaining + 1, iteration, start => by
    unfold runIterations
    simp only [runBody_withLimit h hk,
      runIterations_withLimit visit pause loop target body remaining]

theorem runLoop_withLimit (order : List Nat) (bodies : List (Nat × Finset Nat))
    (visit : List Frame) (pause : Option PausePolicy) (cursor : Nat × Nat) (nd : CompiledNode) :
    runLoop (ex.withLimit k) order bodies visit pause cursor nd =
      runLoop ex order bodies visit pause cursor nd := by
  unfold runLoop
  simp only [runIterations_withLimit h hk]
  rfl

omit h hk in
theorem runGroup_withLimit (runNode : CompiledNode → M NodeOutcome) (plan : CompiledPlan) :
    ∀ nodes : List Nat, runGroup runNode (plan.withLimit k) nodes = runGroup runNode plan nodes
  | [] => rfl
  | idx :: rest => by
    unfold runGroup
    simp only [runGroup_withLimit runNode plan rest]
    rfl

omit h hk in
theorem armParallel_withLimit (order : List Nat)
    (runNode : List Frame → CompiledNode → M NodeOutcome) (visit : List Frame) (nd : CompiledNode) :
    armParallel (ex.withLimit k) order runNode visit nd = armParallel ex order runNode visit nd := by
  have hplan : (ex.withLimit k).plan = ex.plan.withLimit k := rfl
  unfold armParallel
  simp only [hplan, runGroup_withLimit]
  rfl

theorem runNode_withLimit (order : List Nat) (bodies : List (Nat × Finset Nat)) : ∀ fuel : Nat,
    runNode (ex.withLimit k) order bodies fuel = runNode ex order bodies fuel
  | 0 => rfl
  | fuel + 1 => by
    funext visit pause nd
    unfold runNode runNodeWith runArm
    simp only [runLoop_withLimit h hk, nodeArm_withLimit h hk, armParallel_withLimit,
      runNode_withLimit order bodies fuel]
    rfl

theorem mainPass_withLimit (order : List Nat) (policy : PausePolicy) :
    ∀ (nodes : List Nat) (position : Nat),
      mainPass (ex.withLimit k) order policy nodes position = mainPass ex order policy nodes position
  | [], _ => rfl
  | idx :: rest, position => by
    unfold mainPass
    simp only [runNode_withLimit h hk, mainPass_withLimit order policy rest]
    rfl

/-- A limit that is not reached at the first call is not reached at all. -/
theorem execute_withLimit (inputs : Context) :
    execute (ex.withLimit k) inputs = execute ex inputs := by
  unfold execute executeWith
  simp only [mainPass_withLimit h hk]
  rfl

end Limit

/-! ### Subgraphs from a store -/

/-- The message of an error. -/
def ExecutionError.text : ExecutionError → Text
  | .cycleDetected => "Plan contains a cycle"
  | .nodeNotFound what => ("Node '" : Text) ++ what ++ ("' not found" : Text)
  | .callFailed name message =>
    ("CALL dispatch failed for '" : Text) ++ name ++ ("': " : Text) ++ message
  | .evalError message => ("Expression evaluation failed: " : Text) ++ message
  | .memoryLimitExceeded limit bytes => ("Context memory limit (" : Text) ++ Text.ofNat limit ++
      (" bytes) exceeded (approx " : Text) ++ Text.ofNat bytes ++ (" bytes)" : Text)
  | .nodeBudgetExceeded count budget => ("Node execution count (" : Text) ++ Text.ofNat count ++
      (") exceeded plan budget (" : Text) ++ Text.ofNat budget ++ [')']
  | .recursionLimitExceeded name =>
    ("Subgraph recursion limit exceeded for '" : Text) ++ name ++ ['\'']
  | .custom message => message
  | .versionMismatch message => ("IR version mismatch: " : Text) ++ message
  | .schemaDriftDetected tool compiled latest => ("Schema drift detected for tool '" : Text) ++
      tool ++ ("': compiled hash '" : Text) ++ compiled ++ ("' != registry hash '" : Text) ++
      latest ++ ['\'']

/-- The stored graphs by name, each as its decoded plan or the message of the failed
lookup, and the tools beside them. -/
structure Store where
  plan : Text → Except Text CompiledPlan
  tools : Registry

namespace Store

variable (store : Store)

/-- `run_subgraph` -/
def runSubgraph (registry : Registry) (name : Text) (input : Context) :
    Except Text (Context × Value) :=
  match store.plan name with
  | .error e => .error e
  | .ok plan =>
    -- a fresh executor
    match (execute ⟨plan, registry, 0⟩ input).result with
    | .ok (.completed r) => .ok (r.context, r.output.getD .null)
    -- the default policy never pauses
    | .ok (.paused _) => .error []
    | .error e => .error (("Execution failed: " : Text) ++ e.text)

/-- The registry the plans are executed with, on a machine with room for so many nested
executions. -/
def registry : Nat → Registry
  | 0 => { store.tools with executeSubgraph := fun _ _ => .error "stack exhausted" }
  | room + 1 => { store.tools with executeSubgraph := store.runSubgraph (registry room) }

/-- The run of a plan under `depth` others. -/
def run (room depth : Nat) (plan : CompiledPlan) (inputs : Context) : Segment :=
  execute ⟨plan, store.registry (room - depth), 0⟩ inputs

/-- An execution that the run of `entry` starts, with the number of executions around it. -/
inductive Nested (room : Nat) (entry : CompiledPlan) (inputs : Context) :
    Nat → CompiledPlan → Context → Prop
  | entry : Nested room entry inputs 0 entry inputs
  | call {depth : Nat} {plan child : CompiledPlan} {ctx input : Context} {name : Text} :
      Nested room entry inputs depth plan ctx → depth < room →
      .dispatch (.subgraph name input) ∈ (store.run room depth plan ctx).log →
      store.plan name = .ok child → Nested room entry inputs (depth + 1) child input

end Store

/-- The plan with its limit practically off; a limit of zero, which allows no call, stays. -/
def CompiledPlan.raised (plan : CompiledPlan) : CompiledPlan :=
  if plan.metadata.maxRecursionDepth = 0 then plan else plan.withLimit u32Max

def Store.raised (store : Store) : Store :=
  { store with plan := fun name => (store.plan name).map CompiledPlan.raised }

/-- What the recursion limit is for. -/
structure NestingBounded (store : Store) (entry : CompiledPlan) (inputs : Context) : Prop where
  depth_le : ∀ room depth plan ctx, store.Nested room entry inputs depth plan ctx →
    depth ≤ entry.metadata.maxRecursionDepth
  /-- a chain that would go deeper ends with the error -/
  cut : ∀ room depth plan ctx, store.raised.Nested room entry.raised inputs depth plan ctx →
    entry.metadata.maxRecursionDepth < depth → ∃ depth' plan' ctx' name,
      store.Nested room entry inputs depth' plan' ctx' ∧
      (store.run room depth' plan' ctx').result = .error (.recursionLimitExceeded name)
  /-- calls that are not nested do not -/
  only : ∀ room depth plan ctx name, store.Nested room entry inputs depth plan ctx →
    (store.run room depth plan ctx).result = .error (.recursionLimitExceeded name) →
    entry.metadata.maxRecursionDepth ≤ depth ∨ plan.metadata.maxRecursionDepth ≤ depth

section Nesting

variable {store : Store} {room : Nat} {entry : CompiledPlan} {inputs : Context}

theorem execute_raised (plan : CompiledPlan) (registry : Registry) :
    execute ⟨plan.raised, registry, 0⟩ inputs = execute ⟨plan, registry, 0⟩ inputs := by
  unfold CompiledPlan.raised
  split
  case isTrue => rfl
  case isFalse hpos =>
    have hlimit : (⟨plan, registry, 0⟩ : Executor).recursionDepth <
        (⟨plan, registry, 0⟩ : Executor).plan.metadata.maxRecursionDepth := Nat.pos_of_ne_zero hpos
    exact execute_withLimit hlimit (show 0 < u32Max by decide) inputs

theorem registry_raised : ∀ room, store.raised.registry room = store.registry room
  | 0 => rfl
  | room + 1 => by
    have hrun : store.raised.runSubgraph (store.registry room) =
        store.runSubgraph (store.registry room) := by
      funext name input
      unfold Store.runSubgraph
      cases hp : store.plan name with
      | error e => simp [Store.raised, hp, Except.map]
      | ok plan => simp [Store.raised, hp, Except.map, execute_raised]
    unfold Store.registry
    rw [registry_raised room, hrun]
    rfl

theorem run_raised (depth : Nat) (plan : CompiledPlan) (ctx : Context) :
    store.raised.run room depth plan.raised ctx = store.run room depth plan ctx := by
  rw [Store.run, registry_raised, execute_raised, Store.run]

/-- With the limits practically off the same executions are started. -/
theorem nested_raised {depth : Nat} {plan : CompiledPlan} {ctx : Context}
    (h : store.Nested room entry inputs depth plan ctx) :
    store.raised.Nested room entry.raised inputs depth plan.raised ctx := by
  induction h with
  | entry => exact .entry
  | @call depth plan child ctx input name _ hroom hlog hplan ih =>
    have hchild : store.raised.plan name = .ok child.raised := by
      simp [Store.raised, hplan, Except.map]
    refine .call ih hroom ?_ hchild
    rw [run_raised]
    exact hlog

theorem nested_of_raised {depth : Nat} {plan : CompiledPlan} {ctx : Context}
    (h : store.raised.Nested room entry.raised inputs depth plan ctx) :
    ∃ plan', plan = plan'.raised ∧ store.Nested room entry inputs depth plan' ctx := by
  induction h with
  | entry => exact ⟨entry, rfl, .entry⟩
  | @call depth plan child ctx input name _ hroom hlog hplan ih =>
    obtain ⟨plan', rfl, hnested⟩ := ih
    rw [run_raised] at hlog
    cases hp : store.plan name with
    | error e => simp [Store.raised, hp, Except.map] at hplan
    | ok child' =>
      obtain rfl : child'.raised = child := by simpa [Store.raised, hp, Except.map] using hplan
      exact ⟨child', rfl, hnested.call hroom hlog hp⟩

/-- An executor whose counter is below its limit never reports the limit. -/
theorem execute_ne_limit (ex : Executor)
    (h : ex.recursionDepth < ex.plan.metadata.maxRecursionDepth) (name : Text) :
    (execute ex inputs).result ≠ .error (.recursionLimitExceeded name) := by
  have harm : ArmErrors ex fun e => ∀ name, e ≠ .recursionLimitExceeded name := by
    refine ⟨?_, ?_, ?_, ?_, fun hle => absurd h (Nat.not_lt.2 hle), ?_, ?_⟩ <;> simp
  have hfound : ∀ nodes, Found ex (fun e => ∀ name, e ≠ .recursionLimitExceeded name) nodes :=
    fun nodes i _ _ what name => by simp
  intro hresult
  unfold execute executeWith at hresult
  split at hresult
  case h_1 e he =>
    cases hresult
    unfold checkVersionCompatibility at he
    split at he
    · cases he
    · split at he <;> cases he
  · split at hresult
    case h_1 e he =>
      cases hresult
      simp only [CompiledPlan.topologicalOrder] at he
      split at he <;> cases he
    case h_2 order horder =>
      cases hrun : mainPass ex order .default order 0 (initialState ex inputs) with
      | ok r t =>
        rw [hrun] at hresult
        cases r <;> cases hresult
      | error e t =>
        rw [hrun] at hresult
        cases hresult
        exact mainPass_throws harm (hfound order) .default order (hfound order) 0 _ _ _ hrun name rfl

end Nesting

/-- A plan that calls itself and returns. -/
def selfCall : CompiledPlan := CompiledPlan.fromExecutionPlan (ExecutionPlan.new
  [⟨"n0", .call, [⟨"target", .string "subgraph:self"⟩], none, none, none⟩,
   ⟨"n1", .act, [⟨"type", .string "return"⟩], none, none, none⟩]
  [Edge.new "n0" "n1"]) []

def selfStore : Store where
  plan := fun name => if name = ("self" : Text) then .ok selfCall else .error "not found"
  tools := echo

/-- The call that the recursion limit refused. -/
def Segment.refusedCall (s : Segment) : Option Text :=
  match s.result with
  | .error (.recursionLimitExceeded name) => some name
  | _ => none

def callsSelf : Event → Bool
  | .dispatch d => d = .subgraph "self" (inputsOf [])
  | _ => false

theorem selfCall_logged : ∀ room < 7,
    (execute ⟨selfCall, selfStore.registry room, 0⟩ (inputsOf [])).log.any callsSelf = true := by
  decide +kernel

theorem selfCall_nested : ∀ depth ≤ 6,
    selfStore.Nested 6 selfCall (inputsOf []) depth selfCall (inputsOf [])
  | 0, _ => .entry
  | depth + 1, h => by
    obtain ⟨e, he, hcall⟩ := List.any_eq_true.1 (selfCall_logged (6 - depth) (by omega))
    have hlog : .dispatch (.subgraph "self" (inputsOf [])) ∈
        (selfStore.run 6 depth selfCall (inputsOf [])).log := by
      cases e with
      | dispatch d =>
        obtain rfl : d = .subgraph "self" (inputsOf []) := of_decide_eq_true hcall
        exact he
      | node v i c o => cases hcall
      | iteration v loop i c o => cases hcall
      | decided v i b => cases hcall
      | write k v => cases hcall
    exact (selfCall_nested depth (by omega)).call (by omega) hlog rfl

end Tinypipe
