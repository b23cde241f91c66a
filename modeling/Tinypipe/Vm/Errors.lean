import Tinypipe.Vm.PausedRun

/-! The errors a run ends with. An arm never reports a cycle or a node that is not there;
over an order of the plan's own nodes neither does a run, however it is paused. -/

namespace Tinypipe

open Lib Lib.Stateful

/-- The errors of a plan whose graph cannot be walked. -/
def ExecutionError.isGraphError : ExecutionError → Bool
  | .cycleDetected | .nodeNotFound _ => true
  | .callFailed _ _ | .evalError _ | .memoryLimitExceeded _ _ | .nodeBudgetExceeded _ _
  | .recursionLimitExceeded _ | .custom _ | .versionMismatch _ | .schemaDriftDetected _ _ _ => false

theorem checkVersion_isGraphError {v : Nat} {e : ExecutionError}
    (h : checkVersionCompatibility v = .error e) : e.isGraphError = false := by
  unfold checkVersionCompatibility at h
  split at h
  · cases h
    rfl
  · split at h
    · cases h
      rfl
    · cases h

/-- A property of errors that every error of an arm has. -/
structure ArmErrors (ex : Executor) (E : ExecutionError → Prop) : Prop where
  callFailed : ∀ name message, E (.callFailed name message)
  evalError : ∀ message, E (.evalError message)
  memoryLimit : ∀ limit bytes, E (.memoryLimitExceeded limit bytes)
  nodeBudget : ∀ count budget, E (.nodeBudgetExceeded count budget)
  recursionLimit : ex.plan.metadata.maxRecursionDepth ≤ ex.recursionDepth →
    ∀ name, E (.recursionLimitExceeded name)
  custom : ∀ message, E (.custom message)
  schemaDrift : ∀ tool compiled latest, E (.schemaDriftDetected tool compiled latest)

theorem armErrors_isGraphError (ex : Executor) : ArmErrors ex fun e => e.isGraphError = false where
  callFailed _ _ := rfl
  evalError _ := rfl
  memoryLimit _ _ := rfl
  nodeBudget _ _ := rfl
  recursionLimit _ _ := rfl
  custom _ := rfl
  schemaDrift _ _ _ := rfl

section Arms

variable {ex : Executor} {visit : List Frame} {nd : CompiledNode} {E : ExecutionError → Prop}

theorem failIf_throws {c : Prop} [Decidable c] {e : ExecutionError} (h : c → E e) :
    Throws E (failIf c e : M Unit) := by
  unfold failIf
  split
  case isTrue hc => exact Throws.throw (h hc)
  case isFalse => exact Throws.pure _

theorem writeOutput_throws (name : Option Text) (v : Value) : Throws E (writeOutput name v) := by
  cases name with
  | none => exact Throws.pure _
  | some k => exact Throws.modify _

theorem setVars_throws : ∀ es, Throws E (setVars es)
  | [] => Throws.pure _
  | _ :: es => Throws.bind (Throws.modify _) fun _ => setVars_throws es


theorem applyPairs_throws : ∀ ps, Throws E (applyPairs ps)
  | [] => Throws.pure _
  | _ :: ps => by
    refine Throws.bind (Throws.get_bind fun s => ?_) fun _ => applyPairs_throws ps
    split
    · exact Throws.modify _
    · exact Throws.pure _

theorem applyMapping_throws (m : Option (List (Text × Text))) : Throws E (applyMapping m) :=
  applyPairs_throws _

variable (h : ArmErrors ex E)

include h

theorem eval_throws (text : Text) : Throws E (eval text) := by
  refine Throws.get_bind fun s => ?_
  split
  · exact Throws.pure _
  · exact Throws.throw (h.evalError _)

theorem countNode_throws (plan : CompiledPlan) : Throws E (countNode plan) :=
  Throws.bind (Throws.modify _) fun _ => Throws.get_bind fun _ =>
    failIf_throws fun _ => h.nodeBudget _ _

theorem checkMemory_throws (plan : CompiledPlan) : Throws E (checkMemory plan) :=
  Throws.get_bind fun _ => failIf_throws fun _ => h.memoryLimit _ _

theorem edgeFires_throws (plan : CompiledPlan) (e : CompiledEdge) : Throws E (edgeFires nd plan e) := by
  have heval : ∀ c, Throws E (do return isTruthy (← eval c) : M Bool) :=
    fun c => Throws.bind (eval_throws h c) fun _ => Throws.pure _
  unfold edgeFires
  split
  · exact Throws.pure _
  · refine Throws.get_bind fun s => ?_
    split
    · exact Throws.ite (Throws.pure _) (heval _)
    · exact heval _

omit h in
theorem followEdge_throws (b : Bool) (e : CompiledEdge) : Throws E (followEdge b e) :=
  Throws.ite (Throws.bind (applyMapping_throws _) fun _ => Throws.modify _) (Throws.pure _)

theorem propagate_throws (plan : CompiledPlan) : Throws E (propagate plan nd) := by
  refine Throws.ite (Throws.forM (fun e => Throws.ite ?_ ?_) _) (Throws.pure _)
  · exact Throws.bind (Throws.modify _) fun _ => Throws.modify _
  · exact Throws.bind (edgeFires_throws h plan e) fun b => followEdge_throws b e

theorem armCalc_throws : Throws E (armCalc nd) := by
  refine Throws.bind (eval_throws h _) fun v => Throws.bind (Throws.modify _) fun _ => ?_
  split
  · exact Throws.modify _
  · exact Throws.pure _

theorem callSubgraph_throws (name : Text) (params : Dict Text Value) (out : Option Text) :
    Throws E (callSubgraph ex nd name params out) := by
  refine Throws.get_bind fun s => Throws.bind (failIf_throws fun hlimit =>
    h.recursionLimit hlimit _) fun _ => Throws.bind (Throws.modify _) fun _ => ?_
  split
  · exact Throws.throw (h.callFailed _ _)
  · exact Throws.bind (setVars_throws _) fun _ => Throws.bind (writeOutput_throws _ _)
      fun _ => Throws.modify _

theorem checkSchemaDrift_throws (target : Text) : Throws E (checkSchemaDrift ex target) := by
  unfold checkSchemaDrift
  split
  case h_1 e he =>
    refine Throws.throw ?_
    simp only [schemaDrift] at he
    split at he
    · split at he
      · split at he
        · cases he
          exact h.schemaDrift _ _ _
        · cases he
      · cases he
    · cases he
  · exact Throws.pure _

omit h in
theorem record_throws (out : Option Text) (i : Nat) (v : Value) :
    Throws E (do writeOutput out v; insertOutput i v : M Unit) :=
  Throws.bind (writeOutput_throws _ _) fun _ => Throws.modify _

omit h in
theorem dispatchCall_throws (call : CallTarget) : Throws E (dispatchCall ex call) :=
  Throws.get_bind fun _ => Throws.bind (Throws.modify _) fun _ => Throws.pure _

theorem armCall_throws : Throws E (armCall ex nd) := by
  refine Throws.get_bind fun s => Throws.ite (callSubgraph_throws h _ _ _)
    (Throws.bind (checkSchemaDrift_throws h _) fun _ => Throws.bind (dispatchCall_throws _) fun r => ?_)
  split
  · exact record_throws _ _ _
  · split
    · exact record_throws _ _ _
    · exact Throws.throw (h.callFailed _ _)

omit h in
theorem switchEdges_throws (source : Text) : ∀ (matched : Bool) (es : List CompiledEdge),
    Throws E (switchEdges source matched es)
  | _, [] => Throws.pure _
  | _, _ :: es => Throws.bind (followEdge_throws _ _) fun _ => switchEdges_throws source _ es

theorem nodeArm_throws : Throws E (nodeArm ex visit nd) := by
  unfold nodeArm
  split
  · refine Throws.get_bind fun s => ?_
    split
    · exact Throws.modify _
    · exact Throws.modify _
    · exact Throws.pure _
  · exact armCalc_throws h
  · exact armCall_throws h
  · exact Throws.get_bind fun s => Throws.bind (Throws.modify _) fun _ => Throws.modify _
  · refine Throws.bind (Throws.modify _) fun _ => Throws.ite ?_ (Throws.pure _)
    exact Throws.get_bind fun s => Throws.bind (Throws.modify _) fun _ => Throws.modify _
  · exact Throws.get_bind fun s => Throws.bind (switchEdges_throws _ _ _) fun _ => Throws.modify _
  · exact Throws.bind (failIf_throws fun _ => h.custom _) fun _ => Throws.modify _
  · exact Throws.bind (Throws.modify _) fun _ => Throws.get_bind fun s => Throws.modify _
  · exact Throws.throw (h.custom _)
  · exact Throws.pure _
  · exact Throws.pure _

theorem bodyArm_throws : Throws E (bodyArm ex visit nd) := by
  have next : ∀ {x : M Unit} (b : BodyFlow), Throws E x → Throws E (do x; pure b : M BodyFlow) :=
    fun b hx => Throws.bind hx fun _ => Throws.pure b
  unfold bodyArm
  split
  · exact next _ (armCalc_throws h)
  · refine Throws.get_bind fun s => Throws.ite (next _ (callSubgraph_throws h _ _ _))
      (Throws.bind (dispatchCall_throws _) fun r => ?_)
    split
    · exact Throws.bind (writeOutput_throws _ _) fun _ => next _ (Throws.modify _)
    · exact Throws.throw (h.callFailed _ _)
  · refine Throws.bind ?_ fun b => Throws.bind (Throws.modify _) fun _ => next _ (Throws.modify _)
    unfold evalCondition
    split
    · exact Throws.map (eval_throws h _) _
    · exact Throws.pure _
  · refine next _ (Throws.get_bind fun s => ?_)
    split
    · exact Throws.modify _
    · exact Throws.pure _
  · refine Throws.ite ?_ (Throws.ite (Throws.pure _) (Throws.ite (Throws.pure _)
      (next _ (Throws.modify _))))
    exact Throws.get_bind fun s => next _ (Throws.modify _)
  all_goals exact next _ (Throws.modify _)

omit h in
theorem finishLoop_throws {bodies : List (Nat × Finset Nat)} : Throws E (finishLoop ex bodies nd) := by
  refine Throws.bind ?_ fun _ => Throws.bind ?_ fun _ => Throws.bind (Throws.modify _)
    fun _ => Throws.pure _
  · refine Throws.get_bind fun s => Throws.ite ?_ (Throws.pure _)
    refine Throws.bind (Throws.forM (fun nd' => ?_) _) fun _ => Throws.forM (fun nd' => ?_) _
    · refine Throws.get_bind fun s => Throws.ite ?_ (Throws.pure _)
      split
      · split
        · exact Throws.modify _
        · exact Throws.pure _
      · exact Throws.pure _
    · exact Throws.get_bind fun s => Throws.ite (Throws.ite (Throws.modify _) (Throws.pure _))
        (Throws.pure _)
  · refine Throws.forM (fun e => Throws.ite (Throws.pure _) (Throws.bind ?_ fun _ =>
      Throws.modify _)) _
    exact Throws.ite (Throws.modify _) (applyMapping_throws _)

end Arms

section Runs

variable {ex : Executor} {order : List Nat} {bodies : List (Nat × Finset Nat)}
  {E : ExecutionError → Prop}

/-- A node that is not there may be reported, where one is not. -/
def Found (ex : Executor) (E : ExecutionError → Prop) (nodes : List Nat) : Prop :=
  ∀ i ∈ nodes, ex.plan.getNode i = none → ∀ what, E (.nodeNotFound what)

theorem Found.subset {nodes nodes' : List Nat} (h : Found ex E nodes) (hsub : nodes' ⊆ nodes) :
    Found ex E nodes' := fun i hi => h i (hsub hi)

variable (h : ArmErrors ex E)

include h

theorem bodyNode_throws {visit : List Frame} {idx : Nat} {rest : List Nat}
    (hf : Found ex E (idx :: rest)) : Throws E (bodyNode ex visit idx) := by
  unfold bodyNode
  split
  case h_1 hnone => exact Throws.throw (hf idx List.mem_cons_self hnone _)
  · exact Throws.get_bind fun s => Throws.ite (Throws.pure _) (Throws.bind (countNode_throws h _)
      fun _ => Throws.bind (Throws.modify _) fun _ => Throws.bind (bodyArm_throws h)
        fun _ => Throws.pure _)

theorem runBody_throws {visit : List Frame} {pause : Option PausePolicy} :
    ∀ (nodes : List Nat), Found ex E nodes → ∀ position : Nat,
      Throws E (runBody ex visit pause position nodes)
  | [], _, _ => Throws.pure _
  | idx :: rest, hf, position => by
    have hrest : ∀ position, Throws E (runBody ex visit pause position rest) :=
      runBody_throws rest (hf.subset (List.subset_cons_self _ _))
    refine Throws.bind (bodyNode_throws h hf) fun r => ?_
    split
    · exact hrest _
    · exact hrest _
    · exact Throws.pure _
    · exact Throws.pure _
    · exact Throws.get_bind fun s => Throws.ite (Throws.pure _) (hrest _)

theorem runIterations_throws {visit : List Frame} {pause : Option PausePolicy} {loop : Nat}
    {target : Option Text} {body : List Nat} (hf : Found ex E body) :
    ∀ remaining iteration start,
      Throws E (runIterations ex visit pause loop target body remaining iteration start)
  | 0, _, _ => Throws.pure _
  | remaining + 1, iteration, start => by
    refine Throws.bind (writeOutput_throws _ _) fun _ => Throws.bind (Throws.modify _) fun _ =>
      Throws.bind (runBody_throws h _ (hf.subset (List.drop_subset _ _)) _) fun r => ?_
    split
    · exact runIterations_throws hf remaining _ _
    · exact Throws.pure _
    · exact Throws.pure _

theorem runLoop_throws (hf : Found ex E order) {visit : List Frame} {pause : Option PausePolicy}
    (cursor : Nat × Nat) (nd : CompiledNode) :
    Throws E (runLoop ex order bodies visit pause cursor nd) := by
  refine Throws.get_bind fun s => Throws.ite finishLoop_throws (Throws.bind (Throws.modify _)
    fun _ => Throws.bind (runIterations_throws h (hf.subset (List.filter_subset_self _)) _ _ _)
      fun r => ?_)
  split
  · exact Throws.pure _
  · exact finishLoop_throws

omit h in
theorem runGroup_throws {runNode : CompiledNode → M NodeOutcome}
    (hrun : ∀ nd, Throws E (runNode nd)) :
    ∀ nodes : List Nat, Found ex E nodes → Throws E (runGroup runNode ex.plan nodes)
  | [], _ => Throws.pure _
  | idx :: rest, hf => by
    unfold runGroup
    split
    case h_1 hnone => exact Throws.throw (hf idx List.mem_cons_self hnone _)
    · exact Throws.bind (hrun _) fun _ => runGroup_throws hrun rest
        (hf.subset (List.subset_cons_self _ _))

omit h in
theorem error_of_collectThreads :
    ∀ {results : List (Nat × EStateM.Result ExecutionError ExecState Unit)} {e : ExecutionError},
      collectThreads results = .error e → ∃ r ∈ results, ∃ t, r.2 = .error e t
  | [], _, h => by cases h
  | (_, .error e' t) :: rest, e, h => by
    cases h
    exact ⟨_, List.mem_cons_self, t, rfl⟩
  | (bid, .ok _ t) :: rest, e, h => by
    cases hc : collectThreads rest with
    | ok ts => rw [collectThreads, hc] at h; cases h
    | error e' =>
      rw [collectThreads, hc] at h
      cases h
      obtain ⟨r, hr, ht⟩ := error_of_collectThreads hc
      exact ⟨r, List.mem_cons_of_mem _ hr, ht⟩

omit h in
theorem armParallel_throws (hf : Found ex E order)
    {runNode : List Frame → CompiledNode → M NodeOutcome}
    (hrun : ∀ v nd, Throws E (runNode v nd)) (visit : List Frame) (nd : CompiledNode) :
    Throws E (armParallel ex order runNode visit nd) := by
  refine Throws.bind (Throws.modify _) fun _ => Throws.bind (Throws.forM
    (fun e => Throws.bind (applyMapping_throws _) fun _ => Throws.modify _) _) fun _ =>
    Throws.bind (Throws.modify _) fun _ => Throws.ite (Throws.pure _) (Throws.bind
      (Throws.modify _) fun _ => Throws.get_bind fun s => Throws.bind (Throws.modify _) fun _ => ?_)
  split
  case h_1 e he =>
    refine Throws.throw ?_
    obtain ⟨r, hr, t, ht⟩ := error_of_collectThreads he
    obtain ⟨b, -, rfl⟩ := List.mem_map.1 hr
    exact runGroup_throws (hrun _) _ (hf.subset (List.filter_subset_self _)) _ _ _ ht
  · exact Throws.modify _

theorem runNode_throws (hf : Found ex E order) : ∀ (fuel : Nat) (v : List Frame)
    (pause : Option PausePolicy) (nd : CompiledNode),
    Throws E (runNode ex order bodies fuel v pause nd)
  | 0, _, _, _ => Throws.throw (h.custom _)
  | fuel + 1, v, pause, nd => by
    have simple : Throws E (do nodeArm ex v nd; propagate ex.plan nd; pure .ok : M NodeOutcome) :=
      Throws.bind (nodeArm_throws h) fun _ => Throws.bind (propagate_throws h _)
        fun _ => Throws.pure _
    refine Throws.get_bind fun s => Throws.ite (Throws.bind ?_ fun _ => ?_) (Throws.pure _)
    · exact Throws.bind (countNode_throws h _) fun _ => Throws.bind (checkMemory_throws h _)
        fun _ => Throws.bind (Throws.modify _) fun _ => Throws.modify _
    · unfold runArm
      split
      · exact runLoop_throws h hf _ nd
      · exact Throws.bind (armParallel_throws hf (fun v nd => runNode_throws hf fuel v none nd) _ _)
          fun _ => Throws.pure _
      · exact simple

theorem mainPass_throws (hf : Found ex E order) (policy : PausePolicy) :
    ∀ nodes : List Nat, Found ex E nodes → ∀ position : Nat,
      Throws E (mainPass ex order policy nodes position)
  | [], _, _ => Throws.pure _
  | idx :: rest, hn, position => by
    unfold mainPass
    split
    case h_1 hnone => exact Throws.throw (hn idx List.mem_cons_self hnone _)
    · refine Throws.bind (runNode_throws h hf _ _ _ _) fun r => ?_
      split
      · exact Throws.pure _
      · exact Throws.get_bind fun s => Throws.ite (Throws.pure _)
          (mainPass_throws hf policy rest (hn.subset (List.subset_cons_self _ _)) _)

end Runs

/-! ### Segments -/

section Segments

variable {ex : Executor} {order : List Nat}

theorem runIterations_loopIndex {visit : List Frame} {pause : Option PausePolicy} {loop : Nat}
    {target : Option Text} {body : List Nat} : ∀ remaining iteration start,
    Returns (fun r => ∀ ls, r = .paused ls → ls.loopIndex = loop)
      (runIterations ex visit pause loop target body remaining iteration start)
  | 0, _, _ => Returns.pure (by rintro ls ⟨⟩)
  | remaining + 1, iteration, start => by
    refine Returns.bind_any fun _ => Returns.bind_any fun _ => Returns.bind_any fun r => ?_
    split
    · exact runIterations_loopIndex remaining _ _
    · exact Returns.pure (by rintro ls ⟨⟩)
    · refine Returns.pure ?_
      rintro ls ⟨⟩
      rfl

theorem runLoop_loopIndex {bodies : List (Nat × Finset Nat)} {visit : List Frame}
    {pause : Option PausePolicy} (cursor : Nat × Nat) (nd : CompiledNode) :
    Returns (fun r => ∀ ls, r = .paused ls → ls.loopIndex = nd.index)
      (runLoop ex order bodies visit pause cursor nd) := by
  have hfinish : Returns (fun r => ∀ ls, r = .paused ls → ls.loopIndex = nd.index)
      (finishLoop ex bodies nd) := fun s a t h ls hls => absurd hls (finishLoop_never s a t h ls)
  refine Returns.bind_any fun s => Returns.ite hfinish (Returns.bind_any fun _ =>
    Returns.bind (runIterations_loopIndex _ _ _) fun r hr => ?_)
  cases r with
  | ok => exact hfinish
  | paused ls => exact Returns.pure hr

theorem runNode_loopIndex {bodies : List (Nat × Finset Nat)} {visit : List Frame}
    {pause : Option PausePolicy} (fuel : Nat) (nd : CompiledNode) :
    Returns (fun r => ∀ ls, r = .paused ls → ls.loopIndex = nd.index)
      (runNode ex order bodies fuel visit pause nd) := by
  have done : Returns (fun r => ∀ ls, r = .paused ls → ls.loopIndex = nd.index)
      (pure .ok : M NodeOutcome) := Returns.pure (by rintro ls ⟨⟩)
  cases fuel with
  | zero => exact Returns.throw _
  | succ fuel =>
    refine Returns.bind_any fun s => Returns.ite (Returns.bind_any fun _ => ?_) done
    unfold runArm
    split
    · exact runLoop_loopIndex _ nd
    · exact Returns.bind_any fun _ => done
    · exact Returns.bind_any fun _ => Returns.bind_any fun _ => done

/-- A paused pass stands in a node of the plan, if in a loop. -/
def StandsInNode (plan : CompiledPlan) (r : PassOutcome) : Prop :=
  ∀ p ls, r = .paused p (some ls) → (plan.getNode ls.loopIndex).isSome

variable (hindex : ∀ i nd, ex.plan.getNode i = some nd → nd.index = i)

include hindex

theorem mainPass_standsInNode (policy : PausePolicy) : ∀ (nodes : List Nat) (position : Nat),
    Returns (StandsInNode ex.plan) (mainPass ex order policy nodes position)
  | [], _ => Returns.pure (by rintro p ls ⟨⟩)
  | idx :: rest, position => by
    unfold mainPass
    split
    · exact Returns.throw _
    case h_2 nd hnd =>
      refine Returns.bind (runNode_loopIndex _ nd) fun r hr => ?_
      cases r with
      | paused ls =>
        refine Returns.pure ?_
        rintro p ls' ⟨⟩
        rw [hr ls rfl, hindex idx nd hnd, hnd]
        rfl
      | ok =>
        refine Returns.bind_any fun s => Returns.ite (Returns.pure ?_)
          (mainPass_standsInNode policy rest _)
        rintro p ls ⟨⟩

theorem resumePass_standsInNode (policy : PausePolicy) (cp : Checkpoint) :
    Returns (StandsInNode ex.plan) (resumePass ex order policy cp) := by
  unfold resumePass
  split
  · exact mainPass_standsInNode hindex policy _ _
  · split
    · exact Returns.throw _
    case h_2 nd hnd =>
      refine Returns.bind (runLoop_loopIndex _ nd) fun r hr => ?_
      cases r with
      | paused ls =>
        refine Returns.pure ?_
        rintro p ls' ⟨⟩
        rw [hr ls rfl, hindex _ nd hnd, hnd]
        rfl
      | ok => exact mainPass_standsInNode hindex policy _ _

/-- A segment that has not failed on the graph, and whose checkpoint can be resumed. -/
def Segment.Walked (plan : CompiledPlan) (seg : Segment) : Prop :=
  (∀ e, seg.result = .error e → e.isGraphError = false) ∧
    ∀ cp, seg.result = .ok (.paused cp) → ∀ ls, cp.loopState = some ls →
      (plan.getNode ls.loopIndex).isSome

omit hindex in
theorem finishPass_walked {x : M PassOutcome} (hx : Throws (fun e => e.isGraphError = false) x) (hr : Returns (StandsInNode ex.plan) x)
    (s : ExecState) : (finishPass (x s)).Walked ex.plan := by
  cases h : x s with
  | error e t =>
    refine ⟨fun e' he => ?_, fun cp hcp => (by cases hcp)⟩
    cases he
    exact hx s e t h
  | ok a t =>
    cases a with
    | completed => exact ⟨fun e he => (by cases he), fun cp hcp => (by cases hcp)⟩
    | paused p ls =>
      refine ⟨fun e he => (by cases he), fun cp hcp l hl => ?_⟩
      cases hcp
      obtain rfl : ls = some l := hl
      exact hr s _ t h p l rfl

variable (horder : ex.plan.topologicalOrder = .ok order)

include horder

omit hindex in
theorem found_order (nodes : List Nat) (hsub : nodes ⊆ order) (E : ExecutionError → Prop) :
    Found ex E nodes := by
  intro i hi hnone
  rw [CompiledPlan.getNode,
    List.getElem?_eq_getElem ((CompiledPlan.mem_order horder).1 (hsub hi))] at hnone
  cases hnone

theorem executeWith_walked (inputs : Context) (policy : PausePolicy) :
    (executeWith ex inputs policy).Walked ex.plan := by
  have hfound := found_order horder order (List.Subset.refl _) fun e => e.isGraphError = false
  unfold executeWith
  split
  case h_1 e he =>
    refine ⟨?_, fun cp hcp => (by cases hcp)⟩
    rintro e' ⟨⟩
    exact checkVersion_isGraphError he
  · rw [horder]
    exact finishPass_walked (mainPass_throws (armErrors_isGraphError ex) hfound policy order hfound 0)
      (mainPass_standsInNode hindex policy order 0) _

theorem resume_walked (cp : Checkpoint) (policy : PausePolicy)
    (hcp : ∀ ls, cp.loopState = some ls → (ex.plan.getNode ls.loopIndex).isSome) :
    (resume ex cp policy).Walked ex.plan := by
  have harm := armErrors_isGraphError ex
  have hfound := found_order horder order (List.Subset.refl _) fun e => e.isGraphError = false
  have hdrop := fun k => hfound.subset (List.drop_subset k order)
  unfold resume
  split
  case h_1 e he =>
    refine ⟨?_, fun cp hcp => (by cases hcp)⟩
    rintro e' ⟨⟩
    exact checkVersion_isGraphError he
  · rw [horder]
    refine finishPass_walked ?_ (resumePass_standsInNode hindex policy cp) _
    unfold resumePass
    split
    · exact mainPass_throws harm hfound policy _ (hdrop _) _
    case h_2 ls hls =>
      split
      case h_1 hnone =>
        have := hcp ls hls
        rw [hnone] at this
        cases this
      · refine Throws.bind (runLoop_throws harm hfound _ _) fun r => ?_
        split
        · exact Throws.pure _
        · exact mainPass_throws harm hfound policy _ (hdrop _) _

/-- No run of a plan that has an order fails on its graph, however it is paused. -/
theorem segment_walked (inputs : Context) (policies : Nat → PausePolicy) :
    ∀ n, (segment ex inputs policies n).Walked ex.plan
  | 0 => executeWith_walked hindex horder inputs _
  | n + 1 => by
    have ih := segment_walked inputs policies n
    rw [segment]
    split
    case h_1 cp hcp => exact resume_walked hindex horder cp _ (ih.2 cp hcp)
    · exact ih

end Segments

end Tinypipe
