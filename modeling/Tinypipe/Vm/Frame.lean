import Tinypipe.Vm.Executor
import Tinypipe.Lib.Stateful

/-! What the parts of the executor leave alone. No step reads the log, so a run is the
same behind any earlier log; and a step of a loop body touches nothing but the context,
the node count and the outputs of body nodes. -/

namespace Tinypipe

open Lib Lib.Stateful

/-! ### The log is write-only -/

/-- The state with an earlier log in front. -/
def withLog (l : List Event) (s : ExecState) : ExecState := { s with log := l ++ s.log }

section LogFree

variable {l : List Event} {ex : Executor} {order : List Nat} {bodies : List (Nat × Finset Nat)}
  {visit : List Frame} {pause : Option PausePolicy} {nd : CompiledNode}

theorem note_logFree (e : Event) : Commutes (withLog l) (note e) :=
  Commutes.modify fun s => by simp [withLog]

theorem noteNode_logFree (visit : List Frame) (nd : CompiledNode) :
    Commutes (withLog l) (noteNode visit nd) :=
  Commutes.modify fun s => by simp [withLog]

theorem noteIteration_logFree (visit : List Frame) (loop i start : Nat) :
    Commutes (withLog l) (noteIteration visit loop i start) :=
  Commutes.modify fun s => by split <;> simp [withLog]

theorem setVar_logFree (k : Text) (v : Value) : Commutes (withLog l) (setVar k v) :=
  Commutes.modify fun s => by simp [withLog]

theorem insertOutput_logFree (i : Nat) (v : Value) : Commutes (withLog l) (insertOutput i v) :=
  Commutes.modify fun _ => rfl

theorem enable_logFree (i : Nat) : Commutes (withLog l) (enable i) := Commutes.modify fun _ => rfl

theorem satisfyControl_logFree (i : Nat) : Commutes (withLog l) (satisfyControl i) :=
  Commutes.modify fun _ => rfl

theorem failIf_logFree (c : Prop) [Decidable c] (e : ExecutionError) :
    Commutes (withLog l) (failIf c e) := Commutes.ite (Commutes.throw _) (Commutes.pure _)

theorem setVars_logFree : ∀ es, Commutes (withLog l) (setVars es)
  | [] => Commutes.pure _
  | (k, v) :: es => Commutes.bind (setVar_logFree k v) fun _ => setVars_logFree es

theorem writeOutput_logFree (name : Option Text) (v : Value) :
    Commutes (withLog l) (writeOutput name v) := by
  cases name with
  | none => exact Commutes.pure _
  | some k => exact setVar_logFree k v

theorem eval_logFree (text : Text) : Commutes (withLog l) (eval text) := by
  refine Commutes.get_bind (fun _ => rfl) fun s => ?_
  split
  · exact Commutes.pure _
  · exact Commutes.throw _

theorem copyVar_logFree (a b : Text) : Commutes (withLog l) (copyVar a b) := by
  refine Commutes.get_bind (fun _ => rfl) fun s => ?_
  split
  · exact setVar_logFree _ _
  · exact Commutes.pure _

theorem applyPairs_logFree : ∀ ps, Commutes (withLog l) (applyPairs ps)
  | [] => Commutes.pure _
  | (a, b) :: ps => Commutes.bind (copyVar_logFree a b) fun _ => applyPairs_logFree ps

theorem applyMapping_logFree (m : Option (List (Text × Text))) :
    Commutes (withLog l) (applyMapping m) := applyPairs_logFree _

theorem countNode_logFree (plan : CompiledPlan) : Commutes (withLog l) (countNode plan) :=
  Commutes.bind (Commutes.modify fun _ => rfl) fun _ =>
    Commutes.get_bind (fun _ => rfl) fun _ => failIf_logFree _ _

theorem checkMemory_logFree (plan : CompiledPlan) : Commutes (withLog l) (checkMemory plan) :=
  Commutes.get_bind (fun _ => rfl) fun _ => failIf_logFree _ _

theorem edgeFires_logFree (plan : CompiledPlan) (e : CompiledEdge) :
    Commutes (withLog l) (edgeFires nd plan e) := by
  have heval : ∀ c, Commutes (withLog l) (do return isTruthy (← eval c) : M Bool) :=
    fun c => Commutes.bind (eval_logFree c) fun _ => Commutes.pure _
  unfold edgeFires
  split
  · exact Commutes.pure _
  · refine Commutes.get_bind (fun _ => rfl) fun s => ?_
    split
    · exact Commutes.ite (Commutes.pure _) (heval _)
    · exact heval _

theorem followEdge_logFree (b : Bool) (e : CompiledEdge) : Commutes (withLog l) (followEdge b e) :=
  Commutes.ite (Commutes.bind (applyMapping_logFree _) fun _ => enable_logFree _) (Commutes.pure _)

theorem propagateEdges_logFree (plan : CompiledPlan) :
    Commutes (withLog l) (propagateEdges plan nd) := by
  refine Commutes.forM (fun e => Commutes.ite ?_ ?_) _
  · exact Commutes.bind (satisfyControl_logFree _) fun _ => enable_logFree _
  · exact Commutes.bind (edgeFires_logFree plan e) fun b => followEdge_logFree b e

theorem propagate_logFree (plan : CompiledPlan) : Commutes (withLog l) (propagate plan nd) :=
  Commutes.ite (propagateEdges_logFree plan) (Commutes.pure _)

theorem armInput_logFree : Commutes (withLog l) (armInput nd) := by
  refine Commutes.get_bind (fun _ => rfl) fun s => ?_
  split
  · exact insertOutput_logFree _ _
  · exact insertOutput_logFree _ _
  · exact Commutes.pure _

theorem armCalc_logFree : Commutes (withLog l) (armCalc nd) := by
  refine Commutes.bind (eval_logFree _) fun v => Commutes.bind (insertOutput_logFree _ _) fun _ => ?_
  split
  · exact setVar_logFree _ _
  · exact Commutes.pure _

theorem callSubgraph_logFree (name : Text) (params : Dict Text Value) (out : Option Text) :
    Commutes (withLog l) (callSubgraph ex nd name params out) := by
  refine Commutes.get_bind (fun _ => rfl) fun s => Commutes.bind (failIf_logFree _ _) fun _ =>
    Commutes.bind (note_logFree _) fun _ => ?_
  split
  · exact Commutes.throw _
  · exact Commutes.bind (setVars_logFree _) fun _ => Commutes.bind (writeOutput_logFree _ _)
      fun _ => insertOutput_logFree _ _

theorem dispatchCall_logFree (call : CallTarget) : Commutes (withLog l) (dispatchCall ex call) :=
  Commutes.get_bind (fun _ => rfl) fun _ => Commutes.bind (note_logFree _) fun _ => Commutes.pure _

theorem checkSchemaDrift_logFree (target : Text) :
    Commutes (withLog l) (checkSchemaDrift ex target) := by
  unfold checkSchemaDrift
  split
  · exact Commutes.throw _
  · exact Commutes.pure _

theorem record_logFree (out : Option Text) (i : Nat) (v : Value) :
    Commutes (withLog l) (do writeOutput out v; insertOutput i v : M Unit) :=
  Commutes.bind (writeOutput_logFree _ _) fun _ => insertOutput_logFree _ _

theorem armCall_logFree : Commutes (withLog l) (armCall ex nd) := by
  refine Commutes.get_bind (fun _ => rfl) fun s => Commutes.ite (callSubgraph_logFree _ _ _) ?_
  refine Commutes.bind (checkSchemaDrift_logFree _) fun _ =>
    Commutes.bind (dispatchCall_logFree _) fun r => ?_
  split
  · exact record_logFree _ _ _
  · split
    · exact record_logFree _ _ _
    · exact Commutes.throw _

theorem armDecide_logFree : Commutes (withLog l) (armDecide visit nd) :=
  Commutes.get_bind (fun _ => rfl) fun _ =>
    Commutes.bind (insertOutput_logFree _ _) fun _ => note_logFree _

theorem armAct_logFree : Commutes (withLog l) (armAct ex nd) := by
  refine Commutes.bind (insertOutput_logFree _ _) fun _ => Commutes.ite ?_ (Commutes.pure _)
  exact Commutes.get_bind (fun _ => rfl) fun _ =>
    Commutes.bind (Commutes.modify fun _ => rfl) fun _ => insertOutput_logFree _ _

theorem switchEdges_logFree (source : Text) : ∀ (matched : Bool) (es : List CompiledEdge),
    Commutes (withLog l) (switchEdges source matched es)
  | _, [] => Commutes.pure _
  | _, _ :: es => Commutes.bind (followEdge_logFree _ _) fun _ => switchEdges_logFree source _ es

theorem nodeArm_logFree : Commutes (withLog l) (nodeArm ex visit nd) := by
  unfold nodeArm
  split
  · exact armInput_logFree
  · exact armCalc_logFree
  · exact armCall_logFree
  · exact armDecide_logFree
  · exact armAct_logFree
  · exact Commutes.get_bind (fun _ => rfl) fun _ =>
      Commutes.bind (switchEdges_logFree _ _ _) fun _ => insertOutput_logFree _ _
  · exact Commutes.bind (failIf_logFree _ _) fun _ => insertOutput_logFree _ _
  · exact Commutes.bind (Commutes.modify fun _ => rfl) fun _ =>
      Commutes.get_bind (fun _ => rfl) fun _ => insertOutput_logFree _ _
  · exact Commutes.throw _
  · exact Commutes.pure _
  · exact Commutes.pure _

theorem bodyArm_logFree : Commutes (withLog l) (bodyArm ex visit nd) := by
  have next : ∀ {x : M Unit} (b : BodyFlow), Commutes (withLog l) x →
      Commutes (withLog l) (do x; pure b : M BodyFlow) :=
    fun b hx => Commutes.bind hx fun _ => Commutes.pure b
  unfold bodyArm
  split
  · exact next _ armCalc_logFree
  · refine Commutes.get_bind (fun _ => rfl) fun s => Commutes.ite ?_ ?_
    · exact next _ (callSubgraph_logFree _ _ _)
    · refine Commutes.bind (dispatchCall_logFree _) fun r => ?_
      split
      · exact Commutes.bind (writeOutput_logFree _ _) fun _ => next _ (insertOutput_logFree _ _)
      · exact Commutes.throw _
  · refine Commutes.bind ?_ fun b => Commutes.bind (insertOutput_logFree _ _) fun _ =>
      next _ (note_logFree _)
    unfold evalCondition
    split
    · exact Commutes.bind (eval_logFree _) fun _ => Commutes.pure _
    · exact Commutes.pure _
  · refine next _ (Commutes.get_bind (fun _ => rfl) fun s => ?_)
    split
    · exact insertOutput_logFree _ _
    · exact Commutes.pure _
  · refine Commutes.ite ?_ (Commutes.ite (Commutes.pure _) (Commutes.ite (Commutes.pure _) ?_))
    · exact Commutes.get_bind (fun _ => rfl) fun _ => next _ (insertOutput_logFree _ _)
    · exact next _ (insertOutput_logFree _ _)
  all_goals exact next _ (insertOutput_logFree _ _)

theorem bodyNode_logFree (idx : Nat) : Commutes (withLog l) (bodyNode ex visit idx) := by
  unfold bodyNode
  split
  · exact Commutes.throw _
  · refine Commutes.get_bind (fun _ => rfl) fun s => Commutes.ite (Commutes.pure _) ?_
    exact Commutes.bind (countNode_logFree _) fun _ => Commutes.bind (noteNode_logFree _ _)
      fun _ => Commutes.bind bodyArm_logFree fun _ => Commutes.pure _

theorem runBody_logFree : ∀ (position : Nat) (body : List Nat),
    Commutes (withLog l) (runBody ex visit pause position body)
  | _, [] => Commutes.pure _
  | position, idx :: rest => by
    refine Commutes.bind (bodyNode_logFree idx) fun r => ?_
    split
    · exact runBody_logFree _ rest
    · exact runBody_logFree _ rest
    · exact Commutes.pure _
    · exact Commutes.pure _
    · exact Commutes.get_bind (fun _ => rfl) fun s =>
        Commutes.ite (Commutes.pure _) (runBody_logFree _ rest)

theorem runIterations_logFree (loop : Nat) (target : Option Text) (body : List Nat) :
    ∀ remaining iteration start, Commutes (withLog l)
      (runIterations ex visit pause loop target body remaining iteration start)
  | 0, _, _ => Commutes.pure _
  | remaining + 1, iteration, start => by
    refine Commutes.bind (writeOutput_logFree _ _) fun _ => Commutes.bind
      (noteIteration_logFree _ _ _ _) fun _ => Commutes.bind (runBody_logFree _ _) fun r => ?_
    split
    · exact runIterations_logFree loop target body remaining _ _
    · exact Commutes.pure _
    · exact Commutes.pure _

theorem finishLoop_logFree : Commutes (withLog l) (finishLoop ex bodies nd) := by
  refine Commutes.bind ?_ fun _ => Commutes.bind ?_ fun _ =>
    Commutes.bind (insertOutput_logFree _ _) fun _ => Commutes.pure _
  · refine Commutes.get_bind (fun _ => rfl) fun s => Commutes.ite ?_ (Commutes.pure _)
    refine Commutes.bind (Commutes.forM (fun nd' => ?_) _) fun _ =>
      Commutes.forM (fun nd' => ?_) _
    · refine Commutes.get_bind (fun _ => rfl) fun s => Commutes.ite ?_ (Commutes.pure _)
      split
      · split
        · exact insertOutput_logFree _ _
        · exact Commutes.pure _
      · exact Commutes.pure _
    · exact Commutes.get_bind (fun _ => rfl) fun s =>
        Commutes.ite (Commutes.ite (enable_logFree _) (Commutes.pure _)) (Commutes.pure _)
  · exact Commutes.forM (fun e => Commutes.ite (Commutes.pure _) (Commutes.bind
      (Commutes.ite (satisfyControl_logFree _) (applyMapping_logFree _))
      fun _ => enable_logFree _)) _

theorem runLoop_logFree (cursor : Nat × Nat) :
    Commutes (withLog l) (runLoop ex order bodies visit pause cursor nd) := by
  refine Commutes.get_bind (fun _ => rfl) fun s => Commutes.ite finishLoop_logFree ?_
  refine Commutes.bind (Commutes.modify fun _ => rfl) fun _ =>
    Commutes.bind (runIterations_logFree _ _ _ _ _ _) fun r => ?_
  split
  · exact Commutes.pure _
  · exact finishLoop_logFree

theorem joinThreads_withLog (before : Nat → Nat) (threads : List (Nat × ExecState)) :
    ∀ s, joinThreads before threads (withLog l s) = withLog l (joinThreads before threads s) := by
  induction threads with
  | nil => exact fun _ => rfl
  | cons t ts ih => exact fun s => ih (mergeThread before t.1 t.2 s)

theorem armParallel_logFree (runNode : List Frame → CompiledNode → M NodeOutcome) :
    Commutes (withLog l) (armParallel ex order runNode visit nd) := by
  refine Commutes.bind (Commutes.modify fun _ => rfl) fun _ => Commutes.bind
    (Commutes.forM (fun e => Commutes.bind (applyMapping_logFree _) fun _ => enable_logFree _) _)
    fun _ => Commutes.bind (insertOutput_logFree _ _) fun _ => Commutes.ite (Commutes.pure _) ?_
  refine Commutes.bind (Commutes.modify fun _ => rfl) fun _ =>
    Commutes.get_bind (fun _ => rfl) fun s =>
      Commutes.bind (Commutes.modify fun s => by simp [withLog]) fun _ => ?_
  split
  · exact Commutes.throw _
  · exact Commutes.modify fun s => joinThreads_withLog _ _ s

theorem enterNode_logFree : Commutes (withLog l) (enterNode ex visit nd) :=
  Commutes.bind (countNode_logFree _) fun _ => Commutes.bind (checkMemory_logFree _) fun _ =>
    Commutes.bind (Commutes.modify fun _ => rfl) fun _ => noteNode_logFree _ _

theorem runNodeWith_logFree (runNode : List Frame → CompiledNode → M NodeOutcome) :
    Commutes (withLog l) (runNodeWith ex order bodies runNode visit pause nd) := by
  refine Commutes.get_bind (fun _ => rfl) fun s => Commutes.ite ?_ (Commutes.pure _)
  refine Commutes.bind enterNode_logFree fun _ => ?_
  unfold runArm
  split
  · exact runLoop_logFree _
  · exact Commutes.bind (armParallel_logFree _) fun _ => Commutes.pure _
  · exact Commutes.bind nodeArm_logFree fun _ => Commutes.bind (propagate_logFree _) fun _ =>
      Commutes.pure _

theorem runNode_logFree (fuel : Nat) :
    Commutes (withLog l) (runNode ex order bodies fuel visit pause nd) := by
  cases fuel with
  | zero => exact Commutes.throw _
  | succ fuel => exact runNodeWith_logFree _

theorem mainPass_logFree (policy : PausePolicy) : ∀ (nodes : List Nat) (position : Nat),
    Commutes (withLog l) (mainPass ex order policy nodes position)
  | [], _ => Commutes.pure _
  | idx :: rest, position => by
    unfold mainPass
    split
    · exact Commutes.throw _
    · refine Commutes.bind (runNode_logFree _) fun r => ?_
      split
      · exact Commutes.pure _
      · exact Commutes.get_bind (fun _ => rfl) fun s =>
          Commutes.ite (Commutes.pure _) (mainPass_logFree policy rest _)

end LogFree

/-! ### The frame of a loop body -/

/-- Only the context, the count, the log and the outputs of body nodes may differ. -/
structure BodyStep (body : Finset Nat) (s t : ExecState) : Prop where
  nodeOutputs : ∀ i, i ∉ body → t.nodeOutputs i = s.nodeOutputs i
  executionOrder : t.executionOrder = s.executionOrder
  enabled : t.enabled = s.enabled
  controlSatisfied : t.controlSatisfied = s.controlSatisfied
  loopSkipped : t.loopSkipped = s.loopSkipped
  output : t.output = s.output

section BodyStep

variable {body : Finset Nat} {ex : Executor} {visit : List Frame} {pause : Option PausePolicy}
  {nd : CompiledNode}

instance : Std.Refl (BodyStep body) := ⟨fun _ => ⟨fun _ _ => rfl, rfl, rfl, rfl, rfl, rfl⟩⟩

instance : IsTrans ExecState (BodyStep body) :=
  ⟨fun _ _ _ h h' => ⟨fun i hi => (h'.nodeOutputs i hi).trans (h.nodeOutputs i hi),
    h'.executionOrder.trans h.executionOrder, h'.enabled.trans h.enabled,
    h'.controlSatisfied.trans h.controlSatisfied, h'.loopSkipped.trans h.loopSkipped,
    h'.output.trans h.output⟩⟩

theorem note_bodyStep (e : Event) : Steps (BodyStep body) (note e) :=
  Steps.modify fun _ => ⟨fun _ _ => rfl, rfl, rfl, rfl, rfl, rfl⟩

theorem noteIteration_bodyStep (visit : List Frame) (loop i start : Nat) :
    Steps (BodyStep body) (noteIteration visit loop i start) :=
  Steps.modify fun s => by split <;> exact ⟨fun _ _ => rfl, rfl, rfl, rfl, rfl, rfl⟩

theorem noteNode_bodyStep (visit : List Frame) (nd : CompiledNode) :
    Steps (BodyStep body) (noteNode visit nd) :=
  Steps.modify fun _ => ⟨fun _ _ => rfl, rfl, rfl, rfl, rfl, rfl⟩

theorem setVar_bodyStep (k : Text) (v : Value) : Steps (BodyStep body) (setVar k v) :=
  Steps.modify fun _ => ⟨fun _ _ => rfl, rfl, rfl, rfl, rfl, rfl⟩

theorem insertOutput_bodyStep {i : Nat} (hi : i ∈ body) (v : Value) :
    Steps (BodyStep body) (insertOutput i v) :=
  Steps.modify fun s => ⟨fun j hj => by
    have hne : j ≠ i := fun h => hj (h ▸ hi)
    simp [Function.update_of_ne hne], rfl, rfl, rfl, rfl, rfl⟩

theorem failIf_bodyStep (c : Prop) [Decidable c] (e : ExecutionError) :
    Steps (BodyStep body) (failIf c e) := Steps.ite (Steps.throw _) (Steps.pure _)

theorem setVars_bodyStep : ∀ es, Steps (BodyStep body) (setVars es)
  | [] => Steps.pure _
  | (k, v) :: es => Steps.bind (setVar_bodyStep k v) fun _ => setVars_bodyStep es

theorem writeOutput_bodyStep (name : Option Text) (v : Value) :
    Steps (BodyStep body) (writeOutput name v) := by
  cases name with
  | none => exact Steps.pure _
  | some k => exact setVar_bodyStep k v

theorem eval_bodyStep (text : Text) : Steps (BodyStep body) (eval text) := by
  refine Steps.get_bind fun s => ?_
  split
  · exact Steps.pure _
  · exact Steps.throw _

theorem countNode_bodyStep (plan : CompiledPlan) : Steps (BodyStep body) (countNode plan) :=
  Steps.bind (Steps.modify fun _ => ⟨fun _ _ => rfl, rfl, rfl, rfl, rfl, rfl⟩) fun _ =>
    Steps.get_bind fun _ => failIf_bodyStep _ _

theorem callSubgraph_bodyStep (hi : nd.index ∈ body) (name : Text) (params : Dict Text Value)
    (out : Option Text) : Steps (BodyStep body) (callSubgraph ex nd name params out) := by
  refine Steps.get_bind fun s => Steps.bind (failIf_bodyStep _ _) fun _ =>
    Steps.bind (note_bodyStep _) fun _ => ?_
  split
  · exact Steps.throw _
  · exact Steps.bind (setVars_bodyStep _) fun _ => Steps.bind (writeOutput_bodyStep _ _)
      fun _ => insertOutput_bodyStep hi _

theorem dispatchCall_bodyStep (call : CallTarget) :
    Steps (BodyStep body) (dispatchCall ex call) :=
  Steps.get_bind fun _ => Steps.bind (note_bodyStep _) fun _ => Steps.pure _

theorem bodyArm_bodyStep (hi : nd.index ∈ body) :
    Steps (BodyStep body) (bodyArm ex visit nd) := by
  have next : ∀ {x : M Unit} (b : BodyFlow), Steps (BodyStep body) x →
      Steps (BodyStep body) (do x; pure b : M BodyFlow) :=
    fun b hx => Steps.bind hx fun _ => Steps.pure b
  have insert : ∀ v, Steps (BodyStep body) (insertOutput nd.index v) := insertOutput_bodyStep hi
  unfold bodyArm
  split
  · refine next _ (Steps.bind (eval_bodyStep _) fun v => Steps.bind (insert v) fun _ => ?_)
    split
    · exact setVar_bodyStep _ _
    · exact Steps.pure _
  · refine Steps.get_bind fun s => Steps.ite (next _ (callSubgraph_bodyStep hi _ _ _)) ?_
    refine Steps.bind (dispatchCall_bodyStep _) fun r => ?_
    split
    · exact Steps.bind (writeOutput_bodyStep _ _) fun _ => next _ (insert _)
    · exact Steps.throw _
  · refine Steps.bind ?_ fun b => Steps.bind (insert _) fun _ => next _ (note_bodyStep _)
    unfold evalCondition
    split
    · exact Steps.map (eval_bodyStep _) _
    · exact Steps.pure _
  · refine next _ (Steps.get_bind fun s => ?_)
    split
    · exact insert _
    · exact Steps.pure _
  · refine Steps.ite ?_ (Steps.ite (Steps.pure _) (Steps.ite (Steps.pure _) (next _ (insert _))))
    exact Steps.get_bind fun _ => next _ (insert _)
  all_goals exact next _ (insert _)

theorem bodyNode_bodyStep {idx : Nat} (hi : idx ∈ body)
    (hindex : ∀ nd, ex.plan.getNode idx = some nd → nd.index = idx) :
    Steps (BodyStep body) (bodyNode ex visit idx) := by
  unfold bodyNode
  split
  · exact Steps.throw _
  case h_2 nd hnd =>
    have hmem : nd.index ∈ body := (hindex nd hnd).symm ▸ hi
    refine Steps.get_bind fun s => Steps.ite (Steps.pure _) ?_
    exact Steps.bind (countNode_bodyStep _) fun _ => Steps.bind (noteNode_bodyStep _ _) fun _ =>
      Steps.bind (bodyArm_bodyStep hmem) fun _ => Steps.pure _

theorem runBody_bodyStep
    (hindex : ∀ idx nd, ex.plan.getNode idx = some nd → nd.index = idx) :
    ∀ (position : Nat) (nodes : List Nat), (∀ i ∈ nodes, i ∈ body) →
      Steps (BodyStep body) (runBody ex visit pause position nodes)
  | _, [], _ => Steps.pure _
  | position, idx :: rest, hnodes => by
    have hrest : ∀ p, Steps (BodyStep body) (runBody ex visit pause p rest) :=
      fun p => runBody_bodyStep hindex p rest fun i hi => hnodes i (List.mem_cons_of_mem _ hi)
    refine Steps.bind (bodyNode_bodyStep (hnodes idx List.mem_cons_self) (hindex idx)) fun r => ?_
    split
    · exact hrest _
    · exact hrest _
    · exact Steps.pure _
    · exact Steps.pure _
    · exact Steps.get_bind fun s => Steps.ite (Steps.pure _) (hrest _)

theorem runIterations_bodyStep
    (hindex : ∀ idx nd, ex.plan.getNode idx = some nd → nd.index = idx) (loop : Nat)
    (target : Option Text) {nodes : List Nat} (hnodes : ∀ i ∈ nodes, i ∈ body) :
    ∀ remaining iteration start, Steps (BodyStep body)
      (runIterations ex visit pause loop target nodes remaining iteration start)
  | 0, _, _ => Steps.pure _
  | remaining + 1, iteration, start => by
    refine Steps.bind (writeOutput_bodyStep _ _) fun _ => Steps.bind
      (noteIteration_bodyStep _ _ _ _) fun _ => Steps.bind (runBody_bodyStep hindex _ _
      fun i hi => hnodes i (List.mem_of_mem_drop hi)) fun r => ?_
    split
    · exact runIterations_bodyStep hindex loop target hnodes remaining _ _
    · exact Steps.pure _
    · exact Steps.pure _

end BodyStep

end Tinypipe
