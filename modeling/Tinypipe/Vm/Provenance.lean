import Tinypipe.Vm.Dependencies
import Tinypipe.Vm.Once

/-! What a run calls, and whose values it keeps: every dispatch is made by a CALL of the plan, with
arguments of its own, and only nodes of the plan have a value. -/

namespace Tinypipe

open Lib Lib.Stateful

/-- A dispatch that a CALL may make in some state. -/
inductive Dispatch.From (nd : CompiledNode) : Dispatch → Prop
  | tool {reserved : List Text} (hreserved : reserved = topReserved ∨ reserved = bodyReserved) (ctx : Context)
      (outputs : Nat → Option Value) (htarget : Text.stripPrefix "subgraph:" (callTargetOf nd) = none) :
      From nd (.tool ⟨callTargetOf nd, [], callParams nd reserved ctx outputs⟩)
  | subgraph (input : Context) (htarget : Text.stripPrefix "subgraph:" (callTargetOf nd) ≠ none) :
      From nd (.subgraph (Text.trimStartMatches "subgraph:" (callTargetOf nd)) input)

/-- A dispatch is that of a CALL of the plan. -/
def FromPlan (plan : CompiledPlan) : Event → Prop
  | .dispatch d => ∃ nd ∈ plan.nodes, nd.op = .call ∧ d.From nd
  | .node .. | .iteration .. | .decided .. | .write .. => True

/-- No value of a node that the plan does not have, and no dispatch that no CALL of it makes. -/
structure Within (plan : CompiledPlan) (s t : ExecState) : Prop where
  outputs : ∀ i, (∀ nd ∈ plan.nodes, nd.index ≠ i) → s.nodeOutputs i = none → t.nodeOutputs i = none
  log : Extends ExecState.log (fun l => ∀ e ∈ l, FromPlan plan e) s t

section Walk

variable {plan : CompiledPlan}

instance : Std.Refl (Within plan) := ⟨fun s => ⟨fun _ _ h => h, refl_of (Extends ExecState.log _) s⟩⟩

instance : IsTrans ExecState (Within plan) :=
  ⟨fun _ _ _ h h' => ⟨fun i hi hs => h'.outputs i hi (h.outputs i hi hs),
    trans_of (Extends ExecState.log _) h.log h'.log⟩⟩

theorem within_modify {f : ExecState → ExecState} (hout : ∀ s, (f s).nodeOutputs = s.nodeOutputs)
    (hlog : ∀ s, (f s).log = s.log) : Steps (Within plan) (modify f : M Unit) :=
  Steps.modify fun s => ⟨fun i _ hs => by rw [hout, hs], Extends.same (hlog s)⟩

theorem within_log {e : Event} (he : FromPlan plan e) {s t : ExecState} (hout : t.nodeOutputs = s.nodeOutputs)
    (hlog : t.log = s.log ++ [e]) : Within plan s t :=
  ⟨fun i _ hs => by rw [hout, hs], [e], hlog, by simpa using he⟩

theorem Confined.within {S : Set Nat} {s t : ExecState} (hS : ∀ i ∈ S, ∃ nd ∈ plan.nodes, nd.index = i)
    (h : Confined false S s t) : Within plan s t := by
  refine ⟨fun i hi hs => ?_, h.log.mono fun l hl e he => ?_⟩
  · rw [h.nodeOutputs i ?_, hs]
    intro hmem
    obtain ⟨nd, hnd, heq⟩ := hS i hmem
    exact hi nd hnd heq
  · have hoff := hl e he
    cases e with
    | dispatch d => cases hoff
    | _ => trivial

/-- A part that gives a value to its own node, and dispatches nothing. -/
theorem within_confined {α : Type} {nd : CompiledNode} (hnd : nd ∈ plan.nodes) {x : M α}
    (hx : Steps (Confined false {nd.index}) x) : Steps (Within plan) x :=
  hx.mono fun _ _ h => h.within fun _ hi => ⟨nd, hnd, (Set.mem_singleton_iff.1 hi).symm⟩

theorem within_off {α : Type} {x : M α} (hx : Steps (Confined false ∅) x) : Steps (Within plan) x :=
  hx.mono fun _ _ h => h.within fun _ hi => hi.elim

theorem within_insert {nd : CompiledNode} (hnd : nd ∈ plan.nodes) (v : Value) :
    Steps (Within plan) (insertOutput nd.index v) :=
      within_confined hnd (insertOutput_confined (Set.mem_singleton nd.index) v)

theorem within_record {nd : CompiledNode} (hnd : nd ∈ plan.nodes) (out : Option Text) (v : Value) :
    Steps (Within plan) (do writeOutput out v; insertOutput nd.index v : M Unit) :=
  within_confined hnd (record_confined out (Set.mem_singleton nd.index) v)

end Walk

section Run

variable {ex : Executor} {visit : List Frame} {nd : CompiledNode}

theorem within_callSubgraph (hnd : nd ∈ ex.plan.nodes) (hop : nd.op = .call)
    (hsub : Text.stripPrefix "subgraph:" (callTargetOf nd) ≠ none) (params : Dict Text Value) (out : Option Text) :
    Steps (Within ex.plan) (callSubgraph ex nd (Text.trimStartMatches "subgraph:" (callTargetOf nd)) params out) := by
  refine Steps.get_bind fun s => Steps.bind (within_off (failIf_confined _ _)) fun _ => Steps.bind ?_ fun _ => ?_
  · exact Steps.modify fun t => within_log (e := .dispatch _) ⟨nd, hnd, hop, .subgraph _ hsub⟩ rfl rfl
  · split
    · exact Steps.throw _
    · exact Steps.bind (within_off (setVars_confined _)) fun _ => within_record hnd _ _

theorem within_dispatchCall (hnd : nd ∈ ex.plan.nodes) (hop : nd.op = .call)
    (hsub : Text.stripPrefix "subgraph:" (callTargetOf nd) = none) {reserved : List Text}
    (hreserved : reserved = topReserved ∨ reserved = bodyReserved) (ctx : Context) (outputs : Nat → Option Value) :
    Steps (Within ex.plan) (dispatchCall ex ⟨callTargetOf nd, [], callParams nd reserved ctx outputs⟩) :=
  Steps.get_bind fun _ => Steps.bind (Steps.modify fun _ =>
    within_log (e := .dispatch _) ⟨nd, hnd, hop, .tool hreserved ctx outputs hsub⟩ rfl rfl) fun _ => Steps.pure _

theorem within_armCall (hnd : nd ∈ ex.plan.nodes) (hop : nd.op = .call) : Steps (Within ex.plan) (armCall ex nd) := by
  refine Steps.get_bind fun s => ?_
  dsimp only
  split
  case isTrue hsub => exact within_callSubgraph hnd hop hsub _ _
  case isFalse hsub =>
    refine Steps.bind ?_ fun _ => Steps.bind (within_dispatchCall hnd hop (not_not.1 hsub) (.inl rfl) _ _) fun r => ?_
    · unfold checkSchemaDrift
      split
      · exact Steps.throw _
      · exact Steps.pure _
    · split
      · exact within_record hnd _ _
      · split
        · exact within_record hnd _ _
        · exact Steps.throw _

theorem within_nodeArm (hnd : nd ∈ ex.plan.nodes) : Steps (Within ex.plan) (nodeArm ex visit nd) := by
  by_cases hop : nd.op = .call
  · have harm : nodeArm ex visit nd = armCall ex nd := by rw [nodeArm, hop]
    rw [harm]
    exact within_armCall hnd hop
  · exact within_confined hnd (nodeArm_confined (fun h => absurd h hop) rfl)

theorem within_bodyArm (hnd : nd ∈ ex.plan.nodes) : Steps (Within ex.plan) (bodyArm ex visit nd) := by
  by_cases hop : nd.op = .call
  · have harm : bodyArm ex visit nd = bodyCall ex nd := by rw [bodyArm, hop]
    rw [harm]
    refine Steps.get_bind fun s => ?_
    dsimp only
    split
    case isTrue hsub => exact Steps.bind (within_callSubgraph hnd hop hsub _ _) fun _ => Steps.pure _
    case isFalse hsub =>
      refine Steps.bind (within_dispatchCall hnd hop (not_not.1 hsub) (.inr rfl) _ _) fun r => ?_
      split
      · refine Steps.bind (within_off (writeOutput_confined _ _)) fun _ => Steps.bind (within_insert hnd _) fun _ => ?_
        exact Steps.pure _
      · exact Steps.throw _
  · exact within_confined hnd (bodyArm_confined (fun h => absurd h hop) rfl)

theorem within_countNode : Steps (Within ex.plan) (countNode ex.plan) := within_off (countNode_confined _)

theorem within_bodyNode (idx : Nat) : Steps (Within ex.plan) (bodyNode ex visit idx) := by
  unfold bodyNode
  split
  · exact Steps.throw _
  case h_2 nd hnd =>
    have hmem : nd ∈ ex.plan.nodes := List.mem_of_getElem? hnd
    refine Steps.get_bind fun s => Steps.ite (Steps.pure _) (Steps.bind within_countNode fun _ =>
      Steps.bind (Steps.modify fun t => ?_) fun _ => Steps.bind (within_bodyArm hmem) fun _ => Steps.pure _)
    exact within_log (e := .node visit nd.index t.ctx t.nodeOutputs) trivial rfl rfl

theorem within_runBody (pause : Option PausePolicy) : ∀ (position : Nat) (nodes : List Nat),
    Steps (Within ex.plan) (runBody ex visit pause position nodes)
  | _, [] => Steps.pure _
  | position, idx :: rest => by
    refine Steps.bind (within_bodyNode idx) fun r => ?_
    split
    · exact within_runBody pause _ rest
    · exact within_runBody pause _ rest
    · exact Steps.pure _
    · exact Steps.pure _
    · exact Steps.get_bind fun _ => Steps.ite (Steps.pure _) (within_runBody pause _ rest)

theorem within_runIterations (pause : Option PausePolicy) (loop : Nat) (target : Option Text) (body : List Nat) :
    ∀ remaining iteration start,
      Steps (Within ex.plan) (runIterations ex visit pause loop target body remaining iteration start)
  | 0, _, _ => Steps.pure _
  | remaining + 1, iteration, start => by
    refine Steps.bind (within_off (writeOutput_confined _ _)) fun _ => Steps.bind (Steps.modify fun s => ?_) fun _ =>
      Steps.bind (within_runBody pause _ _) fun r => ?_
    · split
      · exact within_log (e := .iteration visit loop iteration s.ctx s.nodeOutputs) trivial rfl rfl
      · exact refl_of (Within ex.plan) s
    · split
      · exact within_runIterations pause loop target body remaining _ _
      · exact Steps.pure _
      · exact Steps.pure _

theorem within_finishLoop {bodies : List (Nat × Finset Nat)} (hnd : nd ∈ ex.plan.nodes) :
    Steps (Within ex.plan) (finishLoop ex bodies nd) := by
  refine Steps.bind ?_ fun _ => Steps.bind ?_ fun _ => Steps.bind (within_insert hnd _) fun _ => Steps.pure _
  · refine Steps.get_bind fun s => Steps.ite ?_ (Steps.pure _)
    refine Steps.bind (Steps.forM_mem fun nd' hnd' => ?_) fun _ => Steps.forM (fun nd' => ?_) _
    · refine Steps.get_bind fun s => Steps.ite ?_ (Steps.pure _)
      split
      · split
        · exact within_insert hnd' _
        · exact Steps.pure _
      · exact Steps.pure _
    · refine Steps.get_bind fun s => Steps.ite (Steps.ite ?_ (Steps.pure _)) (Steps.pure _)
      exact within_off (enable_confined _)
  · refine Steps.forM (fun e => Steps.ite (Steps.pure _) (Steps.bind ?_ fun _ => within_off (enable_confined _))) _
    exact Steps.ite (within_off (satisfyControl_confined _)) (within_off (applyPairs_confined _))

theorem within_runLoop {order : List Nat} {bodies : List (Nat × Finset Nat)} (pause : Option PausePolicy)
    (cursor : Nat × Nat) (hnd : nd ∈ ex.plan.nodes) :
    Steps (Within ex.plan) (runLoop ex order bodies visit pause cursor nd) := by
  refine Steps.get_bind fun s => Steps.ite (within_finishLoop hnd) ?_
  refine Steps.bind (within_modify (fun _ => rfl) fun _ => rfl) fun _ =>
    Steps.bind (within_runIterations pause _ _ _ _ _ _) fun r => ?_
  split
  · exact Steps.pure _
  · exact within_finishLoop hnd

theorem joinThreads_outputs (before : Nat → Nat) {threads : List (Nat × ExecState)} {i : Nat}
    (h : ∀ t ∈ threads, t.2.nodeOutputs i = none) :
    ∀ s : ExecState, s.nodeOutputs i = none → (joinThreads before threads s).nodeOutputs i = none := by
  induction threads with
  | nil => exact fun _ hs => hs
  | cons t ts ih =>
    intro s hs
    refine ih (fun u hu => h u (List.mem_cons_of_mem _ hu)) _ ?_
    have ht := h t List.mem_cons_self
    show (s.nodeOutputs i).or (t.2.nodeOutputs i) = none
    rw [hs, ht]
    rfl

theorem within_runGroup {run : CompiledNode → M NodeOutcome}
    (hrun : ∀ nd ∈ ex.plan.nodes, Steps (Within ex.plan) (run nd)) :
    ∀ group : List Nat, Steps (Within ex.plan) (runGroup run ex.plan group)
  | [] => Steps.pure _
  | idx :: rest => by
    unfold runGroup
    split
    · exact Steps.throw _
    case h_2 nd hnd => exact Steps.bind (hrun nd (List.mem_of_getElem? hnd)) fun _ => within_runGroup hrun rest

/-- What a thread has done, whose log starts empty. -/
theorem within_thread {run : CompiledNode → M NodeOutcome}
    (hrun : ∀ nd ∈ ex.plan.nodes, Steps (Within ex.plan) (run nd))
    (s : ExecState) (children group : List Nat) {r : EStateM.Result ExecutionError ExecState Unit}
    (hr : r = runGroup run ex.plan group (threadState s children group)) :
    (∀ i, (∀ nd ∈ ex.plan.nodes, nd.index ≠ i) → s.nodeOutputs i = none → (finalState r).nodeOutputs i = none) ∧
      ∀ e ∈ threadLog r, FromPlan ex.plan e := by
  have hwithin := within_runGroup hrun group (threadState s children group)
  rw [← hr] at hwithin
  obtain ⟨l, hl, hfrom⟩ := hwithin.log
  have hlog : threadLog r = l := by
    rw [show threadLog r = (finalState r).log by cases r <;> rfl, hl]
    rfl
  exact ⟨hwithin.outputs, hlog ▸ hfrom⟩

theorem within_armParallel {order : List Nat} {runNode : List Frame → CompiledNode → M NodeOutcome}
    (hrun : ∀ v, ∀ nd ∈ ex.plan.nodes, Steps (Within ex.plan) (runNode v nd)) (hnd : nd ∈ ex.plan.nodes) :
    Steps (Within ex.plan) (armParallel ex order runNode visit nd) := by
  refine Steps.bind (within_modify (fun _ => rfl) fun _ => rfl) fun _ => Steps.bind ?_ fun _ =>
    Steps.bind (within_insert hnd _) fun _ => Steps.ite (Steps.pure _) ?_
  · exact Steps.forM (fun e => Steps.bind (within_off (applyPairs_confined _)) fun _ =>
    within_off (enable_confined _)) _
  · refine Steps.bind (within_modify (fun _ => rfl) fun _ => rfl) fun _ => ?_
    intro s
    rw [Stateful.get_bind, modify_bind]
    have hthreads := fun bid => within_thread (hrun (visit ++ [.branch nd.index bid])) s
      ((ex.plan.edgesFrom nd.index).map CompiledEdge.toIndex) (branchGroup ex.plan order
        (ex.plan.collectReachableIndices ((ex.plan.edgesFrom nd.index).map CompiledEdge.toIndex)) bid) rfl
    generalize hresults : (branchIds ex.plan order (ex.plan.collectReachableIndices
      ((ex.plan.edgesFrom nd.index).map CompiledEdge.toIndex))).map _ = results
    have hlog : Within ex.plan s { s with log := s.log ++ results.flatMap fun r => threadLog r.2 } := by
      refine ⟨fun _ _ hs => hs, _, rfl, fun e he => ?_⟩
      obtain ⟨r, hr, he⟩ := List.mem_flatMap.1 he
      rw [← hresults] at hr
      obtain ⟨bid, -, rfl⟩ := List.mem_map.1 hr
      exact (hthreads bid).2 e he
    refine trans_of (Within ex.plan) hlog ?_
    cases hc : collectThreads results with
    | error e => exact refl_of (Within ex.plan) _
    | ok threads =>
      refine ⟨fun i hi hs => joinThreads_outputs _ (fun t ht => ?_) _ hs, Extends.same (joinThreads_log ..)⟩
      have hmem : ((t.1, .ok () t.2) : Nat × EStateM.Result ExecutionError ExecState Unit) ∈ results := by
        rw [collectThreads_eq_ok hc]
        exact List.mem_map_of_mem ht
      rw [← hresults] at hmem
      obtain ⟨bid, -, heq⟩ := List.mem_map.1 hmem
      have hout := (hthreads bid).1 i hi hs
      rwa [(Prod.mk.inj heq).2] at hout

theorem within_runNode {order : List Nat} {bodies : List (Nat × Finset Nat)} : ∀ (fuel : Nat) (visit : List Frame)
    (pause : Option PausePolicy), ∀ nd ∈ ex.plan.nodes, Steps (Within ex.plan)
    (runNode ex order bodies fuel visit pause nd)
  | 0, _, _, _, _ => Steps.throw _
  | fuel + 1, visit, pause, nd, hnd => by
    refine Steps.get_bind fun _ => Steps.ite (Steps.bind ?_ fun _ => ?_) (Steps.pure _)
    · refine Steps.bind within_countNode fun _ => Steps.bind ?_ fun _ => Steps.bind ?_ fun _ => Steps.modify fun t => ?_
      · exact Steps.get_bind fun _ => within_off (failIf_confined _ _)
      · exact within_modify (fun _ => rfl) fun _ => rfl
      · exact within_log (e := .node visit nd.index t.ctx t.nodeOutputs) trivial rfl rfl
    · unfold runArm
      split
      · exact within_runLoop _ _ hnd
      · refine Steps.bind (within_armParallel (fun v nd hnd => ?_) hnd) fun _ => Steps.pure _
        exact within_runNode fuel v none nd hnd
      · refine Steps.bind (within_nodeArm hnd) fun _ => Steps.bind ?_ fun _ => Steps.pure _
        exact within_off (propagate_confined _)

theorem within_mainPass {order : List Nat} (policy : PausePolicy) : ∀ (nodes : List Nat) (position : Nat),
    Steps (Within ex.plan) (mainPass ex order policy nodes position)
  | [], _ => Steps.pure _
  | idx :: rest, position => by
    unfold mainPass
    split
    · exact Steps.throw _
    case h_2 nd hnd =>
      refine Steps.bind (within_runNode _ _ _ nd (List.mem_of_getElem? hnd)) fun r => ?_
      split
      · exact Steps.pure _
      · exact Steps.get_bind fun _ => Steps.ite (Steps.pure _) (within_mainPass policy rest _)

theorem within_resumePass {order : List Nat} (policy : PausePolicy) (cp : Checkpoint) :
    Steps (Within ex.plan) (resumePass ex order policy cp) := by
  unfold resumePass
  split
  · exact within_mainPass _ _ _
  · split
    · exact Steps.throw _
    case h_2 nd hnd =>
      refine Steps.bind (within_runLoop _ _ (List.mem_of_getElem? hnd)) fun r => ?_
      split
      · exact Steps.pure _
      · exact within_mainPass _ _ _

theorem within_finishPass {x : M PassOutcome} (hx : Steps (Within ex.plan) x) {s : ExecState} (hs : s.log = []) :
    (∀ e ∈ (finishPass (x s)).log, FromPlan ex.plan e) ∧ ∀ cp, (finishPass (x s)).result = .ok (.paused cp) →
      ∀ i, (∀ nd ∈ ex.plan.nodes, nd.index ≠ i) → s.nodeOutputs i = none → cp.nodeOutputs i = none := by
  have hwithin := hx s
  obtain ⟨l, hl, hfrom⟩ := hwithin.log
  rw [hs, List.nil_append] at hl
  cases hr : x s with
  | error e t =>
    rw [hr] at hl
    refine ⟨fun e he => hfrom e (hl ▸ he), ?_⟩
    rintro cp ⟨⟩
  | ok r t =>
    rw [hr] at hl hwithin
    cases r with
    | completed =>
      refine ⟨fun e he => hfrom e (hl ▸ he), ?_⟩
      rintro cp ⟨⟩
    | paused p ls =>
      refine ⟨fun e he => hfrom e (hl ▸ he), ?_⟩
      rintro cp ⟨⟩
      exact hwithin.outputs

theorem executeWith_within (ex : Executor) (inputs : Context) (policy : PausePolicy) :
    (∀ e ∈ (executeWith ex inputs policy).log, FromPlan ex.plan e) ∧
      ∀ cp, (executeWith ex inputs policy).result = .ok (.paused cp) →
        ∀ i, (∀ nd ∈ ex.plan.nodes, nd.index ≠ i) → cp.nodeOutputs i = none := by
  unfold executeWith
  split
  · exact ⟨fun e he => absurd he List.not_mem_nil, by rintro cp ⟨⟩⟩
  · split
    · exact ⟨fun e he => absurd he List.not_mem_nil, by rintro cp ⟨⟩⟩
    case h_2 order _ =>
      have hpass : Steps (Within ex.plan) (mainPass ex order policy order 0) := within_mainPass policy order 0
      have h := within_finishPass hpass (s := initialState ex inputs) rfl
      exact ⟨h.1, fun cp hcp i hi => h.2 cp hcp i hi rfl⟩

theorem resume_within (ex : Executor) (cp : Checkpoint) (policy : PausePolicy) :
    (∀ e ∈ (resume ex cp policy).log, FromPlan ex.plan e) ∧ ∀ next, (resume ex cp policy).result = .ok (.paused next) →
      ∀ i, (∀ nd ∈ ex.plan.nodes, nd.index ≠ i) → cp.nodeOutputs i = none → next.nodeOutputs i = none := by
  unfold resume
  split
  · exact ⟨fun e he => absurd he List.not_mem_nil, by rintro cp ⟨⟩⟩
  · split
    · exact ⟨fun e he => absurd he List.not_mem_nil, by rintro cp ⟨⟩⟩
    · exact within_finishPass (within_resumePass policy cp) rfl

/-- In every segment of a run, only nodes of the plan have a value at a pause. -/
theorem segment_outputs (ex : Executor) (inputs : Context) (policies : Nat → PausePolicy) :
    ∀ (n : Nat) {cp : Checkpoint},
    (segment ex inputs policies n).result = .ok (.paused cp) →
      ∀ i, (∀ nd ∈ ex.plan.nodes, nd.index ≠ i) → cp.nodeOutputs i = none
  | 0, cp, h => (executeWith_within ex inputs _).2 cp h
  | n + 1, cp, h => by
    intro i hi
    by_cases hend : (segment ex inputs policies n).Ended
    · rw [segment_succ_ended hend] at h
      exact segment_outputs ex inputs policies n h i hi
    · obtain ⟨prev, hprev⟩ := not_forall_not.1 hend
      rw [segment_succ_paused hprev] at h
      exact (resume_within ex prev _).2 cp h i hi (segment_outputs ex inputs policies n hprev i hi)

theorem segment_log (ex : Executor) (inputs : Context) (policies : Nat → PausePolicy) (n : Nat) :
    ∀ e ∈ (segment ex inputs policies n).log, FromPlan ex.plan e := by
  induction n with
  | zero => exact (executeWith_within ex inputs _).1
  | succ n ih =>
    by_cases hend : (segment ex inputs policies n).Ended
    · rwa [segment_succ_ended hend]
    · obtain ⟨prev, hprev⟩ := not_forall_not.1 hend
      rw [segment_succ_paused hprev]
      exact (resume_within ex prev _).1

/-- In every segment of a run, every dispatch is made by a CALL of the plan. -/
theorem segment_dispatches (ex : Executor) (inputs : Context) (policies : Nat → PausePolicy) (n : Nat) :
    ∀ d, .dispatch d ∈ (segment ex inputs policies n).log → ∃ nd ∈ ex.plan.nodes, nd.op = .call ∧ d.From nd :=
  fun _ hd => segment_log ex inputs policies n _ hd

end Run

def oneCall : ExecutionPlan := ExecutionPlan.new
  [⟨"n0", .call, [⟨"target", .string "\"t\""⟩, ⟨"a", .string "1"⟩, ⟨"output", .string "y"⟩], none, none, none⟩] []

/-- The tool that is dispatched is the one its CALL names. -/
theorem segment_dispatches_oneCall : ∃ call nd,
    .dispatch (.tool call) ∈ (segment (budgetExecutor oneCall 9) (inputsOf []) (fun _ => .default) 0).log ∧
      call.name = ("t" : Text) ∧ nd ∈ (budgetExecutor oneCall 9).plan.nodes ∧ nd.op = .call ∧
      (Dispatch.tool call).From nd := by
  have hrun : (segment (budgetExecutor oneCall 9) (inputsOf []) (fun _ => .default) 0).dispatched =
      [("t" : Text)] := by
    decide +kernel
  have hname : ("t" : Text) ∈
      (segment (budgetExecutor oneCall 9) (inputsOf []) (fun _ => .default) 0).dispatched := by
    rw [hrun]
    exact List.mem_cons_self
  obtain ⟨e, he, heq⟩ := List.mem_filterMap.1 hname
  split at heq
  case h_1 call =>
    obtain ⟨nd, hnd, hop, hfrom⟩ := segment_dispatches (budgetExecutor oneCall 9) (inputsOf []) (fun _ => .default) 0
      (.tool call) he
    exact ⟨call, nd, he, Option.some.inj heq, hnd, hop, hfrom⟩
  case h_2 => cases heq

end Tinypipe
