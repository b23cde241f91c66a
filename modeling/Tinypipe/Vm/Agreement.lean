import Tinypipe.Programs
import Tinypipe.Lib.Stateful

/-! The opcode arms of `run_loop` against those of `run_node`: what each arm does to a
state, seen from outside, and for each opcode exactly when the two agree. -/

namespace Tinypipe

open Lib Lib.Stateful

def Event.dispatched : Event → Option Dispatch
  | .dispatch d => some d
  | .node _ _ _ _ | .iteration _ _ _ _ _ | .decided _ _ _ | .write _ _ => none

/-- What an arm does: the node's value, the run's output, the context and the tool
dispatches, or the error and the dispatches before it. -/
inductive ArmEffect where
  | done (value output : Option Value) (ctx : Context) (dispatches : List Dispatch)
  | failed (e : ExecutionError) (dispatches : List Dispatch)
deriving DecidableEq

def newDispatches (s t : ExecState) : List Dispatch :=
  (t.log.drop s.log.length).filterMap Event.dispatched

def armEffect {α : Type} (index : Nat) (s : ExecState) :
    EStateM.Result ExecutionError ExecState α → ArmEffect
  | .ok _ t => .done (t.nodeOutputs index) t.output t.ctx (newDispatches s t)
  | .error e t => .failed e (newDispatches s t)

/-- The two arms have the same effect in a state. -/
def ArmsAgree (ex : Executor) (order : List Nat) (bodies : List (Nat × Finset Nat))
    (runNode : List Frame → CompiledNode → M NodeOutcome) (visit : List Frame)
    (nd : CompiledNode) (s : ExecState) : Prop :=
  armEffect nd.index s (bodyArm ex visit nd s) =
    armEffect nd.index s (runArm ex order bodies runNode visit none nd s)

/-- The edges a compiled program has: no mapping, and conditions only on the cases of a
SWITCH and the `true` and `false` edges of a DECIDE. -/
def PlainEdge (nd : CompiledNode) (e : CompiledEdge) : Prop :=
  e.mapping.getD [] = [] ∧
    (e.kind = .data → e.condition = none ∨ nd.op = .switch ∨
      nd.op = .decide ∧ (e.condition = some ("true" : Text) ∨ e.condition = some ("false" : Text)))

def PlainEdges (plan : CompiledPlan) (nd : CompiledNode) : Prop :=
  ∀ e ∈ plan.edgesFrom nd.index, PlainEdge nd e

/-- No argument asks for an error policy. -/
def NoErrorPolicy (nd : CompiledNode) : Prop :=
  ∀ a ∈ nd.args, a.key ≠ ("on_error" : Text) ∧ a.key ≠ ("fallback_value" : Text)

/-- When a body node of an opcode does what the node does at top level. -/
def ArmsMatch (ex : Executor) (nd : CompiledNode) (s : ExecState) : Prop :=
  match nd.op with
  | .calc => True
  | .input =>
    s.ctx.get (((nd.arg "name").map trimQuotes).getD nd.id) ≠ none ∨ nd.arg "default" = none ∨
      s.nodeOutputs nd.index = (nd.arg "default").map parseJsonValue
  | .call =>
    if Text.stripPrefix "subgraph:" (callTargetOf nd) ≠ none then
      ex.plan.metadata.maxRecursionDepth ≤ ex.recursionDepth ∨
        setAll s.ctx (callParams nd bodyReserved s.ctx s.nodeOutputs) =
          setAll s.ctx (callParams nd topReserved s.ctx s.nodeOutputs)
    else
      NoErrorPolicy nd ∧ schemaDrift ex (callTargetOf nd) = none
  | .decide =>
    ∀ c, (nd.arg "condition").map trimQuotes = some c →
      ∃ v, evalExpression s.ctx s.nodeOutputs c = .ok v
  | .act =>
    let action := actionType nd
    if action = ("return" : Text) then
      let value := (returnContent ex.plan nd s.ctx
        (Function.update s.nodeOutputs nd.index (some (actText action)))).getD
          (.object s.ctx.allVariables.entries)
      (returnContent ex.plan nd s.ctx s.nodeOutputs).getD .null = value ∧ s.output = some value
    else if action = ("break" : Text) ∨ action = ("continue" : Text) then
      s.nodeOutputs nd.index = some (actText action)
    else True
  | .wait => (((nd.arg "duration_secs").bind Text.parseI64).map Int64.toInt).getD 0 ≤ 300
  | .loop => loopBound ex.plan s.nodeOutputs nd = 0 ∨ ex.plan.anchors nd.index false = []
  | .switch | .parallel | .merge | .error => False

/-! ### Propagation along plain edges -/

/-- Equal in everything an arm's effect shows. -/
structure SameView (s t : ExecState) : Prop where
  ctx : t.ctx = s.ctx
  nodeOutputs : t.nodeOutputs = s.nodeOutputs
  output : t.output = s.output
  log : t.log = s.log

namespace SameView

theorem refl (s : ExecState) : SameView s s := ⟨rfl, rfl, rfl, rfl⟩

theorem trans {s t u : ExecState} (h : SameView s t) (h' : SameView t u) : SameView s u :=
  ⟨h'.ctx.trans h.ctx, h'.nodeOutputs.trans h.nodeOutputs, h'.output.trans h.output,
    h'.log.trans h.log⟩

theorem enable (s : ExecState) (i : Nat) : SameView s { s with enabled := insert i s.enabled } :=
  ⟨rfl, rfl, rfl, rfl⟩

theorem armEffect {α β : Type} {t t' : ExecState} (h : SameView t t') (index : Nat)
    (s : ExecState) (a : α) (b : β) :
    armEffect index s (.ok a t : EStateM.Result ExecutionError ExecState α) =
      Tinypipe.armEffect index s (.ok b t') := by
  simp [Tinypipe.armEffect, newDispatches, h.ctx, h.nodeOutputs, h.output, h.log]

end SameView

section Propagation

variable {plan : CompiledPlan} {nd : CompiledNode}

/-- A DECIDE has recorded its decision. -/
def Decided (nd : CompiledNode) (s : ExecState) : Prop :=
  nd.op = .decide → ∃ b, s.nodeOutputs nd.index = some (.bool b)

theorem edgeFires_plain {e : CompiledEdge} (hop : plan.opAt nd.index = some nd.op)
    (hpr : propagates nd.op = true) (he : PlainEdge nd e) (hk : e.kind = .data) {s : ExecState} (hd : Decided nd s) :
    ∃ b, edgeFires nd plan e s = .ok b s := by
  rcases he.2 hk with hc | hsw | ⟨hdec, hc⟩
  · exact ⟨true, by simp [edgeFires, hc]⟩
  · simp [hsw, propagates] at hpr
  · obtain ⟨b, hb⟩ := hd hdec
    rcases hc with hc | hc
    · exact ⟨b, by simp [edgeFires, hc, hop, hdec, hb]⟩
    · exact ⟨!b, by simp [edgeFires, hc, hop, hdec, hb]⟩

theorem propagateEdge_plain {e : CompiledEdge} (hop : plan.opAt nd.index = some nd.op)
    (hpr : propagates nd.op = true) (he : PlainEdge nd e) {s : ExecState} (hd : Decided nd s) :
    ∃ t, propagateEdge nd plan e s = .ok () t ∧ SameView s t := by
  by_cases hk : e.kind = .control
  · obtain ⟨t, ht⟩ : ∃ t, propagateEdge nd plan e s = .ok () t := by
      rw [propagateEdge, if_pos hk]
      exact ⟨_, rfl⟩
    refine ⟨t, ht, ?_⟩
    rw [propagateEdge, if_pos hk] at ht
    cases ht
    exact ⟨rfl, rfl, rfl, rfl⟩
  · have hdata : e.kind = .data := by cases h : e.kind <;> simp_all
    obtain ⟨b, hb⟩ := edgeFires_plain hop hpr he hdata hd
    cases b with
    | false =>
      refine ⟨s, ?_, SameView.refl s⟩
      simp [propagateEdge, hk, bind_apply, hb, followEdge]
    | true =>
      refine ⟨_, ?_, SameView.enable s e.toIndex⟩
      simp [propagateEdge, hk, bind_apply, hb, followEdge, applyMapping, he.1, applyPairs, enable]

theorem propagateEdges_plain (hop : plan.opAt nd.index = some nd.op)
    (hpr : propagates nd.op = true) (hp : PlainEdges plan nd) {s : ExecState} (hd : Decided nd s) :
    ∃ t, propagateEdges plan nd s = .ok () t ∧ SameView s t := by
  have go : ∀ l : List CompiledEdge, (∀ e ∈ l, PlainEdge nd e) → ∀ {s}, Decided nd s →
      ∃ t, (l.forM (propagateEdge nd plan) : M PUnit) s = .ok () t ∧ SameView s t := by
    intro l
    induction l with
    | nil => exact fun _ {s} _ => ⟨s, rfl, SameView.refl s⟩
    | cons e l ih =>
      intro hl s hd
      obtain ⟨t, ht, hv⟩ := propagateEdge_plain hop hpr (hl e (by simp)) hd
      have hd' : Decided nd t := fun h => by simpa [hv.nodeOutputs] using hd h
      obtain ⟨u, hu, hv'⟩ := ih (fun e' h => hl e' (by simp [h])) hd'
      refine ⟨u, ?_, hv.trans hv'⟩
      rw [forM_cons, bind_of_ok _ ht, hu]
  exact go _ hp hd

end Propagation

/-! ### The arms, opcode by opcode -/

section Opcodes

variable {ex : Executor} {order : List Nat} {bodies : List (Nat × Finset Nat)}
  {runNode : List Frame → CompiledNode → M NodeOutcome} {visit : List Frame}
  {nd : CompiledNode} {s : ExecState}

theorem armEffect_bind_pure {α : Type} (x : M Unit) (a : α) (index : Nat) (s : ExecState) :
    armEffect index s ((x >>= fun _ => pure a) s) = armEffect index s (x s) := by
  rw [bind_apply]
  cases x s <;> rfl

theorem newDispatches_append {t : ExecState} (l : List Event) (h : t.log = s.log ++ l) :
    newDispatches s t = l.filterMap Event.dispatched := by
  simp [newDispatches, h]

theorem armDecide_decided {t : ExecState} (h : armDecide visit nd s = .ok () t) :
    ∃ b, t.nodeOutputs nd.index = some (.bool b) := by
  simp only [armDecide, insertOutput, note, get_bind, modify_bind, modify_apply] at h
  cases h
  exact ⟨_, Function.update_self ..⟩

/-- Behind an arm, plain edges only enable nodes. -/
theorem runArm_effect (hop : ex.plan.opAt nd.index = some nd.op) (hp : PlainEdges ex.plan nd)
    (hl : nd.op ≠ .loop) (hpar : nd.op ≠ .parallel) :
    armEffect nd.index s (runArm ex order bodies runNode visit none nd s) =
      armEffect nd.index s (nodeArm ex visit nd s) := by
  have hrun : runArm ex order bodies runNode visit none nd s =
      (do nodeArm ex visit nd
          propagate ex.plan nd
          pure .ok : M NodeOutcome) s := by
    cases h : nd.op <;> simp_all [runArm]
  rw [hrun]
  cases ha : nodeArm ex visit nd s with
  | error e t => rw [bind_of_error _ ha]; rfl
  | ok a t =>
    rw [bind_of_ok _ ha]
    by_cases hpr : propagates nd.op = true
    · have hd : Decided nd t := by
        intro hdec
        rw [nodeArm, hdec] at ha
        exact armDecide_decided ha
      obtain ⟨u, hu, hv⟩ := propagateEdges_plain hop hpr hp hd
      rw [propagate, if_pos hpr, bind_of_ok _ hu]
      exact (hv.armEffect nd.index s () NodeOutcome.ok).symm
    · rw [propagate, if_neg hpr]
      rfl

/-- The agreement of the arms alone. -/
def SameArms (ex : Executor) (visit : List Frame) (nd : CompiledNode) (s : ExecState) : Prop :=
  armEffect nd.index s (bodyArm ex visit nd s) = armEffect nd.index s (nodeArm ex visit nd s)

theorem sameArms_calc (h : nd.op = .calc) : SameArms ex visit nd s := by
  simp only [SameArms, bodyArm, nodeArm, h, bodyCalc]
  exact armEffect_bind_pure ..

/-- The effect of recording a value and nothing else. -/
def recorded (s : ExecState) (v : Value) : ArmEffect := .done (some v) s.output s.ctx []

theorem armEffect_recorded {α : Type} (a : α) (v : Value) :
    armEffect nd.index s (.ok a { s with
      nodeOutputs := Function.update s.nodeOutputs nd.index (some v) }) = recorded s v := by
  simp [armEffect, recorded, newDispatches]

theorem bodyArm_null (h : nd.op ∈ [Opcode.switch, .parallel, .loop, .wait, .merge, .error]) :
    armEffect nd.index s (bodyArm ex visit nd s) = recorded s .null := by
  have hb : bodyArm ex visit nd s = (do insertOutput nd.index .null; pure .next : M BodyFlow) s := by
    simp only [List.mem_cons, List.not_mem_nil, or_false] at h
    rcases h with h | h | h | h | h | h <;> simp only [bodyArm, h]
  rw [hb]
  exact armEffect_recorded ..

theorem sameArms_input (h : nd.op = .input) : SameArms ex visit nd s ↔ ArmsMatch ex nd s := by
  simp only [SameArms, ArmsMatch, bodyArm, nodeArm, h, bodyInput, armInput, get_bind,
    armEffect_bind_pure, readVar]
  cases hc : s.ctx.get (((nd.arg "name").map trimQuotes).getD nd.id) with
  | some v => simp
  | none =>
    cases hd : nd.arg "default" with
    | none => simp [armEffect]
    | some d =>
      simp [armEffect, insertOutput, newDispatches]

theorem sameArms_wait (h : nd.op = .wait) : SameArms ex visit nd s ↔ ArmsMatch ex nd s := by
  rw [SameArms, bodyArm_null (by simp [h])]
  simp only [ArmsMatch, nodeArm, h, armWait]
  generalize (((nd.arg "duration_secs").bind Text.parseI64).map Int64.toInt).getD 0 = secs
  by_cases hs : 300 < secs
  · rw [failIf_pos hs]
    simp [armEffect, recorded, hs]
  · rw [failIf_neg hs]
    exact iff_of_true (armEffect_recorded ..).symm (by omega)

theorem sameArms_merge (h : nd.op = .merge) : SameArms ex visit nd s ↔ ArmsMatch ex nd s := by
  rw [SameArms, bodyArm_null (by simp [h])]
  simp [ArmsMatch, nodeArm, h, armMerge, insertOutput, armEffect, recorded]

theorem sameArms_error (h : nd.op = .error) : SameArms ex visit nd s ↔ ArmsMatch ex nd s := by
  rw [SameArms, bodyArm_null (by simp [h])]
  simp [ArmsMatch, nodeArm, h, armError, armEffect, recorded]

theorem sameArms_switch (h : nd.op = .switch) : SameArms ex visit nd s ↔ ArmsMatch ex nd s := by
  rw [SameArms, bodyArm_null (by simp [h])]
  simp only [ArmsMatch, nodeArm, h, armSwitch, get_bind, iff_false]
  generalize hx : switchEdges _ _ _ = x
  cases he : x s with
  | error e t => simp [bind_of_error _ he, armEffect, recorded]
  | ok a t => simp [bind_of_ok _ he, insertOutput, armEffect, recorded]

theorem sameArms_decide (h : nd.op = .decide) : SameArms ex visit nd s ↔ ArmsMatch ex nd s := by
  simp only [SameArms, ArmsMatch, bodyArm, nodeArm, h, bodyDecide, evalCondition, armDecide,
    get_bind]
  cases hc : (nd.arg "condition").map trimQuotes with
  | none => simp [insertOutput, note, armEffect]
  | some c =>
    cases he : evalExpression s.ctx s.nodeOutputs c with
    | ok v => simp [eval, he, bind_apply, insertOutput, note, armEffect]
    | error m => simp [eval, he, bind_apply, insertOutput, note, armEffect]

theorem armEffect_output {α : Type} (a : α) (v w : Value) :
    armEffect nd.index s (.ok a { s with
      nodeOutputs := Function.update
        (Function.update s.nodeOutputs nd.index (some w)) nd.index (some v)
      output := some v }) = .done (some v) (some v) s.ctx [] := by
  simp [armEffect, newDispatches]

theorem armEffect_idle {α : Type} (a : α) :
    armEffect nd.index s (.ok a s) = .done (s.nodeOutputs nd.index) s.output s.ctx [] := by
  simp [armEffect, newDispatches]

theorem recorded_eq_output {v w : Value} :
    recorded s v = .done (some w) (some w) s.ctx [] ↔ v = w ∧ s.output = some w := by
  simp [recorded]

theorem idle_eq_recorded {v : Value} :
    ArmEffect.done (s.nodeOutputs nd.index) s.output s.ctx [] = recorded s v ↔
      s.nodeOutputs nd.index = some v := by
  simp [recorded]

theorem armAct_ne_return (hr : ¬ actionType nd = ("return" : Text)) :
    armEffect nd.index s (armAct ex nd s) = recorded s (actText (actionType nd)) := by
  simp only [armAct, if_neg hr]
  exact armEffect_recorded ..

theorem sameArms_act (h : nd.op = .act) : SameArms ex visit nd s ↔ ArmsMatch ex nd s := by
  simp only [SameArms, ArmsMatch, bodyArm, nodeArm, h]
  by_cases hr : actionType nd = ("return" : Text)
  · simp only [bodyAct, armAct, if_pos hr]
    exact Iff.trans (by rw [← armEffect_recorded, ← armEffect_output]; rfl) recorded_eq_output
  rw [armAct_ne_return hr, if_neg hr]
  by_cases hb : actionType nd = ("break" : Text)
  · simp only [bodyAct, if_neg hr, if_pos hb, if_pos (Or.inl hb), pure_apply, armEffect_idle,
      idle_eq_recorded]
  by_cases hc : actionType nd = ("continue" : Text)
  · simp only [bodyAct, if_neg hr, if_neg hb, if_pos hc, if_pos (Or.inr hc), pure_apply,
      armEffect_idle, idle_eq_recorded]
  · simp only [bodyAct, if_neg hr, if_neg hb, if_neg hc, if_neg (not_or.2 ⟨hb, hc⟩), iff_true]
    exact armEffect_recorded ..

/-! ### Calls -/

/-- Only writes were logged. -/
def Silent (s t : ExecState) : Prop :=
  ∃ l : List Event, t.log = s.log ++ l ∧ l.filterMap Event.dispatched = []

theorem Silent.trans {s t u : ExecState} (h : Silent s t) (h' : Silent t u) : Silent s u := by
  obtain ⟨l, hl, hq⟩ := h
  obtain ⟨l', hl', hq'⟩ := h'
  exact ⟨l ++ l', by rw [hl', hl, List.append_assoc], by rw [List.filterMap_append, hq, hq']; rfl⟩

theorem setVars_silent (es : List (Text × Value)) (s : ExecState) :
    ∃ t, setVars es s = .ok () t ∧ Silent s t := by
  induction es generalizing s with
  | nil => exact ⟨s, rfl, [], by simp⟩
  | cons e es ih =>
    obtain ⟨k, v⟩ := e
    obtain ⟨t, ht, hs⟩ := ih { s with ctx := s.ctx.set k v, log := s.log ++ [.write k v] }
    exact ⟨t, ht, Silent.trans ⟨[.write k v], rfl, rfl⟩ hs⟩

theorem writeOutput_silent (outputVar : Option Text) (v : Value) (s : ExecState) :
    ∃ t, writeOutput outputVar v s = .ok () t ∧ Silent s t := by
  cases outputVar with
  | none => exact ⟨s, rfl, [], by simp⟩
  | some name => exact ⟨_, rfl, [.write name v], rfl, rfl⟩

/-- The dispatches of an effect. -/
def ArmEffect.dispatches : ArmEffect → List Dispatch
  | .done _ _ _ ds | .failed _ ds => ds

theorem dispatches_after {α : Type} {t : ExecState} (d : Dispatch)
    (r : EStateM.Result ExecutionError ExecState α) (hlog : t.log = s.log ++ [.dispatch d])
    (hr : Silent t (finalState r)) : (armEffect nd.index s r).dispatches = [d] := by
  obtain ⟨l, hl, hq⟩ := hr
  have hd : newDispatches s (finalState r) = [d] := by
    rw [newDispatches_append ([.dispatch d] ++ l) (by rw [hl, hlog, List.append_assoc])]
    simp [hq, Event.dispatched]
  cases r <;> exact hd

theorem callSubgraph_dispatches (name : Text) (params : Dict Text Value) (outputVar : Option Text)
    (hlim : ¬ ex.plan.metadata.maxRecursionDepth ≤ ex.recursionDepth) :
    (armEffect nd.index s (callSubgraph ex nd name params outputVar s)).dispatches =
      [.subgraph name (setAll s.ctx params)] := by
  refine dispatches_after
    (t := { s with log := s.log ++ [.dispatch (.subgraph name (setAll s.ctx params))] }) _ _ rfl ?_
  simp only [callSubgraph, get_bind, failIf_neg hlim, pure_bind_apply, note, modify_bind]
  cases ex.registry.executeSubgraph name (setAll s.ctx params) with
  | error e => exact ⟨[], by simp [finalState]⟩
  | ok r =>
    obtain ⟨t, ht, hs⟩ := setVars_silent r.1.vars.entries
      { s with log := s.log ++ [.dispatch (.subgraph name (setAll s.ctx params))] }
    obtain ⟨u, hu, hs'⟩ := writeOutput_silent outputVar r.2 t
    simp only [bind_of_ok _ ht, bind_of_ok _ hu, insertOutput, modify_apply, finalState]
    exact hs.trans hs'

theorem callSubgraph_congr (name : Text) {params params' : Dict Text Value}
    (outputVar : Option Text) (h : setAll s.ctx params = setAll s.ctx params') :
    callSubgraph ex nd name params outputVar s = callSubgraph ex nd name params' outputVar s := by
  simp only [callSubgraph, get_bind, h]

theorem callSubgraph_limit (name : Text) (params : Dict Text Value) (outputVar : Option Text)
    (h : ex.plan.metadata.maxRecursionDepth ≤ ex.recursionDepth) :
    callSubgraph ex nd name params outputVar s = .error (.recursionLimitExceeded name) s := by
  simp only [callSubgraph, get_bind, failIf_pos h, throw_bind]

theorem sameArms_subgraph (h : nd.op = .call)
    (hsub : Text.stripPrefix "subgraph:" (callTargetOf nd) ≠ none) :
    SameArms ex visit nd s ↔ ArmsMatch ex nd s := by
  simp only [SameArms, ArmsMatch, bodyArm, nodeArm, h, bodyCall, armCall, get_bind, if_pos hsub,
    armEffect_bind_pure]
  by_cases hlim : ex.plan.metadata.maxRecursionDepth ≤ ex.recursionDepth
  · simp only [callSubgraph_limit _ _ _ hlim, hlim, true_or]
  · simp only [hlim, false_or]
    constructor
    · intro heq
      have hd := congrArg ArmEffect.dispatches heq
      rw [callSubgraph_dispatches _ _ _ hlim, callSubgraph_dispatches _ _ _ hlim] at hd
      simpa using hd
    · intro heq
      rw [callSubgraph_congr _ _ heq]

theorem callParams_congr (h : NoErrorPolicy nd) (ctx : Context) (outputs : Nat → Option Value) :
    callParams nd bodyReserved ctx outputs = callParams nd topReserved ctx outputs := by
  have hf : nd.args.filter (fun a => a.key ∉ bodyReserved) =
      nd.args.filter (fun a => a.key ∉ topReserved) := by
    refine List.filter_congr fun a ha => ?_
    obtain ⟨he, hv⟩ := h a ha
    rw [decide_eq_decide]
    simp only [bodyReserved, topReserved, List.mem_cons, he, hv, false_or]
  rw [callParams, callParams, hf]

theorem isSome_callParams (reserved : List Text) (ctx : Context) (outputs : Nat → Option Value)
    (k : Text) : ((callParams nd reserved ctx outputs).get k).isSome ↔
      k ∉ reserved ∧ ∃ a ∈ nd.args, a.key = k := by
  simp only [callParams, Dict.isSome_get_ofList, List.map_map, List.mem_map, List.mem_filter,
    Function.comp, decide_eq_true_eq]
  constructor
  · rintro ⟨a, ⟨ha, hr⟩, rfl⟩
    exact ⟨hr, a, ha, rfl⟩
  · rintro ⟨hr, a, ha, rfl⟩
    exact ⟨a, ⟨ha, hr⟩, rfl⟩

theorem noErrorPolicy_of_callParams (ctx : Context) (outputs : Nat → Option Value)
    (h : callParams nd bodyReserved ctx outputs = callParams nd topReserved ctx outputs) :
    NoErrorPolicy nd := by
  have key : ∀ k, k ∉ bodyReserved → k ∈ topReserved → ∀ a ∈ nd.args, a.key ≠ k := by
    intro k hb ht a ha hk
    have hs := (isSome_callParams bodyReserved ctx outputs k).2 ⟨hb, a, ha, hk⟩
    rw [h, isSome_callParams] at hs
    exact hs.1 ht
  exact fun a ha => ⟨key _ (by decide) (by decide) a ha, key _ (by decide) (by decide) a ha⟩

theorem arg_eq_none {k : Text} (h : ∀ a ∈ nd.args, a.key ≠ k) : nd.arg k = none := by
  have hf : nd.args.find? (fun a => a.key == k) = none := by
    rw [List.find?_eq_none]
    intro a ha
    simpa using h a ha
  rw [CompiledNode.arg, hf]
  rfl

theorem onErrorValue_eq_none (h : NoErrorPolicy nd) : onErrorValue nd = none := by
  have ha : nd.arg "on_error" = none := arg_eq_none fun a ha => (h a ha).1
  simp only [onErrorValue, ha, Option.map_none, Option.getD_none]
  rw [if_neg (by decide), if_neg (by decide)]

/-- A call of a tool, with what stands for a failure as an argument. -/
def toolCall (ex : Executor) (nd : CompiledNode) (call : CallTarget) (recover : Option Value) :
    M Unit := do
  match ← dispatchCall ex call with
  | .ok v => writeOutput ((nd.arg "output").map trimQuotes) v; insertOutput nd.index v
  | .error e =>
    match recover with
    | some v => writeOutput ((nd.arg "output").map trimQuotes) v; insertOutput nd.index v
    | none => throw (.callFailed call.name e)

theorem toolCall_dispatches (call : CallTarget) (recover : Option Value) :
    (armEffect nd.index s (toolCall ex nd call recover s)).dispatches = [.tool call] := by
  refine dispatches_after (t := { s with log := s.log ++ [.dispatch (.tool call)] }) _ _ rfl ?_
  have record : ∀ v, Silent { s with log := s.log ++ [.dispatch (.tool call)] }
      (finalState ((do writeOutput ((nd.arg "output").map trimQuotes) v
                       insertOutput nd.index v : M Unit)
        { s with log := s.log ++ [.dispatch (.tool call)] })) := by
    intro v
    obtain ⟨t, ht, hs⟩ := writeOutput_silent ((nd.arg "output").map trimQuotes) v
      { s with log := s.log ++ [.dispatch (.tool call)] }
    rw [bind_of_ok _ ht]
    exact hs
  simp only [toolCall, dispatchCall, note, bind_apply, get_apply, modify_apply, pure_apply]
  cases ex.registry.dispatch call s.ctx with
  | ok v => exact record v
  | error e =>
    cases recover with
    | some v => exact record v
    | none => exact ⟨[], by simp [finalState], rfl⟩

theorem bodyCall_tool (hsub : Text.stripPrefix "subgraph:" (callTargetOf nd) = none) :
    armEffect nd.index s (bodyCall ex nd s) = armEffect nd.index s
      (toolCall ex nd ⟨callTargetOf nd, [], callParams nd bodyReserved s.ctx s.nodeOutputs⟩ none
        s) := by
  rw [← armEffect_bind_pure _ BodyFlow.next]
  simp only [bodyCall, toolCall, dispatchCall, note, bind_apply, get_apply, modify_apply,
    pure_apply, hsub, ne_eq, not_true_eq_false, if_false]
  cases ex.registry.dispatch ⟨callTargetOf nd, [], callParams nd bodyReserved s.ctx s.nodeOutputs⟩
    s.ctx with
  | ok v =>
    obtain ⟨t, ht, -⟩ := writeOutput_silent ((nd.arg "output").map trimQuotes) v
      { s with log := s.log ++ [.dispatch (.tool ⟨callTargetOf nd, [],
        callParams nd bodyReserved s.ctx s.nodeOutputs⟩)] }
    simp only [bind_apply, ht]
    rfl
  | error e => rfl

theorem armCall_tool (hsub : Text.stripPrefix "subgraph:" (callTargetOf nd) = none) :
    armCall ex nd s = match schemaDrift ex (callTargetOf nd) with
      | some e => .error e s
      | none => toolCall ex nd
          ⟨callTargetOf nd, [], callParams nd topReserved s.ctx s.nodeOutputs⟩ (onErrorValue nd) s := by
  simp only [armCall, get_bind, hsub, ne_eq, not_true_eq_false, if_false, checkSchemaDrift]
  cases schemaDrift ex (callTargetOf nd) with
  | some e => rfl
  | none => rfl

theorem sameArms_tool (h : nd.op = .call)
    (hsub : Text.stripPrefix "subgraph:" (callTargetOf nd) = none) :
    SameArms ex visit nd s ↔ ArmsMatch ex nd s := by
  have hneg : ¬ Text.stripPrefix "subgraph:" (callTargetOf nd) ≠ none := fun hn => hn hsub
  simp only [SameArms, ArmsMatch, bodyArm, nodeArm, h, if_neg hneg, bodyCall_tool hsub,
    armCall_tool hsub]
  constructor
  · intro heq
    have hd := congrArg ArmEffect.dispatches heq
    rw [toolCall_dispatches] at hd
    cases hdr : schemaDrift ex (callTargetOf nd) with
    | some e =>
      rw [hdr] at hd
      simp [armEffect, newDispatches, ArmEffect.dispatches] at hd
    | none =>
      rw [hdr, toolCall_dispatches] at hd
      refine ⟨noErrorPolicy_of_callParams s.ctx s.nodeOutputs ?_, rfl⟩
      simpa using hd
  · rintro ⟨hpol, hdr⟩
    rw [hdr, callParams_congr hpol, onErrorValue_eq_none hpol]

/-! ### Loops -/

/-- Only node outputs and the bookkeeping of enabled nodes may differ. -/
structure SameCtx (s t : ExecState) : Prop where
  ctx : t.ctx = s.ctx
  output : t.output = s.output
  log : t.log = s.log

instance : Std.Refl SameCtx := ⟨fun _ => ⟨rfl, rfl, rfl⟩⟩

instance : IsTrans ExecState SameCtx :=
  ⟨fun _ _ _ h h' => ⟨h'.ctx.trans h.ctx, h'.output.trans h.output, h'.log.trans h.log⟩⟩

theorem readBodyCalc_runs (body : Finset Nat) (nd : CompiledNode) :
    Runs SameCtx (readBodyCalc body nd) := by
  refine Runs.get_bind fun s => Runs.ite ?_ Runs.pure
  split
  · split
    · exact Runs.modify fun _ => ⟨rfl, rfl, rfl⟩
    · exact Runs.pure
  · exact Runs.pure

theorem enableAfterBody_runs (plan : CompiledPlan) (body : Finset Nat) (nd : CompiledNode) :
    Runs SameCtx (enableAfterBody plan body nd) := by
  refine Runs.get_bind fun s => Runs.ite (Runs.ite ?_ Runs.pure) Runs.pure
  exact Runs.modify fun _ => ⟨rfl, rfl, rfl⟩

theorem leaveLoopEdge_runs (body : Finset Nat) {e : CompiledEdge} (he : e.mapping.getD [] = []) :
    Runs SameCtx (leaveLoopEdge body e) := by
  refine Runs.ite Runs.pure (Runs.bind (Runs.ite ?_ ?_) ?_)
  · exact Runs.modify fun _ => ⟨rfl, rfl, rfl⟩
  · rw [applyMapping, he]
    exact Runs.pure
  · exact Runs.modify fun _ => ⟨rfl, rfl, rfl⟩

theorem settleBody_runs (body : Finset Nat) : Runs SameCtx (settleBody ex body nd) := by
  refine Runs.get_bind fun s => Runs.ite (Runs.bind ?_ ?_) Runs.pure
  · exact Runs.forM fun nd' _ => readBodyCalc_runs body nd'
  · exact Runs.forM fun nd' _ => enableAfterBody_runs ex.plan body nd'

/-- What follows the iterations records Null for the LOOP and leaves the context alone. -/
theorem finishLoop_plain (bodies : List (Nat × Finset Nat)) (hp : PlainEdges ex.plan nd) (s : ExecState) :
    ∃ t, finishLoop ex bodies nd s = .ok .ok t ∧ SameCtx s t ∧
      t.nodeOutputs nd.index = some .null := by
  obtain ⟨t, ht, hst⟩ := @settleBody_runs ex nd (bodyOf bodies nd.index) s
  obtain ⟨u, hu, htu⟩ := Runs.forM (R := SameCtx)
    (fun e he => leaveLoopEdge_runs (bodyOf bodies nd.index) (hp e he).1) t
  refine ⟨{ u with nodeOutputs := Function.update u.nodeOutputs nd.index (some .null) }, ?_, ?_,
    Function.update_self ..⟩
  · simp only [finishLoop]
    rw [bind_of_ok _ ht, bind_of_ok _ hu]
    rfl
  · have hsu := trans_of SameCtx hst htu
    exact ⟨hsu.ctx, hsu.output, hsu.log⟩

theorem runLoop_idle (hp : PlainEdges ex.plan nd)
    (hb : loopBound ex.plan s.nodeOutputs nd = 0 ∨ ex.plan.anchors nd.index false = []) :
    armEffect nd.index s (runLoop ex order bodies visit none (0, 0) nd s) = recorded s .null := by
  have finish : ∀ u : ExecState, SameCtx s u →
      armEffect nd.index s (finishLoop ex bodies nd u) = recorded s .null := by
    intro u hu
    obtain ⟨t, ht, hut, hnull⟩ := finishLoop_plain bodies hp u
    have hst := trans_of SameCtx hu hut
    rw [ht]
    simp [armEffect, recorded, newDispatches, hnull, hst.ctx, hst.output, hst.log]
  simp only [runLoop, get_bind]
  by_cases ha : ex.plan.anchors nd.index false = []
  · rw [if_pos ha]
    exact finish s (refl_of SameCtx s)
  · rw [if_neg ha, modify_bind, hb.resolve_right ha]
    exact finish _ ⟨rfl, rfl, rfl⟩

end Opcodes

/-! ### The two interpreters -/

theorem sameArms_iff {ex : Executor} {visit : List Frame} {nd : CompiledNode} {s : ExecState}
    (hl : nd.op ≠ .loop) (hp : nd.op ≠ .parallel) :
    SameArms ex visit nd s ↔ ArmsMatch ex nd s := by
  match h : nd.op with
  | .input => exact sameArms_input h
  | .calc => exact iff_of_true (sameArms_calc h) (by simp only [ArmsMatch, h])
  | .call =>
    by_cases hsub : Text.stripPrefix "subgraph:" (callTargetOf nd) = none
    · exact sameArms_tool h hsub
    · exact sameArms_subgraph h hsub
  | .decide => exact sameArms_decide h
  | .switch => exact sameArms_switch h
  | .act => exact sameArms_act h
  | .wait => exact sameArms_wait h
  | .merge => exact sameArms_merge h
  | .error => exact sameArms_error h
  | .loop => exact absurd h hl
  | .parallel => exact absurd h hp

/-- A `for` around a `raise` and a call. -/
def raisingLoop : CompiledPlan := CompiledPlan.fromExecutionPlan (ExecutionPlan.new
  [⟨"n0", .loop, [⟨"target", .string "i"⟩, ⟨"max_iterations", .int 2⟩], none, none, none⟩,
   ⟨"n1", .error, [⟨"message", .string "raised by code"⟩], none, none, none⟩,
   ⟨"n2", .call, [⟨"type", .string "call"⟩, ⟨"target", .string "t"⟩], none, none, none⟩]
  [Edge.new "n0" "n1", Edge.control "n1" "n2"]) []

def raisingLoopNode (i : Nat) : CompiledNode :=
  (raisingLoop.getNode i).getD ⟨i, [], .merge, [], none, none, none⟩

end Tinypipe
