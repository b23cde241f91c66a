import Tinypipe.Vm.Agreement
import Tinypipe.Vm.Budget
import Tinypipe.Vm.Errors
import Tinypipe.Vm.Scopes
import Tinypipe.Vm.Stops

/-! How often a node runs. The main walk, the branch threads and the loop bodies each keep their own
account of what is to be skipped; here it is whether they add up: over the segments of a run, the walk
and the threads together run a node outside the loop bodies at most once. -/

namespace Tinypipe

open Lib Lib.Stateful

/-! ### What the walk and the threads run -/

def Frame.isBranch : Frame → Bool
  | branch _ _ => true
  | iteration _ _ => false

/-- The nodes that `run_node` runs in a log, each with its thread. The other nodes of the log are run
by `run_loop`. -/
def walked (l : List Event) : List Key := (stepKeys l).filter fun k => k.1.all Frame.isBranch

namespace CompiledPlan

variable (plan : CompiledPlan)

/-- In the body of some LOOP. -/
def inBody (i : Nat) : Bool := plan.identifyLoopBodies.any fun b => i ∈ b.2

/-- The nodes outside the loop bodies that `run_node` runs. -/
def free (l : List Event) : List Nat := ((walked l).map Prod.snd).filter fun i => !plan.inBody i

/-- The CALLs among them, with those in the loop bodies. -/
def calls (l : List Event) : Nat := (walked l).countP fun k => decide (plan.opAt k.2 = some .call)

def CallsOutside : Prop := ∀ i, plan.inBody i = true → plan.opAt i ≠ some .call

/-- A node that a PARALLEL gives to one of its threads. -/
def InBranch (p i : Nat) : Prop :=
  plan.opAt p = some .parallel ∧
    i ∈ plan.collectReachableIndices ((plan.edgesFrom p).map CompiledEdge.toIndex) ∧
      (plan.getNode i).bind CompiledNode.branchId ≠ none

/-- A branch that a DECIDE outside the loop bodies has decided against. -/
def Refused (outputs : Nat → Option Value) (i : Nat) : Prop :=
  ∃ e ∈ plan.edges, ∃ want b, gateLabel plan i e = some want ∧ plan.inBody e.fromIndex = false ∧
    outputs e.fromIndex = some (.bool b) ∧ b ≠ want

/-- Every PARALLEL that has the node in a branch is in no loop body, and has run or will not run. -/
def Covered (outputs : Nat → Option Value) (i : Nat) : Prop :=
  ∀ p, plan.InBranch p i → plan.inBody p = false ∧ ((outputs p).isSome ∨ plan.Refused outputs p)

/-- Every node outside the loop bodies that `run_node` runs is covered when it starts. -/
def CoveredLog (l : List Event) : Prop :=
  ∀ v i c o, .node v i c o ∈ l → v.all Frame.isBranch = true → plan.inBody i = false → plan.Covered o i

def idAt (i : Nat) : Text := ((plan.getNode i).map CompiledNode.id).getD []

instance (p i : Nat) : Decidable (plan.InBranch p i) := inferInstanceAs (Decidable (_ ∧ _ ∧ _))

instance (outputs : Nat → Option Value) (i : Nat) : Decidable (plan.Refused outputs i) :=
  inferInstanceAs (Decidable (∃ e ∈ plan.edges, ∃ want b : Bool, gateLabel plan i e = some want ∧
    plan.inBody e.fromIndex = false ∧ outputs e.fromIndex = some (.bool b) ∧ b ≠ want))

theorem covered_iff {outputs : Nat → Option Value} {i : Nat} :
    (∀ p ∈ List.range plan.nodes.length, plan.InBranch p i →
      plan.inBody p = false ∧ ((outputs p).isSome ∨ plan.Refused outputs p)) ↔ plan.Covered outputs i := by
  refine ⟨fun h p hp => h p ?_ hp, fun h p _ hp => h p hp⟩
  obtain ⟨nd, hnd, -⟩ := Option.map_eq_some_iff.1 hp.1
  exact List.mem_range.2 (List.getElem?_eq_some_iff.1 hnd).1

instance (outputs : Nat → Option Value) (i : Nat) : Decidable (plan.Covered outputs i) :=
  decidable_of_iff _ plan.covered_iff

/-- The condition on a single event. -/
def coveredEvent : Event → Bool
  | .node v i _ o => !v.all Frame.isBranch || plan.inBody i || decide (plan.Covered o i)
  | .iteration .. | .decided .. | .dispatch _ | .write .. => true

theorem coveredLog_iff {l : List Event} : l.all plan.coveredEvent = true ↔ plan.CoveredLog l := by
  rw [List.all_eq_true]
  constructor
  · intro h v i c o he hv hbody
    have hevent := h _ he
    simp only [coveredEvent, hv, hbody, Bool.not_true, Bool.false_or, decide_eq_true_eq] at hevent
    exact hevent
  · intro h e he
    cases e with
    | node v i c o =>
      by_cases hv : v.all Frame.isBranch = true
      · cases hbody : plan.inBody i with
        | true => simp [coveredEvent, hbody]
        | false => simp [coveredEvent, h v i c o he hv hbody]
      · simp [coveredEvent, hv]
    | _ => rfl

instance (l : List Event) : Decidable (plan.CoveredLog l) := decidable_of_iff _ plan.coveredLog_iff

end CompiledPlan

/-! ### What an arm leaves alone -/

/-- Not a node that `run_node` runs, and a dispatch only if there may be one. -/
def OffWalk (q : Bool) : Event → Prop
  | .node v _ _ _ => v.all Frame.isBranch = false
  | .dispatch _ => q = true
  | .iteration .. | .decided .. | .write .. => True

theorem walked_append (l l' : List Event) : walked (l ++ l') = walked l ++ walked l' := by
  simp [walked, stepKeys]

theorem mem_walked {l : List Event} {k : Key} :
    k ∈ walked l ↔ k.1.all Frame.isBranch = true ∧ ∃ c o, .node k.1 k.2 c o ∈ l := by
  rw [walked, List.mem_filter, mem_stepKeys, and_comm]

theorem walked_of_offWalk {q : Bool} {l : List Event} (h : ∀ e ∈ l, OffWalk q e) : walked l = [] := by
  refine List.eq_nil_iff_forall_not_mem.2 fun k hk => ?_
  obtain ⟨hbranch, c, o, he⟩ := mem_walked.1 hk
  exact Bool.false_ne_true ((h _ he).symm.trans hbranch)

def dispatches (l : List Event) : List Dispatch := l.filterMap Event.dispatched

theorem dispatches_append (l l' : List Event) : dispatches (l ++ l') = dispatches l ++ dispatches l' :=
  List.filterMap_append

theorem dispatches_of_offWalk {l : List Event} (h : ∀ e ∈ l, OffWalk false e) : dispatches l = [] := by
  refine List.filterMap_eq_nil_iff.2 fun e he => ?_
  have hoff := h e he
  cases e with
  | dispatch d => cases hoff
  | _ => rfl

/-- Outside `S` no value changes, nothing is run, and nothing is skipped no more. -/
structure Confined (q : Bool) (S : Set Nat) (s t : ExecState) : Prop where
  log : Extends ExecState.log (fun l => ∀ e ∈ l, OffWalk q e) s t
  executionOrder : t.executionOrder = s.executionOrder
  loopSkipped : s.loopSkipped ⊆ t.loopSkipped
  nodeOutputs : ∀ i, i ∉ S → t.nodeOutputs i = s.nodeOutputs i

section Confined

variable {q : Bool} {S : Set Nat} {ex : Executor} {visit : List Frame} {nd : CompiledNode}

instance : Std.Refl (Confined q S) :=
  ⟨fun s => ⟨refl_of (Extends ExecState.log _) s, rfl, subset_rfl, fun _ _ => rfl⟩⟩

instance : IsTrans ExecState (Confined q S) :=
  ⟨fun _ _ _ h h' => ⟨trans_of (Extends ExecState.log _) h.log h'.log,
    h'.executionOrder.trans h.executionOrder, h.loopSkipped.trans h'.loopSkipped,
    fun i hi => (h'.nodeOutputs i hi).trans (h.nodeOutputs i hi)⟩⟩

theorem Confined.mono {S' : Set Nat} {s t : ExecState} (hS : S ⊆ S') (h : Confined q S s t) : Confined q S' s t :=
  ⟨h.log, h.executionOrder, h.loopSkipped, fun i hi => h.nodeOutputs i fun hi' => hi (hS hi')⟩

theorem confined_modify {f : ExecState → ExecState} (hlog : ∀ s, (f s).log = s.log)
    (horder : ∀ s, (f s).executionOrder = s.executionOrder) (hskip : ∀ s, s.loopSkipped ⊆ (f s).loopSkipped)
    (hout : ∀ s, (f s).nodeOutputs = s.nodeOutputs) : Steps (Confined q S) (modify f : M Unit) :=
  Steps.modify fun s => ⟨Extends.same (hlog s), horder s, hskip s, fun i _ => by rw [hout]⟩

theorem confined_log {e : Event} (h : OffWalk q e) (s : ExecState) : Confined q S s { s with log := s.log ++ [e] } :=
  ⟨⟨[e], rfl, by simpa using h⟩, rfl, subset_rfl, fun _ _ => rfl⟩

theorem setVar_confined (k : Text) (v : Value) : Steps (Confined q S) (setVar k v) :=
  Steps.modify fun _ => ⟨⟨[_], rfl, by simp [OffWalk]⟩, rfl, subset_rfl, fun _ _ => rfl⟩

theorem note_confined {e : Event} (h : OffWalk q e) : Steps (Confined q S) (note e) := Steps.modify (confined_log h)

theorem insertOutput_confined {i : Nat} (hi : i ∈ S) (v : Value) : Steps (Confined q S) (insertOutput i v) :=
  Steps.modify fun _ => ⟨Extends.same rfl, rfl, subset_rfl, fun j hj =>
    Function.update_of_ne (fun heq : j = i => hj (heq ▸ hi)) ..⟩

theorem enable_confined (i : Nat) : Steps (Confined q S) (enable i) :=
  confined_modify (fun _ => rfl) (fun _ => rfl) (fun _ => subset_rfl) fun _ => rfl

theorem satisfyControl_confined (i : Nat) : Steps (Confined q S) (satisfyControl i) :=
  confined_modify (fun _ => rfl) (fun _ => rfl) (fun _ => subset_rfl) fun _ => rfl

theorem failIf_confined (c : Prop) [Decidable c] (e : ExecutionError) : Steps (Confined q S) (failIf c e) :=
  Steps.ite (Steps.throw _) (Steps.pure _)

theorem eval_confined (text : Text) : Steps (Confined q S) (eval text) := by
  refine Steps.get_bind fun s => ?_
  split
  · exact Steps.pure _
  · exact Steps.throw _

theorem setVars_confined : ∀ es, Steps (Confined q S) (setVars es)
  | [] => Steps.pure _
  | (k, v) :: es => Steps.bind (setVar_confined k v) fun _ => setVars_confined es

theorem writeOutput_confined (name : Option Text) (v : Value) : Steps (Confined q S) (writeOutput name v) := by
  cases name with
  | none => exact Steps.pure _
  | some k => exact setVar_confined k v

theorem applyPairs_confined : ∀ ps, Steps (Confined q S) (applyPairs ps)
  | [] => Steps.pure _
  | (a, b) :: ps => by
    refine Steps.bind (Steps.get_bind fun s => ?_) fun _ => applyPairs_confined ps
    split
    · exact setVar_confined _ _
    · exact Steps.pure _

theorem followEdge_confined (b : Bool) (e : CompiledEdge) : Steps (Confined q S) (followEdge b e) :=
  Steps.ite (Steps.bind (applyPairs_confined _) fun _ => enable_confined _) (Steps.pure _)

theorem propagate_confined (plan : CompiledPlan) : Steps (Confined q S) (propagate plan nd) := by
  refine Steps.ite (Steps.forM (fun e => Steps.ite ?_ ?_) _) (Steps.pure _)
  · exact Steps.bind (satisfyControl_confined _) fun _ => enable_confined _
  · exact Steps.bind (ArmLaws.edgeFires plan e) fun b => followEdge_confined b e

theorem record_confined (out : Option Text) {i : Nat} (hi : i ∈ S) (v : Value) :
    Steps (Confined q S) (do writeOutput out v; insertOutput i v : M Unit) :=
  Steps.bind (writeOutput_confined _ _) fun _ => insertOutput_confined hi _

theorem callSubgraph_confined (hq : q = true) (hi : nd.index ∈ S) (name : Text) (params : Dict Text Value) (out : Option Text) :
    Steps (Confined q S) (callSubgraph ex nd name params out) := by
  refine Steps.get_bind fun s => Steps.bind (failIf_confined _ _) fun _ =>
    Steps.bind (note_confined hq) fun _ => ?_
  split
  · exact Steps.throw _
  · exact Steps.bind (setVars_confined _) fun _ => record_confined _ hi _

theorem dispatchCall_confined (hq : q = true) (call : CallTarget) : Steps (Confined q S) (dispatchCall ex call) :=
  Steps.get_bind fun _ => Steps.bind (note_confined hq) fun _ => Steps.pure _

theorem armCalc_confined (hi : nd.index ∈ S) : Steps (Confined q S) (armCalc nd) := by
  refine Steps.bind (eval_confined _) fun v => Steps.bind (insertOutput_confined hi v) fun _ => ?_
  split
  · exact setVar_confined _ _
  · exact Steps.pure _

theorem armCall_confined (hq : q = true) (hi : nd.index ∈ S) : Steps (Confined q S) (armCall ex nd) := by
  refine Steps.get_bind fun s => Steps.ite (callSubgraph_confined hq hi _ _ _)
    (Steps.bind ?_ fun _ => Steps.bind (dispatchCall_confined hq _) fun r => ?_)
  · unfold checkSchemaDrift
    split
    · exact Steps.throw _
    · exact Steps.pure _
  · split
    · exact record_confined _ hi _
    · split
      · exact record_confined _ hi _
      · exact Steps.throw _

theorem switchEdges_confined (source : Text) : ∀ (matched : Bool) (es : List CompiledEdge),
    Steps (Confined q S) (switchEdges source matched es)
  | _, [] => Steps.pure _
  | _, _ :: es => Steps.bind (followEdge_confined _ _) fun _ => switchEdges_confined source _ es

/-- An arm of `run_node` gives a value to its own node only. -/
theorem nodeArm_confined (hq : nd.op = .call → q = true) (hi : nd.index ∈ S) : Steps (Confined q S) (nodeArm ex visit nd) := by
  have insert : ∀ v, Steps (Confined q S) (insertOutput nd.index v) := insertOutput_confined hi
  unfold nodeArm
  split
  · refine Steps.get_bind fun s => ?_
    split
    · exact insert _
    · exact insert _
    · exact Steps.pure _
  · exact armCalc_confined hi
  · exact armCall_confined (hq ‹_›) hi
  · exact Steps.get_bind fun s => Steps.bind (insert _) fun _ => note_confined trivial
  · refine Steps.bind (insert _) fun _ => Steps.ite ?_ (Steps.pure _)
    refine Steps.get_bind fun s => Steps.bind ?_ fun _ => insert _
    exact confined_modify (fun _ => rfl) (fun _ => rfl) (fun _ => subset_rfl) fun _ => rfl
  · exact Steps.get_bind fun s => Steps.bind (switchEdges_confined _ _ _) fun _ => insert _
  · exact Steps.bind (failIf_confined _ _) fun _ => insert _
  · refine Steps.bind ?_ fun _ => Steps.get_bind fun s => insert _
    exact confined_modify (fun _ => rfl) (fun _ => rfl) (fun _ => subset_rfl) fun _ => rfl
  · exact Steps.throw _
  · exact Steps.pure _
  · exact Steps.pure _

/-! ### The loop -/

theorem bodyArm_confined (hq : nd.op = .call → q = true) (hi : nd.index ∈ S) : Steps (Confined q S) (bodyArm ex visit nd) := by
  have next : ∀ {x : M Unit} (b : BodyFlow), Steps (Confined q S) x →
      Steps (Confined q S) (do x; pure b : M BodyFlow) :=
    fun b hx => Steps.bind hx fun _ => Steps.pure b
  have insert : ∀ v, Steps (Confined q S) (insertOutput nd.index v) := insertOutput_confined hi
  unfold bodyArm
  split
  · exact next _ (armCalc_confined hi)
  · refine Steps.get_bind fun s => Steps.ite (next _ (callSubgraph_confined (hq ‹_›) hi _ _ _))
      (Steps.bind (dispatchCall_confined (hq ‹_›) _) fun r => ?_)
    split
    · exact Steps.bind (writeOutput_confined _ _) fun _ => next _ (insert _)
    · exact Steps.throw _
  · exact Steps.bind ArmLaws.evalCondition fun _ => Steps.bind (insert _) fun _ => next _ (note_confined trivial)
  · refine next _ (Steps.get_bind fun s => ?_)
    split
    · exact insert _
    · exact Steps.pure _
  · refine Steps.ite ?_ (Steps.ite (Steps.pure _) (Steps.ite (Steps.pure _) (next _ (insert _))))
    exact Steps.get_bind fun _ => next _ (insert _)
  all_goals exact next _ (insert _)

theorem countNode_confined (plan : CompiledPlan) : Steps (Confined q S) (countNode plan) :=
  Steps.bind (confined_modify (fun _ => rfl) (fun _ => rfl) (fun _ => subset_rfl) fun _ => rfl) fun _ =>
    Steps.get_bind fun _ => failIf_confined _ _

variable (hindex : ∀ i nd, ex.plan.getNode i = some nd → nd.index = i)

include hindex

theorem runBody_confined (hvisit : visit.all Frame.isBranch = false) (pause : Option PausePolicy) :
    ∀ (position : Nat) (nodes : List Nat), (∀ i ∈ nodes, i ∈ S) →
      (∀ i ∈ nodes, ex.plan.opAt i = some .call → q = true) →
        Steps (Confined q S) (runBody ex visit pause position nodes)
  | _, [], _, _ => Steps.pure _
  | position, idx :: rest, hnodes, hcalls => by
    have hrest : ∀ p, Steps (Confined q S) (runBody ex visit pause p rest) := fun p =>
      runBody_confined hvisit pause p rest (fun i hi => hnodes i (List.mem_cons_of_mem _ hi))
        fun i hi => hcalls i (List.mem_cons_of_mem _ hi)
    have hnode : Steps (Confined q S) (bodyNode ex visit idx) := by
      unfold bodyNode
      split
      · exact Steps.throw _
      case h_2 nd hnd =>
        have hmem : nd.index ∈ S := (hindex idx nd hnd).symm ▸ hnodes idx List.mem_cons_self
        have hcall : nd.op = .call → q = true := fun hop => hcalls idx List.mem_cons_self (by
          rw [CompiledPlan.opAt, hnd, Option.map_some, hop])
        refine Steps.get_bind fun s => Steps.ite (Steps.pure _) ?_
        refine Steps.bind (countNode_confined _) fun _ => Steps.bind (Steps.modify fun t => ?_) fun _ =>
          Steps.bind (bodyArm_confined hcall hmem) fun _ => Steps.pure _
        exact confined_log (e := .node visit nd.index t.ctx t.nodeOutputs) hvisit t
    refine Steps.bind hnode fun r => ?_
    split
    · exact hrest _
    · exact hrest _
    · exact Steps.pure _
    · exact Steps.pure _
    · exact Steps.get_bind fun s => Steps.ite (Steps.pure _) (hrest _)

theorem runIterations_confined (pause : Option PausePolicy) (loop : Nat) (target : Option Text) {body : List Nat}
    (hbody : ∀ i ∈ body, i ∈ S) (hcalls : ∀ i ∈ body, ex.plan.opAt i = some .call → q = true) :
    ∀ remaining iteration start,
      Steps (Confined q S) (runIterations ex visit pause loop target body remaining iteration start)
  | 0, _, _ => Steps.pure _
  | remaining + 1, iteration, start => by
    have hvisit : (visit ++ [Frame.iteration loop iteration]).all Frame.isBranch = false := by
      rw [List.all_append]
      exact Bool.and_false _
    refine Steps.bind (writeOutput_confined _ _) fun _ => Steps.bind (Steps.modify fun s => ?_) fun _ =>
      Steps.bind (runBody_confined hindex hvisit pause _ _ (fun i hi => hbody i (List.mem_of_mem_drop hi))
        fun i hi => hcalls i (List.mem_of_mem_drop hi)) fun r => ?_
    · split
      · exact confined_log (e := .iteration visit loop iteration s.ctx s.nodeOutputs) trivial s
      · exact refl_of (Confined q S) s
    · split
      · exact runIterations_confined pause loop target hbody hcalls remaining _ _
      · exact Steps.pure _
      · exact Steps.pure _

omit hindex in
theorem finishLoop_confined {bodies : List (Nat × Finset Nat)} (hi : nd.index ∈ S)
    (hbody : ∀ i ∈ bodyOf bodies nd.index, i ∈ S) : Steps (Confined q S) (finishLoop ex bodies nd) := by
  refine Steps.bind ?_ fun _ => Steps.bind ?_ fun _ => Steps.bind (insertOutput_confined hi _)
    fun _ => Steps.pure _
  · refine Steps.get_bind fun s => Steps.ite ?_ (Steps.pure _)
    refine Steps.bind (Steps.forM (fun nd' => ?_) _) fun _ => Steps.forM (fun nd' => ?_) _
    · refine Steps.get_bind fun s => ?_
      split
      case isTrue h =>
        split
        · split
          · exact insertOutput_confined (hbody _ h.1) _
          · exact Steps.pure _
        · exact Steps.pure _
      case isFalse => exact Steps.pure _
    · exact Steps.get_bind fun s => Steps.ite (Steps.ite (enable_confined _) (Steps.pure _)) (Steps.pure _)
  · refine Steps.forM (fun e => Steps.ite (Steps.pure _) (Steps.bind ?_ fun _ => enable_confined _)) _
    exact Steps.ite (satisfyControl_confined _) (applyPairs_confined _)

theorem runLoop_confined {order : List Nat} {bodies : List (Nat × Finset Nat)} (pause : Option PausePolicy)
    (cursor : Nat × Nat) (hi : nd.index ∈ S) (hbody : ∀ i ∈ bodyOf bodies nd.index, i ∈ S)
    (hloop : ∀ i ∈ ex.plan.loopBody nd.index, i ∈ S)
    (hcalls : ∀ i ∈ ex.plan.loopBody nd.index, ex.plan.opAt i = some .call → q = true) :
    Steps (Confined q S) (runLoop ex order bodies visit pause cursor nd) := by
  refine Steps.get_bind fun s => Steps.ite (finishLoop_confined hi hbody) ?_
  refine Steps.bind ?_ fun _ => Steps.bind (runIterations_confined hindex pause _ _ (fun i hb => ?_)
    (fun i hb => ?_) _ _ _) fun r => ?_
  · exact confined_modify (fun _ => rfl) (fun _ => rfl) (fun _ => Finset.subset_union_left) fun _ => rfl
  · exact hloop i (of_decide_eq_true (List.mem_filter.1 hb).2)
  · exact hcalls i (of_decide_eq_true (List.mem_filter.1 hb).2)
  · split
    · exact Steps.pure _
    · exact finishLoop_confined hi hbody

end Confined

/-! ### Accounts -/

section Account

variable {plan : CompiledPlan} {order : List Nat}

/-- What was given a value outside the loop bodies still has it. -/
def Grown (plan : CompiledPlan) (o o' : Nat → Option Value) : Prop :=
  ∀ i v, plan.inBody i = false → o i = some v → o' i = some v

theorem Grown.isSome {o o' : Nat → Option Value} (h : Grown plan o o') {i : Nat} (hi : plan.inBody i = false)
    (hsome : (o i).isSome) : (o' i).isSome := by
  obtain ⟨v, hv⟩ := Option.isSome_iff_exists.1 hsome
  rw [h i v hi hv]
  rfl

theorem Grown.refused {o o' : Nat → Option Value} (h : Grown plan o o') {i : Nat} (hr : plan.Refused o i) :
    plan.Refused o' i := by
  obtain ⟨e, he, want, b, hgate, hbody, hv, hne⟩ := hr
  exact ⟨e, he, want, b, hgate, hbody, h _ _ hbody hv, hne⟩

theorem Grown.covered {o o' : Nat → Option Value} (h : Grown plan o o') {i : Nat} (hc : plan.Covered o i) :
    plan.Covered o' i :=
  fun p hp => ⟨(hc p hp).1, (hc p hp).2.imp (h.isSome (hc p hp).1) h.refused⟩

/-- The DECIDEs outside the loop bodies have let a node pass. -/
def Passed (plan : CompiledPlan) (o : Nat → Option Value) (i : Nat) : Prop :=
  ∀ e ∈ plan.edges, ∀ want, gateLabel plan i e = some want → plan.inBody e.fromIndex = false →
    o e.fromIndex = some (.bool want)

theorem Grown.passed {o o' : Nat → Option Value} (h : Grown plan o o') {i : Nat} (hp : Passed plan o i) :
    Passed plan o' i :=
  fun e he want hgate hbody => h _ _ hbody (hp e he want hgate hbody)

theorem Passed.not_refused {o : Nat → Option Value} {i : Nat} (h : Passed plan o i) : ¬plan.Refused o i := by
  rintro ⟨e, he, want, b, hgate, hbody, hv, hne⟩
  cases (h e he want hgate hbody).symm.trans hv
  exact hne rfl

/-- A part of a run: what it runs outside the loop bodies had no value, is covered, has passed its
gates, and is run once; only that, and the nodes in `S`, get values. It dispatches as often as it runs
CALLs, and once more if a CALL in `S` has been entered before. -/
structure Account (plan : CompiledPlan) (S : Set Nat) (s : ExecState) (l : List Event) (t : ExecState) :
    Prop where
  executionOrder : t.executionOrder = s.executionOrder ++ (walked l).map fun k => plan.idAt k.2
  known : ∀ k ∈ walked l, (plan.getNode k.2).isSome
  loopSkipped : s.loopSkipped ⊆ t.loopSkipped
  once : (plan.free l).Nodup
  fresh : ∀ i ∈ plan.free l, s.nodeOutputs i = none
  values : ∀ i, plan.inBody i = false → i ∉ S → i ∉ plan.free l → t.nodeOutputs i = s.nodeOutputs i
  covered : ∀ i ∈ plan.free l, plan.Covered t.nodeOutputs i
  passed : ∀ i ∈ plan.free l, plan.opAt i = some .parallel → Passed plan t.nodeOutputs i
  spent : plan.CallsOutside → ∀ k, (∀ n ∈ S, plan.opAt n = some .call → 1 ≤ k) →
    (dispatches l).length ≤ plan.calls l + k

theorem calls_append (l l' : List Event) : plan.calls (l ++ l') = plan.calls l + plan.calls l' := by
  rw [CompiledPlan.calls, walked_append, List.countP_append]
  rfl

theorem mem_free {l : List Event} {i : Nat} :
    i ∈ plan.free l ↔ plan.inBody i = false ∧ ∃ k ∈ walked l, k.2 = i := by
  simp [CompiledPlan.free, and_comm]

theorem free_append (l l' : List Event) : plan.free (l ++ l') = plan.free l ++ plan.free l' := by
  simp [CompiledPlan.free, walked_append]

theorem free_of_offWalk {q : Bool} {l : List Event} (h : ∀ e ∈ l, OffWalk q e) : plan.free l = [] := by
  rw [CompiledPlan.free, walked_of_offWalk h]
  rfl

variable {S : Set Nat} {s t u : ExecState} {l l' : List Event}

theorem Confined.offWalk {q : Bool} (h : Confined q S s t) (hlog : t.log = s.log ++ l) : ∀ e ∈ l, OffWalk q e := by
  obtain ⟨l₁, hl₁, hoff⟩ := h.log
  rwa [List.append_cancel_left (hlog.symm.trans hl₁)]

theorem Account.of_confined {q : Bool} (h : Confined q (S ∪ {i | plan.inBody i = true}) s t)
    (hlog : t.log = s.log ++ l) (hspent : plan.CallsOutside → ∀ k,
      (∀ n ∈ S, plan.opAt n = some .call → 1 ≤ k) → (dispatches l).length ≤ k) : Account plan S s l t := by
  have hl : ∀ e ∈ l, OffWalk q e := h.offWalk hlog
  have hfree : plan.free l = [] := free_of_offWalk hl
  refine ⟨?_, ?_, h.loopSkipped, ?_, ?_, fun i hi hS _ => h.nodeOutputs i ?_, ?_, ?_, fun hout k hk =>
    (hspent hout k hk).trans (Nat.le_add_left _ _)⟩
  · rw [walked_of_offWalk hl, h.executionOrder]
    exact (List.append_nil _).symm
  · rw [walked_of_offWalk hl]
    exact fun k hk => (by cases hk)
  · rw [hfree]
    exact List.nodup_nil
  · simp [hfree]
  · rintro (hS' | hbody)
    · exact hS hS'
    · exact Bool.false_ne_true (hi.symm.trans hbody)
  · simp [hfree]
  · simp [hfree]

theorem Account.of_quiet (h : Confined false (S ∪ {i | plan.inBody i = true}) s t) (hlog : t.log = s.log ++ l) :
    Account plan S s l t := by
  refine .of_confined h hlog fun _ k _ => ?_
  rw [dispatches_of_offWalk (h.offWalk hlog)]
  exact Nat.zero_le k

theorem Account.grown_of (h : Account plan S s l t) (hS : ∀ i ∈ S, plan.inBody i = false → s.nodeOutputs i = none) :
    Grown plan s.nodeOutputs t.nodeOutputs := by
  intro i v hi hv
  by_cases hfree : i ∈ plan.free l
  · cases hv.symm.trans (h.fresh i hfree)
  · by_cases hmem : i ∈ S
    · cases hv.symm.trans (hS i hmem hi)
    · rw [h.values i hi hmem hfree, hv]

theorem Account.grown (h : Account plan ∅ s l t) : Grown plan s.nodeOutputs t.nodeOutputs :=
  h.grown_of fun _ hi => hi.elim

/-- What the second part gives a value to has been run by the first, and has no value from it. -/
theorem Account.append_of (h : Account plan ∅ s l t) (h' : Account plan S t l' u)
    (hS : ∀ i ∈ S, plan.inBody i = false → i ∈ plan.free l ∧ t.nodeOutputs i = none)
    (hcall : ∀ i ∈ S, plan.opAt i ≠ some .call) (hd : ∀ i ∈ plan.free l, i ∉ plan.free l') :
    Account plan ∅ s (l ++ l') u := by
  have hgrown : Grown plan t.nodeOutputs u.nodeOutputs := h'.grown_of fun i hi hbody => (hS i hi hbody).2
  refine ⟨?_, fun k hk => ?_, h.loopSkipped.trans h'.loopSkipped, ?_, fun i hi => ?_, fun i hbody _ hi => ?_,
    fun i hi => ?_, fun i hi hop => ?_, fun hout k _ => ?_⟩
  · rw [h'.executionOrder, h.executionOrder, walked_append, List.map_append, List.append_assoc]
  · rw [walked_append, List.mem_append] at hk
    exact hk.elim (h.known k) (h'.known k)
  · rw [free_append]
    exact h.once.append h'.once fun i hi hi' => hd i hi hi'
  · rw [free_append, List.mem_append] at hi
    rcases hi with hi | hi
    · exact h.fresh i hi
    · rw [← h.values i (mem_free.1 hi).1 id fun hl => hd i hl hi]
      exact h'.fresh i hi
  · rw [free_append, List.mem_append, not_or] at hi
    rw [h'.values i hbody (fun hmem => hi.1 (hS i hmem hbody).1) hi.2, h.values i hbody id hi.1]
  · rw [free_append, List.mem_append] at hi
    rcases hi with hi | hi
    · exact hgrown.covered (h.covered i hi)
    · exact h'.covered i hi
  · rw [free_append, List.mem_append] at hi
    rcases hi with hi | hi
    · exact hgrown.passed (h.passed i hi hop)
    · exact h'.passed i hi hop
  · have hle := h.spent hout 0 fun n hn => hn.elim
    have hle' := h'.spent hout 0 fun n hn hop => absurd hop (hcall n hn)
    rw [dispatches_append, List.length_append, calls_append]
    omega

theorem Account.append (h : Account plan ∅ s l t) (h' : Account plan ∅ t l' u)
    (hd : ∀ i ∈ plan.free l, i ∉ plan.free l') : Account plan ∅ s (l ++ l') u :=
  h.append_of h' (fun _ hi => hi.elim) (fun _ hi => hi.elim) hd

/-- Whatever has a value is covered. -/
def Closed (plan : CompiledPlan) (s : ExecState) : Prop :=
  ∀ i, plan.inBody i = false → (s.nodeOutputs i).isSome → plan.Covered s.nodeOutputs i

theorem Account.closed (h : Account plan ∅ s l t) (hs : Closed plan s) : Closed plan t := by
  intro i hi hsome
  by_cases hfree : i ∈ plan.free l
  · exact h.covered i hfree
  · rw [h.values i hi id hfree] at hsome
    exact h.grown.covered (hs i hi hsome)

/-- Of the nodes still to come, those with a value are skipped. -/
def Held (plan : CompiledPlan) (s : ExecState) (rest : List Nat) : Prop :=
  ∀ i ∈ rest, plan.inBody i = false → (s.nodeOutputs i).isSome → i ∈ s.loopSkipped

/-- Of the nodes still to come, those that have run are skipped. -/
def Past (plan : CompiledPlan) (l : List Event) (t : ExecState) (rest : List Nat) : Prop :=
  ∀ i ∈ plan.free l, i ∈ rest → i ∈ t.loopSkipped

/-- A step over one node runs that node, and nodes of its branches, which are skipped from then on. -/
structure NodePost (plan : CompiledPlan) (n : Nat) (s : ExecState) (l : List Event) (t : ExecState) : Prop where
  runs : ∀ i ∈ plan.free l, (i = n ∧ i ∉ s.loopSkipped) ∨ n ∈ plan.free l ∧ plan.InBranch n i
  marks : n ∈ plan.free l → ∀ i, plan.InBranch n i → i ∈ t.loopSkipped

/-- A walk runs nodes on its way that are not skipped, and nodes of their branches. -/
def WalkPost (plan : CompiledPlan) (nodes : List Nat) (s : ExecState) (l : List Event) : Prop :=
  ∀ i ∈ plan.free l, (i ∈ nodes ∧ i ∉ s.loopSkipped) ∨ ∃ n ∈ nodes, n ∈ plan.free l ∧ plan.InBranch n i

/-- A walk does not run again what has run before it. -/
theorem disjoint_past {rest : List Nat} (h : Account plan ∅ s l t) (hpast : Past plan l t rest)
    (h' : Account plan ∅ t l' u) (hwalk : WalkPost plan rest t l') :
    ∀ i ∈ plan.free l, i ∉ plan.free l' := by
  intro i hi hi'
  rcases hwalk i hi' with ⟨hrest, hskip⟩ | ⟨n, -, hn', hin⟩
  · exact hskip (hpast i hi hrest)
  · -- A PARALLEL that runs only now had no value when the node ran, and was not refused.
    obtain ⟨hbody, hsome | hrefused⟩ := h.covered i hi n hin
    · rw [h'.fresh n hn'] at hsome
      cases hsome
    · exact (h'.passed n hn' hin.1).not_refused (h'.grown.refused hrefused)

/-- A branch lies behind its PARALLEL. -/
theorem inBranch_lt (hwf : plan.WellFormed) (horder : plan.topologicalOrder = .ok order) {p i : Nat}
    (h : plan.InBranch p i) : order.idxOf p < order.idxOf i := by
  obtain ⟨start, hstart, hpath⟩ := Reach.reachable_sound h.2.1
  obtain ⟨e, he, rfl⟩ := List.mem_map.1 hstart
  obtain ⟨he, hfrom⟩ := List.mem_filter.1 he
  calc order.idxOf p = order.idxOf e.fromIndex := by rw [of_decide_eq_true hfrom]
    _ < order.idxOf e.toIndex := CompiledPlan.order_lt hwf horder he
    _ ≤ order.idxOf i := CompiledPlan.order_le_of_path hwf horder hpath

theorem inBranch_trans {p q i : Nat} (h : plan.InBranch p q) (h' : plan.InBranch q i) : plan.InBranch p i := by
  obtain ⟨hp, hq, -⟩ := h
  obtain ⟨-, hi, hbranch⟩ := h'
  refine ⟨hp, Reach.mem_reachable.2 ?_, hbranch⟩
  obtain ⟨a, ha, hpath⟩ := Reach.mem_reachable.1 hq
  obtain ⟨b, hb, hpath'⟩ := Reach.mem_reachable.1 hi
  obtain ⟨e, he, rfl⟩ := List.mem_map.1 hb
  obtain ⟨he, hfrom⟩ := List.mem_filter.1 he
  have hstep : (q, e.toIndex) ∈ plan.arcs := List.mem_map.2 ⟨e, he, by rw [of_decide_eq_true hfrom]⟩
  exact ⟨a, ha, (hpath.tail hstep).trans hpath'⟩

/-! ### One node -/

variable {ex : Executor} {visit : List Frame} {nd : CompiledNode} {bodies : List (Nat × Finset Nat)}

theorem enterNode_ok (h : enterNode ex visit nd s = .ok () t) :
    ∃ c, t.log = s.log ++ [.node visit nd.index c s.nodeOutputs] ∧
      t.executionOrder = s.executionOrder ++ [nd.id] ∧ t.loopSkipped = s.loopSkipped ∧
        t.nodeOutputs = s.nodeOutputs := by
  simp only [enterNode] at h
  obtain ⟨_, u, hcount, h⟩ := bind_ok h
  obtain ⟨_, w, hmemory, h⟩ := bind_ok h
  rw [modify_bind, noteNode, modify_apply] at h
  have hu : u = { s with nodeCount := s.nodeCount + 1 } := by
    simp only [countNode, modify_bind, get_bind, failIf] at hcount
    split at hcount
    · cases hcount
    · cases hcount
      rfl
  have hw : w = u := by
    rcases checkMemory_cases ex.plan u with hok | ⟨e, herr⟩
    · cases hmemory.symm.trans hok
      rfl
    · cases hmemory.symm.trans herr
  cases h
  rw [hw, hu]
  exact ⟨_, rfl, rfl, rfl, rfl⟩

/-- What the checks in front of a node have seen. -/
theorem ready_spec (h : ready ex.plan bodies s nd = true) :
    nd.index ∉ s.loopSkipped ∧ branchMismatch ex.plan s.nodeOutputs nd.op nd.index = false := by
  simp only [ready, Bool.and_eq_true, decide_eq_true_eq, Bool.not_eq_true'] at h
  exact ⟨h.1.1.1.1, h.1.1.2⟩

theorem passed_of_ready (hop : nd.op = .parallel)
    (h : branchMismatch plan s.nodeOutputs nd.op nd.index = false) : Passed plan s.nodeOutputs nd.index := by
  intro e he want hgate _
  rw [branchMismatch, if_neg (by rw [hop]; rintro ⟨⟨⟩, -⟩)] at h
  have hblocks : edgeBlocks plan s.nodeOutputs nd.index e = false := by
    by_contra hne
    exact (Bool.eq_false_iff.1 h) (List.any_eq_true.2 ⟨e, he, Bool.eq_true_of_not_eq_false hne⟩)
  rw [edgeBlocks, hgate] at hblocks
  dsimp only at hblocks
  split at hblocks
  case h_1 b hb =>
    rw [hb]
    rw [bne_eq_false_iff_eq.1 hblocks]
  case h_2 => cases hblocks

theorem walked_node {v : List Frame} {i : Nat} {c : Context} {o : Nat → Option Value}
    (hv : v.all Frame.isBranch = true) : walked [.node v i c o] = [(v, i)] := by
  simp only [walked, stepKeys, List.filterMap_cons, List.filterMap_nil, List.filter_cons, hv, if_true,
    List.filter_nil]

/-- A node that is entered, and what its arm does. -/
theorem Account.enter {n : Nat} {c : Context} (hv : visit.all Frame.isBranch = true) (hknown : (plan.getNode n).isSome)
    (horder : t.executionOrder = s.executionOrder ++ [plan.idAt n]) (hskip : t.loopSkipped = s.loopSkipped)
    (hout : t.nodeOutputs = s.nodeOutputs) (h : Account plan {n} t l u) (hn : n ∉ plan.free l)
    (hfresh : plan.inBody n = false → s.nodeOutputs n = none)
    (hcovered : plan.inBody n = false → plan.Covered s.nodeOutputs n)
    (hpassed : plan.opAt n = some .parallel → Passed plan s.nodeOutputs n) :
    Account plan ∅ s (.node visit n c s.nodeOutputs :: l) u := by
  have hwalked : walked (.node visit n c s.nodeOutputs :: l) = (visit, n) :: walked l := by
    rw [← List.singleton_append, walked_append, walked_node hv]
    rfl
  have hgrown : Grown plan s.nodeOutputs u.nodeOutputs := by
    intro i v hi hv
    by_cases heq : i = n
    · rw [heq] at hi hv
      cases hv.symm.trans (hfresh hi)
    · by_cases hfree : i ∈ plan.free l
      · rw [← hout] at hv
        cases hv.symm.trans (h.fresh i hfree)
      · rw [h.values i hi heq hfree, hout, hv]
  have hmem : ∀ i, i ∈ plan.free (.node visit n c s.nodeOutputs :: l) ↔
      i = n ∧ plan.inBody n = false ∨ i ∈ plan.free l := by
    intro i
    rw [mem_free, mem_free, hwalked]
    simp only [List.mem_cons, exists_eq_or_imp]
    constructor
    · rintro ⟨hi, rfl | hk⟩
      · exact .inl ⟨rfl, hi⟩
      · exact .inr ⟨hi, hk⟩
    · rintro (⟨rfl, hi⟩ | ⟨hi, hk⟩)
      · exact ⟨hi, .inl rfl⟩
      · exact ⟨hi, .inr hk⟩
  refine ⟨?_, fun k hk => ?_, hskip ▸ h.loopSkipped, ?_, fun i hi => ?_, fun i hi _ hfree => ?_, fun i hi => ?_,
    fun i hi hop => ?_, fun hout k _ => ?_⟩
  · rw [h.executionOrder, horder, hwalked, List.map_cons, List.append_assoc, List.singleton_append]
  · rw [hwalked] at hk
    rcases List.mem_cons.1 hk with rfl | hk
    · exact hknown
    · exact h.known k hk
  · rw [CompiledPlan.free, hwalked, List.map_cons, List.filter_cons]
    split
    · exact List.nodup_cons.2 ⟨hn, h.once⟩
    · exact h.once
  · rcases (hmem i).1 hi with ⟨rfl, hbody⟩ | hi
    · exact hfresh hbody
    · rw [← hout]
      exact h.fresh i hi
  · rw [hmem, not_or, not_and] at hfree
    rw [h.values i hi (fun heq => hfree.1 heq (heq ▸ hi)) hfree.2, hout]
  · rcases (hmem i).1 hi with ⟨rfl, hbody⟩ | hi
    · exact hgrown.covered (hcovered hbody)
    · exact h.covered i hi
  · rcases (hmem i).1 hi with ⟨rfl, -⟩ | hi
    · exact hgrown.passed (hpassed hop)
    · exact h.passed i hi hop
  · have hdispatches : dispatches (.node visit n c s.nodeOutputs :: l) = dispatches l := rfl
    have hcalls : plan.calls (.node visit n c s.nodeOutputs :: l) =
        plan.calls l + if plan.opAt n = some .call then 1 else 0 := by
      rw [CompiledPlan.calls, hwalked, List.countP_cons]
      simp only [decide_eq_true_eq]
      rfl
    rw [hdispatches, hcalls]
    by_cases hop : plan.opAt n = some .call
    · have hle := h.spent hout 1 fun _ _ _ => le_rfl
      rw [if_pos hop]
      omega
    · have hle := h.spent hout 0 fun m hm hm' => absurd (hm ▸ hm') hop
      rw [if_neg hop]
      omega

/-! ### Walks -/

/-- What is known of a node that is run in a thread or by the main walk. -/
def NodeAccount (plan : CompiledPlan) (n : Nat) (x : M NodeOutcome) : Prop :=
  ∀ s a t, x s = .ok a t → ∃ l, t.log = s.log ++ l ∧
    (plan.CoveredLog l → Closed plan s → Held plan s [n] → Account plan ∅ s l t ∧ NodePost plan n s l t)

theorem coveredLog_append {l l' : List Event} (h : plan.CoveredLog (l ++ l')) :
    plan.CoveredLog l ∧ plan.CoveredLog l' :=
  ⟨fun v i c o he => h v i c o (List.mem_append_left _ he),
    fun v i c o he => h v i c o (List.mem_append_right _ he)⟩

section Step

variable {n : Nat} {rest : List Nat}

theorem NodePost.held (hnode : NodePost plan n s l t) (h : Account plan ∅ s l t) (hn : n ∉ rest)
    (hheld : Held plan s (n :: rest)) : Held plan t rest := by
  intro i hi hbody hsome
  by_cases hfree : i ∈ plan.free l
  · rcases hnode.runs i hfree with ⟨rfl, -⟩ | ⟨hn', hin⟩
    · exact absurd hi hn
    · exact hnode.marks hn' i hin
  · rw [h.values i hbody id hfree] at hsome
    exact h.loopSkipped (hheld i (List.mem_cons_of_mem n hi) hbody hsome)

theorem NodePost.past (hnode : NodePost plan n s l t) (hn : n ∉ rest) : Past plan l t rest := by
  intro i hi hrest
  rcases hnode.runs i hi with ⟨rfl, -⟩ | ⟨hn', hin⟩
  · exact absurd hrest hn
  · exact hnode.marks hn' i hin

theorem NodePost.walkPost (hnode : NodePost plan n s l t) : WalkPost plan (n :: rest) s l := by
  intro i hi
  rcases hnode.runs i hi with ⟨rfl, hskip⟩ | hin
  · exact .inl ⟨List.mem_cons_self, hskip⟩
  · exact .inr ⟨n, List.mem_cons_self, hin⟩

/-- A node, and the walk over the nodes behind it. -/
theorem NodePost.walk (hnode : NodePost plan n s l t) (h : Account plan ∅ s l t) (hn : n ∉ rest)
    (h' : Account plan ∅ t l' u) (hwalk : WalkPost plan rest t l') :
    Account plan ∅ s (l ++ l') u ∧ WalkPost plan (n :: rest) s (l ++ l') := by
  refine ⟨h.append h' (disjoint_past h (hnode.past hn) h' hwalk), fun i hi => ?_⟩
  rw [free_append, List.mem_append] at hi
  have hfree : ∀ j, j ∈ plan.free l ∨ j ∈ plan.free l' → j ∈ plan.free (l ++ l') := fun j hj => by
    rwa [free_append, List.mem_append]
  rcases hi with hi | hi
  · rcases hnode.runs i hi with ⟨rfl, hskip⟩ | ⟨hn', hin⟩
    · exact .inl ⟨List.mem_cons_self, hskip⟩
    · exact .inr ⟨n, List.mem_cons_self, hfree n (.inl hn'), hin⟩
  · rcases hwalk i hi with ⟨hrest, hskip⟩ | ⟨m, hm, hm', hin⟩
    · exact .inl ⟨List.mem_cons_of_mem n hrest, fun hskip' => hskip (h.loopSkipped hskip')⟩
    · exact .inr ⟨m, List.mem_cons_of_mem n hm, hfree m (.inr hm'), hin⟩

end Step

theorem Account.refl (s : ExecState) : Account plan ∅ s [] s :=
  .of_quiet (refl_of (Confined _ _) s) (List.append_nil _).symm

theorem runGroup_account (hindex : ∀ i nd, plan.getNode i = some nd → nd.index = i)
    {runNode : CompiledNode → M NodeOutcome}
    (hrun : ∀ nd, plan.getNode nd.index = some nd → NodeAccount plan nd.index (runNode nd)) :
    ∀ (nodes : List Nat), nodes.Nodup → ∀ (s t : ExecState), runGroup runNode plan nodes s = .ok () t →
      ∃ l, t.log = s.log ++ l ∧ (plan.CoveredLog l → Closed plan s → Held plan s nodes →
        Account plan ∅ s l t ∧ WalkPost plan nodes s l)
  | [], _, s, t, h => by
    cases h
    exact ⟨[], (List.append_nil _).symm, fun _ _ _ => ⟨Account.refl _, fun i hi => (by cases hi)⟩⟩
  | idx :: rest, hnodup, s, t, h => by
    rw [List.nodup_cons] at hnodup
    cases hnd : plan.getNode idx with
    | none =>
      rw [runGroup, hnd] at h
      cases h
    | some nd =>
      rw [runGroup, hnd] at h
      obtain rfl : nd.index = idx := hindex idx nd hnd
      obtain ⟨a, u, hnode, hrest⟩ := bind_ok h
      obtain ⟨l, hl, hspec⟩ := hrun nd hnd s a u hnode
      obtain ⟨l', hl', hspec'⟩ := runGroup_account hindex hrun rest hnodup.2 u t hrest
      refine ⟨l ++ l', by rw [hl', hl, List.append_assoc], fun hcov hclosed hheld => ?_⟩
      obtain ⟨hcov, hcov'⟩ := coveredLog_append hcov
      obtain ⟨hacc, hpost⟩ := hspec hcov hclosed fun i hi => hheld i (by
        rw [List.mem_singleton.1 hi]
        exact List.mem_cons_self)
      obtain ⟨hacc', hwalk⟩ := hspec' hcov' (hacc.closed hclosed) (hpost.held hacc hnodup.1 hheld)
      exact hpost.walk hacc hnodup.1 hacc' hwalk

/-! ### The threads of a PARALLEL -/

section Threads

variable {o : Nat → Option Value} {s' t' : ExecState}

/-- A node of a thread and a PARALLEL of another thread that has it in a branch. -/
theorem not_crossing (hwf : plan.WellFormed) (horder : plan.topologicalOrder = .ok order)
    (h : Account plan ∅ s l t) (h' : Account plan ∅ s' l' t') (hs : s.nodeOutputs = o)
    (hs' : s'.nodeOutputs = o) {i n : Nat} (hi : i ∈ plan.free l) (hn : n ∈ plan.free l')
    (hin : plan.InBranch n i)
    (ih : ∀ j, order.idxOf j < order.idxOf i → j ∈ plan.free l → j ∉ plan.free l') : False := by
  have hlt := inBranch_lt hwf horder hin
  obtain ⟨hbody, hsome | ⟨e, he, want, b, hgate, hd, hv, hne⟩⟩ := h.covered i hi n hin
  · by_cases hfree : n ∈ plan.free l
    · exact ih n hlt hfree hn
    · rw [h.values n hbody id hfree, hs, ← hs', h'.fresh n hn] at hsome
      cases hsome
  · have hpassed := h'.passed n hn hin.1 e he want hgate hd
    have hto : e.toIndex = n := by
      by_contra hto
      rw [gateLabel, if_neg fun hgate => hto hgate.1] at hgate
      cases hgate
    have hltd : order.idxOf e.fromIndex < order.idxOf i :=
      (hto ▸ CompiledPlan.order_lt hwf horder he).trans hlt
    by_cases hfree : e.fromIndex ∈ plan.free l
    · rw [h'.values _ hd id (ih _ hltd hfree), hs', ← hs, h.fresh _ hfree] at hpassed
      cases hpassed
    · rw [h.values _ hd id hfree, hs] at hv
      by_cases hfree' : e.fromIndex ∈ plan.free l'
      · rw [← hs', h'.fresh _ hfree'] at hv
        cases hv
      · rw [h'.values _ hd id hfree', hs', hv] at hpassed
        cases hpassed
        exact hne rfl

/-- Two threads of one PARALLEL run different nodes. -/
theorem threads_disjoint (hwf : plan.WellFormed) (horder : plan.topologicalOrder = .ok order)
    (h : Account plan ∅ s l t) (h' : Account plan ∅ s' l' t') (hs : s.nodeOutputs = o)
    (hs' : s'.nodeOutputs = o) {group group' : List Nat} (hwalk : WalkPost plan group s l)
    (hwalk' : WalkPost plan group' s' l') (hgroups : ∀ i ∈ group, i ∉ group') :
    ∀ i ∈ plan.free l, i ∉ plan.free l' := by
  intro i
  induction hk : order.idxOf i using Nat.strong_induction_on generalizing i with
  | _ k ih =>
    intro hi hi'
    have hbefore : ∀ j, order.idxOf j < order.idxOf i → j ∈ plan.free l → j ∉ plan.free l' :=
      fun j hj => ih _ (hk ▸ hj) j rfl
    rcases hwalk i hi with ⟨hgroup, -⟩ | ⟨n, -, hn, hin⟩
    · rcases hwalk' i hi' with ⟨hgroup', -⟩ | ⟨n, -, hn, hin⟩
      · exact hgroups i hgroup hgroup'
      · exact not_crossing hwf horder h h' hs hs' hi hn hin hbefore
    · exact not_crossing hwf horder h' h hs' hs hi' hn hin fun j hj hj' hj'' => hbefore j hj hj'' hj'

theorem foldl_or {β : Type} (f : β → Option Value) (bids : List β) (v : Option Value) :
    bids.foldl (fun o b => o.or (f b)) v = v.or (bids.findSome? f) := by
  induction bids generalizing v with
  | nil => exact (Option.or_none).symm
  | cons b bids ih =>
    rw [List.foldl_cons, ih, Option.or_assoc, List.findSome?_cons]
    cases f b with
    | none => rfl
    | some w => rfl

end Threads

section Parallel

variable (hwf : ex.plan.WellFormed) (horder : ex.plan.topologicalOrder = .ok order)
  {runNode : List Frame → CompiledNode → M NodeOutcome}

theorem openParallel_confined : Steps (Confined false {nd.index}) (openParallel ex nd) := by
  refine Steps.bind ?_ fun _ => Steps.bind (Steps.forM (fun e => ?_) _) fun _ =>
    insertOutput_confined (Set.mem_singleton _) _
  · exact confined_modify (fun _ => rfl) (fun _ => rfl) (fun _ => subset_rfl) fun _ => rfl
  · exact Steps.bind (applyPairs_confined _) fun _ => enable_confined _

/-- The log of the thread of a group. -/
def branchLog (ex : Executor) (order : List Nat) (runNode : List Frame → CompiledNode → M NodeOutcome)
    (visit : List Frame) (nd : CompiledNode) (s : ExecState) (b : Nat) : List Event :=
  threadLog (runBranch ex order runNode visit nd b (branchState ex order nd s b))

/-- The threads have run to their ends and are put together. -/
structure Joins (ex : Executor) (order : List Nat) (runNode : List Frame → CompiledNode → M NodeOutcome)
    (visit : List Frame) (nd : CompiledNode) (s t : ExecState) (thread : Nat → ExecState) : Prop where
  runs : ∀ b ∈ ex.plan.groupIds order nd,
    runBranch ex order runNode visit nd b (branchState ex order nd s b) = .ok () (thread b)
  joined : t = joined ex order nd thread
    (s.log ++ (ex.plan.groupIds order nd).flatMap (branchLog ex order runNode visit nd s)) s

/-- How a PARALLEL ends, if it does. -/
theorem armParallel_ok (h : armParallel ex order runNode visit nd s = .ok () t) :
    ∃ u, Confined false {nd.index} s u ∧ (ex.plan.groupIds order nd = [] ∧ t = u ∨
      ∃ thread, Joins ex order runNode visit nd { u with loopSkipped := u.loopSkipped ∪
        ((ex.plan.groupIds order nd).flatMap (ex.plan.group order nd)).toFinset } t thread) := by
  rw [armParallel_eq] at h
  obtain ⟨_, u, hopen, h⟩ := bind_ok h
  refine ⟨u, openParallel_confined.ok hopen, ?_⟩
  by_cases hids : ex.plan.groupIds order nd = []
  · rw [if_pos hids] at h
    cases h
    exact .inl ⟨hids, rfl⟩
  · rw [if_neg hids, setAside, modify_bind, Stateful.get_bind, modify_bind] at h
    refine .inr ⟨fun b => finalState (runBranch ex order runNode visit nd b (branchState ex order nd
      { u with loopSkipped := u.loopSkipped ∪
        ((ex.plan.groupIds order nd).flatMap (ex.plan.group order nd)).toFinset } b)), ?_⟩
    generalize hs : ({ u with loopSkipped := u.loopSkipped ∪
      ((ex.plan.groupIds order nd).flatMap (ex.plan.group order nd)).toFinset } : ExecState) = s' at h ⊢
    cases hc : collectThreads ((ex.plan.groupIds order nd).map fun b =>
      (b, runBranch ex order runNode visit nd b (branchState ex order nd s' b))) with
    | error e =>
      rw [hc] at h
      cases h
    | ok threads =>
      have hruns : ∀ b ∈ ex.plan.groupIds order nd,
          runBranch ex order runNode visit nd b (branchState ex order nd s' b) = .ok ()
            (finalState (runBranch ex order runNode visit nd b (branchState ex order nd s' b))) := by
        intro b hb
        obtain ⟨w, hw⟩ := ok_of_collectThreads hc _ (List.mem_map_of_mem hb)
        dsimp only at hw
        rw [hw]
        rfl
      refine ⟨hruns, ?_⟩
      rw [collectThreads_ok hruns] at h
      rw [List.flatMap_map] at h
      cases h
      rfl

theorem mem_group {b i : Nat} : i ∈ plan.group order nd b ↔ i ∈ order ∧
    i ∈ plan.collectReachableIndices (plan.children nd) ∧ (plan.getNode i).bind CompiledNode.branchId = some b := by
  simp only [CompiledPlan.group, branchGroup, List.mem_filter, Bool.and_eq_true, decide_eq_true_eq]

theorem inBranch_of_mem_group (hop : plan.opAt nd.index = some .parallel) {b i : Nat}
    (h : i ∈ plan.group order nd b) : plan.InBranch nd.index i := by
  obtain ⟨-, hreach, hbranch⟩ := mem_group.1 h
  exact ⟨hop, hreach, by rw [hbranch]; nofun⟩

theorem exists_group (horder : plan.topologicalOrder = .ok order) {i : Nat} (h : plan.InBranch nd.index i) :
    ∃ b ∈ plan.groupIds order nd, i ∈ plan.group order nd b := by
  obtain ⟨-, hreach, hbranch⟩ := h
  obtain ⟨b, hb⟩ := Option.ne_none_iff_exists'.1 hbranch
  obtain ⟨cn, hcn, -⟩ := Option.bind_eq_some_iff.1 hb
  have hi : i ∈ order := (CompiledPlan.mem_order horder).2 (List.getElem?_eq_some_iff.1 hcn).1
  refine ⟨b, ?_, mem_group.2 ⟨hi, hreach, hb⟩⟩
  rw [CompiledPlan.groupIds, branchIds, (List.perm_insertionSort _ _).mem_iff, List.mem_dedup]
  exact List.mem_filterMap.2 ⟨i, List.mem_filter.2 ⟨hi, decide_eq_true hreach⟩, hb⟩

theorem Confined.grown {q : Bool} {n : Nat} (h : Confined q {n} s t) (hfresh : plan.inBody n = false → s.nodeOutputs n = none) :
    Grown plan s.nodeOutputs t.nodeOutputs := by
  intro i v hi hv
  by_cases heq : i = n
  · rw [heq] at hi hv
    cases hv.symm.trans (hfresh hi)
  · rw [h.nodeOutputs i heq, hv]

/-- A PARALLEL that has just got its value. -/
theorem Closed.opened {q : Bool} {n : Nat} (hs : Closed plan s) (h : Confined q {n} s t)
    (hfresh : plan.inBody n = false → s.nodeOutputs n = none)
    (hcovered : plan.inBody n = false → plan.Covered s.nodeOutputs n) : Closed plan t := by
  intro i hi hsome
  by_cases heq : i = n
  · rw [heq] at hi ⊢
    exact (h.grown hfresh).covered (hcovered hi)
  · rw [h.nodeOutputs i heq] at hsome
    exact (h.grown hfresh).covered (hs i hi hsome)

/-- The branches of a PARALLEL that is about to run have not run. -/
theorem Closed.branch_fresh {p i : Nat} (hs : Closed plan s)
    (hfresh : plan.inBody p = false → s.nodeOutputs p = none) (hpassed : Passed plan s.nodeOutputs p)
    (hin : plan.InBranch p i) (hi : plan.inBody i = false) : s.nodeOutputs i = none := by
  by_contra hne
  obtain ⟨hbody, hsome | hrefused⟩ := hs i hi (Option.isSome_iff_ne_none.2 hne) p hin
  · rw [hfresh hbody] at hsome
    cases hsome
  · exact hpassed.not_refused hrefused

theorem free_flatMap (bids : List Nat) (log : Nat → List Event) :
    plan.free (bids.flatMap log) = bids.flatMap fun b => plan.free (log b) := by
  induction bids with
  | nil => rfl
  | cons b bids ih => rw [List.flatMap_cons, free_append, ih, List.flatMap_cons]

theorem calls_flatMap (bids : List Nat) (log : Nat → List Event) :
    plan.calls (bids.flatMap log) = (bids.map fun b => plan.calls (log b)).sum := by
  induction bids with
  | nil => rfl
  | cons b bids ih => rw [List.flatMap_cons, calls_append, ih, List.map_cons, List.sum_cons]

theorem dispatches_flatMap (bids : List Nat) (log : Nat → List Event) :
    (dispatches (bids.flatMap log)).length = (bids.map fun b => (dispatches (log b)).length).sum := by
  induction bids with
  | nil => rfl
  | cons b bids ih => rw [List.flatMap_cons, dispatches_append, List.length_append, ih, List.map_cons, List.sum_cons]

theorem walked_flatMap (bids : List Nat) (log : Nat → List Event) :
    walked (bids.flatMap log) = bids.flatMap fun b => walked (log b) := by
  induction bids with
  | nil => rfl
  | cons b bids ih => rw [List.flatMap_cons, walked_append, ih, List.flatMap_cons]

variable {thread : Nat → ExecState}

/-- The values behind the join: those of a thread, where no other thread has one. -/
theorem joined_value {log : List Event} {i : Nat} :
    (joined ex order nd thread log s).nodeOutputs i =
      (s.nodeOutputs i).or ((ex.plan.groupIds order nd).findSome? fun b => (thread b).nodeOutputs i) := by
  rw [joined, join_nodeOutputs, foldl_or]

/-- What the threads of a PARALLEL come to, put together. -/
structure ThreadsRun (ex : Executor) (order : List Nat) (nd : CompiledNode) (s : ExecState)
    (thread : Nat → ExecState) : Prop where
  account : ∀ b ∈ ex.plan.groupIds order nd,
    Account ex.plan ∅ (branchState ex order nd s b) (thread b).log (thread b)
  walk : ∀ b ∈ ex.plan.groupIds order nd,
    WalkPost ex.plan (ex.plan.group order nd b) (branchState ex order nd s b) (thread b).log

namespace ThreadsRun

variable (h : ThreadsRun ex order nd s thread)

include h

theorem disjoint (hwf : ex.plan.WellFormed) (horder : ex.plan.topologicalOrder = .ok order) {b b' : Nat}
    (hb : b ∈ ex.plan.groupIds order nd) (hb' : b' ∈ ex.plan.groupIds order nd) (hne : b ≠ b') :
    ∀ i ∈ ex.plan.free (thread b).log, i ∉ ex.plan.free (thread b').log := by
  refine threads_disjoint (o := s.nodeOutputs) hwf horder (h.account b hb) (h.account b' hb') rfl rfl
    (h.walk b hb) (h.walk b' hb') fun i hi hi' => hne ?_
  exact Option.some.inj ((mem_group.1 hi).2.2.symm.trans (mem_group.1 hi').2.2)

theorem grown (hwf : ex.plan.WellFormed) (horder : ex.plan.topologicalOrder = .ok order) {log : List Event}
    {b : Nat} (hb : b ∈ ex.plan.groupIds order nd) :
    Grown ex.plan (thread b).nodeOutputs (joined ex order nd thread log s).nodeOutputs := by
  intro i v hi hv
  rw [joined_value]
  by_cases hfree : i ∈ ex.plan.free (thread b).log
  · have hnone : s.nodeOutputs i = none := (h.account b hb).fresh i hfree
    have hsome : ((ex.plan.groupIds order nd).findSome? fun b => (thread b).nodeOutputs i).isSome := by
      rw [List.findSome?_isSome_iff]
      exact ⟨b, hb, by rw [hv]; rfl⟩
    obtain ⟨w, hw⟩ := Option.isSome_iff_exists.1 hsome
    obtain ⟨b', hb', hw'⟩ := List.exists_of_findSome?_eq_some hw
    rw [hnone, Option.none_or, hw]
    by_cases hbb : b = b'
    · rw [← hw', ← hbb, hv]
    · have hout := (h.account b' hb').values i hi id (h.disjoint hwf horder hb hb' hbb i hfree)
      cases hw'.symm.trans (hout.trans hnone)
  · have hout : (thread b).nodeOutputs i = s.nodeOutputs i := (h.account b hb).values i hi id hfree
    rw [← hout, hv]
    rfl

theorem value_of_not_free {log : List Event} {i : Nat} (hi : ex.plan.inBody i = false)
    (hfree : ∀ b ∈ ex.plan.groupIds order nd, i ∉ ex.plan.free (thread b).log) :
    (joined ex order nd thread log s).nodeOutputs i = s.nodeOutputs i := by
  rw [joined_value]
  cases hv : s.nodeOutputs i with
  | some v => rfl
  | none =>
    rw [Option.none_or, List.findSome?_eq_none_iff]
    intro b hb
    exact ((h.account b hb).values i hi id (hfree b hb)).trans hv

end ThreadsRun

theorem ThreadsRun.of_joins (hwf : ex.plan.WellFormed) (horder : ex.plan.topologicalOrder = .ok order)
    (hv : visit.all Frame.isBranch = true) (hop : ex.plan.opAt nd.index = some .parallel)
    (hrun : ∀ v, v.all Frame.isBranch = true → ∀ nd, ex.plan.getNode nd.index = some nd →
      NodeAccount ex.plan nd.index (runNode v nd))
    (hjoin : Joins ex order runNode visit nd s t thread)
    (hcov : ∀ b ∈ ex.plan.groupIds order nd, ex.plan.CoveredLog (thread b).log) (hclosed : Closed ex.plan s)
    (hfresh : ∀ i, ex.plan.InBranch nd.index i → ex.plan.inBody i = false → s.nodeOutputs i = none) :
    ThreadsRun ex order nd s thread := by
  have hnodup : order.Nodup := (CompiledPlan.order_perm horder).nodup_iff.2 List.nodup_range
  have hthread : ∀ b ∈ ex.plan.groupIds order nd,
      Account ex.plan ∅ (branchState ex order nd s b) (thread b).log (thread b) ∧
        WalkPost ex.plan (ex.plan.group order nd b) (branchState ex order nd s b) (thread b).log := by
    intro b hb
    have hv' : (visit ++ [Frame.branch nd.index b]).all Frame.isBranch = true := by
      rw [List.all_append, hv]
      rfl
    obtain ⟨l, hl, hspec⟩ := runGroup_account hwf.index (hrun _ hv') (ex.plan.group order nd b)
      (hnodup.filter _) _ _ (hjoin.runs b hb)
    obtain rfl : (thread b).log = l := hl
    refine hspec (hcov b hb) hclosed fun i hi hbody hsome => ?_
    have hnone : (branchState ex order nd s b).nodeOutputs i = none :=
      hfresh i (inBranch_of_mem_group hop hi) hbody
    rw [hnone] at hsome
    cases hsome
  exact ⟨fun b hb => (hthread b hb).1, fun b hb => (hthread b hb).2⟩

/-- The arm of a PARALLEL runs nodes of its branches only, and the walk it is part of skips them. -/
theorem armParallel_account (hwf : ex.plan.WellFormed) (horder : ex.plan.topologicalOrder = .ok order)
    (hv : visit.all Frame.isBranch = true) (hop : ex.plan.opAt nd.index = some .parallel)
    (hrun : ∀ v, v.all Frame.isBranch = true → ∀ nd, ex.plan.getNode nd.index = some nd →
      NodeAccount ex.plan nd.index (runNode v nd))
    (h : armParallel ex order runNode visit nd s = .ok () t) :
    ∃ l, t.log = s.log ++ l ∧ (ex.plan.CoveredLog l → Closed ex.plan s →
      (ex.plan.inBody nd.index = false → s.nodeOutputs nd.index = none) →
      (ex.plan.inBody nd.index = false → ex.plan.Covered s.nodeOutputs nd.index) →
      Passed ex.plan s.nodeOutputs nd.index →
        Account ex.plan {nd.index} s l t ∧ (∀ i ∈ ex.plan.free l, ex.plan.InBranch nd.index i) ∧
          ∀ i, ex.plan.InBranch nd.index i → i ∈ t.loopSkipped) := by
  obtain ⟨u, hu, ⟨hids, rfl⟩ | ⟨thread, hjoin⟩⟩ := armParallel_ok h
  · obtain ⟨l, hl, hoff⟩ := hu.log
    refine ⟨l, hl, fun _ _ _ _ _ => ⟨.of_quiet (hu.mono Set.subset_union_left) hl, fun i hi => ?_,
      fun i hi => ?_⟩⟩
    · rw [free_of_offWalk hoff] at hi
      cases hi
    · obtain ⟨b, hb, -⟩ := exists_group horder hi
      rw [hids] at hb
      cases hb
  obtain ⟨lo, hlo, hoff⟩ := hu.log
  have hlog : ∀ b ∈ ex.plan.groupIds order nd, branchLog ex order runNode visit nd _ b = (thread b).log :=
    fun b hb => congrArg threadLog (hjoin.runs b hb)
  have ht := hjoin.joined
  rw [List.flatMap_congr hlog] at ht
  -- What is set aside are the groups.
  generalize hs' : ({ u with loopSkipped := u.loopSkipped ∪
    ((ex.plan.groupIds order nd).flatMap (ex.plan.group order nd)).toFinset } : ExecState) = s' at hjoin ht
  have hskip' : s'.loopSkipped = u.loopSkipped ∪
    ((ex.plan.groupIds order nd).flatMap (ex.plan.group order nd)).toFinset := by rw [← hs']
  have hout' : s'.nodeOutputs = u.nodeOutputs := by rw [← hs']
  have horder' : s'.executionOrder = s.executionOrder := by rw [← hs', ← hu.executionOrder]
  have hlog' : s'.log = s.log ++ lo := by rw [← hs', ← hlo]
  refine ⟨lo ++ (ex.plan.groupIds order nd).flatMap fun b => (thread b).log, ?_,
    fun hcov hclosed hfresh hcovered hpassed => ?_⟩
  · rw [ht, joined, joinThreads_log, ← List.append_assoc, ← hlog']
  have hthreads : ThreadsRun ex order nd s' thread := by
    refine .of_joins hwf horder hv hop hrun hjoin (fun b hb v i c o he => ?_) ?_ fun i hin hi => ?_
    · exact hcov v i c o (List.mem_append_right _ (List.mem_flatMap.2 ⟨b, hb, he⟩))
    · have hopened := hclosed.opened hu hfresh hcovered
      intro i hi hsome
      rw [hout'] at hsome ⊢
      exact hopened i hi hsome
    · have hne : i ≠ nd.index := fun heq => Nat.lt_irrefl _ (heq ▸ inBranch_lt hwf horder hin)
      rw [hout', hu.nodeOutputs i hne]
      exact hclosed.branch_fresh hfresh hpassed hin hi
  have hfree : ∀ i, i ∈ ex.plan.free (lo ++ (ex.plan.groupIds order nd).flatMap fun b => (thread b).log) ↔
      ∃ b ∈ ex.plan.groupIds order nd, i ∈ ex.plan.free (thread b).log := by
    intro i
    rw [free_append, free_of_offWalk hoff, List.nil_append, free_flatMap, List.mem_flatMap]
  have hin : ∀ b ∈ ex.plan.groupIds order nd, ∀ i ∈ ex.plan.free (thread b).log,
      ex.plan.InBranch nd.index i := by
    intro b hb i hi
    rcases hthreads.walk b hb i hi with ⟨hgroup, -⟩ | ⟨n, hn, -, hin⟩
    · exact inBranch_of_mem_group hop hgroup
    · exact inBranch_trans (inBranch_of_mem_group hop hn) hin
  have hgrown : ∀ b ∈ ex.plan.groupIds order nd, Grown ex.plan (thread b).nodeOutputs t.nodeOutputs :=
    fun b hb => ht ▸ hthreads.grown hwf horder hb
  refine ⟨⟨?_, fun k hk => ?_, ?_, ?_, fun i hi => ?_, fun i hi hne hnot => ?_, fun i hi => ?_,
    fun i hi hpar => ?_, fun hout k _ => ?_⟩, fun i hi => ?_, fun i hi => ?_⟩
  · rw [ht, joined, join_executionOrder, walked_append, walked_of_offWalk hoff, List.nil_append,
      walked_flatMap, List.map_flatMap, List.flatMap_congr fun b hb => (hthreads.account b hb).executionOrder]
    exact congrArg (· ++ _) horder'
  · rw [walked_append, walked_of_offWalk hoff, List.nil_append, walked_flatMap, List.mem_flatMap] at hk
    obtain ⟨b, hb, hk⟩ := hk
    exact (hthreads.account b hb).known k hk
  · rw [ht, joined, join_loopSkipped]
    exact hu.loopSkipped.trans (hskip' ▸ Finset.subset_union_left)
  · rw [free_append, free_of_offWalk hoff, List.nil_append, free_flatMap, List.nodup_flatMap]
    refine ⟨fun b hb => (hthreads.account b hb).once, ?_⟩
    refine (branchIds_nodup _ _ _).imp_of_mem fun hb hb' hne i hi hi' => ?_
    exact hthreads.disjoint hwf horder hb hb' hne i hi hi'
  · obtain ⟨b, hb, hi⟩ := (hfree i).1 hi
    have hne : i ≠ nd.index := fun heq => Nat.lt_irrefl _ (heq ▸ inBranch_lt hwf horder (hin b hb i hi))
    have hnone : s'.nodeOutputs i = none := (hthreads.account b hb).fresh i hi
    rwa [hout', hu.nodeOutputs i hne] at hnone
  · have hnot' : ∀ b ∈ ex.plan.groupIds order nd, i ∉ ex.plan.free (thread b).log :=
      fun b hb hb' => hnot ((hfree i).2 ⟨b, hb, hb'⟩)
    rw [ht, hthreads.value_of_not_free hi hnot', hout', hu.nodeOutputs i hne]
  · obtain ⟨b, hb, hi⟩ := (hfree i).1 hi
    exact (hgrown b hb).covered ((hthreads.account b hb).covered i hi)
  · obtain ⟨b, hb, hi⟩ := (hfree i).1 hi
    exact (hgrown b hb).passed ((hthreads.account b hb).passed i hi hpar)
  · have hle : (dispatches ((ex.plan.groupIds order nd).flatMap fun b => (thread b).log)).length ≤
        ex.plan.calls ((ex.plan.groupIds order nd).flatMap fun b => (thread b).log) := by
      rw [dispatches_flatMap, calls_flatMap]
      exact List.sum_le_sum fun b hb => (hthreads.account b hb).spent hout 0 fun n hn => hn.elim
    rw [dispatches_append, dispatches_of_offWalk hoff, List.nil_append, calls_append]
    omega
  · obtain ⟨b, hb, hi⟩ := (hfree i).1 hi
    exact hin b hb i hi
  · obtain ⟨c, hc, hgroup⟩ := exists_group horder hi
    rw [ht, joined, join_loopSkipped, hskip']
    exact Finset.mem_union_right _ (List.mem_toFinset.2 (List.mem_flatMap.2 ⟨c, hc, hgroup⟩))

end Parallel

/-! ### The walk -/

theorem inBody_of_mem_bodyOf {n i : Nat} (h : i ∈ bodyOf plan.identifyLoopBodies n) : plan.inBody i = true := by
  cases hl : plan.identifyLoopBodies.lookup n with
  | none =>
    rw [bodyOf, hl] at h
    exact absurd h (Finset.notMem_empty i)
  | some body =>
    rw [bodyOf, hl] at h
    obtain ⟨before, after, hsplit, _⟩ := List.lookup_eq_some_iff.1 hl
    have hmem : (n, body) ∈ plan.identifyLoopBodies := hsplit ▸ List.mem_append_right _ List.mem_cons_self
    exact List.any_eq_true.2 ⟨(n, body), hmem, decide_eq_true h⟩

theorem inBody_of_mem_loopBody (hnd : plan.getNode nd.index = some nd) (hop : nd.op = .loop) {i : Nat}
    (h : i ∈ plan.loopBody nd.index) : plan.inBody i = true := by
  refine List.any_eq_true.2 ⟨(nd.index, plan.loopBody nd.index), List.mem_map.2 ⟨nd, ?_, rfl⟩, decide_eq_true h⟩
  exact List.mem_filter.2 ⟨List.mem_of_getElem? hnd, decide_eq_true hop⟩

theorem runArm_plain {runNode : List Frame → CompiledNode → M NodeOutcome} {pause : Option PausePolicy}
    (hloop : nd.op ≠ .loop) (hpar : nd.op ≠ .parallel) :
    runArm ex order bodies runNode visit pause nd =
      (do nodeArm ex visit nd; propagate ex.plan nd; pure .ok : M NodeOutcome) := by
  unfold runArm
  split
  · contradiction
  · contradiction
  · rfl

theorem runLoop_rest (hindex : ∀ i nd, ex.plan.getNode i = some nd → nd.index = i)
    (hnd : ex.plan.getNode nd.index = some nd) (hop : nd.op = .loop) {q : Bool}
    (hq : q = true ∨ ex.plan.CallsOutside) (pause : Option PausePolicy) (cursor : Nat × Nat) :
    Steps (Confined q ({nd.index} ∪ {i | ex.plan.inBody i = true}))
      (runLoop ex order ex.plan.identifyLoopBodies visit pause cursor nd) := by
  refine runLoop_confined hindex pause _ (.inl rfl) (fun i hi => .inr (inBody_of_mem_bodyOf hi))
    (fun i hi => .inr (inBody_of_mem_loopBody hnd hop hi)) fun i hi hcall => hq.resolve_right fun hout => ?_
  exact hout i (inBody_of_mem_loopBody hnd hop hi) hcall

/-- The rest of a LOOP dispatches nothing where the bodies have no CALL. -/
theorem runLoop_dispatches (hindex : ∀ i nd, ex.plan.getNode i = some nd → nd.index = i)
    (hnd : ex.plan.getNode nd.index = some nd) (hop : nd.op = .loop) (hout : ex.plan.CallsOutside)
    {pause : Option PausePolicy} {cursor : Nat × Nat} {a : NodeOutcome}
    (h : runLoop ex order ex.plan.identifyLoopBodies visit pause cursor nd s = .ok a t) (hl : t.log = s.log ++ l) :
    dispatches l = [] :=
  dispatches_of_offWalk (((runLoop_rest hindex hnd hop (.inr hout) pause cursor).ok h).offWalk hl)

theorem armCall_dispatches : (newDispatches s (finalState (armCall ex nd s))).length ≤ 1 := by
  have heffect : newDispatches s (finalState (armCall ex nd s)) =
      (armEffect nd.index s (armCall ex nd s)).dispatches := by
    cases armCall ex nd s with
    | ok a t => rfl
    | error e t => rfl
  rw [heffect]
  by_cases hsub : Text.stripPrefix "subgraph:" (callTargetOf nd) = none
  · rw [armCall_tool hsub]
    cases schemaDrift ex (callTargetOf nd) with
    | some e => simp [armEffect, ArmEffect.dispatches, newDispatches]
    | none => simp only [toolCall_dispatches, List.length_singleton, le_refl]
  · simp only [armCall, Stateful.get_bind, ne_eq, hsub, not_false_eq_true, if_true]
    by_cases hlim : ex.plan.metadata.maxRecursionDepth ≤ ex.recursionDepth
    · rw [callSubgraph_limit _ _ _ hlim]
      simp [armEffect, ArmEffect.dispatches, newDispatches]
    · rw [callSubgraph_dispatches _ _ _ hlim]
      exact le_rfl

theorem plainArm_dispatches {a : NodeOutcome}
    (h : (do nodeArm ex visit nd; propagate ex.plan nd; pure .ok : M NodeOutcome) s = .ok a t)
    (hl : t.log = s.log ++ l) : (dispatches l).length ≤ if nd.op = .call then 1 else 0 := by
  by_cases hop : nd.op = .call
  · obtain ⟨_, u, harm, hrest⟩ := bind_ok h
    have hu : armCall ex nd s = .ok () u := by
      simp only [nodeArm, hop] at harm
      exact harm
    have hone : (newDispatches s u).length ≤ 1 := by
      have hle : (newDispatches s (finalState (armCall ex nd s))).length ≤ 1 := armCall_dispatches
      rwa [hu] at hle
    have hcall : Steps (Confined true {nd.index}) (armCall ex nd) := armCall_confined rfl (Set.mem_singleton _)
    obtain ⟨l₁, hl₁, -⟩ := (hcall.ok hu).log
    have hafter : Steps (Confined false ∅) (do propagate ex.plan nd; pure .ok : M NodeOutcome) :=
      Steps.bind (propagate_confined _) fun _ => Steps.pure _
    obtain ⟨l₂, hl₂, hoff⟩ := (hafter.ok hrest).log
    rw [newDispatches_append l₁ hl₁] at hone
    rw [hl₂, hl₁, List.append_assoc] at hl
    rw [← List.append_cancel_left hl, dispatches_append, dispatches_of_offWalk hoff, List.append_nil, if_pos hop]
    exact hone
  · have hquiet : Steps (Confined false {nd.index})
        (do nodeArm ex visit nd; propagate ex.plan nd; pure .ok : M NodeOutcome) :=
      Steps.bind (nodeArm_confined (fun hcall => absurd hcall hop) (Set.mem_singleton _)) fun _ =>
        Steps.bind (propagate_confined _) fun _ => Steps.pure _
    rw [dispatches_of_offWalk ((hquiet.ok h).offWalk hl)]
    exact Nat.zero_le _

/-- The arm of a node: what it runs are nodes of the branches of the node. -/
theorem runArm_account (hwf : ex.plan.WellFormed) (horder : ex.plan.topologicalOrder = .ok order)
    {runNode : List Frame → CompiledNode → M NodeOutcome} {pause : Option PausePolicy} {a : NodeOutcome}
    (hv : visit.all Frame.isBranch = true) (hnd : ex.plan.getNode nd.index = some nd)
    (hrun : ∀ v, v.all Frame.isBranch = true → ∀ nd, ex.plan.getNode nd.index = some nd →
      NodeAccount ex.plan nd.index (runNode v nd))
    (h : runArm ex order ex.plan.identifyLoopBodies runNode visit pause nd s = .ok a t) :
    ∃ l, t.log = s.log ++ l ∧ (ex.plan.CoveredLog l → Closed ex.plan s →
      (ex.plan.inBody nd.index = false → s.nodeOutputs nd.index = none) →
      (ex.plan.inBody nd.index = false → ex.plan.Covered s.nodeOutputs nd.index) →
      (nd.op = .parallel → Passed ex.plan s.nodeOutputs nd.index) →
        Account ex.plan {nd.index} s l t ∧ (∀ i ∈ ex.plan.free l, ex.plan.InBranch nd.index i) ∧
          ∀ i, ex.plan.InBranch nd.index i → i ∈ t.loopSkipped) := by
  have hopAt : ex.plan.opAt nd.index = some nd.op := by rw [CompiledPlan.opAt, hnd, Option.map_some]
  by_cases hop : nd.op = .parallel
  · simp only [runArm, hop] at h
    obtain ⟨_, u, harm, hok⟩ := bind_ok h
    cases hok
    obtain ⟨l, hl, hspec⟩ := armParallel_account hwf horder hv (hop ▸ hopAt) hrun harm
    exact ⟨l, hl, fun hcov hclosed hfresh hcovered hpassed => hspec hcov hclosed hfresh hcovered (hpassed hop)⟩
  · obtain ⟨l, hl, hacc, hfree⟩ : ∃ l, t.log = s.log ++ l ∧ Account ex.plan {nd.index} s l t ∧
        ex.plan.free l = [] := by
      by_cases hloop : nd.op = .loop
      · simp only [runArm, hloop] at h
        have hc := (runLoop_rest hwf.index hnd hloop (.inl rfl) pause (0, 0)).ok h
        obtain ⟨l, hl, hoff⟩ := hc.log
        refine ⟨l, hl, .of_confined hc hl fun hout k _ => ?_, free_of_offWalk hoff⟩
        rw [runLoop_dispatches hwf.index hnd hloop hout h hl]
        exact Nat.zero_le k
      · rw [runArm_plain hloop hop] at h
        have hplain : Steps (Confined true ({nd.index} ∪ {i | ex.plan.inBody i = true}))
            (do nodeArm ex visit nd; propagate ex.plan nd; pure .ok : M NodeOutcome) :=
          Steps.bind (nodeArm_confined (fun _ => rfl) (.inl rfl)) fun _ =>
            Steps.bind (propagate_confined _) fun _ => Steps.pure _
        obtain ⟨l, hl, hoff⟩ := (hplain.ok h).log
        refine ⟨l, hl, .of_confined (hplain.ok h) hl fun _ k hk => ?_, free_of_offWalk hoff⟩
        refine (plainArm_dispatches h hl).trans ?_
        split
        case isTrue hcall => exact hk _ rfl (by rw [hopAt, hcall])
        case isFalse => exact Nat.zero_le k
    refine ⟨l, hl, fun _ _ _ _ _ => ⟨hacc, fun i hi => ?_, fun i hi => absurd hi.1 ?_⟩⟩
    · rw [hfree] at hi
      cases hi
    · rw [hopAt]
      exact fun heq => hop (Option.some.inj heq)

theorem runNode_account (hwf : ex.plan.WellFormed) (horder : ex.plan.topologicalOrder = .ok order) :
    ∀ (fuel : Nat) (v : List Frame) (pause : Option PausePolicy) (nd : CompiledNode),
      v.all Frame.isBranch = true → ex.plan.getNode nd.index = some nd →
        NodeAccount ex.plan nd.index (runNode ex order ex.plan.identifyLoopBodies fuel v pause nd)
  | 0, _, _, _, _, _ => fun _ _ _ h => by cases h
  | fuel + 1, v, pause, nd, hv, hnd => by
    intro s a t h
    rw [runNode, runNodeWith, Stateful.get_bind] at h
    by_cases hready : ready ex.plan ex.plan.identifyLoopBodies s nd = true
    · rw [if_pos hready] at h
      obtain ⟨_, u, henter, harm⟩ := bind_ok h
      obtain ⟨c, hlog, hids, hskip, hout⟩ := enterNode_ok henter
      obtain ⟨hnot, hmatch⟩ := ready_spec hready
      obtain ⟨l, hl, hspec⟩ := runArm_account hwf horder hv hnd
        (fun v hv nd hnd => runNode_account hwf horder fuel v none nd hv hnd) harm
      refine ⟨.node v nd.index c s.nodeOutputs :: l, ?_, fun hcov hclosed hheld => ?_⟩
      · rw [hl, hlog, List.append_assoc, List.singleton_append]
      have hfresh : ex.plan.inBody nd.index = false → s.nodeOutputs nd.index = none := fun hbody => by
        by_contra hne
        exact hnot (hheld nd.index (List.mem_singleton_self _) hbody (Option.isSome_iff_ne_none.2 hne))
      have hcovered : ex.plan.inBody nd.index = false → ex.plan.Covered s.nodeOutputs nd.index :=
        hcov v nd.index c s.nodeOutputs List.mem_cons_self hv
      have hpassed : nd.op = .parallel → Passed ex.plan s.nodeOutputs nd.index :=
        fun hop => passed_of_ready hop hmatch
      have hclosed' : Closed ex.plan u := by
        intro i hi hsome
        rw [hout] at hsome ⊢
        exact hclosed i hi hsome
      obtain ⟨hacc, hin, hmarks⟩ := hspec (coveredLog_append (l := [.node v nd.index c s.nodeOutputs]) hcov).2 hclosed'
        (hout ▸ hfresh) (hout ▸ hcovered) (hout ▸ hpassed)
      have hnot' : nd.index ∉ ex.plan.free l := fun hmem =>
        Nat.lt_irrefl _ (inBranch_lt hwf horder (hin _ hmem))
      have hid : ex.plan.idAt nd.index = nd.id := by
        rw [CompiledPlan.idAt, hnd]
        rfl
      have hentered := hacc.enter (c := c) hv (by rw [hnd]; rfl) (hid ▸ hids) hskip hout hnot' hfresh hcovered fun hop => hpassed (by
        rw [CompiledPlan.opAt, hnd, Option.map_some] at hop
        exact Option.some.inj hop)
      refine ⟨hentered, fun i hi => ?_, fun _ => hmarks⟩
      obtain ⟨hbody, k, hk, rfl⟩ := mem_free.1 hi
      rw [← List.singleton_append, walked_append, walked_node hv] at hk
      rcases List.mem_append.1 hk with hk | hk
      · rw [List.mem_singleton.1 hk]
        exact .inl ⟨rfl, hnot⟩
      · have hbranch : ex.plan.InBranch nd.index k.2 := hin k.2 (mem_free.2 ⟨hbody, k, hk, rfl⟩)
        refine .inr ⟨mem_free.2 ⟨(hentered.covered _ hi _ hbranch).1, (v, nd.index), ?_, rfl⟩, hbranch⟩
        rw [← List.singleton_append, walked_append, walked_node hv]
        exact List.mem_append_left _ (List.mem_singleton_self _)
    · rw [if_neg hready] at h
      cases h
      exact ⟨[], (List.append_nil _).symm, fun _ _ _ => ⟨Account.refl _, fun i hi => (by cases hi), fun h => (by cases h)⟩⟩

/-! ### The main walk -/

theorem runLoop_paused (hindex : ∀ i nd, ex.plan.getNode i = some nd → nd.index = i)
    (hnd : ex.plan.getNode nd.index = some nd) (hop : nd.op = .loop) {pause : Option PausePolicy}
    {cursor : Nat × Nat} {x : LoopState} (h : runLoop ex order bodies visit pause cursor nd s = .ok (.paused x) t) :
    Confined true {i | ex.plan.inBody i = true} s t := by
  rw [runLoop, Stateful.get_bind] at h
  dsimp only at h
  by_cases hanchors : ex.plan.anchors nd.index false = []
  · rw [if_pos hanchors] at h
    exact absurd rfl (finishLoop_never s _ _ h x)
  · rw [if_neg hanchors, modify_bind] at h
    obtain ⟨r, u, hiter, hrest⟩ := bind_ok h
    cases r with
    | ok => exact absurd rfl (finishLoop_never u _ _ hrest x)
    | paused ls =>
      cases hrest
      have hu := (runIterations_confined hindex (q := true) (S := {i | ex.plan.inBody i = true}) pause _ _
        (fun i hi => ?_) (fun _ _ _ => rfl) _ _ _).ok hiter
      · have hset : Confined true {i | ex.plan.inBody i = true} s
            { s with loopSkipped := s.loopSkipped ∪ ex.plan.loopBody nd.index } :=
          ⟨Extends.same rfl, rfl, Finset.subset_union_left, fun _ _ => rfl⟩
        exact trans_of (Confined _ _) hset hu
      · exact inBody_of_mem_loopBody hnd hop (of_decide_eq_true (List.mem_filter.1 hi).2)

/-- A node that is left before its end is a LOOP that has no value yet. -/
theorem runNode_paused (hindex : ∀ i nd, ex.plan.getNode i = some nd → nd.index = i)
    (hnd : ex.plan.getNode nd.index = some nd) {fuel : Nat} {pause : Option PausePolicy} {x : LoopState}
    (h : runNode ex order ex.plan.identifyLoopBodies fuel visit pause nd s = .ok (.paused x) t) :
    x.loopIndex = nd.index ∧ nd.op = .loop ∧ (∃ c l, t.log = s.log ++ .node visit nd.index c s.nodeOutputs :: l) ∧
      (ex.plan.inBody nd.index = false → t.nodeOutputs nd.index = s.nodeOutputs nd.index) := by
  refine ⟨runNode_loopIndex _ _ s _ t h x rfl, ?_⟩
  cases fuel with
  | zero => cases h
  | succ fuel =>
    rw [runNode, runNodeWith, Stateful.get_bind] at h
    by_cases hready : ready ex.plan ex.plan.identifyLoopBodies s nd = true
    · rw [if_pos hready] at h
      obtain ⟨_, u, henter, harm⟩ := bind_ok h
      obtain ⟨c, hlog, -, -, hout⟩ := enterNode_ok henter
      by_cases hop : nd.op = .loop
      · simp only [runArm, hop] at harm
        have hu := runLoop_paused hindex hnd hop harm
        obtain ⟨l, hl, -⟩ := hu.log
        refine ⟨hop, ⟨c, l, ?_⟩, fun hbody => ?_⟩
        · rw [hl, hlog, List.append_assoc, List.singleton_append]
        · rw [hu.nodeOutputs _ fun hbody' => Bool.false_ne_true (hbody.symm.trans hbody'), hout]
      · by_cases hpar : nd.op = .parallel
        · simp only [runArm, hpar] at harm
          obtain ⟨_, w, -, hok⟩ := bind_ok harm
          cases hok
        · rw [runArm_plain hop hpar] at harm
          obtain ⟨_, w, -, harm⟩ := bind_ok harm
          obtain ⟨_, w', -, hok⟩ := bind_ok harm
          cases hok
    · rw [if_neg hready] at h
      cases h

/-- The nodes behind a pause. -/
def ahead (order : List Nat) (position : Nat) : Option LoopState → List Nat
  | none => order.drop position
  | some _ => order.drop (position + 1)

/-- Where a run can go on from: nothing that has run is still to come, and a LOOP that has been left has
no value. -/
structure Parked (plan : CompiledPlan) (order : List Nat) (l : List Event) (t : ExecState) (position : Nat)
    (ls : Option LoopState) : Prop where
  held : Held plan t (ahead order position ls)
  past : Past plan l t (ahead order position ls)
  inLoop : ∀ x, ls = some x → plan.opAt x.loopIndex = some .loop ∧
    (plan.inBody x.loopIndex = false → x.loopIndex ∈ plan.free l ∧ t.nodeOutputs x.loopIndex = none)

/-- PARALLELs that have run keep the walk off their branches. -/
def Marked (plan : CompiledPlan) (s : ExecState) : Prop :=
  ∀ p, plan.inBody p = false → (s.nodeOutputs p).isSome → ∀ i, plan.InBranch p i → i ∈ s.loopSkipped

/-- The walk itself runs no branch of a PARALLEL that has run. -/
def OnThreads (plan : CompiledPlan) (l : List Event) : Prop :=
  ∀ i c o, .node [] i c o ∈ l → plan.inBody i = false → ∀ p, plan.inBody p = false → plan.InBranch p i → o p = none

theorem onThreads_append {l l' : List Event} (h : OnThreads plan l) (h' : OnThreads plan l') :
    OnThreads plan (l ++ l') :=
  fun i c o he => (List.mem_append.1 he).elim (h i c o) (h' i c o)

theorem NodePost.marked {n : Nat} (hnode : NodePost plan n s l t) (h : Account plan ∅ s l t)
    (hs : Marked plan s) : Marked plan t := by
  intro p hbody hsome i hin
  by_cases hfree : p ∈ plan.free l
  · rcases hnode.runs p hfree with ⟨rfl, -⟩ | ⟨hn, hp⟩
    · exact hnode.marks hfree i hin
    · exact hnode.marks hn i (inBranch_trans hp hin)
  · rw [h.values p hbody id hfree] at hsome
    exact h.loopSkipped (hs p hbody hsome i hin)

theorem not_inside_nil {n i : Nat} : (([] : List Frame), i) ∉ Inside [] n := by
  rintro ⟨f, -, hf⟩
  exact List.cons_ne_nil f [] (List.prefix_nil.1 hf)

/-- What the walk itself runs at a node is the node. -/
theorem runNode_onThreads (hindex : ∀ i nd, ex.plan.getNode i = some nd → nd.index = i) (horder : order.Nodup)
    {fuel : Nat} {pause : Option PausePolicy} {a : NodeOutcome} (hs : Marked ex.plan s)
    (h : runNode ex order bodies fuel [] pause nd s = .ok a t) (hl : t.log = s.log ++ l) : OnThreads ex.plan l := by
  cases fuel with
  | zero => cases h
  | succ fuel =>
    rw [runNode, runNodeWith, Stateful.get_bind] at h
    by_cases hready : ready ex.plan bodies s nd = true
    · rw [if_pos hready] at h
      obtain ⟨_, u, henter, harm⟩ := bind_ok h
      obtain ⟨c, hlog, -, -, -⟩ := enterNode_ok henter
      obtain ⟨l', hl', hinside⟩ := (runArm_inside hindex horder fuel).ok harm
      obtain rfl : l = .node [] nd.index c s.nodeOutputs :: l' := by
        rw [hl', hlog, List.append_assoc] at hl
        exact (List.append_cancel_left hl).symm
      intro i c' o he hbody p hp hin
      rcases List.mem_cons.1 he with heq | he
      · cases heq
        by_contra hne
        exact (ready_spec hready).1 (hs p hp (Option.isSome_iff_ne_none.2 hne) _ hin)
      · exact absurd (hinside _ (mem_stepKeys.2 ⟨c', o, he⟩)) not_inside_nil
    · rw [if_neg hready] at h
      cases h
      rw [List.self_eq_append_right.1 hl]
      exact fun i c o he => by cases he

/-- What is known of a walk over nodes. -/
def PassAccount (plan : CompiledPlan) (order nodes : List Nat) (x : M PassOutcome) : Prop :=
  ∀ s r t, x s = .ok r t → ∃ l, t.log = s.log ++ l ∧ (plan.CoveredLog l → Closed plan s → Held plan s nodes →
    Account plan ∅ s l t ∧ WalkPost plan nodes s l ∧ (Marked plan s → Marked plan t ∧ OnThreads plan l) ∧
      ∀ p ls, r = .paused p ls → ahead order p ls ⊆ nodes ∧ Parked plan order l t p ls)

theorem mainPass_account (hwf : ex.plan.WellFormed) (horder : ex.plan.topologicalOrder = .ok order)
    (policy : PausePolicy) : ∀ (nodes : List Nat) (position : Nat), nodes = order.drop position →
      PassAccount ex.plan order nodes (mainPass ex order policy nodes position)
  | [], _, _ => fun s r t h => by
    cases h
    exact ⟨[], (List.append_nil _).symm, fun _ _ _ => ⟨Account.refl _, fun i hi => (by cases hi), fun hs => ⟨hs, fun i c o he => (by cases he)⟩,
      by rintro _ _ ⟨⟩⟩⟩
  | idx :: rest, position, hnodes => fun s r t h => by
    have hdrop : rest = order.drop (position + 1) := by
      rw [← List.drop_drop, ← hnodes]
      rfl
    have horder' : order.Nodup := (CompiledPlan.order_perm horder).nodup_iff.2 List.nodup_range
    have hnodup : (idx :: rest).Nodup := by
      rw [hnodes]
      exact horder'.sublist (List.drop_sublist _ _)
    have hn : idx ∉ rest := (List.nodup_cons.1 hnodup).1
    cases hnd : ex.plan.getNode idx with
    | none =>
      rw [mainPass, hnd] at h
      cases h
    | some nd =>
      obtain rfl : nd.index = idx := hwf.index idx nd hnd
      rw [mainPass, hnd] at h
      obtain ⟨a, u, hnode, hrest⟩ := bind_ok h
      obtain ⟨l, hl, hspec⟩ := runNode_account hwf horder _ [] (some policy) nd rfl hnd s a u hnode
      have hfirst : ∀ {i}, i ∈ [nd.index] → i ∈ nd.index :: rest := fun hi => by
        rw [List.mem_singleton.1 hi]
        exact List.mem_cons_self
      have honThreads : Marked ex.plan s → OnThreads ex.plan l := fun hs =>
        runNode_onThreads hwf.index horder' hs hnode hl
      cases a with
      | paused x =>
        cases hrest
        refine ⟨l, hl, fun hcov hclosed hheld => ?_⟩
        obtain ⟨hacc, hpost⟩ := hspec hcov hclosed fun i hi => hheld i (hfirst hi)
        refine ⟨hacc, hpost.walkPost, fun hs => ⟨hpost.marked hacc hs, honThreads hs⟩, ?_⟩
        rintro p ls ⟨⟩
        rw [ahead, ← hdrop]
        refine ⟨List.subset_cons_self _ _, ?_, ?_, ?_⟩
        · rw [ahead, ← hdrop]
          exact hpost.held hacc hn hheld
        · rw [ahead, ← hdrop]
          exact hpost.past hn
        · rintro _ ⟨⟩
          obtain ⟨hloop, hop, ⟨c, l', hl'⟩, hout⟩ := runNode_paused hwf.index hnd hnode
          rw [hloop]
          refine ⟨by rw [CompiledPlan.opAt, hnd, Option.map_some, hop], fun hbody => ?_⟩
          have hmem : nd.index ∈ ex.plan.free l := by
            rw [List.append_cancel_left (hl.symm.trans hl'), ← List.singleton_append, free_append]
            exact List.mem_append_left _ (mem_free.2 ⟨hbody, ([], nd.index), by
              rw [walked_node rfl]
              exact List.mem_singleton_self _, rfl⟩)
          exact ⟨hmem, (hout hbody).trans (hacc.fresh _ hmem)⟩
      | ok =>
        dsimp only at hrest
        rw [Stateful.get_bind] at hrest
        by_cases hpause : rest ≠ [] ∧ policy.shouldPause u.nodeCount nd.id
        · rw [if_pos hpause] at hrest
          cases hrest
          refine ⟨l, hl, fun hcov hclosed hheld => ?_⟩
          obtain ⟨hacc, hpost⟩ := hspec hcov hclosed fun i hi => hheld i (hfirst hi)
          refine ⟨hacc, hpost.walkPost, fun hs => ⟨hpost.marked hacc hs, honThreads hs⟩, ?_⟩
          rintro p ls ⟨⟩
          rw [ahead, ← hdrop]
          refine ⟨List.subset_cons_self _ _, ?_, ?_, by rintro _ ⟨⟩⟩
          · rw [ahead, ← hdrop]
            exact hpost.held hacc hn hheld
          · rw [ahead, ← hdrop]
            exact hpost.past hn
        · rw [if_neg hpause] at hrest
          obtain ⟨l', hl', hspec'⟩ := mainPass_account hwf horder policy rest (position + 1) hdrop u r t hrest
          refine ⟨l ++ l', by rw [hl', hl, List.append_assoc], fun hcov hclosed hheld => ?_⟩
          obtain ⟨hcov, hcov'⟩ := coveredLog_append hcov
          obtain ⟨hacc, hpost⟩ := hspec hcov hclosed fun i hi => hheld i (hfirst hi)
          obtain ⟨hacc', hwalk, hmarked', hparked⟩ := hspec' hcov' (hacc.closed hclosed) (hpost.held hacc hn hheld)
          obtain ⟨hall, hwalk⟩ := hpost.walk hacc hn hacc' hwalk
          refine ⟨hall, hwalk, fun hs => ?_, fun p ls hr => ?_⟩
          · have hu := hpost.marked hacc hs
            exact ⟨(hmarked' hu).1, onThreads_append (honThreads hs) (hmarked' hu).2⟩
          obtain ⟨hsub, hp⟩ := hparked p ls hr
          refine ⟨List.subset_cons_of_subset _ hsub, hp.held, fun i hi hmem => ?_, fun x hx => ?_⟩
          · rw [free_append, List.mem_append] at hi
            rcases hi with hi | hi
            · exact hacc'.loopSkipped (hpost.past hn i hi (hsub hmem))
            · exact hp.past i hi hmem
          · obtain ⟨hop, hrun⟩ := hp.inLoop x hx
            rw [free_append]
            exact ⟨hop, fun hbody => (hrun hbody).imp_left (List.mem_append_right _)⟩

/-! ### Runs -/

/-- What is known of a run, however many pauses it has had. -/
structure SoFar (plan : CompiledPlan) (l : List Event) (t : ExecState) : Prop where
  account : ∃ s, s.executionOrder = [] ∧ (∀ i, s.nodeOutputs i = none) ∧ Account plan ∅ s l t
  marked : Marked plan t
  onThreads : OnThreads plan l

namespace SoFar

variable {rest : List Nat} (h : SoFar plan l t)

include h

theorem closed : Closed plan t := by
  obtain ⟨s, -, hnone, hacc⟩ := h.account
  refine hacc.closed fun i hi hsome => ?_
  rw [hnone i] at hsome
  cases hsome

theorem of_eq (horder : u.executionOrder = t.executionOrder) (hskip : u.loopSkipped = t.loopSkipped)
    (hout : u.nodeOutputs = t.nodeOutputs) : SoFar plan l u := by
  obtain ⟨s, hnil, hnone, hacc⟩ := h.account
  refine ⟨⟨s, hnil, hnone, ?_⟩, fun p hp hsome => ?_, h.onThreads⟩
  · exact ⟨horder ▸ hacc.executionOrder, hacc.known, hskip ▸ hacc.loopSkipped, hacc.once, hacc.fresh, hout ▸ hacc.values,
      hout ▸ hacc.covered, hout ▸ hacc.passed, hacc.spent⟩
  · rw [hout] at hsome
    rw [hskip]
    exact h.marked p hp hsome

/-- On through the nodes that are still to come. -/
theorem walk {x : M PassOutcome} {r : PassOutcome} (hx : PassAccount plan order rest x)
    (hheld : Held plan t rest) (hpast : Past plan l t rest) (hok : x t = .ok r u) :
    ∃ l', u.log = t.log ++ l' ∧ (plan.CoveredLog l' → SoFar plan (l ++ l') u ∧
      ∀ p ls, r = .paused p ls → Parked plan order (l ++ l') u p ls) := by
  obtain ⟨l', hl', hspec⟩ := hx t r u hok
  refine ⟨l', hl', fun hcov => ?_⟩
  obtain ⟨hacc', hwalk, hmarked, hparked⟩ := hspec hcov h.closed hheld
  obtain ⟨s, hnil, hnone, hacc⟩ := h.account
  refine ⟨⟨⟨s, hnil, hnone, hacc.append hacc' (disjoint_past hacc hpast hacc' hwalk)⟩, (hmarked h.marked).1,
    onThreads_append h.onThreads (hmarked h.marked).2⟩, fun p ls hr => ?_⟩
  obtain ⟨hsub, hp⟩ := hparked p ls hr
  refine ⟨hp.held, fun i hi hmem => ?_, fun y hy => ?_⟩
  · rw [free_append, List.mem_append] at hi
    rcases hi with hi | hi
    · exact hacc'.loopSkipped (hpast i hi (hsub hmem))
    · exact hp.past i hi hmem
  · obtain ⟨hop, hrun⟩ := hp.inLoop y hy
    rw [free_append]
    exact ⟨hop, fun hbody => (hrun hbody).imp_left (List.mem_append_right _)⟩

/-- On through the rest of a LOOP. -/
theorem loop {n : Nat} (hop : plan.opAt n = some .loop)
    (hrun : plan.inBody n = false → n ∈ plan.free l ∧ t.nodeOutputs n = none)
    (hc : Confined true ({n} ∪ {i | plan.inBody i = true}) t u) (hl' : u.log = t.log ++ l')
    (hquiet : plan.CallsOutside → dispatches l' = [])
    (hheld : Held plan t rest) (hpast : Past plan l t rest) :
    SoFar plan (l ++ l') u ∧ Held plan u rest ∧ Past plan (l ++ l') u rest := by
  have hoff : ∀ e ∈ l', OffWalk true e := hc.offWalk hl'
  have hfree : plan.free l' = [] := free_of_offWalk hoff
  have hacc' : Account plan {n} t l' u := .of_confined hc hl' fun hout k _ => by
    rw [hquiet hout]
    exact Nat.zero_le k
  have hcall : ∀ i ∈ ({n} : Set Nat), plan.opAt i ≠ some .call := by
    rintro i rfl
    rw [hop]
    nofun
  have hvalue : ∀ {i}, plan.inBody i = false → i ≠ n → u.nodeOutputs i = t.nodeOutputs i := fun hbody hne =>
    hacc'.values _ hbody hne (by rw [hfree]; exact List.not_mem_nil)
  obtain ⟨s, hnil, hnone, hacc⟩ := h.account
  refine ⟨⟨⟨s, hnil, hnone, hacc.append_of hacc' (fun i hi => hi ▸ hrun) hcall ?_⟩, ?_, ?_⟩, ?_, ?_⟩
  · intro i _
    rw [hfree]
    exact List.not_mem_nil
  · intro p hbody hsome i hin
    have hne : p ≠ n := fun heq => by cases (heq ▸ hin.1).symm.trans hop
    rw [hvalue hbody hne] at hsome
    exact hc.loopSkipped (h.marked p hbody hsome i hin)
  · exact onThreads_append h.onThreads fun i c o he => nomatch hoff _ he
  · intro i hi hbody hsome
    refine hc.loopSkipped ?_
    by_cases heq : i = n
    · rw [heq] at hi hbody ⊢
      exact hpast n (hrun hbody).1 hi
    · rw [hvalue hbody heq] at hsome
      exact hheld i hi hbody hsome
  · intro i hi hmem
    rw [free_append, hfree, List.append_nil] at hi
    exact hc.loopSkipped (hpast i hi hmem)

end SoFar

/-- What a checkpoint is resumed with. -/
structure KeptAt (plan : CompiledPlan) (order : List Nat) (l : List Event) (cp : Checkpoint) : Prop where
  soFar : SoFar plan l (resumeState cp)
  parked : Parked plan order l (resumeState cp) cp.position cp.loopState

/-- A resumed segment. -/
theorem KeptAt.resumePass (hwf : ex.plan.WellFormed) (horder : ex.plan.topologicalOrder = .ok order)
    {cp : Checkpoint} (h : KeptAt ex.plan order l cp) {policy : PausePolicy} {r : PassOutcome}
    (hok : resumePass ex order policy cp (resumeState cp) = .ok r t) (hcov : ex.plan.CoveredLog t.log) :
    SoFar ex.plan (l ++ t.log) t ∧ ∀ p ls, r = .paused p ls → Parked ex.plan order (l ++ t.log) t p ls := by
  obtain ⟨hheld, hpast, hinLoop⟩ := h.parked
  unfold Tinypipe.resumePass at hok
  cases hls : cp.loopState with
  | none =>
    rw [hls] at hok hheld hpast
    obtain ⟨l', hl', hspec⟩ := h.soFar.walk (mainPass_account hwf horder policy _ cp.position rfl) hheld hpast hok
    obtain rfl : t.log = l' := hl'
    exact hspec hcov
  | some x =>
    rw [hls] at hok hheld hpast
    obtain ⟨hop, hrun⟩ := hinLoop x hls
    cases hnd : ex.plan.getNode x.loopIndex with
    | none =>
      simp only [hnd] at hok
      cases hok
    | some nd =>
      simp only [hnd] at hok
      have hx : nd.index = x.loopIndex := hwf.index _ nd hnd
      rw [CompiledPlan.opAt, hnd, Option.map_some] at hop
      obtain ⟨a, u, hloop, hrest⟩ := bind_ok hok
      have hc := (runLoop_rest hwf.index (hx ▸ hnd) (Option.some.inj hop) (.inl rfl) _ _).ok hloop
      have hopAt : ex.plan.opAt nd.index = some .loop := by rw [hx, CompiledPlan.opAt, hnd, Option.map_some, hop]
      obtain ⟨hsoFar, hheld', hpast'⟩ := h.soFar.loop hopAt (hx ▸ hrun) hc rfl
        (fun hout => runLoop_dispatches hwf.index (hx ▸ hnd) (Option.some.inj hop) hout hloop rfl) hheld hpast
      cases a with
      | paused x' =>
        cases hrest
        refine ⟨hsoFar, ?_⟩
        rintro p ls ⟨⟩
        refine ⟨hheld', hpast', ?_⟩
        rintro _ ⟨⟩
        have hx' : x'.loopIndex = nd.index := runLoop_loopIndex _ _ _ _ _ hloop x' rfl
        rw [hx', hx, CompiledPlan.opAt, hnd, Option.map_some]
        refine ⟨hop, fun hbody => ⟨?_, ?_⟩⟩
        · rw [free_append]
          exact List.mem_append_left _ (hrun hbody).1
        · have hkeep := runLoop_paused hwf.index (hx ▸ hnd) (Option.some.inj hop) hloop
          rw [hkeep.nodeOutputs _ fun hbody' => Bool.false_ne_true (hbody.symm.trans hbody')]
          exact (hrun hbody).2
      | ok =>
        obtain ⟨l', hl', hspec⟩ := hsoFar.walk (mainPass_account hwf horder policy _ (cp.position + 1) rfl)
          hheld' hpast' hrest
        rw [hl'] at hcov ⊢
        rw [← List.append_assoc]
        exact hspec (coveredLog_append hcov).2

end Account

def ExecutionOutcome.executionOrder : ExecutionOutcome → List Text
  | completed r => r.executionOrder
  | paused cp => cp.executionOrder

/-- A run of the plan over any number of segments, with all they have logged: the inputs, the policies
and the tools may be others each time. -/
inductive HasRun (plan : CompiledPlan) : List Event → ExecutionOutcome → Prop
  | executed {registry : Registry} {depth : Nat} {inputs : Context} {policy : PausePolicy} {out : ExecutionOutcome} :
    (executeWith ⟨plan, registry, depth⟩ inputs policy).result = .ok out →
      HasRun plan (executeWith ⟨plan, registry, depth⟩ inputs policy).log out
  | resumed {registry : Registry} {depth : Nat} {policy : PausePolicy} {l : List Event} {cp : Checkpoint}
    {out : ExecutionOutcome} :
    HasRun plan l (.paused cp) → (resume ⟨plan, registry, depth⟩ cp policy).result = .ok out →
      HasRun plan (l ++ (resume ⟨plan, registry, depth⟩ cp policy).log) out

section HasRun

variable {plan : CompiledPlan} {order : List Nat} {l : List Event} {out : ExecutionOutcome}

/-- What is known of a run when it ends, or pauses. -/
def Told (plan : CompiledPlan) (order : List Nat) (l : List Event) (out : ExecutionOutcome) : Prop :=
  ∃ t, SoFar plan l t ∧ out.executionOrder = t.executionOrder ∧ ∀ cp, out = .paused cp → KeptAt plan order l cp

theorem finishPass_told {r : EStateM.Result ExecutionError ExecState PassOutcome}
    (h : (finishPass r).result = .ok out)
    (hr : ∀ a t, r = .ok a t → SoFar plan l t ∧ ∀ p ls, a = .paused p ls → Parked plan order l t p ls) :
    Told plan order l out := by
  cases r with
  | error e t => cases h
  | ok a t =>
    obtain ⟨hsoFar, hparked⟩ := hr a t rfl
    cases a with
    | completed =>
      cases h
      exact ⟨t, hsoFar, rfl, nofun⟩
    | paused p ls =>
      cases h
      refine ⟨t, hsoFar, rfl, ?_⟩
      rintro _ ⟨⟩
      obtain ⟨hheld, hpast, hinLoop⟩ := hparked p ls rfl
      exact ⟨hsoFar.of_eq rfl rfl rfl, hheld, hpast, hinLoop⟩

theorem HasRun.told (hwf : plan.WellFormed) (horder : plan.topologicalOrder = .ok order) (h : HasRun plan l out)
    (hcov : plan.CoveredLog l) : Told plan order l out := by
  induction h with
  | @executed registry depth inputs policy out h =>
    cases hversion : checkVersionCompatibility plan.version with
    | error e =>
      rw [executeWith, hversion] at h
      cases h
    | ok _ =>
      have hseg : executeWith ⟨plan, registry, depth⟩ inputs policy = finishPass (mainPass ⟨plan, registry, depth⟩
          order policy order 0 (initialState ⟨plan, registry, depth⟩ inputs)) := by
        simp only [executeWith, hversion, horder]
      rw [hseg] at h hcov ⊢
      refine finishPass_told h fun a t hok => ?_
      have hstart : SoFar plan [] (initialState ⟨plan, registry, depth⟩ inputs) :=
        ⟨⟨_, rfl, fun _ => rfl, Account.refl _⟩, fun _ _ h => absurd h Bool.false_ne_true, fun i c o he => (by cases he)⟩
      have hpass : PassAccount plan order order (mainPass ⟨plan, registry, depth⟩ order policy order 0) :=
        mainPass_account hwf horder policy order 0 rfl
      obtain ⟨l, hl, hspec⟩ := hstart.walk hpass (fun _ _ _ h => absurd h Bool.false_ne_true)
        (fun i hi => (by cases hi)) hok
      obtain rfl : t.log = l := hl
      rw [hok, finishPass_log] at hcov ⊢
      exact hspec hcov
  | @resumed registry depth policy l cp out hrun h ih =>
    obtain ⟨hcov, hcov'⟩ := coveredLog_append hcov
    obtain ⟨-, -, -, hkept⟩ := ih hcov
    cases hversion : checkVersionCompatibility plan.version with
    | error e =>
      rw [resume, hversion] at h
      cases h
    | ok _ =>
      have hseg : resume ⟨plan, registry, depth⟩ cp policy = finishPass (resumePass ⟨plan, registry, depth⟩
          order policy cp (resumeState cp)) := by
        simp only [resume, hversion, horder]
      rw [hseg] at h hcov' ⊢
      refine finishPass_told h fun a t hok => ?_
      rw [hok, finishPass_log] at hcov' ⊢
      exact (hkept cp rfl).resumePass hwf horder hok hcov'

theorem HasRun.exists_order (h : HasRun plan l out) : ∃ order, plan.topologicalOrder = .ok order := by
  cases horder : plan.topologicalOrder with
  | ok order => exact ⟨order, rfl⟩
  | error e =>
    cases h with
    | executed h =>
      simp only [executeWith, horder] at h
      split at h
      · cases h
      · cases h
    | resumed _ h =>
      simp only [resume, horder] at h
      split at h
      · cases h
      · cases h

/-- Nodes have different ids. -/
theorem idAt_inj (hids : (plan.nodes.map CompiledNode.id).Nodup) {i j : Nat} (hi : (plan.getNode i).isSome)
    (hj : (plan.getNode j).isSome) (h : plan.idAt i = plan.idAt j) : i = j := by
  obtain ⟨nd, hnd⟩ := Option.isSome_iff_exists.1 hi
  obtain ⟨nd', hnd'⟩ := Option.isSome_iff_exists.1 hj
  rw [CompiledPlan.idAt, CompiledPlan.idAt, hnd, hnd'] at h
  have hlt : i < (plan.nodes.map CompiledNode.id).length := by
    rw [List.length_map]
    exact (List.getElem?_eq_some_iff.1 hnd).1
  refine (List.getElem?_inj hlt hids).1 ?_
  rw [List.getElem?_map, List.getElem?_map]
  exact (congrArg (Option.map CompiledNode.id) hnd).trans
    ((congrArg some h).trans (congrArg (Option.map CompiledNode.id) hnd').symm)

variable {s t : ExecState}

/-- Outside the loop bodies an id is in the execution order as often as its node has run. -/
theorem Account.count_id (h : Account plan ∅ s l t) (hs : s.executionOrder = [])
    (hids : (plan.nodes.map CompiledNode.id).Nodup) {i : Nat} (hi : (plan.getNode i).isSome)
    (hbody : plan.inBody i = false) : t.executionOrder.count (plan.idAt i) = (plan.free l).count i := by
  have hsame : ∀ k ∈ walked l, ((plan.idAt k.2 == plan.idAt i) = true ↔ (k.2 == i) = true) := by
    intro k hk
    rw [beq_iff_eq, beq_iff_eq]
    exact ⟨idAt_inj hids (h.known k hk) hi, fun heq => heq ▸ rfl⟩
  calc t.executionOrder.count (plan.idAt i)
      = ((walked l).map fun k => plan.idAt k.2).count (plan.idAt i) := by
        rw [h.executionOrder, hs, List.nil_append]
    _ = (walked l).countP fun k => plan.idAt k.2 == plan.idAt i := List.countP_map
    _ = (walked l).countP fun k => k.2 == i := List.countP_congr hsame
    _ = ((walked l).map Prod.snd).count i := by
        rw [List.count, List.countP_map]
        rfl
    _ = (plan.free l).count i := (List.count_filter (by rw [hbody]; rfl)).symm

/-- Outside the loop bodies a node runs in one thread. -/
theorem Account.one_thread (h : Account plan ∅ s l t) {v w : List Frame} {i : Nat} (hbody : plan.inBody i = false)
    (hv : (v, i) ∈ walked l) (hw : (w, i) ∈ walked l) : v = w := by
  have hnodup := h.once
  rw [CompiledPlan.free, List.filter_map] at hnodup
  have hmem : ∀ {u : List Frame}, (u, i) ∈ walked l →
      (u, i) ∈ (walked l).filter ((fun i => !plan.inBody i) ∘ Prod.snd) := fun hu =>
    List.mem_filter.2 ⟨hu, by rw [Function.comp_apply, hbody]; rfl⟩
  exact (Prod.mk.inj (List.inj_on_of_nodup_map hnodup (hmem hv) (hmem hw) rfl)).1

/-- A run dispatches at most as often as the plan has CALLs, where these are in no loop body. -/
theorem Account.dispatches_le (h : Account plan ∅ s l t) (hindex : ∀ i nd, plan.getNode i = some nd → nd.index = i)
    (hout : plan.CallsOutside) : (dispatches l).length ≤ plan.nodes.countP fun nd => decide (nd.op = .call) := by
  have hcalls : plan.calls l = ((plan.free l).filter fun i => decide (plan.opAt i = some .call)).length := by
    have hfree : ∀ i ∈ (walked l).map Prod.snd, (decide (plan.opAt i = some .call) = true ↔
        (decide (plan.opAt i = some .call) && !plan.inBody i) = true) := by
      intro i _
      cases hbody : plan.inBody i with
      | false => rw [Bool.not_false, Bool.and_true]
      | true => simp [hout i hbody]
    calc plan.calls l = ((walked l).map Prod.snd).countP fun i => decide (plan.opAt i = some .call) := by
          rw [List.countP_map]
          rfl
      _ = ((walked l).map Prod.snd).countP fun i => decide (plan.opAt i = some .call) && !plan.inBody i :=
          List.countP_congr hfree
      _ = (plan.free l).countP fun i => decide (plan.opAt i = some .call) := List.countP_filter.symm
      _ = ((plan.free l).filter fun i => decide (plan.opAt i = some .call)).length := List.countP_eq_length_filter
  have hsub : (plan.free l).filter (fun i => decide (plan.opAt i = some .call)) ⊆
      (plan.nodes.filter fun nd => decide (nd.op = .call)).map CompiledNode.index := by
    intro i hi
    obtain ⟨nd, hnd, hop⟩ := Option.map_eq_some_iff.1 (of_decide_eq_true (List.mem_filter.1 hi).2)
    exact List.mem_map.2 ⟨nd, List.mem_filter.2 ⟨List.mem_of_getElem? hnd, decide_eq_true hop⟩, hindex i nd hnd⟩
  calc (dispatches l).length ≤ plan.calls l := h.spent hout 0 fun n hn => hn.elim
    _ ≤ ((plan.nodes.filter fun nd => decide (nd.op = .call)).map CompiledNode.index).length := by
        rw [hcalls]
        exact (List.Nodup.subperm (h.once.filter _) hsub).length_le
    _ = plan.nodes.countP fun nd => decide (nd.op = .call) := by
        rw [List.length_map, List.countP_eq_length_filter]

end HasRun

/-- Where every PARALLEL that has a node in a branch, and is in no loop body itself, has run or has been
refused when the node starts, a run, however often it is paused, runs no node outside the loop bodies
twice, each in one thread, and the walk itself none that a PARALLEL which has run has in a branch. -/
theorem executed_once {plan : CompiledPlan} (hwf : plan.WellFormed) (hids : (plan.nodes.map CompiledNode.id).Nodup)
    {l : List Event} {out : ExecutionOutcome} (h : HasRun plan l out) (hcov : plan.CoveredLog l) :
    (∀ nd ∈ plan.nodes, plan.inBody nd.index = false → out.executionOrder.count nd.id ≤ 1) ∧
      (∀ v w i, plan.inBody i = false → (v, i) ∈ walked l → (w, i) ∈ walked l → v = w) ∧
      (∀ i c o, .node [] i c o ∈ l → plan.inBody i = false → ∀ p, plan.InBranch p i → o p = none) ∧
      ∀ id ∈ out.executionOrder, ∃ nd ∈ plan.nodes, nd.id = id := by
  obtain ⟨order, horder⟩ := h.exists_order
  obtain ⟨t, hsoFar, hout, -⟩ := h.told hwf horder hcov
  obtain ⟨s, hnil, -, hacc⟩ := hsoFar.account
  refine ⟨fun nd hnd hbody => ?_, fun v w i => hacc.one_thread, fun i c o he hbody p hin => ?_, fun id hid => ?_⟩
  · obtain ⟨i, hi⟩ := List.mem_iff_getElem?.1 hnd
    obtain rfl : nd.index = i := hwf.index i nd hi
    have hid : plan.idAt nd.index = nd.id := by
      rw [CompiledPlan.idAt, CompiledPlan.getNode, hi]
      rfl
    rw [hout, ← hid, hacc.count_id hnil hids (Option.isSome_iff_exists.2 ⟨nd, hi⟩) hbody]
    exact List.nodup_iff_count_le_one.1 hacc.once _
  · exact hsoFar.onThreads i c o he hbody p (hcov [] i c o he rfl hbody p hin).1 hin
  · rw [hout, hacc.executionOrder, hnil, List.nil_append] at hid
    obtain ⟨k, hk, rfl⟩ := List.mem_map.1 hid
    obtain ⟨nd, hnd⟩ := Option.isSome_iff_exists.1 (hacc.known k hk)
    exact ⟨nd, List.mem_of_getElem? hnd, by rw [CompiledPlan.idAt, hnd]; rfl⟩

def Segment.completedOrder (seg : Segment) : Option (List Text) :=
  match seg.result with
  | .ok (.completed r) => some r.executionOrder
  | .ok (.paused _) | .error _ => none

theorem Segment.completed_of_order {seg : Segment} {ids : List Text} (h : seg.completedOrder = some ids) :
    ∃ r, seg.result = .ok (.completed r) ∧ r.executionOrder = ids := by
  obtain ⟨result, log⟩ := seg
  rcases result with e | ⟨r | cp⟩
  · cases h
  · exact ⟨r, rfl, Option.some.inj h⟩
  · cases h

/-- Two PARALLELs: `n1` is run first, and `n0` has its branch in its own. -/
def sharedBranch : ExecutionPlan := ExecutionPlan.new
  [⟨"n0", .parallel, [], none, none, none⟩,
   ⟨"n1", .parallel, [], none, none, none⟩,
   ⟨"n2", .input, [⟨"name", .string "x"⟩], none, some 0, none⟩,
   ⟨"n3", .calc, [⟨"expr", .string "2"⟩], none, some 0, none⟩,
   ⟨"n4", .act, [⟨"type", .string "return"⟩], none, none, none⟩]
  [Edge.new "n0" "n2", Edge.new "n1" "n3", Edge.new "n2" "n3", Edge.new "n3" "n4"]

/-- The threads of both run `n3`: the second PARALLEL takes it back into its own branch. -/
theorem executed_twice : ¬∀ (p : ExecutionPlan) (opts : List Text), validate p = .ok () → p.ids.Nodup →
    ∀ (l : List Event) (result : ExecutionResult), HasRun (.fromExecutionPlan p opts) l (.completed result) →
      ∀ nd ∈ (CompiledPlan.fromExecutionPlan p opts).nodes,
        (CompiledPlan.fromExecutionPlan p opts).inBody nd.index = false → result.executionOrder.count nd.id ≤ 1 := by
  intro h
  have horder : (execute (Executor.of (.fromExecutionPlan sharedBranch [])) (inputsOf [])).completedOrder =
      some (["n1", "n3", "n0", "n2", "n3", "n4"] : List Text) := by decide +kernel
  obtain ⟨result, hresult, hids⟩ := Segment.completed_of_order horder
  have honce := h sharedBranch [] rfl (by decide +kernel) _ result (.executed hresult)
  rw [hids] at honce
  have htwice : (CompiledPlan.fromExecutionPlan sharedBranch []).nodes.all (fun nd =>
      (CompiledPlan.fromExecutionPlan sharedBranch []).inBody nd.index ||
        decide ((["n1", "n3", "n0", "n2", "n3", "n4"] : List Text).count nd.id ≤ 1)) = true := by
    rw [List.all_eq_true]
    intro nd hnd
    cases hbody : (CompiledPlan.fromExecutionPlan sharedBranch []).inBody nd.index with
    | true => rfl
    | false => exact decide_eq_true (honce nd hnd hbody)
  exact absurd htwice (by decide +kernel)

/-- Two branches, paused behind the PARALLEL and resumed. -/
theorem executed_once_twoBranches : ∃ l out, HasRun (.fromExecutionPlan twoBranches []) l out ∧
    out.executionOrder = (["n0", "n1", "n2"] : List Text) ∧
      ∀ nd ∈ (CompiledPlan.fromExecutionPlan twoBranches []).nodes,
        (CompiledPlan.fromExecutionPlan twoBranches []).inBody nd.index = false →
          out.executionOrder.count nd.id ≤ 1 := by
  have hpaused : ((executeWith (Executor.of (.fromExecutionPlan twoBranches [])) (inputsOf [])
      ⟨none, some ["n0"]⟩).checkpoint.bind fun cp =>
        (resume (Executor.of (.fromExecutionPlan twoBranches [])) cp .default).completedOrder) =
          some (["n0", "n1", "n2"] : List Text) := by decide +kernel
  have hcovered : ∀ cp ∈ (executeWith (Executor.of (.fromExecutionPlan twoBranches [])) (inputsOf [])
      ⟨none, some ["n0"]⟩).checkpoint, (CompiledPlan.fromExecutionPlan twoBranches []).CoveredLog
        ((executeWith (Executor.of (.fromExecutionPlan twoBranches [])) (inputsOf []) ⟨none, some ["n0"]⟩).log ++
          (resume (Executor.of (.fromExecutionPlan twoBranches [])) cp .default).log) := by decide +kernel
  obtain ⟨cp, hcp, horder⟩ := Option.bind_eq_some_iff.1 hpaused
  obtain ⟨r, hr, hids⟩ := Segment.completed_of_order horder
  have hrun := HasRun.resumed (.executed (Segment.checkpoint_eq_some.1 hcp)) hr
  have hwf : (CompiledPlan.fromExecutionPlan twoBranches []).WellFormed := ⟨
    CompiledPlan.fromExecutionPlan_index _ _, by decide +kernel⟩
  exact ⟨_, _, hrun, hids, (executed_once hwf (by decide +kernel) hrun (hcovered cp hcp)).1⟩

end Tinypipe
