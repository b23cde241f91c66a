import Tinypipe.Vm.Frame
import Tinypipe.Vm.Order

/-! What a run logs. An arm logs dispatches, writes and at most one decision, of its own
node; a property of logs that the node steps have, and that is kept when logs of different
steps are put together, is one of the log of every run. -/

namespace Tinypipe

open Lib Lib.Stateful

/-! ### The events of one arm -/

/-- A dispatch or a write. -/
def Quiet : Event → Prop
  | .node _ _ _ _ | .iteration _ _ _ _ _ | .decided _ _ _ => False
  | .dispatch _ | .write _ _ => True

/-- The log grows by a part with a property, and no node is counted. -/
structure ArmStep (P : List Event → Prop) (s t : ExecState) : Prop where
  log : Extends ExecState.log P s t
  count : t.nodeCount = s.nodeCount

instance (P : List Event → Prop) [Concat P] : Std.Refl (ArmStep P) :=
  ⟨fun s => ⟨refl_of (Extends ExecState.log P) s, rfl⟩⟩

instance (P : List Event → Prop) [Concat P] : IsTrans ExecState (ArmStep P) :=
  ⟨fun _ _ _ h h' => ⟨trans_of (Extends ExecState.log P) h.log h'.log, h'.count.trans h.count⟩⟩

abbrev ArmLog : ExecState → ExecState → Prop := ArmStep fun l => ∀ e ∈ l, Quiet e

/-- Quiet but for one decision of node `i`, if any. -/
def StepLog (v : List Frame) (i : Nat) (l : List Event) : Prop :=
  (∀ e ∈ l, Quiet e) ∨ ∃ l₁ b l₂, l = l₁ ++ .decided v i b :: l₂ ∧ (∀ e ∈ l₁, Quiet e) ∧
    ∀ e ∈ l₂, Quiet e

/-- A relation that holds across the assignments of an arm, its writes and its dispatches
holds across the arm. -/
structure ArmLaws (R : ExecState → ExecState → Prop) : Prop where
  silent : ∀ s t, t.ctx = s.ctx → t.log = s.log → t.nodeCount = s.nodeCount → R s t
  write : ∀ s k v, R s { s with ctx := s.ctx.set k v, log := s.log ++ [.write k v] }
  dispatch : ∀ s d, R s { s with log := s.log ++ [.dispatch d] }

namespace ArmLaws

variable {R : ExecState → ExecState → Prop} (h : ArmLaws R) {ex : Executor} {visit : List Frame}
  {nd : CompiledNode}

include h

theorem modify {f : ExecState → ExecState} (hf : ∀ s, (f s).ctx = s.ctx ∧ (f s).log = s.log ∧
    (f s).nodeCount = s.nodeCount) : Steps R (modify f : M Unit) :=
  Steps.modify fun s => h.silent s (f s) (hf s).1 (hf s).2.1 (hf s).2.2

theorem setVar (k : Text) (v : Value) : Steps R (setVar k v) := Steps.modify fun s => h.write s k v

theorem note (d : Dispatch) : Steps R (note (.dispatch d)) := Steps.modify fun s => h.dispatch s d

theorem insertOutput (i : Nat) (v : Value) : Steps R (insertOutput i v) :=
  h.modify fun _ => ⟨rfl, rfl, rfl⟩

theorem enable (i : Nat) : Steps R (enable i) := h.modify fun _ => ⟨rfl, rfl, rfl⟩

theorem satisfyControl (i : Nat) : Steps R (satisfyControl i) := h.modify fun _ => ⟨rfl, rfl, rfl⟩

variable [Std.Refl R] [IsTrans ExecState R]

omit h [IsTrans ExecState R] in
theorem failIf (c : Prop) [Decidable c] (e : ExecutionError) : Steps R (failIf c e) :=
  Steps.ite (Steps.throw _) (Steps.pure _)

omit h [IsTrans ExecState R] in
theorem eval (text : Text) : Steps R (eval text) := by
  refine Steps.get_bind fun s => ?_
  split
  · exact Steps.pure _
  · exact Steps.throw _

theorem setVars : ∀ es, Steps R (setVars es)
  | [] => Steps.pure _
  | (k, v) :: es => Steps.bind (h.setVar k v) fun _ => setVars es

omit [IsTrans ExecState R] in
theorem writeOutput (name : Option Text) (v : Value) : Steps R (writeOutput name v) := by
  cases name with
  | none => exact Steps.pure _
  | some k => exact h.setVar k v

omit [IsTrans ExecState R] in
theorem copyVar (a b : Text) : Steps R (copyVar a b) := by
  refine Steps.get_bind fun s => ?_
  split
  · exact h.setVar _ _
  · exact Steps.pure _

theorem applyPairs : ∀ ps, Steps R (applyPairs ps)
  | [] => Steps.pure _
  | (a, b) :: ps => Steps.bind (h.copyVar a b) fun _ => applyPairs ps

theorem applyMapping (m : Option (List (Text × Text))) : Steps R (applyMapping m) :=
  h.applyPairs _

omit h in
theorem edgeFires (plan : CompiledPlan) (e : CompiledEdge) : Steps R (edgeFires nd plan e) := by
  have heval : ∀ c, Steps R (do return isTruthy (← Tinypipe.eval c) : M Bool) :=
    fun c => Steps.bind (eval c) fun _ => Steps.pure _
  unfold Tinypipe.edgeFires
  split
  · exact Steps.pure _
  · refine Steps.get_bind fun s => ?_
    split
    · exact Steps.ite (Steps.pure _) (heval _)
    · exact heval _

theorem followEdge (b : Bool) (e : CompiledEdge) : Steps R (followEdge b e) :=
  Steps.ite (Steps.bind (h.applyMapping _) fun _ => h.enable _) (Steps.pure _)

theorem propagate (plan : CompiledPlan) : Steps R (propagate plan nd) := by
  refine Steps.ite (Steps.forM (fun e => Steps.ite ?_ ?_) _) (Steps.pure _)
  · exact Steps.bind (h.satisfyControl _) fun _ => h.enable _
  · exact Steps.bind (edgeFires plan e) fun b => h.followEdge b e

theorem armCalc : Steps R (armCalc nd) := by
  refine Steps.bind (eval _) fun v => Steps.bind (h.insertOutput _ _) fun _ => ?_
  split
  · exact h.setVar _ _
  · exact Steps.pure _

theorem callSubgraph (name : Text) (params : Dict Text Value) (out : Option Text) :
    Steps R (callSubgraph ex nd name params out) := by
  refine Steps.get_bind fun s => Steps.bind (failIf _ _) fun _ =>
    Steps.bind (h.note _) fun _ => ?_
  split
  · exact Steps.throw _
  · exact Steps.bind (h.setVars _) fun _ => Steps.bind (h.writeOutput _ _)
      fun _ => h.insertOutput _ _

theorem dispatchCall (call : CallTarget) : Steps R (dispatchCall ex call) :=
  Steps.get_bind fun _ => Steps.bind (h.note _) fun _ => Steps.pure _

theorem record (out : Option Text) (i : Nat) (v : Value) :
    Steps R (do Tinypipe.writeOutput out v; Tinypipe.insertOutput i v : M Unit) :=
  Steps.bind (h.writeOutput _ _) fun _ => h.insertOutput _ _

theorem armCall : Steps R (armCall ex nd) := by
  refine Steps.get_bind fun s => Steps.ite (h.callSubgraph _ _ _) (Steps.bind ?_ fun _ =>
    Steps.bind (h.dispatchCall _) fun r => ?_)
  · unfold checkSchemaDrift
    split
    · exact Steps.throw _
    · exact Steps.pure _
  · split
    · exact h.record _ _ _
    · split
      · exact h.record _ _ _
      · exact Steps.throw _

theorem switchEdges (source : Text) : ∀ (matched : Bool) (es : List CompiledEdge),
    Steps R (switchEdges source matched es)
  | _, [] => Steps.pure _
  | _, _ :: es => Steps.bind (h.followEdge _ _) fun _ => switchEdges source _ es

omit [IsTrans ExecState R] in
theorem readVar (i : Nat) (name : Text) : Steps R (readVar i name) := by
  refine Steps.get_bind fun s => ?_
  split
  · exact h.insertOutput _ _
  · exact Steps.pure _

/-- The arms that neither log a decision nor merge scopes. -/
theorem nodeArm (hd : nd.op ≠ .decide) (hm : nd.op ≠ .merge) : Steps R (nodeArm ex visit nd) := by
  unfold Tinypipe.nodeArm
  split
  · refine Steps.get_bind fun s => ?_
    split
    · exact h.insertOutput _ _
    · exact h.insertOutput _ _
    · exact Steps.pure _
  · exact h.armCalc
  · exact h.armCall
  case h_4 hop => exact absurd hop hd
  · refine Steps.bind (h.insertOutput _ _) fun _ => Steps.ite ?_ (Steps.pure _)
    exact Steps.get_bind fun s => Steps.bind (h.modify fun _ => ⟨rfl, rfl, rfl⟩)
      fun _ => h.insertOutput _ _
  · exact Steps.get_bind fun s => Steps.bind (h.switchEdges _ _ _) fun _ => h.insertOutput _ _
  · exact Steps.bind (failIf _ _) fun _ => h.insertOutput _ _
  case h_8 hop => exact absurd hop hm
  · exact Steps.throw _
  · exact Steps.pure _
  · exact Steps.pure _

/-- The arms of a loop body that log no decision. -/
theorem bodyArm (hd : nd.op ≠ .decide) : Steps R (bodyArm ex visit nd) := by
  have next : ∀ {x : M Unit} (b : BodyFlow), Steps R x → Steps R (do x; pure b : M BodyFlow) :=
    fun b hx => Steps.bind hx fun _ => Steps.pure b
  unfold Tinypipe.bodyArm
  split
  · exact next _ h.armCalc
  · refine Steps.get_bind fun s => Steps.ite (next _ (h.callSubgraph _ _ _))
      (Steps.bind (h.dispatchCall _) fun r => ?_)
    split
    · exact Steps.bind (h.writeOutput _ _) fun _ => next _ (h.insertOutput _ _)
    · exact Steps.throw _
  case h_3 hop => exact absurd hop hd
  · exact next _ (h.readVar _ _)
  · refine Steps.ite ?_ (Steps.ite (Steps.pure _) (Steps.ite (Steps.pure _)
      (next _ (h.insertOutput _ _))))
    exact Steps.get_bind fun s => next _ (h.insertOutput _ _)
  all_goals exact next _ (h.insertOutput _ _)

omit h [IsTrans ExecState R] in
theorem evalCondition : Steps R (evalCondition nd) := by
  unfold Tinypipe.evalCondition
  split
  · exact Steps.map (eval _) _
  · exact Steps.pure _

theorem finishLoop {bodies : List (Nat × Finset Nat)} : Steps R (finishLoop ex bodies nd) := by
  refine Steps.bind ?_ fun _ => Steps.bind ?_ fun _ => Steps.bind (h.insertOutput _ _)
    fun _ => Steps.pure _
  · refine Steps.get_bind fun s => Steps.ite ?_ (Steps.pure _)
    refine Steps.bind (Steps.forM (fun nd' => ?_) _) fun _ => Steps.forM (fun nd' => ?_) _
    · refine Steps.get_bind fun s => Steps.ite ?_ (Steps.pure _)
      split
      · split
        · exact h.insertOutput _ _
        · exact Steps.pure _
      · exact Steps.pure _
    · exact Steps.get_bind fun s => Steps.ite (Steps.ite (h.enable _) (Steps.pure _))
        (Steps.pure _)
  · refine Steps.forM (fun e => Steps.ite (Steps.pure _) (Steps.bind ?_ fun _ => h.enable _)) _
    exact Steps.ite (h.satisfyControl _) (h.applyMapping _)

end ArmLaws

section Arms

variable {ex : Executor} {visit : List Frame} {nd : CompiledNode}

theorem armLog : ArmLaws ArmLog where
  silent := fun _ _ _ hlog hcount => ⟨Extends.same hlog, hcount⟩
  write := fun _ k v => ⟨⟨[.write k v], rfl, by simp [Quiet]⟩, rfl⟩
  dispatch := fun _ d => ⟨⟨[.dispatch d], rfl, by simp [Quiet]⟩, rfl⟩

theorem armLog_same {f : ExecState → ExecState}
    (h : ∀ s, (f s).log = s.log ∧ (f s).nodeCount = s.nodeCount) :
    Steps ArmLog (modify f : M Unit) :=
  Steps.modify fun s => ⟨Extends.same (h s).1, (h s).2⟩

theorem StepLog.quiet_append {v : List Frame} {i : Nat} {l l' : List Event} (h : ∀ e ∈ l, Quiet e)
    (h' : StepLog v i l') : StepLog v i (l ++ l') := by
  rcases h' with h' | ⟨l₁, b, l₂, rfl, h₁, h₂⟩
  · exact Or.inl fun e he => (List.mem_append.1 he).elim (h e) (h' e)
  · refine Or.inr ⟨l ++ l₁, b, l₂, by rw [List.append_assoc], fun e he => ?_, h₂⟩
    exact (List.mem_append.1 he).elim (h e) (h₁ e)

theorem StepLog.append_quiet {v : List Frame} {i : Nat} {l l' : List Event} (h : StepLog v i l)
    (h' : ∀ e ∈ l', Quiet e) : StepLog v i (l ++ l') := by
  rcases h with h | ⟨l₁, b, l₂, rfl, h₁, h₂⟩
  · exact Or.inl fun e he => (List.mem_append.1 he).elim (h e) (h' e)
  · refine Or.inr ⟨l₁, b, l₂ ++ l', by simp, h₁, fun e he => ?_⟩
    exact (List.mem_append.1 he).elim (h₂ e) (h' e)

theorem armLog_step {v : List Frame} {i : Nat} {α : Type} {x : M α} (hx : Steps ArmLog x) :
    Steps (ArmStep (StepLog v i)) x :=
  hx.mono fun _ _ h => ⟨h.log.mono fun _ => Or.inl, h.count⟩

theorem stepLog_after {v : List Frame} {i : Nat} {α β : Type} {x : M α} {f : α → M β}
    (hx : Steps (ArmStep (StepLog v i)) x) (hf : ∀ a, Steps ArmLog (f a)) :
    Steps (ArmStep (StepLog v i)) (x >>= f) :=
  Steps.seq (fun _ _ h => h) (fun _ _ _ h h' => ⟨h.log.append h'.log fun _ _ =>
    StepLog.append_quiet, h'.count.trans h.count⟩) hx hf

theorem stepLog_before {v : List Frame} {i : Nat} {α β : Type} {x : M α} {f : α → M β}
    (hx : Steps ArmLog x) (hf : ∀ a, Steps (ArmStep (StepLog v i)) (f a)) :
    Steps (ArmStep (StepLog v i)) (x >>= f) :=
  Steps.seq (fun _ _ h => ⟨h.log.mono fun _ => Or.inl, h.count⟩) (fun _ _ _ h h' =>
    ⟨h.log.append h'.log fun _ _ => StepLog.quiet_append, h'.count.trans h.count⟩) hx hf

theorem decided_stepLog (b : Bool) : Steps (ArmStep (StepLog visit nd.index))
    (note (.decided visit nd.index b)) :=
  Steps.modify fun _ => ⟨⟨_, rfl, Or.inr ⟨[], b, [], rfl, by simp, by simp⟩⟩, rfl⟩

theorem nodeArm_stepLog :
    Steps (ArmStep (StepLog visit nd.index)) (nodeArm ex visit nd) := by
  by_cases hd : nd.op = .decide
  · simp only [nodeArm, hd]
    exact Steps.get_bind fun s => stepLog_before (armLog.insertOutput _ _) fun _ =>
      decided_stepLog _
  by_cases hm : nd.op = .merge
  · simp only [nodeArm, hm]
    exact armLog_step (Steps.bind (armLog_same fun _ => ⟨rfl, rfl⟩) fun _ =>
      Steps.get_bind fun s => armLog.insertOutput _ _)
  · exact armLog_step (armLog.nodeArm hd hm)

theorem bodyArm_stepLog :
    Steps (ArmStep (StepLog visit nd.index)) (bodyArm ex visit nd) := by
  by_cases hd : nd.op = .decide
  · simp only [bodyArm, hd]
    exact stepLog_before ArmLaws.evalCondition fun b => stepLog_before (armLog.insertOutput _ _)
      fun _ => stepLog_after (decided_stepLog _) fun _ => Steps.pure _
  · exact armLog_step (armLog.bodyArm hd)

end Arms

/-! ### One step -/

section Step

variable {ex : Executor} {visit : List Frame} {nd : CompiledNode}

theorem countNode_log (plan : CompiledPlan) (s : ExecState) :
    (∃ t, countNode plan s = .ok () t ∧ t.log = s.log ∧ t.nodeOutputs = s.nodeOutputs ∧
        t.nodeCount = s.nodeCount + 1 ∧ t.nodeCount ≤ plan.metadata.maxNodeExecutionCount) ∨
      ∃ e t, countNode plan s = .error e t ∧ t.log = s.log := by
  simp only [countNode, modify_bind, get_bind, failIf]
  split
  · exact Or.inr ⟨_, _, rfl, rfl⟩
  case isFalse hle => exact Or.inl ⟨_, rfl, rfl, rfl, rfl, Nat.not_lt.1 hle⟩

theorem checkMemory_cases (plan : CompiledPlan) (s : ExecState) :
    checkMemory plan s = .ok () s ∨ ∃ e, checkMemory plan s = .error e s := by
  simp only [checkMemory, get_bind, failIf]
  split
  · exact Or.inr ⟨_, rfl⟩
  · exact Or.inl rfl

/-- A node is logged with the outputs its checks saw. -/
theorem enterNode_log (s : ExecState) :
    (∃ t, enterNode ex visit nd s = .ok () t ∧
        t.log = s.log ++ [.node visit nd.index t.ctx s.nodeOutputs] ∧
        t.nodeOutputs = s.nodeOutputs ∧ t.nodeCount = s.nodeCount + 1 ∧
        t.nodeCount ≤ ex.plan.metadata.maxNodeExecutionCount) ∨
      ∃ e t, enterNode ex visit nd s = .error e t ∧ t.log = s.log := by
  simp only [enterNode]
  rcases countNode_log ex.plan s with ⟨t, hc, hlog, hout, hcount, hle⟩ | ⟨e, t, hc, hlog⟩
  · rw [bind_of_ok _ hc]
    rcases checkMemory_cases ex.plan t with hm | ⟨e, hm⟩
    · rw [bind_of_ok _ hm, modify_bind, noteNode, modify_apply]
      refine Or.inl ⟨_, rfl, ?_, hout, hcount, hle⟩
      simp only [hlog, hout]
    · exact Or.inr ⟨e, t, bind_of_error _ hm, hlog⟩
  · exact Or.inr ⟨e, t, bind_of_error _ hc, hlog⟩

end Step

/-! ### Whole runs -/

/-- All node steps are in a visit or deeper. -/
def WithinVisit (v : List Frame) (l : List Event) : Prop :=
  ∀ w i c o, Event.node w i c o ∈ l → v <+: w

theorem WithinVisit.append {v : List Frame} {l l' : List Event} (h : WithinVisit v l)
    (h' : WithinVisit v l') : WithinVisit v (l ++ l') := fun w i c o he =>
  (List.mem_append.1 he).elim (h w i c o) (h' w i c o)

theorem joinThreads_log (before : Nat → Nat) (threads : List (Nat × ExecState)) :
    ∀ s, (joinThreads before threads s).log = s.log := by
  induction threads with
  | nil => exact fun _ => rfl
  | cons t ts ih => exact fun s => ih (mergeThread before t.1 t.2 s)

theorem joinThreads_count (before : Nat → Nat) :
    ∀ (threads : List (Nat × ExecState)) (s : ExecState),
      (joinThreads before threads s).nodeCount = s.nodeCount + (threads.map (·.2.nodeCount)).sum
  | [], _ => rfl
  | t :: threads, s => by
    rw [joinThreads, List.foldl_cons, ← joinThreads, joinThreads_count before threads, List.map_cons,
      List.sum_cons, ← Nat.add_assoc]
    rfl

theorem collectThreads_eq_ok : ∀ {results : List (Nat × EStateM.Result ExecutionError ExecState Unit)}
    {threads : List (Nat × ExecState)}, collectThreads results = .ok threads →
      results = threads.map fun t => (t.1, .ok () t.2)
  | [], _, h => by
    cases h
    rfl
  | (_, .error _ _) :: _, _, h => by cases h
  | (b, .ok _ t) :: rest, threads, h => by
    cases hc : collectThreads rest with
    | error e =>
      rw [collectThreads, hc] at h
      cases h
    | ok ts =>
      rw [collectThreads, hc] at h
      cases h
      rw [List.map_cons, ← collectThreads_eq_ok hc]

theorem ok_of_collectThreads {results : List (Nat × EStateM.Result ExecutionError ExecState Unit)}
    {threads : List (Nat × ExecState)} (h : collectThreads results = .ok threads) :
    ∀ r ∈ results, ∃ t, r.2 = .ok () t := by
  rw [collectThreads_eq_ok h]
  intro r hr
  obtain ⟨t, -, rfl⟩ := List.mem_map.1 hr
  exact ⟨t.2, rfl⟩

theorem branchIds_nodup (plan : CompiledPlan) (order : List Nat) (region : Finset Nat) :
    (branchIds plan order region).Nodup :=
  (List.perm_insertionSort _ _).nodup_iff.2 (List.nodup_dedup _)

/-- A step of a run: the visit and the node. -/
abbrev Key := List Frame × Nat

def stepKeys (l : List Event) : List Key := l.filterMap fun
  | .node v i _ _ => some (v, i)
  | _ => none

theorem mem_stepKeys {l : List Event} {k : Key} :
    k ∈ stepKeys l ↔ ∃ c o, .node k.1 k.2 c o ∈ l := by
  constructor
  · intro h
    obtain ⟨e, he, hk⟩ := List.mem_filterMap.1 h
    cases e with
    | node v i c o =>
      cases hk
      exact ⟨c, o, he⟩
    | iteration v loop i c o => cases hk
    | decided v i b => cases hk
    | dispatch d => cases hk
    | write x y => cases hk
  · rintro ⟨c, o, h⟩
    exact List.mem_filterMap.2 ⟨_, h, rfl⟩

theorem StepLog.not_node {v : List Frame} {i : Nat} {l : List Event} (h : StepLog v i l) :
    ∀ w j c o, .node w j c o ∉ l := by
  intro w j c o he
  rcases h with h | ⟨l₁, b, l₂, rfl, h₁, h₂⟩
  · exact h _ he
  · rcases List.mem_append.1 he with he | he
    · exact h₁ _ he
    · rcases List.mem_cons.1 he with he | he
      · cases he
      · exact h₂ _ he

def Frame.index : Frame → Nat
  | .branch p _ => p
  | .iteration loop _ => loop

/-- The steps node `i` makes in deeper visits. -/
def Inside (v : List Frame) (i : Nat) : Set Key := fun k => ∃ f : Frame, f.index = i ∧ (v ++ [f]) <+: k.1

/-- The step of node `i` in a visit and the steps inside it. -/
def Below (v : List Frame) (i : Nat) : Set Key := fun k => k = (v, i) ∨ k ∈ Inside v i

theorem notMem_inside (v : List Frame) (i j : Nat) : (v, i) ∉ Inside v j := by
  rintro ⟨f, -, h⟩
  have := h.length_le
  simp at this

/-- Different nodes of one visit make different steps. -/
theorem below_index_eq {v : List Frame} {i j : Nat} {k : Key} (h : k ∈ Below v i)
    (h' : k ∈ Below v j) : i = j := by
  rcases h with rfl | ⟨f, rfl, hf⟩
  · rcases h' with h' | h'
    · exact (Prod.mk.inj h').2
    · exact absurd h' (notMem_inside v i j)
  · rcases h' with rfl | ⟨g, rfl, hg⟩
    · exact absurd ⟨f, rfl, hf⟩ (notMem_inside v j f.index)
    · have heq : v ++ [f] = v ++ [g] := by
        have hlen : (v ++ [f]).length = (v ++ [g]).length := by simp
        exact List.IsPrefix.eq_of_length (List.prefix_of_prefix_length_le hf hg hlen.le) hlen
      have := List.append_cancel_left heq
      simp only [List.cons.injEq, and_true] at this
      rw [this]

/-- Two properties of what is logged in a visit, for a normal end and for an error, that
the steps of a run have and that the ways a run is put together keep. -/
structure TraceLogic (plan : CompiledPlan) (ok err : List Frame → List Event → Prop) : Prop where
  quiet : ∀ v l, (∀ e ∈ l, Quiet e) → ok v l
  /-- the two parts make different steps -/
  append : ∀ v l l', ok v l → ok v l' → (stepKeys l).Disjoint (stepKeys l') → ok v (l ++ l')
  append_err : ∀ v l l', ok v l → err v l' → (stepKeys l).Disjoint (stepKeys l') → err v (l ++ l')
  to_err : ∀ v l, ok v l → err v l
  /-- an ERROR node only goes on in a loop body -/
  node : ∀ v nd ctx outs l, plan.getNode nd.index = some nd →
    branchMismatch plan outs nd.op nd.index = false →
    (nd.op = .error → ∃ v' loop i, v = v' ++ [.iteration loop i]) →
    StepLog v nd.index l → ok v (.node v nd.index ctx outs :: l)
  error : ∀ v nd ctx outs, plan.getNode nd.index = some nd →
    branchMismatch plan outs nd.op nd.index = false → err v [.node v nd.index ctx outs]
  iteration : ∀ v loop i ctx outs, ok v [.iteration v loop i ctx outs]
  iteration_ok : ∀ v loop i l, ok (v ++ [.iteration loop i]) l → ok v l
  iteration_err : ∀ v loop i l, err (v ++ [.iteration loop i]) l → err v l
  threads_ok : ∀ v p (threads : List (Nat × List Event)), (threads.map Prod.fst).Nodup →
    (∀ t ∈ threads, ∀ k ∈ stepKeys t.2, (v ++ [.branch p t.1]) <+: k.1) →
    (∀ t ∈ threads, ok (v ++ [.branch p t.1]) t.2) → ok v (threads.flatMap Prod.snd)
  threads_err : ∀ v p (threads : List (Nat × List Event)), (threads.map Prod.fst).Nodup →
    (∀ t ∈ threads, ∀ k ∈ stepKeys t.2, (v ++ [.branch p t.1]) <+: k.1) →
    (∀ t ∈ threads, err (v ++ [.branch p t.1]) t.2) → err v (threads.flatMap Prod.snd)

/-- A log with a property, all of whose steps are among `K`. -/
def LogIn (P : List Event → Prop) (K : Set Key) (l : List Event) : Prop :=
  P l ∧ ∀ k ∈ stepKeys l, k ∈ K

/-- A computation in a visit logs what `ok` and `err` say, and only steps of `K`. -/
abbrev Logs (ok err : List Frame → List Event → Prop) (v : List Frame) (K : Set Key) {α : Type}
    (x : M α) : Prop :=
  Ends (Extends ExecState.log (LogIn (ok v) K)) (Extends ExecState.log (LogIn (err v) K)) x

theorem LogIn.mono {P Q : List Event → Prop} {K L : Set Key} {l : List Event} (h : LogIn P K l)
    (hPQ : ∀ l, P l → Q l) (hKL : K ⊆ L) : LogIn Q L l :=
  ⟨hPQ l h.1, fun k hk => hKL (h.2 k hk)⟩

theorem LogIn.append {P Q R : List Event → Prop} {K K' L : Set Key} {l l' : List Event}
    (h : LogIn P K l) (h' : LogIn Q K' l')
    (hPQ : P l → Q l' → (stepKeys l).Disjoint (stepKeys l') → R (l ++ l'))
    (hK : K ⊆ L) (hK' : K' ⊆ L) (hd : Disjoint K K') : LogIn R L (l ++ l') := by
  refine ⟨hPQ h.1 h'.1 fun k hk hk' => ?_, fun k hk => ?_⟩
  · exact Set.disjoint_left.1 hd (h.2 k hk) (h'.2 k hk')
  · rw [stepKeys, List.filterMap_append] at hk
    exact (List.mem_append.1 hk).elim (fun hk => hK (h.2 k hk)) fun hk => hK' (h'.2 k hk)

theorem logIn_quiet {P : List Event → Prop} {l : List Event} (K : Set Key) (hP : P l)
    (h : ∀ e ∈ l, Quiet e) : LogIn P K l := by
  refine ⟨hP, fun k hk => ?_⟩
  obtain ⟨c, o, he⟩ := mem_stepKeys.1 hk
  exact absurd (h _ he) id

namespace TraceLogic

variable {ex : Executor} {ok err : List Frame → List Event → Prop}
  (h : TraceLogic ex.plan ok err) {α β : Type} {v : List Frame} {K K' L : Set Key}

include h

theorem bind (K K' : Set Key) {x : M α} {f : α → M β} (hK : K ⊆ L) (hK' : K' ⊆ L) (hd : Disjoint K K')
    (hx : Logs ok err v K x) (hf : ∀ a, Logs ok err v K' (f a)) : Logs ok err v L (x >>= f) :=
  Ends.seq (fun _ _ _ hst htu => hst.append htu fun l l' hl hl' =>
      hl.append hl' (h.append v l l') hK hK' hd)
    (fun _ _ hst => hst.mono fun _ hl => hl.mono (fun _ => id) hK)
    (fun _ _ _ hst htu => hst.append htu fun l l' hl hl' =>
      hl.append hl' (h.append_err v l l') hK hK' hd) hx hf

theorem quietly {x : M α} (hx : Steps ArmLog x) : Logs ok err v K x :=
  hx.ends (fun _ _ hst => hst.log.mono fun l hl => logIn_quiet K (h.quiet v l hl) hl)
    fun _ _ hst => hst.log.mono fun l hl => logIn_quiet K (h.to_err v l (h.quiet v l hl)) hl

theorem quietly_bind {x : M α} {f : α → M β} (hx : Steps ArmLog x)
    (hf : ∀ a, Logs ok err v K (f a)) : Logs ok err v K (x >>= f) :=
  h.bind ∅ K (Set.empty_subset K) subset_rfl (Set.empty_disjoint K) (h.quietly hx) hf

theorem bind_quietly {x : M α} {f : α → M β} (hx : Logs ok err v K x)
    (hf : ∀ a, Steps ArmLog (f a)) : Logs ok err v K (x >>= f) :=
  h.bind K ∅ subset_rfl (Set.empty_subset K) (Set.disjoint_empty K) hx fun a => h.quietly (hf a)

theorem pure (a : α) : Logs ok err v K (Pure.pure a : M α) := h.quietly (Steps.pure a)

theorem throw (e : ExecutionError) : Logs ok err v K (MonadExcept.throw e : M α) :=
  h.quietly (Steps.throw e)

theorem noteIteration (loop i start : Nat) : Logs ok err v K (noteIteration v loop i start) := by
  refine Steps.ends (R := Extends ExecState.log (LogIn (ok v) K)) (Steps.modify fun s => ?_)
    (fun _ _ hst => hst) fun _ _ hst => hst.mono fun _ hl => hl.mono (h.to_err v) subset_rfl
  split
  · exact ⟨_, rfl, h.iteration v loop i s.ctx s.nodeOutputs, by simp [stepKeys]⟩
  · exact ⟨[], by simp, h.quiet v [] (by simp), by simp [stepKeys]⟩

theorem failed {x : M α} {s t : ExecState} {e : ExecutionError} (hx : x s = .error e t)
    (hlog : t.log = s.log) :
    (∃ a u, x s = .ok a u ∧ Extends ExecState.log (LogIn (ok v) K) s u) ∨
      ∃ e u, x s = .error e u ∧ Extends ExecState.log (LogIn (err v) K) s u :=
  Or.inr ⟨e, t, hx, [], by rw [hlog, List.append_nil],
    logIn_quiet K (h.to_err v _ (h.quiet v [] (by simp))) (by simp)⟩

omit h in
theorem logs_mono {x : M α} (hK : K ⊆ L) (hx : Logs ok err v K x) : Logs ok err v L x :=
  hx.mono (fun _ _ hst => hst.mono fun _ hl => hl.mono (fun _ => id) hK)
    fun _ _ hst => hst.mono fun _ hl => hl.mono (fun _ => id) hK

/-- The steps of an arm behind the entry of its node. -/
theorem arm {nd : CompiledNode} {ctx : Context} {outs : Nat → Option Value} {x : M α}
    (hnd : ex.plan.getNode nd.index = some nd)
    (hgate : branchMismatch ex.plan outs nd.op nd.index = false)
    (herr : nd.op = .error → ∃ v' loop i, v = v' ++ [.iteration loop i])
    (hkey : (v, nd.index) ∈ K) (hx : Steps (ArmStep (StepLog v nd.index)) x)
    {s t : ExecState} (hlog : t.log = s.log ++ [.node v nd.index ctx outs]) :
    (∃ a u, x t = .ok a u ∧ Extends ExecState.log (LogIn (ok v) K) s u) ∨
      ∃ e u, x t = .error e u ∧ Extends ExecState.log (LogIn (err v) K) s u := by
  have step : ∀ u, Extends ExecState.log (StepLog v nd.index) t u →
      Extends ExecState.log (LogIn (ok v) K) s u := by
    rintro u ⟨l, hl, hE⟩
    refine ⟨.node v nd.index ctx outs :: l, ?_, h.node v nd ctx outs l hnd hgate herr hE,
      fun ⟨w, j⟩ hk => ?_⟩
    · rw [hl, hlog, List.append_assoc, List.singleton_append]
    · obtain ⟨c, o, he⟩ := mem_stepKeys.1 hk
      rcases List.mem_cons.1 he with he | he
      · cases he
        exact hkey
      · exact absurd he (hE.not_node _ _ _ _)
  cases hr : x t with
  | ok a u => exact Or.inl ⟨a, u, rfl, step u (hx.ok hr).log⟩
  | error e u =>
    exact Or.inr ⟨e, u, rfl, (step u (hx.error hr).log).mono fun _ hl =>
      hl.mono (h.to_err v) subset_rfl⟩

section Body

variable (hindex : ∀ i nd, ex.plan.getNode i = some nd → nd.index = i) {loop i : Nat}
  {pause : Option PausePolicy}

include hindex

theorem bodyNode (w : List Frame) (hw : w = v ++ [.iteration loop i]) (idx : Nat) :
    Logs ok err w {(w, idx)} (bodyNode ex w idx) := by
  unfold Tinypipe.bodyNode
  split
  · exact h.throw _
  case h_2 nd hnd =>
    have hidx : nd.index = idx := hindex idx nd hnd
    intro s
    rw [Stateful.get_bind]
    by_cases hgate : branchMismatch ex.plan s.nodeOutputs nd.op idx = true
    · rw [if_pos hgate]
      exact h.pure _ s
    rw [if_neg hgate]
    rcases countNode_log ex.plan s with ⟨t, hc, hlog, hout, -⟩ | ⟨e, t, hc, hlog⟩
    · rw [bind_of_ok _ hc, noteNode, modify_bind]
      have hgate' : branchMismatch ex.plan s.nodeOutputs nd.op nd.index = false := by
        rw [hidx]
        exact Bool.eq_false_iff.2 hgate
      have hlog' : t.log ++ [.node w nd.index t.ctx t.nodeOutputs] =
          s.log ++ [.node w nd.index t.ctx s.nodeOutputs] := by
        rw [hlog, hout]
      exact h.arm (hidx ▸ hnd) hgate' (fun _ => ⟨v, loop, i, hw⟩)
        (by rw [hidx]; exact Set.mem_singleton _)
        (stepLog_after bodyArm_stepLog fun _ => Steps.pure _) hlog'
    · exact h.failed (bind_of_error _ hc) hlog

theorem runBody (w : List Frame) (hw : w = v ++ [.iteration loop i]) :
    ∀ (nodes : List Nat), nodes.Nodup → ∀ position : Nat,
      Logs ok err w {k | k.1 = w ∧ k.2 ∈ nodes} (runBody ex w pause position nodes)
  | [], _, _ => h.pure _
  | idx :: rest, hnd, position => by
    rw [List.nodup_cons] at hnd
    have hrest : ∀ position, Logs ok err w {k | k.1 = w ∧ k.2 ∈ rest}
        (Tinypipe.runBody ex w pause position rest) := runBody w hw rest hnd.2
    refine h.bind {(w, idx)} {k | k.1 = w ∧ k.2 ∈ rest} ?_ ?_ ?_
      (h.bodyNode hindex w hw idx) fun r => ?_
    · rintro k rfl
      exact ⟨rfl, List.mem_cons_self⟩
    · exact fun k hk => ⟨hk.1, List.mem_cons_of_mem _ hk.2⟩
    · refine Set.disjoint_left.2 ?_
      rintro k rfl hk
      exact hnd.1 hk.2
    · split
      · exact hrest _
      · exact hrest _
      · exact h.pure _
      · exact h.pure _
      · exact Ends.get_bind fun s => Ends.ite (h.pure _) (hrest _)

omit i in
theorem runIterations (target : Option Text) (body : List Nat) (hbody : body.Nodup) :
    ∀ remaining iteration start,
      Logs ok err v {k | ∃ j, iteration ≤ j ∧ k.1 = v ++ [.iteration loop j]}
        (runIterations ex v pause loop target body remaining iteration start)
  | 0, _, _ => h.pure _
  | remaining + 1, iteration, start => by
    refine h.quietly_bind (armLog.writeOutput _ _) fun _ => ?_
    refine h.bind ∅ _ (Set.empty_subset _) subset_rfl (Set.empty_disjoint _)
      (h.noteIteration _ _ _) fun _ => ?_
    refine h.bind {k | k.1 = v ++ [.iteration loop iteration]}
      {k | ∃ j, iteration + 1 ≤ j ∧ k.1 = v ++ [.iteration loop j]} ?_ ?_ ?_ ?_ fun r => ?_
    · exact fun k hk => ⟨iteration, le_rfl, hk⟩
    · rintro k ⟨j, hj, hk⟩
      exact ⟨j, by omega, hk⟩
    · refine Set.disjoint_left.2 ?_
      rintro k hk ⟨j, hj, hk'⟩
      have heq := hk.symm.trans hk'
      simp only [List.append_cancel_left_eq, List.cons.injEq, Frame.iteration.injEq, true_and,
        and_true] at heq
      omega
    · have hb : Logs ok err (v ++ [.iteration loop iteration])
          {k | k.1 = v ++ [.iteration loop iteration] ∧ k.2 ∈ body.drop start}
          (Tinypipe.runBody ex (v ++ [.iteration loop iteration]) pause start (body.drop start)) :=
        h.runBody hindex (v ++ [.iteration loop iteration]) rfl _
          (hbody.sublist (List.drop_sublist _ _)) start
      exact (logs_mono (fun k hk => hk.1) hb).mono
        (fun _ _ hst => hst.mono fun l hl => hl.mono (h.iteration_ok v loop iteration) subset_rfl)
        fun _ _ hst => hst.mono fun l hl => hl.mono (h.iteration_err v loop iteration) subset_rfl
    · split
      · exact runIterations target body hbody remaining _ _
      · exact h.pure _
      · exact h.pure _

end Body

section Node

variable (hindex : ∀ i nd, ex.plan.getNode i = some nd → nd.index = i) {order : List Nat}
  (horder : order.Nodup) {bodies : List (Nat × Finset Nat)}

include hindex

include horder in
theorem runLoop (pause : Option PausePolicy) (cursor : Nat × Nat) (nd : CompiledNode) :
    Logs ok err v (Inside v nd.index) (runLoop ex order bodies v pause cursor nd) := by
  refine Ends.get_bind fun s => Ends.ite (h.quietly armLog.finishLoop) ?_
  refine h.quietly_bind (armLog_same fun _ => ⟨rfl, rfl⟩) fun _ =>
    h.bind_quietly (logs_mono ?_ (h.runIterations hindex _ _ (horder.filter _) _ _ _)) fun r => ?_
  · rintro k ⟨j, -, hk⟩
    exact ⟨.iteration nd.index j, rfl, hk ▸ List.prefix_rfl⟩
  · split
    · exact Steps.pure _
    · exact armLog.finishLoop

omit hindex in
/-- Steps of different nodes of a visit, one behind the other. -/
theorem nodes_bind {x : M α} {f : α → M β} {idx : Nat} {rest : List Nat} (hnd : idx ∉ rest)
    (hx : Logs ok err v (Below v idx) x)
    (hf : ∀ a, Logs ok err v {k | ∃ i ∈ rest, k ∈ Below v i} (f a)) :
    Logs ok err v {k | ∃ i ∈ idx :: rest, k ∈ Below v i} (x >>= f) := by
  refine h.bind _ _ ?_ ?_ ?_ hx hf
  · exact fun k hk => ⟨idx, List.mem_cons_self, hk⟩
  · rintro k ⟨i, hi, hk⟩
    exact ⟨i, List.mem_cons_of_mem _ hi, hk⟩
  · refine Set.disjoint_left.2 ?_
    rintro k hk ⟨i, hi, hk'⟩
    rw [below_index_eq hk hk'] at hnd
    exact hnd hi

theorem runGroup {runNode : CompiledNode → M NodeOutcome}
    (hrun : ∀ nd, ex.plan.getNode nd.index = some nd →
      Logs ok err v (Below v nd.index) (runNode nd)) :
    ∀ nodes : List Nat, nodes.Nodup →
      Logs ok err v {k | ∃ i ∈ nodes, k ∈ Below v i} (runGroup runNode ex.plan nodes)
  | [], _ => h.pure _
  | idx :: rest, hnodup => by
    rw [List.nodup_cons] at hnodup
    unfold Tinypipe.runGroup
    split
    · exact h.throw _
    case h_2 nd hnd =>
      have hidx : nd.index = idx := hindex idx nd hnd
      have hx := hrun nd (hidx ▸ hnd)
      rw [hidx] at hx
      exact h.nodes_bind hnodup.1 hx fun _ => runGroup hrun rest hnodup.2

/-- The branches of a PARALLEL: their logs, put together. -/
theorem threads {runNode : List Frame → CompiledNode → M NodeOutcome}
    (hrun : ∀ v nd, ex.plan.getNode nd.index = some nd →
      Logs ok err v (Below v nd.index) (runNode v nd))
    (p : Nat) {bids : List Nat} (hbids : bids.Nodup) (group : Nat → List Nat)
    (hgroup : ∀ b, (group b).Nodup) (start : Nat → ExecState) (hstart : ∀ b, (start b).log = [])
    (s u : ExecState)
    (hu : u.log = s.log ++ (bids.map fun b => (b,
      Tinypipe.runGroup (runNode (v ++ [.branch p b])) ex.plan (group b) (start b))).flatMap
        fun r => threadLog r.2) (before : Nat → Nat) :
    (∃ a t, (match collectThreads (bids.map fun b => (b,
        Tinypipe.runGroup (runNode (v ++ [.branch p b])) ex.plan (group b) (start b))) with
      | .error e => MonadExcept.throw e
      | .ok threads => modify (joinThreads before threads) : M Unit) u = .ok a t ∧
        Extends ExecState.log (LogIn (ok v) (Inside v p)) s t) ∨
      ∃ e t, (match collectThreads (bids.map fun b => (b,
        Tinypipe.runGroup (runNode (v ++ [.branch p b])) ex.plan (group b) (start b))) with
      | .error e => MonadExcept.throw e
      | .ok threads => modify (joinThreads before threads) : M Unit) u = .error e t ∧
        Extends ExecState.log (LogIn (err v) (Inside v p)) s t := by
  generalize hres : (bids.map fun b => (b,
    Tinypipe.runGroup (runNode (v ++ [.branch p b])) ex.plan (group b) (start b))) = results at hu ⊢
  have hlogs : ∀ r ∈ results, (∀ t, r.2 = .ok () t → ok (v ++ [.branch p r.1]) (threadLog r.2)) ∧
      err (v ++ [.branch p r.1]) (threadLog r.2) ∧
      ∀ k ∈ stepKeys (threadLog r.2), (v ++ [.branch p r.1]) <+: k.1 := by
    intro r hr
    rw [← hres] at hr
    obtain ⟨b, -, rfl⟩ := List.mem_map.1 hr
    have hbelow : {k : Key | ∃ i ∈ group b, k ∈ Below (v ++ [.branch p b]) i} ⊆
        {k | (v ++ [.branch p b]) <+: k.1} := by
      rintro k ⟨i, -, rfl | ⟨f, -, hf⟩⟩
      · exact List.prefix_rfl
      · exact (List.prefix_append _ _).trans hf
    rcases logs_mono hbelow (h.runGroup hindex (hrun (v ++ [.branch p b])) (group b) (hgroup b))
      (start b) with ⟨a, t, hok, l, hl, hP⟩ | ⟨e, t, herr, l, hl, hP⟩
    · rw [hstart, List.nil_append] at hl
      have hlog : threadLog (Tinypipe.runGroup (runNode (v ++ [.branch p b])) ex.plan (group b)
          (start b)) = l := by rw [hok]; exact hl
      simp only [hlog]
      exact ⟨fun _ _ => hP.1, h.to_err _ _ hP.1, hP.2⟩
    · rw [hstart, List.nil_append] at hl
      have hlog : threadLog (Tinypipe.runGroup (runNode (v ++ [.branch p b])) ex.plan (group b)
          (start b)) = l := by rw [herr]; exact hl
      simp only [hlog]
      refine ⟨fun t ht => ?_, hP⟩
      rw [herr] at ht
      cases ht
  have hflat : (results.map fun r => (r.1, threadLog r.2)).flatMap Prod.snd =
      results.flatMap fun r => threadLog r.2 := by
    rw [List.flatMap_map]
  have hnodup : ((results.map fun r => (r.1, threadLog r.2)).map Prod.fst).Nodup := by
    rw [← hres, List.map_map, List.map_map]
    simpa [Function.comp_def] using hbids
  have hkeys : ∀ t ∈ results.map fun r => (r.1, threadLog r.2), ∀ k ∈ stepKeys t.2,
      (v ++ [.branch p t.1]) <+: k.1 := by
    intro t ht
    obtain ⟨r, hr, rfl⟩ := List.mem_map.1 ht
    exact (hlogs r hr).2.2
  have hinside : ∀ k ∈ stepKeys (results.flatMap fun r => threadLog r.2), k ∈ Inside v p := by
    intro k hk
    obtain ⟨c, o, he⟩ := mem_stepKeys.1 hk
    obtain ⟨r, hr, he⟩ := List.mem_flatMap.1 he
    exact ⟨.branch p r.1, rfl, (hlogs r hr).2.2 k (mem_stepKeys.2 ⟨c, o, he⟩)⟩
  rw [← hflat] at hu hinside
  cases hc : collectThreads results with
  | ok threads =>
    refine Or.inl ⟨(), _, rfl, _, (joinThreads_log before threads u).trans hu, ?_, hinside⟩
    refine h.threads_ok v p _ hnodup hkeys fun t ht => ?_
    obtain ⟨r, hr, rfl⟩ := List.mem_map.1 ht
    obtain ⟨t, ht⟩ := ok_of_collectThreads hc r hr
    exact (hlogs r hr).1 t ht
  | error e =>
    refine Or.inr ⟨e, u, rfl, _, hu, h.threads_err v p _ hnodup hkeys fun t ht => ?_, hinside⟩
    obtain ⟨r, hr, rfl⟩ := List.mem_map.1 ht
    exact (hlogs r hr).2.1

include horder

theorem armParallel {runNode : List Frame → CompiledNode → M NodeOutcome}
    (hrun : ∀ v nd, ex.plan.getNode nd.index = some nd →
      Logs ok err v (Below v nd.index) (runNode v nd))
    (nd : CompiledNode) :
    Logs ok err v (Inside v nd.index) (armParallel ex order runNode v nd) := by
  refine h.quietly_bind (armLog_same fun _ => ⟨rfl, rfl⟩) fun _ => h.quietly_bind ?_ fun _ =>
    h.quietly_bind (armLog.insertOutput _ _) fun _ => Ends.ite (h.pure _) ?_
  · exact Steps.forM (fun e => Steps.bind (armLog.applyMapping _) fun _ => armLog.enable _) _
  · refine h.quietly_bind (armLog_same fun _ => ⟨rfl, rfl⟩) fun _ => Ends.get_bind fun s u => ?_
    exact h.threads hindex hrun nd.index (branchIds_nodup _ _ _) _ (fun b => horder.filter _) _
      (fun _ => rfl) u _ rfl _

theorem runArm {runNode : List Frame → CompiledNode → M NodeOutcome}
    (hrun : ∀ v nd, ex.plan.getNode nd.index = some nd →
      Logs ok err v (Below v nd.index) (runNode v nd))
    (pause : Option PausePolicy) {nd : CompiledNode} (hnd : ex.plan.getNode nd.index = some nd)
    {ctx : Context} {outs : Nat → Option Value}
    (hgate : branchMismatch ex.plan outs nd.op nd.index = false) {s t : ExecState}
    (hlog : t.log = s.log ++ [.node v nd.index ctx outs]) :
    (∃ a u, runArm ex order bodies runNode v pause nd t = .ok a u ∧
        Extends ExecState.log (LogIn (ok v) (Below v nd.index)) s u) ∨
      ∃ e u, runArm ex order bodies runNode v pause nd t = .error e u ∧
        Extends ExecState.log (LogIn (err v) (Below v nd.index)) s u := by
  have hself : ∀ l, StepLog v nd.index l →
      ∀ k ∈ stepKeys (.node v nd.index ctx outs :: l), k ∈ ({(v, nd.index)} : Set Key) := by
    rintro l hl ⟨w, j⟩ hk
    obtain ⟨c, o, he⟩ := mem_stepKeys.1 hk
    rcases List.mem_cons.1 he with he | he
    · cases he
      rfl
    · exact absurd he (hl.not_node _ _ _ _)
  have hsub : ({(v, nd.index)} : Set Key) ⊆ Below v nd.index := by
    rintro k rfl
    exact Or.inl rfl
  have hd : Disjoint ({(v, nd.index)} : Set Key) (Inside v nd.index) := by
    refine Set.disjoint_left.2 ?_
    rintro k rfl hk
    exact notMem_inside _ _ _ hk
  -- behind the logged node, whatever keeps to `ok` and `err` in deeper visits does
  have after : nd.op ≠ .error → ∀ {α : Type} {x : M α}, Logs ok err v (Inside v nd.index) x →
      (∃ a u, x t = .ok a u ∧ Extends ExecState.log (LogIn (ok v) (Below v nd.index)) s u) ∨
        ∃ e u, x t = .error e u ∧
          Extends ExecState.log (LogIn (err v) (Below v nd.index)) s u := by
    intro hop α x hx
    have hnode : Extends ExecState.log (LogIn (ok v) {(v, nd.index)}) s t :=
      ⟨_, hlog, h.node v nd ctx outs [] hnd hgate (fun he => absurd he hop) (Or.inl (by simp)),
        hself [] (Or.inl (by simp))⟩
    rcases hx t with ⟨a, u, hr, hl⟩ | ⟨e, u, hr, hl⟩
    · exact Or.inl ⟨a, u, hr, hnode.append hl fun l l' hl hl' =>
        hl.append hl' (h.append v l l') hsub (fun _ => Or.inr) hd⟩
    · exact Or.inr ⟨e, u, hr, hnode.append hl fun l l' hl hl' =>
        hl.append hl' (h.append_err v l l') hsub (fun _ => Or.inr) hd⟩
  have simple : nd.op ≠ .error →
      (∃ a u, (do nodeArm ex v nd; propagate ex.plan nd; Pure.pure .ok : M NodeOutcome) t =
        .ok a u ∧ Extends ExecState.log (LogIn (ok v) (Below v nd.index)) s u) ∨
      ∃ e u, (do nodeArm ex v nd; propagate ex.plan nd; Pure.pure .ok : M NodeOutcome) t =
        .error e u ∧ Extends ExecState.log (LogIn (err v) (Below v nd.index)) s u := fun hop =>
    h.arm hnd hgate (fun he => absurd he hop) (Or.inl rfl) (stepLog_after nodeArm_stepLog fun _ =>
      Steps.bind (armLog.propagate _) fun _ => Steps.pure _) hlog
  unfold Tinypipe.runArm
  match hop : nd.op with
  | .loop => exact after (by simp [hop]) (h.runLoop hindex horder pause (0, 0) nd)
  | .parallel =>
    exact after (by simp [hop])
      (h.bind_quietly (h.armParallel hindex horder hrun nd) fun _ => Steps.pure _)
  | .error =>
    have harm : nodeArm ex v nd t =
        .error (.custom (((nd.arg "message").map trimQuotes).getD "execution error")) t := by
      simp only [nodeArm, hop]
      rfl
    exact Or.inr ⟨_, t, bind_of_error _ harm, _, hlog, h.error v nd ctx outs hnd hgate,
      fun k hk => hsub (hself [] (Or.inl (by simp)) k hk)⟩
  | .input | .call | .calc | .decide | .act | .switch | .wait | .merge => exact simple (by simp [hop])

theorem runNode : ∀ (fuel : Nat) (v : List Frame) (pause : Option PausePolicy) (nd : CompiledNode),
    ex.plan.getNode nd.index = some nd →
      Logs ok err v (Below v nd.index) (runNode ex order bodies fuel v pause nd)
  | 0, _, _, _, _ => h.throw _
  | fuel + 1, v, pause, nd, hnd => by
    intro s
    rw [Tinypipe.runNode, runNodeWith, Stateful.get_bind]
    by_cases hready : ready ex.plan bodies s nd = true
    · rw [if_pos hready]
      have hgate : branchMismatch ex.plan s.nodeOutputs nd.op nd.index = false := by
        simp only [ready, Bool.and_eq_true, Bool.not_eq_true'] at hready
        exact hready.1.1.2
      rcases enterNode_log s with ⟨t, he, hlog, -⟩ | ⟨e, t, he, hlog⟩
      · rw [bind_of_ok _ he]
        exact h.runArm hindex horder (fun v nd hnd => runNode fuel v none nd hnd) pause hnd hgate
          hlog
      · exact h.failed (bind_of_error _ he) hlog
    · rw [if_neg hready]
      exact h.pure _ s

theorem mainPass (policy : PausePolicy) : ∀ nodes : List Nat, nodes.Nodup → ∀ position : Nat,
    Logs ok err [] {k | ∃ i ∈ nodes, k ∈ Below [] i} (mainPass ex order policy nodes position)
  | [], _, _ => h.pure _
  | idx :: rest, hnodup, position => by
    rw [List.nodup_cons] at hnodup
    unfold Tinypipe.mainPass
    split
    · exact h.throw _
    case h_2 nd hnd =>
      have hidx : nd.index = idx := hindex idx nd hnd
      have hx : Logs ok err [] (Below [] nd.index) (Tinypipe.runNode ex order
          ex.plan.identifyLoopBodies (ex.plan.nodes.length + 1) [] (some policy) nd) :=
        h.runNode hindex horder _ [] _ nd (hidx ▸ hnd)
      rw [hidx] at hx
      refine h.nodes_bind hnodup.1 hx fun r => ?_
      split
      · exact h.pure _
      · exact Ends.get_bind fun s => Ends.ite (h.pure _) (mainPass policy rest hnodup.2 _)

end Node

/-- The log of an uninterrupted run. -/
theorem execute (hindex : ∀ i nd, ex.plan.getNode i = some nd → nd.index = i) (inputs : Context) :
    (∃ r, (execute ex inputs).result = .ok r ∧ ok [] (execute ex inputs).log) ∨
      ∃ e, (execute ex inputs).result = .error e ∧ err [] (execute ex inputs).log := by
  have hnil : err [] [] := h.to_err _ _ (h.quiet _ _ (by simp))
  unfold Tinypipe.execute executeWith
  split
  · exact Or.inr ⟨_, rfl, hnil⟩
  · split
    · exact Or.inr ⟨_, rfl, hnil⟩
    case h_2 order horder =>
      have hnodup : order.Nodup := (CompiledPlan.order_perm horder).nodup_iff.2 List.nodup_range
      rcases h.mainPass hindex hnodup .default order hnodup 0 (initialState ex inputs) with
        ⟨a, t, hr, l, hl, hP⟩ | ⟨e, t, hr, l, hl, hP⟩
      · obtain rfl : t.log = l := hl
        rw [hr]
        match a with
        | .completed => exact Or.inl ⟨_, rfl, hP.1⟩
        | .paused p ls => exact Or.inl ⟨_, rfl, hP.1⟩
      · obtain rfl : t.log = l := hl
        rw [hr]
        exact Or.inr ⟨e, rfl, hP.1⟩

end TraceLogic

end Tinypipe
