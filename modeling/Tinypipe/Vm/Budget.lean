import Tinypipe.Vm.PausedRun
import Tinypipe.Vm.Trace

/-! The node budget. `run_node` and the loop body check the counter at each node; a branch
thread checks a counter of its own, and an iteration that runs no node checks nothing. -/

namespace Tinypipe

open Lib Lib.Stateful

/-! ### Counting a log -/

def Event.isNode : Event → Bool
  | .node _ _ _ _ => true
  | .iteration _ _ _ _ _ | .decided _ _ _ | .dispatch _ | .write _ _ => false

def Event.isIteration : Event → Bool
  | .iteration _ _ _ _ _ => true
  | .node _ _ _ _ | .decided _ _ _ | .dispatch _ | .write _ _ => false

/-- A node step in a branch thread of node `i`. -/
def Event.inBranch (v : List Frame) (i : Nat) : Event → Bool
  | .node w _ _ _ => v.isPrefixOf w && match w[v.length]? with
    | some (.branch p _) => p == i
    | _ => false
  | .iteration _ _ _ _ _ | .decided _ _ _ | .dispatch _ | .write _ _ => false

def steps (l : List Event) : Nat := l.countP Event.isNode

def iterations (l : List Event) : Nat := l.countP Event.isIteration

def branchSteps (v : List Frame) (i : Nat) (l : List Event) : Nat := l.countP (Event.inBranch v i)

/-- A node that the branch gate of the loop body lets pass. -/
def isOpen (plan : CompiledPlan) (outputs : Nat → Option Value) (idx : Nat) : Bool :=
  match plan.getNode idx with
  | some nd => !branchMismatch plan outputs nd.op idx
  | none => false

/-- A LOOP whose body has a node to run. -/
def hasOpenNode (plan : CompiledPlan) (loop : Nat) (outputs : Nat → Option Value) : Bool :=
  (List.range plan.nodes.length).any fun idx =>
    decide (idx ∈ plan.loopBody loop) && isOpen plan outputs idx

/-- An iteration that runs a node. -/
def Event.productive (plan : CompiledPlan) : Event → Bool
  | .iteration _ loop _ _ outputs => hasOpenNode plan loop outputs
  | .node _ _ _ _ | .decided _ _ _ | .dispatch _ | .write _ _ => true

/-- A step's branch threads, taken together, keep to what is left of the budget after
`count` steps. -/
def Event.leavesRoom (plan : CompiledPlan) (v : List Frame) (count : Nat) (rest : List Event) :
    Event → Bool
  | .node w i _ _ => w != v || branchSteps v i rest == 0 ||
    decide (count + 1 + branchSteps v i rest ≤ plan.metadata.maxNodeExecutionCount)
  | .iteration _ _ _ _ _ | .decided _ _ _ | .dispatch _ | .write _ _ => true

/-- The steps of a visit leave room. -/
def leavesRoom (plan : CompiledPlan) (v : List Frame) : Nat → List Event → Bool
  | _, [] => true
  | count, e :: rest => e.leavesRoom plan v count rest &&
    leavesRoom plan v (count + if e.isNode then 1 else 0) rest

@[simp] theorem steps_nil : steps [] = 0 := rfl

@[simp] theorem iterations_nil : iterations [] = 0 := rfl

@[simp] theorem steps_append (l l' : List Event) : steps (l ++ l') = steps l + steps l' :=
  List.countP_append

@[simp] theorem iterations_append (l l' : List Event) :
    iterations (l ++ l') = iterations l + iterations l' := List.countP_append

@[simp] theorem branchSteps_append (v : List Frame) (i : Nat) (l l' : List Event) :
    branchSteps v i (l ++ l') = branchSteps v i l + branchSteps v i l' := List.countP_append

theorem steps_cons (e : Event) (l : List Event) :
    steps (e :: l) = (if e.isNode then 1 else 0) + steps l := by
  rw [steps, List.countP_cons, Nat.add_comm]
  rfl

theorem iterations_cons (e : Event) (l : List Event) :
    iterations (e :: l) = (if e.isIteration then 1 else 0) + iterations l := by
  rw [iterations, List.countP_cons, Nat.add_comm]
  rfl

theorem leavesRoom_append {plan : CompiledPlan} {v : List Frame} : ∀ {l l' : List Event} {count : Nat},
    leavesRoom plan v count (l ++ l') = true →
      leavesRoom plan v count l = true ∧ leavesRoom plan v (count + steps l) l' = true
  | [], _, _, h => ⟨rfl, h⟩
  | e :: l, l', count, h => by
    rw [List.cons_append, leavesRoom, Bool.and_eq_true] at h
    obtain ⟨hl, hl'⟩ := leavesRoom_append h.2
    rw [steps_cons, ← Nat.add_assoc]
    refine ⟨?_, hl'⟩
    rw [leavesRoom, Bool.and_eq_true]
    refine ⟨?_, hl⟩
    cases e with
    | node w i c o =>
      have := h.1
      simp only [Event.leavesRoom, branchSteps_append, Bool.or_eq_true, bne_iff_ne, ne_eq, beq_iff_eq,
        decide_eq_true_eq] at this ⊢
      rcases this with (hw | hzero) | hle
      · exact Or.inl (Or.inl hw)
      · exact Or.inl (Or.inr (by omega))
      · exact Or.inr (by omega)
    | iteration _ _ _ _ _ => rfl
    | decided _ _ _ => rfl
    | dispatch _ => rfl
    | write _ _ => rfl

/-! ### What a computation spends -/

/-- Steps behind `base` others: `a` more of them than iterations, or at most `b` fewer. -/
structure Spends (plan : CompiledPlan) (v : List Frame) (a b base : Nat) (l : List Event) :
    Prop where
  within : WithinVisit v l
  iterations_le : (∀ e ∈ l, e.productive plan = true) → iterations l + a ≤ steps l + b
  room : base ≤ plan.metadata.maxNodeExecutionCount → leavesRoom plan v base l = true →
    base + steps l ≤ plan.metadata.maxNodeExecutionCount

def Spent (plan : CompiledPlan) (v : List Frame) (a : Nat) (s t : ExecState) : Prop :=
  ∃ l, t.log = s.log ++ l ∧ t.nodeCount = s.nodeCount + steps l ∧
    Spends plan v a 0 s.nodeCount l

def Failed (plan : CompiledPlan) (v : List Frame) (b : Nat) (s t : ExecState) : Prop :=
  ∃ l, t.log = s.log ++ l ∧ Spends plan v 0 b s.nodeCount l

/-- The iterations are paid for by the steps, with `a` to spare at a normal end and `b`
short at an error. -/
abbrev Tallies (plan : CompiledPlan) (v : List Frame) {α : Type} (a : α → Nat) (b : Nat)
    (x : M α) : Prop := EndsAs (fun r => Spent plan v (a r)) (Failed plan v b) x

section Spends

variable {plan : CompiledPlan} {v : List Frame} {a a' b b' base : Nat} {l l' : List Event}

theorem Spends.nil : Spends plan v 0 b base [] :=
  ⟨by simp [WithinVisit], by simp, fun h _ => h⟩

theorem Spends.append {a₂ b₂ : Nat} (h : Spends plan v a b base l)
    (h' : Spends plan v a' b' (base + steps l) l') (hle : a₂ + (b + b') ≤ a + a' + b₂) :
    Spends plan v a₂ b₂ base (l ++ l') := by
  refine ⟨h.within.append h'.within, fun hp => ?_, fun hbase hroom => ?_⟩
  · have := h.iterations_le fun e he => hp e (List.mem_append_left _ he)
    have := h'.iterations_le fun e he => hp e (List.mem_append_right _ he)
    rw [iterations_append, steps_append]
    omega
  · obtain ⟨hl, hl'⟩ := leavesRoom_append hroom
    rw [steps_append, ← Nat.add_assoc]
    exact h'.room (h.room hbase hl) hl'

theorem Spends.mono (h : Spends plan v a b base l) (hle : a' + b ≤ a + b') :
    Spends plan v a' b' base l :=
  ⟨h.within, fun hp => by have := h.iterations_le hp; omega, h.room⟩

/-- Events that are neither steps nor iterations cost nothing. -/
theorem spends_free (h : ∀ e ∈ l, e.isNode = false ∧ e.isIteration = false) :
    steps l = 0 ∧ Spends plan v 0 b base l := by
  have hs : steps l = 0 := List.countP_eq_zero.2 fun e he => by simp [(h e he).1]
  have hi : iterations l = 0 := List.countP_eq_zero.2 fun e he => by simp [(h e he).2]
  refine ⟨hs, fun w i c o he => ?_, fun _ => by omega, fun hbase _ => by omega⟩
  have := (h _ he).1
  simp [Event.isNode] at this

theorem Quiet.free {e : Event} (h : Quiet e) : e.isNode = false ∧ e.isIteration = false := by
  cases e with
  | node _ _ _ _ => exact absurd h id
  | iteration _ _ _ _ _ => exact absurd h id
  | decided _ _ _ => exact absurd h id
  | dispatch _ => exact ⟨rfl, rfl⟩
  | write _ _ => exact ⟨rfl, rfl⟩

theorem StepLog.free {i : Nat} (h : StepLog v i l) :
    ∀ e ∈ l, e.isNode = false ∧ e.isIteration = false := by
  rcases h with h | ⟨l₁, b, l₂, rfl, h₁, h₂⟩
  · exact fun e he => (h e he).free
  · intro e he
    rcases List.mem_append.1 he with he | he
    · exact (h₁ e he).free
    · rcases List.mem_cons.1 he with rfl | he
      · exact ⟨rfl, rfl⟩
      · exact (h₂ e he).free

instance : Std.Refl (Spent plan v 0) :=
  ⟨fun s => ⟨[], by simp, by simp, Spends.nil⟩⟩

instance : Std.Refl (Failed plan v b) := ⟨fun s => ⟨[], by simp, Spends.nil⟩⟩

theorem Spent.mono {s t : ExecState} (h : Spent plan v a s t) (hle : a' ≤ a) :
    Spent plan v a' s t := by
  obtain ⟨l, hl, hc, hs⟩ := h
  exact ⟨l, hl, hc, hs.mono (by omega)⟩

theorem Spent.trans {a₂ : Nat} {s t u : ExecState} (h : Spent plan v a s t)
    (h' : Spent plan v a' t u) (hle : a₂ ≤ a + a') : Spent plan v a₂ s u := by
  obtain ⟨l, hl, hc, hs⟩ := h
  obtain ⟨l', hl', hc', hs'⟩ := h'
  rw [hc] at hs' hc'
  exact ⟨l ++ l', by rw [hl', hl, List.append_assoc], by rw [hc', steps_append]; omega,
    hs.append hs' (by omega)⟩

theorem Spent.failed {s t u : ExecState} (h : Spent plan v a s t) (h' : Failed plan v b t u)
    (hle : b ≤ a + b') : Failed plan v b' s u := by
  obtain ⟨l, hl, hc, hs⟩ := h
  obtain ⟨l', hl', hs'⟩ := h'
  rw [hc] at hs'
  exact ⟨l ++ l', by rw [hl', hl, List.append_assoc], hs.append hs' (by omega)⟩

theorem Failed.mono {s t : ExecState} (h : Failed plan v b s t) (hle : b ≤ b') :
    Failed plan v b' s t := by
  obtain ⟨l, hl, hs⟩ := h
  exact ⟨l, hl, hs.mono (by omega)⟩

theorem Failed.same {s t : ExecState} (h : t.log = s.log) : Failed plan v b s t :=
  ⟨[], by rw [h, List.append_nil], Spends.nil⟩

variable {α β : Type} {x : M α} {f : α → M β}

theorem Tallies.bind {k : α → Nat} {n : β → Nat} {c : Nat}
    (hx : Tallies plan v k c x) (m : α → β → Nat) (k' : α → Nat)
    (hf : ∀ r, Tallies plan v (m r) (k' r) (f r)) (hn : ∀ r r', n r' ≤ k r + m r r')
    (hc : c ≤ b) (hk : ∀ r, k' r ≤ k r + b) : Tallies plan v n b (x >>= f) :=
  EndsAs.seq (fun r r' _ _ _ h h' => h.trans h' (hn r r')) (fun _ _ h => h.mono hc)
    (fun r _ _ _ h h' => h.failed h' (hk r)) hx hf

theorem tallies_arm {P : List Event → Prop}
    (hP : ∀ l, P l → ∀ e ∈ l, e.isNode = false ∧ e.isIteration = false) (hx : Steps (ArmStep P) x) :
    Tallies plan v (fun _ => 0) b x := by
  intro s
  have spent : ∀ t, ArmStep P s t → Spent plan v 0 s t := by
    rintro t ⟨⟨l, hl, hq⟩, hc⟩
    obtain ⟨hs, hsp⟩ : steps l = 0 ∧ Spends plan v 0 0 s.nodeCount l := spends_free (hP l hq)
    exact ⟨l, hl, by omega, hsp⟩
  cases h : x s with
  | ok r t => exact Or.inl ⟨r, t, rfl, spent t (hx.ok h)⟩
  | error e t =>
    obtain ⟨l, hl, -, hs⟩ := spent t (hx.error h)
    exact Or.inr ⟨e, t, rfl, l, hl, hs.mono (by omega)⟩

theorem tallies_quiet (hx : Steps ArmLog x) : Tallies plan v (fun _ => 0) b x :=
  tallies_arm (fun _ hq e he => (hq e he).free) hx

theorem Tallies.quiet_bind {k : β → Nat} (hx : Steps ArmLog x)
    (hf : ∀ r, Tallies plan v k b (f r)) : Tallies plan v k b (x >>= f) :=
  (tallies_quiet hx).bind (fun _ => k) (fun _ => b) hf (by simp) le_rfl (by simp)

end Spends

/-! ### A pass over a loop body -/

section Body

variable {ex : Executor} {w : List Frame} {pause : Option PausePolicy}

/-- Node steps of one visit, each of which has passed the budget check. -/
structure BodySpends (plan : CompiledPlan) (w : List Frame) (base : Nat) (l : List Event) :
    Prop where
  within : WithinVisit w l
  iterations : iterations l = 0
  room : base ≤ plan.metadata.maxNodeExecutionCount →
    base + steps l ≤ plan.metadata.maxNodeExecutionCount

theorem BodySpends.nil {plan : CompiledPlan} {base : Nat} : BodySpends plan w base [] :=
  ⟨by simp [WithinVisit], rfl, id⟩

theorem BodySpends.append {plan : CompiledPlan} {base : Nat} {l l' : List Event}
    (h : BodySpends plan w base l) (h' : BodySpends plan w (base + steps l) l') :
    BodySpends plan w base (l ++ l') := by
  refine ⟨h.within.append h'.within, ?_, fun hbase => ?_⟩
  · rw [iterations_append, h.iterations, h'.iterations]
  · have := h'.room (h.room hbase)
    rw [steps_append]
    omega

/-- A held-back node leaves the state alone; any other is one step. -/
theorem bodyNode_spends (idx : Nat) (s : ExecState) :
    (∃ r t l, bodyNode ex w idx s = .ok r t ∧ t.log = s.log ++ l ∧
        t.nodeCount = s.nodeCount + steps l ∧ BodySpends ex.plan w s.nodeCount l ∧
        (r = none → t = s ∧ isOpen ex.plan s.nodeOutputs idx = false) ∧ (r ≠ none → 0 < steps l)) ∨
      ∃ e t l, bodyNode ex w idx s = .error e t ∧ t.log = s.log ++ l ∧
        BodySpends ex.plan w s.nodeCount l := by
  unfold bodyNode
  cases hnd : ex.plan.getNode idx with
  | none => exact Or.inr ⟨_, s, [], rfl, by simp, .nil⟩
  | some nd =>
    simp only [get_bind]
    by_cases hgate : branchMismatch ex.plan s.nodeOutputs nd.op idx = true
    · rw [if_pos hgate]
      refine Or.inl ⟨none, s, [], rfl, by simp, by simp, .nil, fun _ => ⟨rfl, ?_⟩,
        fun h => absurd rfl h⟩
      simp [isOpen, hnd, hgate]
    rw [if_neg hgate]
    rcases countNode_log ex.plan s with ⟨t, hc, hlog, -, hcount, hle⟩ | ⟨e, t, hc, hlog⟩
    · rw [bind_of_ok _ hc, noteNode, modify_bind]
      generalize ht' : ({ t with
        log := t.log ++ [.node w nd.index t.ctx t.nodeOutputs] } : ExecState) = t'
      have spends : ∀ u, ArmStep (StepLog w nd.index) t' u → ∃ l, u.log = s.log ++ l ∧
          u.nodeCount = s.nodeCount + steps l ∧ BodySpends ex.plan w s.nodeCount l ∧
          0 < steps l := by
        rintro u ⟨⟨l, hl, hq⟩, hu⟩
        obtain ⟨hs, hsp⟩ : steps l = 0 ∧ Spends ex.plan w 0 0 0 l := spends_free hq.free
        have hi : iterations l = 0 :=
          List.countP_eq_zero.2 fun e he => by simp [(hq.free e he).2]
        have hone : steps (.node w nd.index t.ctx t.nodeOutputs :: l) = 1 := by
          rw [steps_cons, hs]
          rfl
        refine ⟨.node w nd.index t.ctx t.nodeOutputs :: l, ?_, ?_, ⟨?_, ?_, fun _ => ?_⟩, ?_⟩
        · rw [hl, ← ht', hlog, List.append_assoc, List.singleton_append]
        · rw [hu, ← ht', hone, hcount]
        · intro w' i c o he
          rcases List.mem_cons.1 he with he | he
          · cases he
            exact List.prefix_rfl
          · exact hsp.within w' i c o he
        · rw [iterations_cons, hi]
          rfl
        · omega
        · omega
      have harm : Steps (ArmStep (StepLog w nd.index)) (do
          let flow ← bodyArm ex w nd
          pure (some (nd, flow)) : M (Option (CompiledNode × BodyFlow))) :=
        stepLog_after bodyArm_stepLog fun _ => Steps.pure _
      cases hr : bodyArm ex w nd t' with
      | ok flow u =>
        obtain ⟨l, hl, hu, hb, hpos⟩ := spends u (bodyArm_stepLog.ok hr)
        exact Or.inl ⟨some (nd, flow), u, l, bind_of_ok _ hr, hl, hu, hb, (by rintro ⟨⟩),
          fun _ => hpos⟩
      | error e u =>
        obtain ⟨l, hl, -, hb, -⟩ := spends u (bodyArm_stepLog.error hr)
        exact Or.inr ⟨e, u, l, bind_of_error _ hr, hl, hb⟩
    · exact Or.inr ⟨e, t, [], bind_of_error _ hc, by rw [hlog, List.append_nil], .nil⟩

/-- A pass that pauses, or that has an open node before it, makes a step. -/
theorem runBody_spends : ∀ (nodes : List Nat) (position : Nat) (s : ExecState),
    (∃ r t l, runBody ex w pause position nodes s = .ok r t ∧ t.log = s.log ++ l ∧
        t.nodeCount = s.nodeCount + steps l ∧ BodySpends ex.plan w s.nodeCount l ∧
        ((∃ idx ∈ nodes, isOpen ex.plan s.nodeOutputs idx = true) → 0 < steps l)) ∨
      ∃ e t l, runBody ex w pause position nodes s = .error e t ∧ t.log = s.log ++ l ∧
        BodySpends ex.plan w s.nodeCount l
  | [], _, s => Or.inl ⟨_, s, [], rfl, by simp, by simp, .nil, by simp⟩
  | idx :: rest, position, s => by
    rcases bodyNode_spends idx s with ⟨r, t, l, hr, hl, hc, hb, hnone, hsome⟩ |
      ⟨e, t, l, hr, hl, hb⟩
    · rw [runBody, bind_of_ok _ hr]
      by_cases hr0 : r = none
      · subst hr0
        obtain ⟨rfl, hclosed⟩ := hnone rfl
        rcases runBody_spends rest (position + 1) t with ⟨r, u, l, hr, hl, hc, hb, hopen⟩ | herr
        · refine Or.inl ⟨r, u, l, hr, hl, hc, hb, ?_⟩
          rintro ⟨i, hi, hio⟩
          rcases List.mem_cons.1 hi with rfl | hi
          · rw [hclosed] at hio
            cases hio
          · exact hopen ⟨i, hi, hio⟩
        · exact Or.inr herr
      · have hpos := hsome hr0
        -- the rest of the pass behind a step
        have onward : ∀ p, (∃ r u l, runBody ex w pause p rest t = .ok r u ∧ u.log = s.log ++ l ∧
              u.nodeCount = s.nodeCount + steps l ∧ BodySpends ex.plan w s.nodeCount l ∧
              ((∃ i ∈ idx :: rest, isOpen ex.plan s.nodeOutputs i = true) → 0 < steps l)) ∨
            ∃ e u l, runBody ex w pause p rest t = .error e u ∧ u.log = s.log ++ l ∧
              BodySpends ex.plan w s.nodeCount l := by
          intro p
          rcases runBody_spends rest p t with ⟨r, u, l', hr, hl', hc', hb', -⟩ |
            ⟨e, u, l', hr, hl', hb'⟩
          · rw [hc] at hb' hc'
            refine Or.inl ⟨r, u, l ++ l', hr, by rw [hl', hl, List.append_assoc], ?_,
              hb.append hb', fun _ => ?_⟩
            · rw [hc', steps_append]
              omega
            · rw [steps_append]
              omega
          · rw [hc] at hb'
            exact Or.inr ⟨e, u, l ++ l', hr, by rw [hl', hl, List.append_assoc], hb.append hb'⟩
        cases r with
        | none => exact absurd rfl hr0
        | some r =>
          obtain ⟨nd, flow⟩ := r
          cases flow with
          | nextUnpaused => exact onward _
          | breakLoop => exact Or.inl ⟨_, t, l, rfl, hl, hc, hb, fun _ => hpos⟩
          | skipRest => exact Or.inl ⟨_, t, l, rfl, hl, hc, hb, fun _ => hpos⟩
          | next =>
            simp only [get_bind]
            split
            · exact Or.inl ⟨_, t, l, rfl, hl, hc, hb, fun _ => hpos⟩
            · exact onward _
    · exact Or.inr ⟨e, t, l, bind_of_error _ hr, hl, hb⟩

variable {v : List Frame} {loop : Nat}

theorem BodySpends.spends {plan : CompiledPlan} {i base : Nat} {l : List Event}
    (h : BodySpends plan (v ++ [.iteration loop i]) base l) : Spends plan v 0 0 base l :=
  ⟨fun w j c o he => (List.prefix_append _ _).trans (h.within w j c o he),
    fun _ => by rw [h.iterations]; omega, fun hbase _ => h.room hbase⟩

/-- An iteration that is started, and its pass over the body. -/
theorem pass_tallies {body : List Nat} {i start : Nat}
    (hbody : ∀ outs, hasOpenNode ex.plan loop outs = true →
      ∃ idx ∈ body, isOpen ex.plan outs idx = true) :
    Tallies ex.plan v (fun _ => 0) 1 (noteIteration v loop i start >>= fun _ =>
      runBody ex (v ++ [.iteration loop i]) pause start (body.drop start)) := by
  intro s
  rw [noteIteration, modify_bind]
  by_cases hstart : start = 0
  · subst hstart
    rw [if_pos rfl, List.drop_zero]
    generalize hs' : ({ s with
      log := s.log ++ [.iteration v loop i s.ctx s.nodeOutputs] } : ExecState) = s'
    have hlog' : s'.log = s.log ++ [.iteration v loop i s.ctx s.nodeOutputs] := by rw [← hs']
    have hcount' : s'.nodeCount = s.nodeCount := by rw [← hs']
    have hout' : s'.nodeOutputs = s.nodeOutputs := by rw [← hs']
    have hcons : ∀ l, steps (.iteration v loop i s.ctx s.nodeOutputs :: l) = steps l ∧
        iterations (.iteration v loop i s.ctx s.nodeOutputs :: l) = 1 + iterations l := fun l =>
      ⟨by rw [steps_cons]; exact Nat.zero_add _, by rw [iterations_cons]; rfl⟩
    have spends : ∀ {l : List Event} (b : Nat), BodySpends ex.plan (v ++ [.iteration loop i])
        s.nodeCount l → (hasOpenNode ex.plan loop s.nodeOutputs = true → 1 ≤ steps l + b) →
        Spends ex.plan v 0 b s.nodeCount (.iteration v loop i s.ctx s.nodeOutputs :: l) := by
      intro l b hb hopen
      refine ⟨fun w j c o he => ?_, fun hp => ?_, fun hbase _ => ?_⟩
      · rcases List.mem_cons.1 he with he | he
        · cases he
        · exact hb.spends.within w j c o he
      · rw [(hcons l).1, (hcons l).2, hb.iterations]
        exact hopen (hp _ List.mem_cons_self)
      · rw [(hcons l).1]
        exact hb.room hbase
    rcases @runBody_spends ex (v ++ [.iteration loop i]) pause body 0 s' with
      ⟨r, t, l, hr, hl, hc, hb, hopen⟩ | ⟨e, t, l, hr, hl, hb⟩
    · rw [hcount'] at hc hb
      rw [hout'] at hopen
      refine Or.inl ⟨r, t, hr, .iteration v loop i s.ctx s.nodeOutputs :: l, ?_, ?_, ?_⟩
      · rw [hl, hlog', List.append_assoc, List.singleton_append]
      · rw [hc, (hcons l).1]
      · exact spends 0 hb fun ho => hopen (hbody _ ho)
    · rw [hcount'] at hb
      refine Or.inr ⟨e, t, hr, .iteration v loop i s.ctx s.nodeOutputs :: l, ?_, ?_⟩
      · rw [hl, hlog', List.append_assoc, List.singleton_append]
      · exact spends 1 hb fun _ => by omega
  · rw [if_neg hstart]
    rcases @runBody_spends ex (v ++ [.iteration loop i]) pause (body.drop start) start s with
      ⟨r, t, l, hr, hl, hc, hb, -⟩ | ⟨e, t, l, hr, hl, hb⟩
    · exact Or.inl ⟨r, t, hr, l, hl, hc, hb.spends⟩
    · exact Or.inr ⟨e, t, hr, l, hl, hb.spends.mono (by omega)⟩

theorem runIterations_tallies {target : Option Text} {body : List Nat}
    (hbody : ∀ outs, hasOpenNode ex.plan loop outs = true →
      ∃ idx ∈ body, isOpen ex.plan outs idx = true) : ∀ remaining i start,
    Tallies ex.plan v (fun _ => 0) 1 (runIterations ex v pause loop target body remaining i start)
  | 0, _, _ => EndsAs.pure
  | remaining + 1, i, start => by
    unfold runIterations
    refine Tallies.quiet_bind (armLog.writeOutput _ _) fun _ => ?_
    rw [← bind_assoc]
    refine (pass_tallies hbody).bind (fun _ _ => 0) (fun _ => 1) (fun r => ?_) (by simp) le_rfl
      (by simp)
    split
    · exact runIterations_tallies hbody remaining _ _
    · exact EndsAs.pure
    · exact EndsAs.pure

end Body

/-! ### Nodes -/

section Node

variable {ex : Executor} {order : List Nat} {bodies : List (Nat × Finset Nat)} {v : List Frame}
  {pause : Option PausePolicy}

/-- A pause in a loop comes behind the step of the LOOP. -/
def NodeOutcome.spare : NodeOutcome → Nat
  | .ok => 0
  | .paused _ => 1

theorem mem_order (horder : ex.plan.topologicalOrder = .ok order) {idx : Nat}
    (h : idx < ex.plan.nodes.length) : idx ∈ order :=
  (CompiledPlan.order_perm horder).mem_iff.2 (List.mem_range.2 h)

theorem runLoop_tallies (horder : ex.plan.topologicalOrder = .ok order) (cursor : Nat × Nat)
    (nd : CompiledNode) :
    Tallies ex.plan v (fun _ => 0) 1 (runLoop ex order bodies v pause cursor nd) := by
  have hbody : ∀ outs, hasOpenNode ex.plan nd.index outs = true →
      ∃ idx ∈ order.filter (· ∈ ex.plan.loopBody nd.index), isOpen ex.plan outs idx = true := by
    intro outs h
    obtain ⟨idx, hidx, ho⟩ := List.any_eq_true.1 h
    simp only [Bool.and_eq_true, decide_eq_true_eq] at ho
    exact ⟨idx, List.mem_filter.2 ⟨mem_order horder (List.mem_range.1 hidx), by simp [ho.1]⟩, ho.2⟩
  refine EndsAs.get_bind fun s => EndsAs.ite (tallies_quiet armLog.finishLoop) ?_
  refine Tallies.quiet_bind (armLog_same fun _ => ⟨rfl, rfl⟩) fun _ => ?_
  refine (runIterations_tallies hbody _ _ _).bind (fun _ _ => 0) (fun _ => 1) (fun r => ?_)
    (by simp) le_rfl (by simp)
  split
  · exact EndsAs.pure
  · exact tallies_quiet armLog.finishLoop

theorem runGroup_tallies {runNode : CompiledNode → M NodeOutcome}
    (hrun : ∀ nd, Tallies ex.plan v NodeOutcome.spare 0 (runNode nd)) : ∀ nodes : List Nat,
    Tallies ex.plan v (fun _ => 0) 0 (runGroup runNode ex.plan nodes)
  | [] => EndsAs.pure
  | idx :: rest => by
    unfold runGroup
    split
    · exact EndsAs.throw _
    · exact (hrun _).bind (fun _ _ => 0) (fun _ => 0) (fun _ => runGroup_tallies hrun rest)
        (by simp) le_rfl (by simp)

/-- All steps are in branch threads of node `i`, and they pay for the iterations. -/
structure ThreadSpends (plan : CompiledPlan) (v : List Frame) (i : Nat) (l : List Event) :
    Prop where
  within : ∀ w j c o, Event.node w j c o ∈ l → ∃ b, (v ++ [.branch i b]) <+: w
  iterations_le : (∀ e ∈ l, e.productive plan = true) → iterations l ≤ steps l

instance (plan : CompiledPlan) (v : List Frame) (i : Nat) : Concat (ThreadSpends plan v i) where
  nil := ⟨by simp, by simp⟩
  append l l' h h' := by
    refine ⟨fun w j c o he => ?_, fun hp => ?_⟩
    · exact (List.mem_append.1 he).elim (h.within w j c o) (h'.within w j c o)
    · have := h.iterations_le fun e he => hp e (List.mem_append_left _ he)
      have := h'.iterations_le fun e he => hp e (List.mem_append_right _ he)
      rw [iterations_append, steps_append]
      omega

theorem ThreadSpends.branchSteps {plan : CompiledPlan} {i : Nat} {l : List Event}
    (h : ThreadSpends plan v i l) : branchSteps v i l = steps l := by
  refine List.countP_congr fun e he => ?_
  cases e with
  | node w j c o =>
    obtain ⟨b, u, rfl⟩ := h.within w j c o he
    simp [Event.inBranch, Event.isNode]
  | iteration _ _ _ _ _ => simp [Event.inBranch, Event.isNode]
  | decided _ _ _ => simp [Event.inBranch, Event.isNode]
  | dispatch _ => simp [Event.inBranch, Event.isNode]
  | write _ _ => simp [Event.inBranch, Event.isNode]

theorem ThreadSpends.flatMap {plan : CompiledPlan} {i : Nat} {α : Type} {f : α → List Event} :
    ∀ {rs : List α}, (∀ r ∈ rs, ThreadSpends plan v i (f r)) → ThreadSpends plan v i (rs.flatMap f)
  | [], _ => Concat.nil
  | r :: _, h => Concat.append _ _ (h r List.mem_cons_self)
      (ThreadSpends.flatMap fun r' hr' => h r' (List.mem_cons_of_mem _ hr'))

/-- What finished threads have counted is what they have logged. -/
theorem collectThreads_count :
    ∀ {results : List (Nat × EStateM.Result ExecutionError ExecState Unit)}
      {threads : List (Nat × ExecState)}, collectThreads results = .ok threads →
      (∀ r ∈ results, ∀ t, r.2 = .ok () t → t.nodeCount = steps t.log) →
      (threads.map (·.2.nodeCount)).sum = steps (results.flatMap fun r => threadLog r.2)
  | [], _, h, _ => by
    cases h
    rfl
  | (_, .error e _) :: _, _, h, _ => by cases h
  | (bid, .ok _ t) :: rest, _, h, hcount => by
    cases hc : collectThreads rest with
    | error e =>
      rw [collectThreads, hc] at h
      cases h
    | ok ts =>
      rw [collectThreads, hc] at h
      cases h
      have ih := collectThreads_count hc fun r hr => hcount r (List.mem_cons_of_mem _ hr)
      have ht : t.nodeCount = steps t.log := hcount (bid, .ok () t) List.mem_cons_self t rfl
      rw [List.map_cons, List.sum_cons, ih, ht, List.flatMap_cons, steps_append]
      rfl

/-- What a PARALLEL logs and counts behind its own step. -/
def ThreadsSpent (plan : CompiledPlan) (v : List Frame) (i : Nat) (s t : ExecState) : Prop :=
  ∃ l, t.log = s.log ++ l ∧ t.nodeCount = s.nodeCount + steps l ∧ ThreadSpends plan v i l

theorem armParallel_spends {runNode : List Frame → CompiledNode → M NodeOutcome}
    (hrun : ∀ v nd, Tallies ex.plan v NodeOutcome.spare 0 (runNode v nd)) (nd : CompiledNode) :
    Ends (ThreadsSpent ex.plan v nd.index) (Extends ExecState.log (ThreadSpends ex.plan v nd.index))
      (armParallel ex order runNode v nd) := by
  have free : ∀ {l}, (∀ e ∈ l, Quiet e) → ThreadSpends ex.plan v nd.index l ∧ steps l = 0 := by
    intro l hq
    obtain ⟨hs, hsp⟩ : steps l = 0 ∧ Spends ex.plan v 0 0 0 l := spends_free fun e he => (hq e he).free
    refine ⟨⟨fun w j c o he => absurd (hq _ he) id, fun hp => ?_⟩, hs⟩
    have := hsp.iterations_le hp
    omega
  have quiet : ∀ {α : Type} {x : M α}, Steps ArmLog x → Ends (ThreadsSpent ex.plan v nd.index)
      (Extends ExecState.log (ThreadSpends ex.plan v nd.index)) x := fun hx =>
    hx.ends (fun s t ⟨⟨l, hl, hq⟩, hc⟩ => ⟨l, hl, by have := (free hq).2; omega, (free hq).1⟩)
      fun s t ⟨⟨l, hl, hq⟩, _⟩ => ⟨l, hl, (free hq).1⟩
  have behind : ∀ {α β : Type} {x : M α} {f : α → M β}, Steps ArmLog x →
      (∀ a, Ends (ThreadsSpent ex.plan v nd.index)
        (Extends ExecState.log (ThreadSpends ex.plan v nd.index)) (f a)) →
      Ends (ThreadsSpent ex.plan v nd.index)
        (Extends ExecState.log (ThreadSpends ex.plan v nd.index)) (x >>= f) := by
    intro α β x f hx hf
    refine Ends.seq ?_ (fun _ _ h => h) ?_ (quiet hx) hf
    · rintro s t u ⟨l, hl, hc, hs⟩ ⟨l', hl', hc', hs'⟩
      refine ⟨l ++ l', by rw [hl', hl, List.append_assoc], ?_, Concat.append _ _ hs hs'⟩
      rw [hc', hc, steps_append, Nat.add_assoc]
    · rintro s t u ⟨l, hl, -, hs⟩ ⟨l', hl', hs'⟩
      exact ⟨l ++ l', by rw [hl', hl, List.append_assoc], Concat.append _ _ hs hs'⟩
  refine behind (armLog_same fun _ => ⟨rfl, rfl⟩) fun _ => behind ?_ fun _ =>
    behind (armLog.insertOutput _ _) fun _ => Ends.ite (quiet (Steps.pure _)) ?_
  · exact Steps.forM (fun e => Steps.bind (armLog.applyMapping _) fun _ => armLog.enable _) _
  refine behind (armLog_same fun _ => ⟨rfl, rfl⟩) fun _ => Ends.get_bind fun s u => ?_
  rw [modify_bind]
  generalize hres : (List.map _ _ : List (Nat × EStateM.Result ExecutionError ExecState Unit)) =
    results
  have hthread : ∀ r ∈ results, ThreadSpends ex.plan v nd.index (threadLog r.2) ∧
      ∀ t, r.2 = .ok () t → t.nodeCount = steps t.log := by
    intro r hr
    rw [← hres] at hr
    obtain ⟨b, -, rfl⟩ := List.mem_map.1 hr
    have ofSpends : ∀ {l}, Spends ex.plan (v ++ [.branch nd.index b]) 0 0 0 l →
        ThreadSpends ex.plan v nd.index l := fun h =>
      ⟨fun w j c o he => ⟨b, h.within w j c o he⟩, h.iterations_le⟩
    rcases runGroup_tallies (hrun (v ++ [.branch nd.index b])) (branchGroup ex.plan order
      (ex.plan.collectReachableIndices ((ex.plan.edgesFrom nd.index).map CompiledEdge.toIndex)) b)
      (threadState s ((ex.plan.edgesFrom nd.index).map CompiledEdge.toIndex) (branchGroup ex.plan
        order (ex.plan.collectReachableIndices
          ((ex.plan.edgesFrom nd.index).map CompiledEdge.toIndex)) b)) with
      ⟨a, t, hr, l, hl, hc, hs⟩ | ⟨e, t, hr, l, hl, hs⟩
    · obtain rfl : t.log = l := hl
      simp only [hr]
      refine ⟨ofSpends hs, fun t' ht' => ?_⟩
      cases ht'
      rw [hc]
      exact Nat.zero_add _
    · obtain rfl : t.log = l := hl
      simp only [hr]
      exact ⟨ofSpends hs, by rintro t' ⟨⟩⟩
  have hflat := ThreadSpends.flatMap fun r hr => (hthread r hr).1
  cases hc : collectThreads results with
  | ok threads =>
    refine Or.inl ⟨(), _, rfl, _, joinThreads_log _ threads _, ?_, hflat⟩
    rw [joinThreads_count, collectThreads_count hc fun r hr => (hthread r hr).2]
  | error e => exact Or.inr ⟨e, _, rfl, _, rfl, hflat⟩

theorem enterNode_spends (nd : CompiledNode) :
    Tallies ex.plan v (fun _ => 1) 0 (enterNode ex v nd) := by
  intro s
  rcases enterNode_log s with ⟨t, he, hlog, -, hcount, hle⟩ | ⟨e, t, he, hlog⟩
  · refine Or.inl ⟨(), t, he, _, hlog, hcount, fun w j c o hm => ?_, fun _ => ?_, fun _ _ => ?_⟩
    · cases List.mem_singleton.1 hm
      exact List.prefix_rfl
    · exact le_rfl
    · rw [hcount] at hle
      exact hle
  · exact Or.inr ⟨e, t, he, .same hlog⟩

/-- The steps of the threads, too, when the PARALLEL leaves room for them. -/
theorem parallel_tallies {runNode : List Frame → CompiledNode → M NodeOutcome}
    (hrun : ∀ v nd, Tallies ex.plan v NodeOutcome.spare 0 (runNode v nd)) (nd : CompiledNode) :
    Tallies ex.plan v (fun _ => 1) 0 (do enterNode ex v nd; armParallel ex order runNode v nd) := by
  intro s
  rcases @enterNode_log ex v nd s with ⟨t, he, hlog, -, hcount, hle⟩ | ⟨e, t, he, hlog⟩
  · have spends : ∀ {l}, ThreadSpends ex.plan v nd.index l → Spends ex.plan v 1 0 s.nodeCount
        (.node v nd.index t.ctx s.nodeOutputs :: l) := by
      intro l hs
      have hone : steps (.node v nd.index t.ctx s.nodeOutputs :: l) = 1 + steps l := by
        rw [steps_cons]
        rfl
      refine ⟨fun w j c o hm => ?_, fun hp => ?_, fun _ hroom => ?_⟩
      · rcases List.mem_cons.1 hm with hm | hm
        · cases hm
          exact List.prefix_rfl
        · obtain ⟨b, hb⟩ := hs.within w j c o hm
          exact (List.prefix_append _ _).trans hb
      · have := hs.iterations_le fun e he => hp e (List.mem_cons_of_mem _ he)
        rw [hone, iterations_cons]
        simp only [Event.isIteration, Bool.false_eq_true, if_false]
        omega
      · rw [leavesRoom, Bool.and_eq_true] at hroom
        have := hroom.1
        simp only [Event.leavesRoom, hs.branchSteps, bne_self_eq_false, Bool.false_or,
          Bool.or_eq_true, beq_iff_eq, decide_eq_true_eq] at this
        omega
    rw [bind_of_ok _ he]
    rcases armParallel_spends hrun nd t with ⟨a, u, hr, l, hl, hc, hs⟩ | ⟨e, u, hr, l, hl, hs⟩
    · refine Or.inl ⟨a, u, hr, _, ?_, ?_, spends hs⟩
      · rw [hl, hlog, List.append_assoc, List.singleton_append]
      · rw [hc, hcount, steps_cons, Nat.add_assoc]
        rfl
    · refine Or.inr ⟨e, u, hr, _, ?_, (spends hs).mono (by omega)⟩
      rw [hl, hlog, List.append_assoc, List.singleton_append]
  · exact Or.inr ⟨e, t, bind_of_error _ he, .same hlog⟩

theorem runNode_tallies (horder : ex.plan.topologicalOrder = .ok order) :
    ∀ (fuel : Nat) (v : List Frame) (pause : Option PausePolicy) (nd : CompiledNode),
      Tallies ex.plan v NodeOutcome.spare 0 (runNode ex order bodies fuel v pause nd)
  | 0, _, _, _ => EndsAs.throw _
  | fuel + 1, v, pause, nd => by
    have hrun : ∀ v nd, Tallies ex.plan v NodeOutcome.spare 0
        (runNode ex order bodies fuel v none nd) := fun v nd => runNode_tallies horder fuel v none nd
    refine EndsAs.get_bind fun s => EndsAs.ite ?_ fun s =>
      Or.inl ⟨_, s, rfl, refl_of (Spent ex.plan v 0) s⟩
    have simple : Tallies ex.plan v NodeOutcome.spare 0 (do
        enterNode ex v nd
        nodeArm ex v nd
        propagate ex.plan nd
        pure .ok : M NodeOutcome) := by
      refine (enterNode_spends nd).bind (fun _ _ => 0) (fun _ => 0) (fun _ => ?_) ?_ le_rfl (by simp)
      · exact tallies_arm (fun _ h => h.free) (stepLog_after nodeArm_stepLog fun _ =>
          Steps.bind (armLog.propagate _) fun _ => Steps.pure _)
      · rintro - (_ | _) <;> simp [NodeOutcome.spare]
    unfold runArm
    split
    · refine (enterNode_spends nd).bind (fun _ _ => 0) (fun _ => 1) (fun _ =>
        runLoop_tallies horder (0, 0) nd) ?_ le_rfl (by simp)
      rintro - (_ | _) <;> simp [NodeOutcome.spare]
    · rw [← bind_assoc]
      refine (parallel_tallies hrun nd).bind (fun _ _ => 0) (fun _ => 0) (fun _ => ?_) ?_ le_rfl
        (by simp)
      · exact tallies_quiet (Steps.pure _)
      · rintro - (_ | _) <;> simp [NodeOutcome.spare]
    · exact simple

end Node

/-! ### Runs -/

/-- A run that is paused in a loop has made the step of the LOOP. -/
def PassOutcome.spare : PassOutcome → Nat
  | .paused _ (some _) => 1
  | .paused _ none | .completed => 0

/-- The log of a run's first segments. -/
def runLog (ex : Executor) (inputs : Context) (policies : Nat → PausePolicy) : Nat → List Event
  | 0 => (segment ex inputs policies 0).log
  | n + 1 => match (segment ex inputs policies n).result with
    | .ok (.paused _) => runLog ex inputs policies n ++ (segment ex inputs policies (n + 1)).log
    | _ => runLog ex inputs policies n

/-- Every iteration that is started runs a node, the branch threads of a PARALLEL of the main
pass keep together to what the budget leaves them, and the counter can exceed the budget. -/
structure KeepsBudget (plan : CompiledPlan) (log : List Event) : Prop where
  counter : plan.metadata.maxNodeExecutionCount < u32Max
  iterations : ∀ e ∈ log, e.productive plan = true
  branches : leavesRoom plan [] 0 log = true

/-- What the budget is for. -/
structure WithinBudget (ex : Executor) (inputs : Context) (policies : Nat → PausePolicy) :
    Prop where
  steps_le : ∀ n, steps (runLog ex inputs policies n) ≤ ex.plan.metadata.maxNodeExecutionCount
  iterations_le : ∀ n,
    iterations (runLog ex inputs policies n) ≤ ex.plan.metadata.maxNodeExecutionCount
  completed : ∀ n r, (segment ex inputs policies n).result = .ok (.completed r) →
    r.nodeCount = steps (runLog ex inputs policies n) ∧
      r.nodeCount ≤ ex.plan.metadata.maxNodeExecutionCount

/-- What holds at the end of a segment of what has been logged until then. -/
structure Tallied (plan : CompiledPlan) (seg : Segment) (l : List Event) : Prop where
  steps_le : steps l ≤ plan.metadata.maxNodeExecutionCount
  iterations_le : iterations l ≤ steps l
  paused : ∀ cp, seg.result = .ok (.paused cp) → cp.nodeCount = steps l ∧
    iterations l + (if cp.loopState = none then 0 else 1) ≤ steps l
  completed : ∀ r, seg.result = .ok (.completed r) → r.nodeCount = steps l

section Runs

variable {ex : Executor} {order : List Nat}

theorem mainPass_tallies (horder : ex.plan.topologicalOrder = .ok order) (policy : PausePolicy) :
    ∀ (nodes : List Nat) (position : Nat),
      Tallies ex.plan [] PassOutcome.spare 0 (mainPass ex order policy nodes position)
  | [], _ => fun s => Or.inl ⟨_, s, rfl, refl_of (Spent ex.plan [] 0) s⟩
  | idx :: rest, position => by
    unfold mainPass
    split
    · exact EndsAs.throw _
    · refine (runNode_tallies horder _ [] _ _).bind
        (fun r r' => match r with | .ok => r'.spare | .paused _ => 0) (fun _ => 0) (fun r => ?_) ?_
        le_rfl (by simp)
      · match r with
        | .paused ls => exact tallies_quiet (Steps.pure _)
        | .ok =>
          refine EndsAs.get_bind fun s => EndsAs.ite (fun s => ?_) (mainPass_tallies horder policy _ _)
          exact Or.inl ⟨_, s, rfl, refl_of (Spent ex.plan [] 0) s⟩
      · rintro (_ | _) (_ | ⟨_, _ | _⟩) <;> simp [NodeOutcome.spare, PassOutcome.spare]

theorem resumePass_tallies (horder : ex.plan.topologicalOrder = .ok order) (policy : PausePolicy)
    (cp : Checkpoint) :
    Tallies ex.plan [] (fun r => if cp.loopState = none then r.spare else 0)
      (if cp.loopState = none then 0 else 1) (resumePass ex order policy cp) := by
  unfold resumePass
  cases cp.loopState with
  | none => exact mainPass_tallies horder policy _ _
  | some ls =>
    simp only [reduceCtorEq, if_false]
    split
    · exact EndsAs.throw _
    · refine (runLoop_tallies horder _ _).bind (fun _ _ => 0) (fun _ => 1) (fun r => ?_) (by simp)
        le_rfl (by simp)
      match r with
      | .paused ls' => exact tallies_quiet (Steps.pure _)
      | .ok =>
        intro s
        rcases mainPass_tallies horder policy (order.drop (cp.position + 1)) (cp.position + 1) s with
          ⟨r, t, h, hs⟩ | ⟨e, t, h, hs⟩
        · exact Or.inl ⟨r, t, h, hs.mono (Nat.zero_le _)⟩
        · exact Or.inr ⟨e, t, h, hs.mono (Nat.zero_le _)⟩

/-- A segment behind a log that pays for its iterations. -/
theorem finishPass_tallied {plan : CompiledPlan} {x : M PassOutcome} {a : PassOutcome → Nat}
    {k : Nat} (hx : Tallies plan [] a k x) (ha : ∀ r, r.spare ≤ a r + k) {s : ExecState}
    (hlog : s.log = []) {l : List Event} (hcount : s.nodeCount = steps l)
    (hle : steps l ≤ plan.metadata.maxNodeExecutionCount) (hk : iterations l + k ≤ steps l)
    (h : KeepsBudget plan (l ++ (finishPass (x s)).log)) :
    Tallied plan (finishPass (x s)) (l ++ (finishPass (x s)).log) := by
  have bounds : ∀ {l' m n}, Spends plan [] m n s.nodeCount l' → KeepsBudget plan (l ++ l') →
      steps (l ++ l') ≤ plan.metadata.maxNodeExecutionCount ∧
        iterations (l ++ l') + (k + m) ≤ steps (l ++ l') + n := by
    intro l' m n hs hb
    have hroom : leavesRoom plan [] s.nodeCount l' = true := by
      have := (leavesRoom_append hb.branches).2
      rwa [Nat.zero_add, ← hcount] at this
    have hsteps := hs.room (hcount ▸ hle) hroom
    have hiter := hs.iterations_le fun e he => hb.iterations e (List.mem_append_right _ he)
    rw [steps_append, iterations_append]
    exact ⟨by omega, by omega⟩
  rcases hx s with ⟨r, t, hr, l', hl, hc, hs⟩ | ⟨e, t, hr, l', hl, hs⟩
  · rw [hlog, List.nil_append] at hl
    have hspare := ha r
    have hcount' : t.nodeCount = steps (l ++ l') := by
      rw [hc, hcount, steps_append]
    rw [hr] at h ⊢
    match r with
    | .completed =>
      simp only [finishPass, hl] at h ⊢
      obtain ⟨hsteps, hiter⟩ := bounds hs h
      refine ⟨hsteps, by omega, by rintro cp ⟨⟩, ?_⟩
      rintro r ⟨⟩
      exact hcount'
    | .paused p none =>
      simp only [finishPass, hl] at h ⊢
      obtain ⟨hsteps, hiter⟩ := bounds hs h
      refine ⟨hsteps, by omega, ?_, by rintro r ⟨⟩⟩
      rintro cp ⟨⟩
      refine ⟨hcount', ?_⟩
      simp only [buildCheckpoint, if_true]
      omega
    | .paused p (some ls) =>
      simp only [finishPass, hl] at h ⊢
      obtain ⟨hsteps, hiter⟩ := bounds hs h
      refine ⟨hsteps, by omega, ?_, by rintro r ⟨⟩⟩
      rintro cp ⟨⟩
      refine ⟨hcount', ?_⟩
      simp only [buildCheckpoint, reduceCtorEq, if_false]
      simp only [PassOutcome.spare] at hspare
      omega
  · rw [hlog, List.nil_append] at hl
    rw [hr] at h ⊢
    simp only [finishPass, hl] at h ⊢
    obtain ⟨hsteps, hiter⟩ := bounds hs h
    exact ⟨hsteps, by omega, by rintro cp ⟨⟩, by rintro r ⟨⟩⟩

/-- A segment that fails before its first node. -/
theorem tallied_error {plan : CompiledPlan} {e : ExecutionError} (l : List Event)
    (hle : steps l ≤ plan.metadata.maxNodeExecutionCount) (hk : iterations l ≤ steps l) :
    Tallied plan ⟨.error e, []⟩ (l ++ []) := by
  rw [List.append_nil]
  exact ⟨hle, hk, by rintro cp ⟨⟩, by rintro r ⟨⟩⟩

theorem executeWith_tallied (inputs : Context) (policy : PausePolicy)
    (h : KeepsBudget ex.plan (executeWith ex inputs policy).log) :
    Tallied ex.plan (executeWith ex inputs policy) (executeWith ex inputs policy).log := by
  unfold executeWith at h ⊢
  split
  · exact tallied_error [] (Nat.zero_le _) le_rfl
  · rename_i hver
    simp only [hver] at h
    cases horder : ex.plan.topologicalOrder with
    | error e => exact tallied_error [] (Nat.zero_le _) le_rfl
    | ok order =>
      simp only [horder] at h
      exact finishPass_tallied (l := []) (k := 0) (mainPass_tallies horder policy order 0) (by simp)
        rfl rfl (Nat.zero_le _) le_rfl h

theorem resume_tallied {cp : Checkpoint} (policy : PausePolicy) {l : List Event}
    (hle : steps l ≤ ex.plan.metadata.maxNodeExecutionCount) (hcount : cp.nodeCount = steps l)
    (hk : iterations l + (if cp.loopState = none then 0 else 1) ≤ steps l)
    (h : KeepsBudget ex.plan (l ++ (resume ex cp policy).log)) :
    Tallied ex.plan (resume ex cp policy) (l ++ (resume ex cp policy).log) := by
  unfold resume at h ⊢
  split
  · exact tallied_error l hle (by omega)
  · rename_i hver
    simp only [hver] at h
    cases horder : ex.plan.topologicalOrder with
    | error e => exact tallied_error l hle (by omega)
    | ok order =>
      simp only [horder] at h
      refine finishPass_tallied (resumePass_tallies horder policy cp) (fun r => ?_) rfl hcount hle hk h
      cases cp.loopState with
      | none => simp
      | some ls => rcases r with _ | ⟨_, _ | _⟩ <;> simp [PassOutcome.spare]

variable {inputs : Context} {policies : Nat → PausePolicy}

theorem segment_tallied (h : ∀ n, KeepsBudget ex.plan (runLog ex inputs policies n)) : ∀ n,
    Tallied ex.plan (segment ex inputs policies n) (runLog ex inputs policies n)
  | 0 => executeWith_tallied inputs _ (h 0)
  | n + 1 => by
    have ih := segment_tallied h n
    have hn := h (n + 1)
    cases hres : (segment ex inputs policies n).result with
    | error e =>
      have hend : (segment ex inputs policies n).Ended := by
        intro cp hcp
        rw [hres] at hcp
        cases hcp
      rw [segment_succ_ended hend]
      simp only [runLog, hres]
      exact ih
    | ok o =>
      cases o with
      | completed r =>
        have hend : (segment ex inputs policies n).Ended := by
          intro cp hcp
          rw [hres] at hcp
          cases hcp
        rw [segment_succ_ended hend]
        simp only [runLog, hres]
        exact ih
      | paused cp =>
        obtain ⟨hcount, hk⟩ := ih.paused cp hres
        simp only [runLog, hres] at hn ⊢
        rw [segment_succ_paused hres] at hn ⊢
        exact resume_tallied _ ih.steps_le hcount hk hn

/-- After the last segment nothing is logged. -/
theorem runLog_ended {n : Nat} (h : (segment ex inputs policies n).Ended) : ∀ m,
    runLog ex inputs policies (n + m) = runLog ex inputs policies n
  | 0 => rfl
  | m + 1 => by
    have hsegment : ∀ m, segment ex inputs policies (n + m) = segment ex inputs policies n := by
      intro m
      induction m with
      | zero => rfl
      | succ m ih =>
        rw [← Nat.add_assoc, segment_succ_ended (by rw [ih]; exact h), ih]
    rw [← Nat.add_assoc, runLog, hsegment, runLog_ended h m]
    split
    · exact absurd ‹_› (h _)
    · rfl

end Runs

def CompiledPlan.withBudget (plan : CompiledPlan) (budget : Nat) : CompiledPlan :=
  { plan with metadata := { plan.metadata with maxNodeExecutionCount := budget } }

/-- Two branches of one node each. -/
def twoBranches : ExecutionPlan := ExecutionPlan.new
  [⟨"n0", .parallel, [], none, none, none⟩,
   ⟨"n1", .calc, [⟨"expr", .string "1"⟩], none, some 0, none⟩,
   ⟨"n2", .calc, [⟨"expr", .string "2"⟩], none, some 1, none⟩]
  [Edge.new "n0" "n1", Edge.new "n0" "n2"]

/-- Five iterations whose only body node is in a branch that is not taken. -/
def idleLoop : ExecutionPlan := ExecutionPlan.new
  [⟨"n0", .decide, [], none, none, none⟩,
   ⟨"n1", .loop, [⟨"target", .string "i"⟩, ⟨"max_iterations", .int 5⟩], none, none, none⟩,
   ⟨"n2", .calc, [⟨"expr", .string "1"⟩], none, none, none⟩]
  [Edge.new "n1" "n2", Edge.withCondition "n0" "n2" "true"]

def budgetExecutor (p : ExecutionPlan) (budget : Nat) : Executor :=
  Executor.of ((CompiledPlan.fromExecutionPlan p []).withBudget budget)

end Tinypipe
