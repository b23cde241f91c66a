import Tinypipe.Vm.PausedRun
import Tinypipe.Vm.Trace

/-! Where a run asks the pause policy, and how far a budget carries it. The policy compares the
budget with the count of all segments so far (`should_pause`); a round is meant to run as many
nodes more. -/

namespace Tinypipe

open Lib Lib.Stateful

/-! ### The count only goes up -/

def CountUp (s t : ExecState) : Prop := s.nodeCount ≤ t.nodeCount

instance : Std.Refl CountUp := ⟨fun s => Nat.le_refl s.nodeCount⟩

instance : IsTrans ExecState CountUp := ⟨fun _ _ _ h h' => Nat.le_trans h h'⟩

section CountUp

variable {ex : Executor} {order : List Nat} {bodies : List (Nat × Finset Nat)} {visit : List Frame}
  {pause : Option PausePolicy} {nd : CompiledNode}

theorem countUp_laws : ArmLaws CountUp where
  silent := fun _ _ _ _ h => h.ge
  write := fun _ _ _ => Nat.le_refl _
  dispatch := fun _ _ => Nat.le_refl _

theorem countNode_countUp (plan : CompiledPlan) : Steps CountUp (countNode plan) :=
  Steps.bind (Steps.modify fun s => Nat.le_succ s.nodeCount) fun _ =>
    Steps.get_bind fun _ => ArmLaws.failIf _ _

theorem enterNode_countUp : Steps CountUp (enterNode ex visit nd) := by
  refine Steps.bind (countNode_countUp ex.plan) fun _ => Steps.bind ?_ fun _ => Steps.bind ?_ fun _ => ?_
  · exact Steps.get_bind fun _ => ArmLaws.failIf _ _
  · exact Steps.modify fun _ => Nat.le_refl _
  · exact Steps.modify fun _ => Nat.le_refl _

theorem bodyNode_countUp (idx : Nat) : Steps CountUp (bodyNode ex visit idx) := by
  unfold bodyNode
  split
  · exact Steps.throw _
  · refine Steps.get_bind fun _ => Steps.ite (Steps.pure _) (Steps.bind (countNode_countUp _) fun _ => ?_)
    refine Steps.bind (Steps.modify fun _ => Nat.le_refl _) fun _ => Steps.bind ?_ fun _ => Steps.pure _
    exact bodyArm_stepLog.mono fun _ _ h => h.count.ge

theorem runBody_countUp : ∀ (position : Nat) (nodes : List Nat),
    Steps CountUp (runBody ex visit pause position nodes)
  | _, [] => Steps.pure _
  | position, idx :: rest => by
    refine Steps.bind (bodyNode_countUp idx) fun r => ?_
    split
    · exact runBody_countUp _ rest
    · exact runBody_countUp _ rest
    · exact Steps.pure _
    · exact Steps.pure _
    · exact Steps.get_bind fun _ => Steps.ite (Steps.pure _) (runBody_countUp _ rest)

variable {loop : Nat} {target : Option Text} {body : List Nat}

theorem runIterations_countUp : ∀ remaining iteration start : Nat,
    Steps CountUp (runIterations ex visit pause loop target body remaining iteration start)
  | 0, _, _ => Steps.pure _
  | remaining + 1, iteration, start => by
    have hnote : Steps CountUp (noteIteration visit loop iteration start) := by
      refine Steps.modify fun s => ?_
      split
      · exact Nat.le_refl _
      · exact Nat.le_refl _
    refine Steps.bind (countUp_laws.writeOutput _ _) fun _ => Steps.bind hnote fun _ =>
      Steps.bind (runBody_countUp _ _) fun r => ?_
    split
    · exact runIterations_countUp remaining _ _
    · exact Steps.pure _
    · exact Steps.pure _

theorem iterationRest_countUp (remaining iteration start : Nat) :
    Steps CountUp (iterationRest ex visit pause loop target body remaining iteration start) := by
  refine Steps.bind (runBody_countUp _ _) fun r => ?_
  split
  · exact runIterations_countUp remaining _ _
  · exact Steps.pure _
  · exact Steps.pure _

theorem runLoop_countUp (cursor : Nat × Nat) :
    Steps CountUp (runLoop ex order bodies visit pause cursor nd) := by
  refine Steps.get_bind fun _ => Steps.ite countUp_laws.finishLoop ?_
  refine Steps.bind (Steps.modify fun _ => Nat.le_refl _) fun _ =>
    Steps.bind (runIterations_countUp _ _ _) fun r => ?_
  split
  · exact Steps.pure _
  · exact countUp_laws.finishLoop

theorem loopRest_countUp (i k : Nat) : Steps CountUp (loopRest ex order bodies visit nd i k) := by
  refine Steps.get_bind fun _ => Steps.bind (iterationRest_countUp _ _ _) fun r => ?_
  split
  · exact Steps.pure _
  · exact countUp_laws.finishLoop

/-- The counts of the threads are added to that of the PARALLEL. -/
theorem armParallel_countUp (runNode : List Frame → CompiledNode → M NodeOutcome) :
    Steps CountUp (armParallel ex order runNode visit nd) := by
  refine Steps.bind (Steps.modify fun _ => Nat.le_refl _) fun _ => Steps.bind ?_ fun _ =>
    Steps.bind (countUp_laws.insertOutput _ _) fun _ => Steps.ite (Steps.pure _) ?_
  · exact Steps.forM (fun e => Steps.bind (countUp_laws.applyMapping _) fun _ =>
      countUp_laws.enable _) _
  · refine Steps.bind (Steps.modify fun _ => Nat.le_refl _) fun _ => Steps.get_bind fun s =>
      Steps.bind (Steps.modify fun _ => Nat.le_refl _) fun _ => ?_
    split
    · exact Steps.throw _
    · refine Steps.modify fun t => ?_
      rw [CountUp, joinThreads_count]
      exact Nat.le_add_right _ _

theorem runNode_countUp (fuel : Nat) : Steps CountUp (runNode ex order bodies fuel visit pause nd) := by
  cases fuel with
  | zero => exact Steps.throw _
  | succ fuel =>
    refine Steps.get_bind fun _ => Steps.ite (Steps.bind enterNode_countUp fun _ => ?_) (Steps.pure _)
    unfold runArm
    split
    · exact runLoop_countUp _
    · exact Steps.bind (armParallel_countUp _) fun _ => Steps.pure _
    · refine Steps.bind ?_ fun _ => Steps.bind (countUp_laws.propagate _) fun _ => Steps.pure _
      exact nodeArm_stepLog.mono fun _ _ h => h.count.ge

theorem mainPass_countUp (policy : PausePolicy) : ∀ (nodes : List Nat) (position : Nat),
    Steps CountUp (mainPass ex order policy nodes position)
  | [], _ => Steps.pure _
  | idx :: rest, position => by
    unfold mainPass
    split
    · exact Steps.throw _
    · refine Steps.bind (runNode_countUp _) fun r => ?_
      split
      · exact Steps.pure _
      · exact Steps.get_bind fun _ => Steps.ite (Steps.pure _) (mainPass_countUp policy rest _)

theorem continueRun_countUp (position : Nat) (ls : Option LoopState) :
    Steps CountUp (continueRun ex order position ls) := by
  unfold continueRun
  split
  · exact mainPass_countUp _ _ _
  · split
    · exact Steps.throw _
    · refine Steps.bind (loopRest_countUp _ _) fun r => ?_
      split
      · exact Steps.pure _
      · exact mainPass_countUp _ _ _

end CountUp

/-! ### Where the policy is asked -/

section Stops

variable (ex : Executor) (order : List Nat)

/-- The counts at which an uninterrupted pass over a body asks the policy. -/
def bodyStops (visit : List Frame) : List Nat → ExecState → List Nat
  | [], _ => []
  | idx :: rest, s => match bodyNode ex visit idx s with
    | .ok none t | .ok (some (_, .nextUnpaused)) t => bodyStops visit rest t
    | .ok (some (_, .next)) t => t.nodeCount :: bodyStops visit rest t
    | .ok (some (_, .breakLoop)) _ | .ok (some (_, .skipRest)) _ | .error _ _ => []

def iterationStops (visit : List Frame) (loop : Nat) (target : Option Text) (body : List Nat) :
    (remaining iteration start : Nat) → ExecState → List Nat
  | 0, _, _, _ => []
  | remaining + 1, iteration, start, s =>
    let begin : M Unit := do
      writeOutput target (.int (Int64.ofNat iteration))
      noteIteration visit loop iteration start
    let w := visit ++ [.iteration loop iteration]
    bodyStops ex w (body.drop start) (finalState (begin s)) ++
      match runBody ex w never start (body.drop start) (finalState (begin s)) with
      | .ok .finished t => iterationStops visit loop target body remaining (iteration + 1) 0 t
      | .ok .broke _ | .ok (.paused _) _ | .error _ _ => []

def loopStops (visit : List Frame) (cursor : Nat × Nat) (nd : CompiledNode) (s : ExecState) :
    List Nat :=
  if ex.plan.anchors nd.index false = [] then []
  else iterationStops ex visit nd.index (loopTarget nd) (bodyVec ex.plan order nd.index)
    (loopBound ex.plan s.nodeOutputs nd - cursor.1) cursor.1 cursor.2
    { s with loopSkipped := s.loopSkipped ∪ ex.plan.loopBody nd.index }

/-- Within a node only the body of a LOOP asks. -/
def nodeStops (nd : CompiledNode) (s : ExecState) : List Nat :=
  if ready ex.plan ex.plan.identifyLoopBodies s nd = true ∧ nd.op = .loop then
    match enterNode ex [] nd s with
    | .ok _ t => loopStops ex order [] (0, 0) nd t
    | .error _ _ => []
  else []

/-- The main pass asks behind each node but the last, whether the node was run or held back. -/
def passStops : List Nat → ExecState → List Nat
  | [], _ => []
  | idx :: rest, s => match ex.plan.getNode idx with
    | none => []
    | some nd => nodeStops ex order nd s ++
      match runNode ex order ex.plan.identifyLoopBodies (ex.plan.nodes.length + 1) [] never nd s with
      | .ok .ok t => (if rest = [] then [] else [t.nodeCount]) ++ passStops rest t
      | .ok (.paused _) _ | .error _ _ => []

def resumeStops (cp : Checkpoint) (s : ExecState) : List Nat :=
  match cp.loopState with
  | none => passStops ex order (order.drop cp.position) s
  | some ls => match ex.plan.getNode ls.loopIndex with
    | none => []
    | some nd => loopStops ex order [] (ls.iteration, ls.bodyPosition) nd s ++
      match runLoop ex order ex.plan.identifyLoopBodies [] never (ls.iteration, ls.bodyPosition) nd s with
      | .ok .ok t => passStops ex order (order.drop (cp.position + 1)) t
      | .ok (.paused _) _ | .error _ _ => []

end Stops

/-- The policy of a round. -/
def budget (k : Nat) : PausePolicy := ⟨some k, none⟩

theorem shouldPause_budget (k n : Nat) (id : Text) : (budget k).shouldPause n id = decide (k ≤ n) := by
  simp [budget, PausePolicy.shouldPause]

/-! ### The first stop that reaches the budget -/

/-- A run under a budget against the uninterrupted one, which asks at `stops`: it is paused at the
first of them that reaches the budget, and the same when none does. -/
def Halts {α : Type} (k : Nat) (paused : α → Prop) (stops : List Nat)
    (x y : EStateM.Result ExecutionError ExecState α) : Prop :=
  match stops.find? (k ≤ ·) with
  | none => x = y
  | some m => ∃ r t, x = .ok r t ∧ paused r ∧ t.nodeCount = m

section Halts

variable {α β : Type} {k : Nat} {P : α → Prop} {Q : β → Prop} {l l' : List Nat}

theorem Halts.same (x : EStateM.Result ExecutionError ExecState α) : Halts k P [] x x := rfl

theorem Halts.stop {r : α} {t : ExecState} {y : EStateM.Result ExecutionError ExecState α} (hr : P r)
    (hk : k ≤ t.nodeCount) : Halts k P (t.nodeCount :: l) (.ok r t) y := by
  have hfind : (t.nodeCount :: l).find? (k ≤ ·) = some t.nodeCount :=
    List.find?_cons_of_pos (decide_eq_true hk)
  rw [Halts, hfind]
  exact ⟨r, t, rfl, hr, rfl⟩

theorem Halts.pass {n : Nat} {x y : EStateM.Result ExecutionError ExecState α} (hk : ¬ k ≤ n)
    (h : Halts k P l x y) : Halts k P (n :: l) x y := by
  have hfind : (n :: l).find? (k ≤ ·) = l.find? (k ≤ ·) :=
    List.find?_cons_of_neg (by rwa [decide_eq_true_eq])
  rw [Halts, hfind]
  exact h

/-- What is paused stays so; the run behind goes on where the uninterrupted one does. -/
theorem Halts.bind {x y : M α} {f g : α → M β} {s : ExecState} (hx : Halts k P l (x s) (y s))
    (hpaused : ∀ r, P r → ∃ r', Q r' ∧ ∀ t, f r t = .ok r' t)
    (hf : ∀ a t, y s = .ok a t → Halts k Q l' (f a t) (g a t))
    (herr : ∀ e t, y s = .error e t → l' = []) :
    Halts k Q (l ++ l') ((x >>= f) s) ((y >>= g) s) := by
  rw [Halts, List.find?_append]
  rw [Halts] at hx
  cases hl : l.find? (k ≤ ·) with
  | some m =>
    rw [hl] at hx
    obtain ⟨r, t, hr, hp, hm⟩ := hx
    obtain ⟨r', hq, hfr⟩ := hpaused r hp
    exact ⟨r', t, by rw [bind_of_ok _ hr, hfr], hq, hm⟩
  | none =>
    rw [hl] at hx
    rw [Option.none_or]
    cases hy : y s with
    | ok a t =>
      rw [bind_of_ok _ (hx.trans hy), bind_of_ok _ hy]
      exact hf a t hy
    | error e t =>
      rw [bind_of_error _ (hx.trans hy), bind_of_error _ hy, herr e t hy]
      rfl

/-- Two runs that begin the same way. -/
theorem Halts.behind {x : M α} {f g : α → M β} {s t : ExecState} {a : α} (hx : x s = .ok a t)
    (h : Halts k Q l (f a t) (g a t)) : Halts k Q l ((x >>= f) s) ((x >>= g) s) := by
  rwa [bind_of_ok _ hx, bind_of_ok _ hx]

end Halts

section Levels

variable {ex : Executor} {order : List Nat} {visit : List Frame} {k : Nat}

theorem runBody_halts : ∀ (position : Nat) (nodes : List Nat) (s : ExecState),
    Halts k (fun r => ∃ p, r = .paused p) (bodyStops ex visit nodes s)
      (runBody ex visit (some (budget k)) position nodes s) (runBody ex visit never position nodes s)
  | _, [], _ => Halts.same _
  | position, idx :: rest, s => by
    have step := runBody_halts (position + 1) rest
    cases hb : bodyNode ex visit idx s with
    | error e t =>
      simp only [runBody, bodyStops, bind_of_error _ hb, hb]
      exact Halts.same _
    | ok r t =>
      simp only [runBody, bodyStops, bind_of_ok _ hb, hb]
      cases r with
      | none => exact step t
      | some r =>
        obtain ⟨nd, flow⟩ := r
        cases flow with
        | nextUnpaused => exact step t
        | breakLoop => exact Halts.same _
        | skipRest => exact Halts.same _
        | next =>
          simp only [get_bind, pauses, shouldPause_budget, shouldPause_default, decide_eq_true_eq,
            Bool.false_eq_true, if_false]
          by_cases hk : k ≤ t.nodeCount
          · rw [if_pos hk]
            exact Halts.stop ⟨position + 1, rfl⟩ hk
          · rw [if_neg hk]
            exact (step t).pass hk

variable {loop : Nat} {target : Option Text} {body : List Nat}

theorem runIterations_halts : ∀ (remaining iteration start : Nat) (s : ExecState),
    Halts k (fun r => ∃ ls, r = .paused ls)
      (iterationStops ex visit loop target body remaining iteration start s)
      (runIterations ex visit (some (budget k)) loop target body remaining iteration start s)
      (runIterations ex visit never loop target body remaining iteration start s)
  | 0, _, _, _ => Halts.same _
  | remaining + 1, iteration, start, s => by
    obtain ⟨t, hw, -⟩ := writeOutput_ok target (.int (Int64.ofNat iteration)) s
    obtain ⟨u, hn⟩ : ∃ u, noteIteration visit loop iteration start t = .ok ⟨⟩ u := ⟨_, rfl⟩
    have hbegin : finalState ((writeOutput target (.int (Int64.ofNat iteration)) >>= fun _ =>
        noteIteration visit loop iteration start : M Unit) s) = u := by
      rw [bind_of_ok _ hw, hn]
      rfl
    rw [runIterations_succ, runIterations_succ, iterationStops]
    refine Halts.behind hw (Halts.behind hn ?_)
    rw [hbegin]
    refine Halts.bind (runBody_halts start (body.drop start) u) ?_ (fun r v hr => ?_) fun e v he => ?_
    · rintro r ⟨p, rfl⟩
      exact ⟨.paused ⟨loop, iteration, p⟩, ⟨_, rfl⟩, fun _ => rfl⟩
    · rw [hr]
      cases r with
      | finished => exact runIterations_halts remaining (iteration + 1) 0 v
      | broke => exact Halts.same _
      | paused p => exact Halts.same _
    · rw [he]

theorem runLoop_halts (bodies : List (Nat × Finset Nat)) (cursor : Nat × Nat) (nd : CompiledNode)
    (s : ExecState) :
    Halts k (fun r => ∃ ls, r = .paused ls) (loopStops ex order visit cursor nd s)
      (runLoop ex order bodies visit (some (budget k)) cursor nd s)
      (runLoop ex order bodies visit never cursor nd s) := by
  simp only [runLoop, get_bind, loopStops]
  by_cases ha : ex.plan.anchors nd.index false = []
  · simp only [if_pos ha]
    exact Halts.same _
  · simp only [if_neg ha, modify_bind]
    rw [← List.append_nil (iterationStops _ _ _ _ _ _ _ _ _)]
    refine Halts.bind (runIterations_halts _ _ _ _) ?_ (fun r t hr => Halts.same _) fun _ _ _ => rfl
    rintro r ⟨ls, rfl⟩
    exact ⟨.paused ls, ⟨ls, rfl⟩, fun _ => rfl⟩

theorem runNode_halts (fuel : Nat) (nd : CompiledNode) (s : ExecState) :
    Halts k (fun r => ∃ ls, r = .paused ls) (nodeStops ex order nd s)
      (runNode ex order ex.plan.identifyLoopBodies (fuel + 1) [] (some (budget k)) nd s)
      (runNode ex order ex.plan.identifyLoopBodies (fuel + 1) [] never nd s) := by
  simp only [runNode, runNodeWith, get_bind, nodeStops]
  by_cases hready : ready ex.plan ex.plan.identifyLoopBodies s nd = true
  · by_cases hop : nd.op = .loop
    · simp only [if_pos hready, if_pos (And.intro hready hop)]
      cases he : enterNode ex [] nd s with
      | error e t =>
        simp only [bind_of_error _ he]
        exact Halts.same _
      | ok _ t =>
        refine Halts.behind he ?_
        simp only [runArm, hop]
        exact runLoop_halts _ _ nd t
    · simp only [if_pos hready, if_neg fun h : _ ∧ nd.op = .loop => hop h.2,
        runArm_pause _ (some (budget k)) never hop]
      exact Halts.same _
  · simp only [if_neg hready, if_neg fun h : _ ∧ nd.op = .loop => hready h.1]
    exact Halts.same _

theorem mainPass_halts : ∀ (nodes : List Nat) (position : Nat) (s : ExecState),
    Halts k (fun r => ∃ p ls, r = .paused p ls) (passStops ex order nodes s)
      (mainPass ex order (budget k) nodes position s) (mainPass ex order .default nodes position s)
  | [], _, _ => Halts.same _
  | idx :: rest, position, s => by
    cases hnd : ex.plan.getNode idx with
    | none =>
      simp only [mainPass, passStops, hnd]
      exact Halts.same _
    | some nd =>
      rw [mainPass_default rest position hnd]
      simp only [mainPass, passStops, hnd]
      refine Halts.bind (runNode_halts ex.plan.nodes.length nd s) ?_ (fun r t hr => ?_) fun e t he => ?_
      · rintro r ⟨ls, rfl⟩
        exact ⟨.paused position (some ls), ⟨_, _, rfl⟩, fun _ => rfl⟩
      · rw [hr]
        cases r with
        | paused ls => exact Halts.same _
        | ok =>
          have hrest := mainPass_halts rest (position + 1) t
          simp only [get_bind, shouldPause_budget, decide_eq_true_eq]
          by_cases hnil : rest = []
          · subst hnil
            exact hrest
          · by_cases hk : k ≤ t.nodeCount
            · rw [if_neg hnil, if_pos (And.intro hnil hk)]
              exact Halts.stop ⟨_, _, rfl⟩ hk
            · rw [if_neg hnil, if_neg fun h : rest ≠ [] ∧ k ≤ t.nodeCount => hk h.2]
              exact hrest.pass hk
      · rw [he]

theorem resumePass_halts (cp : Checkpoint) (s : ExecState) :
    Halts k (fun r => ∃ p ls, r = .paused p ls) (resumeStops ex order cp s)
      (resumePass ex order (budget k) cp s) (resumePass ex order .default cp s) := by
  cases hls : cp.loopState with
  | none =>
    simp only [resumePass, resumeStops, hls]
    exact mainPass_halts _ _ s
  | some ls =>
    cases hnd : ex.plan.getNode ls.loopIndex with
    | none =>
      simp only [resumePass, resumeStops, hls, hnd]
      exact Halts.same _
    | some nd =>
      simp only [resumePass, resumeStops, hls, hnd]
      refine Halts.bind (runLoop_halts _ _ nd s) ?_ (fun r t hr => ?_) fun e t he => ?_
      · rintro r ⟨ls', rfl⟩
        exact ⟨.paused cp.position (some ls'), ⟨_, _, rfl⟩, fun _ => rfl⟩
      · rw [hr]
        cases r with
        | paused ls' => exact Halts.same _
        | ok => exact mainPass_halts _ _ t
      · rw [he]

end Levels

/-! ### One round of one execution -/

def Segment.Completed (seg : Segment) : Prop := ∃ result, seg.result = .ok (.completed result)

section Round

variable (ex : Executor) (cp : Checkpoint)

/-- A resume with the state it ends in. -/
def resumeRun (policy : PausePolicy) : EStateM.Result ExecutionError ExecState PassOutcome :=
  match checkVersionCompatibility ex.plan.version with
  | .error e => .error e (resumeState cp)
  | .ok () => match ex.plan.topologicalOrder with
    | .error e => .error e (resumeState cp)
    | .ok order => resumePass ex order policy cp (resumeState cp)

/-- The nodes that a segment counts. -/
def executed (policy : PausePolicy) : Nat :=
  (finalState (resumeRun ex cp policy)).nodeCount - cp.nodeCount

/-- What the uninterrupted run still has to make. -/
def remaining : Nat := executed ex cp .default

/-- The counts at which the uninterrupted run still asks the policy. -/
def stops : List Nat :=
  match ex.plan.topologicalOrder with
  | .error _ => []
  | .ok order => resumeStops ex order cp (resumeState cp)

/-- A budget of `k` nodes runs `k` nodes more, or the rest to its completion. -/
structure Advances (k : Nat) : Prop where
  nodes : executed ex cp (budget k) = min k (remaining ex cp)
  completes : 0 < remaining ex cp → remaining ex cp ≤ k → (resume ex cp (budget k)).Completed

/-- The first stop whose count, over all segments, reaches the budget is the one `k` nodes ahead, and
there is none when at most `k` nodes are left. -/
structure BudgetFits (k : Nat) : Prop where
  pauses : k < remaining ex cp → (stops ex cp).find? (k ≤ ·) = some (cp.nodeCount + k)
  completes : 0 < remaining ex cp → remaining ex cp ≤ k →
    (stops ex cp).find? (k ≤ ·) = none ∧ (resume ex cp .default).Completed

theorem resume_eq_finishPass (policy : PausePolicy) :
    resume ex cp policy = finishPass (resumeRun ex cp policy) := by
  cases hver : checkVersionCompatibility ex.plan.version with
  | error e =>
    simp only [resume, resumeRun, hver]
    rfl
  | ok _ =>
    cases horder : ex.plan.topologicalOrder with
    | error e =>
      simp only [resume, resumeRun, hver, horder]
      rfl
    | ok order => simp only [resume, resumeRun, hver, horder]

end Round

/-- A checkpoint that some segments of some runs of the plan have left, whatever their inputs, their
policies and the tools at the time. -/
inductive Reached (plan : CompiledPlan) : Checkpoint → Prop
  | executed {registry : Registry} {depth : Nat} {inputs : Context} {policy : PausePolicy} {cp : Checkpoint} :
    (executeWith ⟨plan, registry, depth⟩ inputs policy).result = .ok (.paused cp) → Reached plan cp
  | resumed {registry : Registry} {depth : Nat} {policy : PausePolicy} {cp cp' : Checkpoint} :
    Reached plan cp → (resume ⟨plan, registry, depth⟩ cp policy).result = .ok (.paused cp') →
      Reached plan cp'

section Rounds

variable {ex : Executor} {order : List Nat} {cp : Checkpoint} {k : Nat}

theorem finalState_withLog {α : Type} (l : List Event) (r : EStateM.Result ExecutionError ExecState α) :
    (finalState (mapState (withLog l) r)).nodeCount = (finalState r).nodeCount := by
  cases r with
  | ok a t => rfl
  | error e t => rfl

theorem finishPass_paused {x : EStateM.Result ExecutionError ExecState PassOutcome}
    (h : (finishPass x).result = .ok (.paused cp)) :
    ∃ p ls t, x = .ok (.paused p ls) t ∧ cp = buildCheckpoint t p ls := by
  match x with
  | .ok .completed t => cases h
  | .error e t => cases h
  | .ok (.paused p ls) t =>
    cases h
    exact ⟨p, ls, t, rfl, rfl⟩

theorem resumePass_never (cp : Checkpoint) :
    Returns (fun r => ∀ p ls, r ≠ .paused p ls) (resumePass ex order .default cp) := by
  unfold resumePass
  split
  · exact mainPass_never _ _
  · split
    · exact Returns.throw _
    · refine Returns.bind (runLoop_never _) fun r hr => ?_
      match r, hr with
      | .paused ls, hr => exact absurd rfl (hr ls)
      | .ok, _ => exact mainPass_never _ _

theorem Suspended.of_plan {ex ex' : Executor} {p : Nat} {ls : Option LoopState} {t : ExecState}
    (h : Suspended ex order p ls t) (hplan : ex.plan = ex'.plan) : Suspended ex' order p ls t := by
  refine ⟨h.position_lt, fun l hl => ?_⟩
  obtain ⟨nd, hnd, hin⟩ := h.inLoop l hl
  obtain ⟨hloop, hanchors, hskipped, hlt, hpos, hle⟩ := hin
  rw [hplan] at hnd hanchors hskipped hlt
  exact ⟨nd, hnd, hloop, hanchors, hskipped, hlt, hpos, hle⟩

theorem Reached.exists_order {plan : CompiledPlan} (h : Reached plan cp) :
    ∃ order, plan.topologicalOrder = .ok order := by
  cases horder : plan.topologicalOrder with
  | ok order => exact ⟨order, rfl⟩
  | error err =>
    cases h with
    | executed h =>
      simp only [executeWith, horder] at h
      split at h
      · cases h
      · cases h
    | resumed _ h =>
      simp only [resume, horder] at h
      split at h
      · cases h
      · cases h

/-- What is reached is the state of a pause. -/
theorem Reached.suspended (hwf : ex.plan.WellFormed)
    (hver : checkVersionCompatibility ex.plan.version = .ok ())
    (horder : ex.plan.topologicalOrder = .ok order) (h : Reached ex.plan cp) :
    Suspended ex order cp.position cp.loopState (resumeState cp) := by
  induction h with
  | @executed registry depth inputs policy cp h =>
    rw [@executeWith_eq ⟨ex.plan, registry, depth⟩ _ hver horder] at h
    obtain ⟨p, ls, t, hx, rfl⟩ := finishPass_paused h
    rcases @mainPass_split ⟨ex.plan, registry, depth⟩ _ hwf horder policy order 0 _ rfl with
      heq | ⟨p', ls', t', hp, hs, -, -⟩
    · exact absurd (heq.symm.trans hx) fun h => mainPass_never _ _ _ _ _ h p ls rfl
    · cases hp.symm.trans hx
      exact (suspended_buildCheckpoint hs).of_plan rfl
  | @resumed registry depth policy cp cp' _ h ih =>
    rw [@resume_eq ⟨ex.plan, registry, depth⟩ _ hver horder] at h
    obtain ⟨p, ls, t, hx, rfl⟩ := finishPass_paused h
    have hs : Suspended ⟨ex.plan, registry, depth⟩ order cp.position cp.loopState (resumeState cp) :=
      ih.of_plan rfl
    rcases @resumePass_split ⟨ex.plan, registry, depth⟩ _ hwf horder policy _ _ hs (resumeState cp) with
      heq | ⟨p', ls', t', hp, hs', -, -⟩
    · exact absurd (heq.symm.trans hx) fun h => resumePass_never _ _ _ _ h p ls rfl
    · cases hp.symm.trans hx
      exact (suspended_buildCheckpoint hs').of_plan rfl

section Settled

variable (hwf : ex.plan.WellFormed) (hver : checkVersionCompatibility ex.plan.version = .ok ())
  (horder : ex.plan.topologicalOrder = .ok order)

include hver horder

theorem resumeRun_eq (cp : Checkpoint) (policy : PausePolicy) :
    resumeRun ex cp policy = resumePass ex order policy cp (resumeState cp) := by
  simp only [resumeRun, hver, horder]

theorem resumeRun_halts (cp : Checkpoint) (k : Nat) :
    Halts k (fun r => ∃ p ls, r = .paused p ls) (stops ex cp) (resumeRun ex cp (budget k))
      (resumeRun ex cp .default) := by
  rw [resumeRun_eq hver horder, resumeRun_eq hver horder]
  simp only [stops, horder]
  exact resumePass_halts cp (resumeState cp)

theorem resumeRun_done (hfind : (stops ex cp).find? (k ≤ ·) = none) :
    resumeRun ex cp (budget k) = resumeRun ex cp .default := by
  have hhalts := resumeRun_halts hver horder cp k
  rwa [Halts, hfind] at hhalts

include hwf

/-- A segment that is paused: the count it stops at, and the uninterrupted run from there on. -/
theorem resumeRun_paused (hs : Suspended ex order cp.position cp.loopState (resumeState cp)) {m : Nat}
    (hm : (stops ex cp).find? (k ≤ ·) = some m) :
    ∃ p ls t, resumeRun ex cp (budget k) = .ok (.paused p ls) t ∧ t.nodeCount = m ∧
      Suspended ex order p ls t ∧ resumeRun ex cp .default = continueRun ex order p ls t := by
  have hhalts := resumeRun_halts hver horder cp k
  rw [Halts, hm] at hhalts
  obtain ⟨r, t, hr, ⟨p, ls, rfl⟩, hcount⟩ := hhalts
  rw [resumeRun_eq hver horder] at hr ⊢
  rw [resumeRun_eq hver horder]
  rcases resumePass_split hwf horder (budget k) hs (resumeState cp) with
    heq | ⟨p', ls', t', hp, hs', -, hn⟩
  · exact absurd (heq.symm.trans hr) fun h => resumePass_never _ _ _ _ h p ls rfl
  · cases hp.symm.trans hr
    exact ⟨p, ls, t, hr, hcount, hs', hn⟩

/-- A budget does what a round is meant to do exactly where it fits. -/
theorem advances_iff (hk : 0 < k)
    (hs : Suspended ex order cp.position cp.loopState (resumeState cp)) :
    Advances ex cp k ↔ BudgetFits ex cp k := by
  cases hfind : (stops ex cp).find? (k ≤ ·) with
  | none =>
    have hsame := resumeRun_done hver horder hfind
    have hnodes : executed ex cp (budget k) = remaining ex cp := by
      rw [executed, hsame, remaining, executed]
    have hresult : resume ex cp (budget k) = resume ex cp .default := by
      rw [resume_eq_finishPass, resume_eq_finishPass, hsame]
    constructor
    · intro h
      have hle := h.nodes
      rw [hnodes] at hle
      refine ⟨fun hlt => by omega, fun hpos hle => ⟨hfind, ?_⟩⟩
      rw [← hresult]
      exact h.completes hpos hle
    · intro h
      refine ⟨?_, fun hpos hle => ?_⟩
      · by_cases hlt : k < remaining ex cp
        · have hpause := h.pauses hlt
          rw [hfind] at hpause
          cases hpause
        · omega
      · rw [hresult]
        exact (h.completes hpos hle).2
  | some m =>
    obtain ⟨p, ls, t, hrun, rfl, -, hrest⟩ := resumeRun_paused hwf hver horder hs hfind
    have hnodes : executed ex cp (budget k) = t.nodeCount - cp.nodeCount := by
      rw [executed, hrun]
      rfl
    have hup : t.nodeCount ≤ (finalState (resumeRun ex cp .default)).nodeCount := by
      rw [hrest]
      exact continueRun_countUp p ls t
    have hnot : ¬ (resume ex cp (budget k)).Completed := by
      rw [resume_eq_finishPass, hrun]
      rintro ⟨result, h⟩
      cases h
    have hr : remaining ex cp = (finalState (resumeRun ex cp .default)).nodeCount - cp.nodeCount := rfl
    constructor
    · intro h
      have hmin := h.nodes
      rw [hnodes] at hmin
      refine ⟨fun hlt => ?_, fun hpos hle => absurd (h.completes hpos hle) hnot⟩
      rw [hfind]
      congr 1
      omega
    · intro h
      refine ⟨?_, fun hpos hle => ?_⟩
      · rw [hnodes]
        by_cases hlt : k < remaining ex cp
        · have hpause := h.pauses hlt
          rw [hfind, Option.some.injEq] at hpause
          omega
        · by_cases hpos : 0 < remaining ex cp
          · have hend := (h.completes hpos (by omega)).1
            rw [hfind] at hend
            cases hend
          · omega
      · have hend := (h.completes hpos hle).1
        rw [hfind] at hend
        cases hend

/-- A round that is not the last: the execution is paused `k` nodes further, and the rest is what the
uninterrupted run does from there. -/
theorem resume_budget_paused (hs : Suspended ex order cp.position cp.loopState (resumeState cp))
    (hfits : BudgetFits ex cp k) (hlt : k < remaining ex cp) :
    ∃ cp', (resume ex cp (budget k)).result = .ok (.paused cp') ∧
      cp'.nodeCount = cp.nodeCount + k ∧ (cp'.LoopVarIntact ex →
        remaining ex cp' = remaining ex cp - k ∧
        (resume ex cp' .default).result = (resume ex cp .default).result) := by
  obtain ⟨p, ls, t, hrun, hcount, hsus, hrest⟩ := resumeRun_paused hwf hver horder hs (hfits.pauses hlt)
  refine ⟨buildCheckpoint t p ls, ?_, hcount, fun hintact => ?_⟩
  · rw [resume_eq_finishPass, hrun]
    rfl
  · obtain ⟨l, hl⟩ := resumePass_default (suspended_buildCheckpoint hsus) hintact
    have ht : withLog t.log (resumeState (buildCheckpoint t p ls)) = t := by
      simp [withLog, resumeState, buildCheckpoint]
    have hcont : resumeRun ex cp .default = mapState (withLog t.log)
        (continueRun ex order p ls (resumeState (buildCheckpoint t p ls))) := by
      rw [hrest, ← continueRun_logFree, ht]
    have hnext : resumeRun ex (buildCheckpoint t p ls) .default = mapState (withLog l)
        (continueRun ex order p ls (resumeState (buildCheckpoint t p ls))) := by
      rw [resumeRun_eq hver horder]
      exact hl
    constructor
    · rw [remaining, executed, remaining, executed, hcont, hnext, finalState_withLog, finalState_withLog]
      show _ - t.nodeCount = _
      rw [hcount, Nat.sub_add_eq]
    · rw [resume_eq_finishPass, resume_eq_finishPass, hcont, hnext, finishPass_withLog,
        finishPass_withLog]

end Settled

end Rounds

end Tinypipe
