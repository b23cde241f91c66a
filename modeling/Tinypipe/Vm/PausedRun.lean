import Tinypipe.Vm.Resume
import Tinypipe.Programs

/-! Runs that are paused and resumed, against the uninterrupted run. -/

namespace Tinypipe

open Lib Lib.Stateful

/-! ### The main pass -/

section MainPass

variable {ex : Executor} {order : List Nat}

/-- Only a LOOP looks at the policy. -/
theorem runArm_pause {bodies : List (Nat × Finset Nat)} {visit : List Frame} {nd : CompiledNode}
    (runNode : List Frame → CompiledNode → M NodeOutcome) (pause pause' : Option PausePolicy)
    (hop : nd.op ≠ .loop) :
    runArm ex order bodies runNode visit pause nd =
      runArm ex order bodies runNode visit pause' nd := by
  unfold runArm
  split
  · contradiction
  · rfl
  · rfl

theorem runNode_split (hwf : ex.plan.WellFormed) (horder : ex.plan.topologicalOrder = .ok order)
    (bodies : List (Nat × Finset Nat)) (visit : List Frame) (pause : Option PausePolicy)
    (fuel : Nat) (nd : CompiledNode) (s : ExecState) :
    runNode ex order bodies fuel visit pause nd s = runNode ex order bodies fuel visit never nd s ∨
      ∃ ls t, runNode ex order bodies fuel visit pause nd s = .ok (.paused ls) t ∧
        PausedIn ex order nd ls t ∧
        runNode ex order bodies fuel visit never nd s =
          loopRest ex order bodies visit nd ls.iteration ls.bodyPosition t := by
  cases fuel with
  | zero => exact Or.inl rfl
  | succ fuel =>
    simp only [runNode, runNodeWith, get_bind]
    by_cases hready : ready ex.plan bodies s nd = true
    · simp only [if_pos hready]
      cases he : enterNode ex visit nd s with
      | error e t => exact Or.inl (by simp only [bind_of_error _ he])
      | ok _ t =>
        simp only [bind_of_ok _ he]
        by_cases hop : nd.op = .loop
        · simp only [runArm, hop]
          refine (runLoop_split hwf horder bodies visit pause nd (0, 0) t).imp_right ?_
          rintro ⟨ls, u, hp, hin, -, hn⟩
          exact ⟨ls, u, hp, hin, hn⟩
        · exact Or.inl (by rw [runArm_pause _ pause never hop])
    · simp only [if_neg hready]
      exact Or.inl trivial

theorem runNode_never {bodies : List (Nat × Finset Nat)} {visit : List Frame}
    (fuel : Nat) (nd : CompiledNode) :
    Returns (fun r => ∀ ls, r ≠ .paused ls) (runNode ex order bodies fuel visit never nd) := by
  have done : Returns (fun r => ∀ ls, r ≠ .paused ls) (pure .ok : M NodeOutcome) :=
    Returns.pure (by rintro k ⟨⟩)
  cases fuel with
  | zero => exact Returns.throw _
  | succ fuel =>
    refine Returns.bind_any fun s => Returns.ite (Returns.bind_any fun _ => ?_) done
    unfold runArm
    split
    · exact runLoop_never _
    · exact Returns.bind_any fun _ => done
    · exact Returns.bind_any fun _ => Returns.bind_any fun _ => done

/-- The uninterrupted run from a pause on. -/
def continueRun (ex : Executor) (order : List Nat) (position : Nat) :
    Option LoopState → M PassOutcome
  | none => mainPass ex order .default (order.drop position) position
  | some ls =>
    match ex.plan.getNode ls.loopIndex with
    | none => throw (.nodeNotFound (("loop " : Text) ++ Text.ofNat ls.loopIndex))
    | some nd => do
      match ← loopRest ex order ex.plan.identifyLoopBodies [] nd ls.iteration ls.bodyPosition with
      | .paused ls' => pure (.paused position (some ls'))
      | .ok => mainPass ex order .default (order.drop (position + 1)) (position + 1)

/-- The state of a pause of the main pass. -/
structure Suspended (ex : Executor) (order : List Nat) (position : Nat) (ls : Option LoopState)
    (t : ExecState) : Prop where
  position_lt : position < order.length
  inLoop : ∀ l, ls = some l → ∃ nd, ex.plan.getNode l.loopIndex = some nd ∧ PausedIn ex order nd l t

theorem mainPass_default {idx : Nat} {nd : CompiledNode} (rest : List Nat) (position : Nat)
    (hnd : ex.plan.getNode idx = some nd) :
    mainPass ex order .default (idx :: rest) position = (do
      match ← runNode ex order ex.plan.identifyLoopBodies (ex.plan.nodes.length + 1) [] never nd with
      | .paused ls => pure (.paused position (some ls))
      | .ok => mainPass ex order .default rest (position + 1)) := by
  simp only [mainPass, hnd]
  congr 1
  funext r
  cases r with
  | paused ls => rfl
  | ok =>
    funext s
    simp only [get_bind, shouldPause_default, Bool.false_eq_true, and_false, if_false]

theorem mainPass_split (hwf : ex.plan.WellFormed) (horder : ex.plan.topologicalOrder = .ok order)
    (policy : PausePolicy) :
    ∀ (nodes : List Nat) (position : Nat) (s : ExecState), order.drop position = nodes →
      mainPass ex order policy nodes position s = mainPass ex order .default nodes position s ∨
        ∃ p ls t, mainPass ex order policy nodes position s = .ok (.paused p ls) t ∧
          Suspended ex order p ls t ∧ (position < p ∨ position = p ∧ ls.isSome) ∧
          mainPass ex order .default nodes position s = continueRun ex order p ls t
  | [], _, _, _ => Or.inl rfl
  | idx :: rest, position, s, hnodes => by
    have hrest : order.drop (position + 1) = rest := by
      rw [← List.tail_drop, hnodes, List.tail_cons]
    have hlt : position < order.length := by
      by_contra hn
      rw [List.drop_eq_nil_of_le (by omega)] at hnodes
      cases hnodes
    cases hnd : ex.plan.getNode idx with
    | none => exact Or.inl (by simp only [mainPass, hnd])
    | some nd =>
      rw [mainPass_default rest position hnd]
      simp only [mainPass, hnd]
      rcases runNode_split hwf horder ex.plan.identifyLoopBodies [] (some policy)
        (ex.plan.nodes.length + 1) nd s with
        heq | ⟨ls, t, hp, hin, hn⟩
      · simp only [bind_apply, heq]
        cases hrun : runNode ex order ex.plan.identifyLoopBodies (ex.plan.nodes.length + 1) []
            never nd s with
        | error e t => exact Or.inl rfl
        | ok r t =>
          cases r with
          | paused ls => exact Or.inl rfl
          | ok =>
            simp only [get_bind]
            by_cases hp : rest ≠ [] ∧ policy.shouldPause t.nodeCount nd.id = true
            · rw [if_pos hp]
              refine Or.inr ⟨position + 1, none, t, rfl, ⟨?_, by rintro l ⟨⟩⟩, by simp, ?_⟩
              · by_contra hn
                rw [List.drop_eq_nil_of_le (by omega)] at hrest
                exact hp.1 hrest.symm
              · simp only [continueRun, hrest]
            · rw [if_neg hp]
              refine (mainPass_split hwf horder policy rest (position + 1) t hrest).imp_right ?_
              rintro ⟨p, ls, u, hp, hs, hlater, hn⟩
              exact ⟨p, ls, u, hp, hs, Or.inl (by omega), hn⟩
      · right
        have hget : ex.plan.getNode ls.loopIndex = some nd := by
          rw [hin.loopIndex, hwf.index idx nd hnd, hnd]
        refine ⟨position, some ls, t, ?_, ⟨hlt, ?_⟩, Or.inr ⟨rfl, rfl⟩, ?_⟩
        · exact bind_of_ok _ hp
        · rintro l ⟨⟩
          exact ⟨nd, hget, hin⟩
        · simp only [continueRun, hget, hrest]
          exact bind_congr hn _

theorem mainPass_never : ∀ (nodes : List Nat) (position : Nat),
    Returns (fun r => ∀ p ls, r ≠ .paused p ls) (mainPass ex order .default nodes position)
  | [], _ => Returns.pure (by rintro p ls ⟨⟩)
  | idx :: rest, position => by
    unfold mainPass
    split
    · exact Returns.throw _
    · refine Returns.bind (runNode_never _ _) fun r hr => ?_
      match r, hr with
      | .paused ls, hr => exact absurd rfl (hr ls)
      | .ok, _ =>
        refine Returns.bind_any fun s => ?_
        rw [if_neg (by simp)]
        exact mainPass_never rest _

theorem continueRun_logFree {l : List Event} (position : Nat) (ls : Option LoopState) :
    Commutes (withLog l) (continueRun ex order position ls) := by
  unfold continueRun
  split
  · exact mainPass_logFree _ _ _
  · split
    · exact Commutes.throw _
    · refine Commutes.bind (loopRest_logFree _ _) fun r => ?_
      split
      · exact Commutes.pure _
      · exact mainPass_logFree _ _ _

end MainPass

/-! ### Progress -/

/-- What a paused run has before it, as a measure that goes down. -/
def pauseRank (order : List Nat) (position : Nat) : Option LoopState → Nat × Nat × Nat
  | none => (2 * (order.length - position) + 1, 0, 0)
  | some ls => (2 * (order.length - position), 2 ^ 32 - ls.iteration,
      order.length - ls.bodyPosition)

def RankLt : Nat × Nat × Nat → Nat × Nat × Nat → Prop :=
  Prod.Lex (· < ·) (Prod.Lex (· < ·) (· < ·))

theorem rankLt_wf : WellFounded RankLt :=
  WellFounded.prod_lex Nat.lt_wfRel.wf (WellFounded.prod_lex Nat.lt_wfRel.wf Nat.lt_wfRel.wf)

theorem edgeBound_lt {plan : CompiledPlan} {o : Nat → Option Value} {nd : CompiledNode}
    {e : CompiledEdge} {n : Nat} (h : edgeBound plan o nd e = some n) : n < 2 ^ 32 := by
  unfold edgeBound at h
  split at h
  · split at h
    · cases h
      exact Nat.mod_lt _ (by decide)
    · cases h
  · cases h

theorem staticBound_lt (nd : CompiledNode) : staticBound nd < 2 ^ 32 := by
  unfold staticBound
  split
  case h_1 v _ =>
    cases h : Text.parseUnsigned 32 v with
    | none => decide
    | some n => exact Text.parseUnsigned_lt h
  · decide

theorem loopBound_lt (plan : CompiledPlan) (o : Nat → Option Value) (nd : CompiledNode) :
    loopBound plan o nd < 2 ^ 32 := by
  unfold loopBound
  cases h : plan.edges.findSome? (edgeBound plan o nd) with
  | none => exact staticBound_lt nd
  | some n =>
    obtain ⟨e, -, he⟩ := List.exists_of_findSome?_eq_some h
    exact edgeBound_lt he

section Progress

variable {ex : Executor} {order : List Nat}

theorem rank_of_later {position p : Nat} {ls ls' : Option LoopState} (hp : p < order.length)
    (h : position < p) : RankLt (pauseRank order p ls') (pauseRank order position ls) := by
  cases ls <;> cases ls' <;> exact Prod.Lex.left _ _ (by omega)

theorem rank_of_entered {position : Nat} (ls' : LoopState) :
    RankLt (pauseRank order position (some ls')) (pauseRank order position none) :=
  Prod.Lex.left _ _ (by omega)

theorem rank_of_behind {position : Nat} {nd : CompiledNode} {ls ls' : LoopState} {t : ExecState}
    (hin : PausedIn ex order nd ls' t)
    (h : ls'.Behind (ls.iteration, ls.bodyPosition)) :
    RankLt (pauseRank order position (some ls')) (pauseRank order position (some ls)) := by
  have hlt := hin.iteration_lt.trans (loopBound_lt ex.plan t.nodeOutputs nd)
  have hle := hin.position_le
  refine Prod.Lex.right _ ?_
  rcases h with h | ⟨h, h'⟩
  · exact Prod.Lex.left _ _ (by simp only at h; omega)
  · simp only at h h'
    rw [h]
    exact Prod.Lex.right _ (by omega)

end Progress

/-! ### Resuming -/

section Resuming

variable {ex : Executor} {order : List Nat}

theorem resumePass_split (hwf : ex.plan.WellFormed)
    (horder : ex.plan.topologicalOrder = .ok order) (policy : PausePolicy) {cp : Checkpoint}
    {s₀ : ExecState} (hs : Suspended ex order cp.position cp.loopState s₀) (s : ExecState) :
    resumePass ex order policy cp s = resumePass ex order .default cp s ∨
      ∃ p ls t, resumePass ex order policy cp s = .ok (.paused p ls) t ∧
        Suspended ex order p ls t ∧
        RankLt (pauseRank order p ls) (pauseRank order cp.position cp.loopState) ∧
        resumePass ex order .default cp s = continueRun ex order p ls t := by
  have pass : ∀ (q : Nat) (t : ExecState),
      mainPass ex order policy (order.drop q) q t = mainPass ex order .default (order.drop q) q t ∨
      ∃ p ls u, mainPass ex order policy (order.drop q) q t = .ok (.paused p ls) u ∧
        Suspended ex order p ls u ∧ (q < p ∨ q = p ∧ ls.isSome) ∧
        mainPass ex order .default (order.drop q) q t = continueRun ex order p ls u :=
    fun q t => mainPass_split hwf horder policy (order.drop q) q t rfl
  match hls : cp.loopState with
  | none =>
    simp only [resumePass, hls]
    refine (pass cp.position s).imp_right ?_
    rintro ⟨p, ls, t, hp, hsus, hlater, hn⟩
    refine ⟨p, ls, t, hp, hsus, ?_, hn⟩
    rcases hlater with h | ⟨rfl, h⟩
    · exact rank_of_later hsus.position_lt h
    · obtain ⟨l, rfl⟩ := Option.isSome_iff_exists.1 h
      exact rank_of_entered l
  | some ls =>
    obtain ⟨nd, hnd, hin⟩ := hs.inLoop ls hls
    simp only [resumePass, hls, hnd]
    rcases runLoop_split hwf horder ex.plan.identifyLoopBodies [] (some policy) nd
      (ls.iteration, ls.bodyPosition) s with
      heq | ⟨ls', t, hp, hin', hbehind, hn⟩
    · simp only [bind_apply, heq]
      cases runLoop ex order ex.plan.identifyLoopBodies [] never
          (ls.iteration, ls.bodyPosition) nd s with
      | error e t => exact Or.inl rfl
      | ok r t =>
        match r with
        | .paused ls' => exact Or.inl rfl
        | .ok =>
          refine (pass (cp.position + 1) t).imp_right ?_
          rintro ⟨p, ls', u, hp, hsus, hlater, hn⟩
          exact ⟨p, ls', u, hp, hsus, rank_of_later hsus.position_lt (by omega), hn⟩
    · have hget : ex.plan.getNode ls'.loopIndex = some nd := by
        rw [hin'.loopIndex, ← hin.loopIndex, hnd]
      refine Or.inr ⟨cp.position, some ls', t, ?_, ⟨hs.position_lt, ?_⟩,
        rank_of_behind hin' hbehind, ?_⟩
      · exact bind_of_ok _ hp
      · rintro l ⟨⟩
        exact ⟨nd, hget, hin'⟩
      · simp only [continueRun, hget]
        exact bind_congr hn _

/-- Writing the loop variable again changes nothing: it still holds the number of the
iteration the checkpoint was taken in. -/
def Checkpoint.LoopVarIntact (ex : Executor) (cp : Checkpoint) : Prop :=
  ∀ ls nd v, cp.loopState = some ls → ex.plan.getNode ls.loopIndex = some nd →
    loopTarget nd = some v → cp.context.set v (.int (Int64.ofNat ls.iteration)) = cp.context

theorem writeOutput_intact {v : Value} {target : Option Text} {s : ExecState}
    (h : ∀ x, target = some x → s.ctx.set x v = s.ctx) :
    ∃ l, writeOutput target v s = .ok () { s with log := s.log ++ l } := by
  cases target with
  | none => exact ⟨[], by rw [List.append_nil]; rfl⟩
  | some x =>
    refine ⟨[.write x v], ?_⟩
    simp only [writeOutput, setVar, modify_apply, h x rfl]

/-- Resuming an intact checkpoint goes on where the uninterrupted run does. -/
theorem resumePass_default {cp : Checkpoint}
    (hs : Suspended ex order cp.position cp.loopState (resumeState cp))
    (hintact : cp.LoopVarIntact ex) :
    ∃ l, resumePass ex order .default cp (resumeState cp) =
      mapState (withLog l) (continueRun ex order cp.position cp.loopState (resumeState cp)) := by
  match hls : cp.loopState with
  | none =>
    refine ⟨[], ?_⟩
    rw [← continueRun_logFree]
    simp only [resumePass, continueRun, hls]
    rfl
  | some ls =>
    obtain ⟨nd, hnd, hin⟩ := hs.inLoop ls hls
    obtain ⟨l, hl⟩ := writeOutput_intact (s := resumeState cp)
      (v := .int (Int64.ofNat ls.iteration)) fun x hx => hintact ls nd x hls hnd hx
    refine ⟨l, ?_⟩
    have hlog : ({ resumeState cp with log := (resumeState cp).log ++ l } : ExecState) =
        withLog l (resumeState cp) := by
      simp [withLog, resumeState]
    rw [← continueRun_logFree]
    simp only [resumePass, continueRun, hls, hnd]
    rw [hlog] at hl
    exact bind_congr ((runLoop_resume hin).trans (bind_of_ok _ hl)) _

end Resuming

/-! ### Whole runs -/

section Runs

variable {ex : Executor} {order : List Nat}

/-- The segments of a run that is paused under one policy after another. After the last
of them nothing more happens. -/
def segment (ex : Executor) (inputs : Context) (policies : Nat → PausePolicy) : Nat → Segment
  | 0 => executeWith ex inputs (policies 0)
  | n + 1 => match (segment ex inputs policies n).result with
    | .ok (.paused cp) => resume ex cp (policies (n + 1))
    | _ => segment ex inputs policies n

/-- A segment that is not paused: the run is completed, or has failed. -/
def Segment.Ended (seg : Segment) : Prop := ∀ cp, seg.result ≠ .ok (.paused cp)

/-- How the uninterrupted run ends from a checkpoint on. -/
def restOf (ex : Executor) (order : List Nat) (cp : Checkpoint) :
    Except ExecutionError ExecutionOutcome :=
  (finishPass (continueRun ex order cp.position cp.loopState (resumeState cp))).result

theorem finishPass_withLog (l : List Event)
    (r : EStateM.Result ExecutionError ExecState PassOutcome) :
    (finishPass (mapState (withLog l) r)).result = (finishPass r).result := by
  match r with
  | .ok .completed s => rfl
  | .ok (.paused p ls) s => rfl
  | .error e s => rfl

/-- A checkpoint keeps of a state all but the log. -/
theorem restOf_buildCheckpoint (p : Nat) (ls : Option LoopState) (t : ExecState) :
    restOf ex order (buildCheckpoint t p ls) = (finishPass (continueRun ex order p ls t)).result := by
  have ht : withLog t.log (resumeState (buildCheckpoint t p ls)) = t := by
    simp [withLog, resumeState, buildCheckpoint]
  calc restOf ex order (buildCheckpoint t p ls)
      = (finishPass (mapState (withLog t.log)
          (continueRun ex order p ls (resumeState (buildCheckpoint t p ls))))).result :=
        (finishPass_withLog _ _).symm
    _ = (finishPass (continueRun ex order p ls t)).result := by
        rw [← continueRun_logFree, ht]

theorem suspended_buildCheckpoint {p : Nat} {ls : Option LoopState} {t : ExecState}
    (h : Suspended ex order p ls t) :
    Suspended ex order p ls (resumeState (buildCheckpoint t p ls)) :=
  ⟨h.position_lt, fun l hl =>
    let ⟨nd, hnd, hin⟩ := h.inLoop l hl
    ⟨nd, hnd, hin.loopIndex, hin.anchors, hin.skipped, hin.iteration_lt, hin.position_pos,
      hin.position_le⟩⟩

/-- What holds of the segments of an intact run: a paused one continues to the result of
the uninterrupted run, any other has it. -/
def OnTrack (ex : Executor) (order : List Nat) (result : Except ExecutionError ExecutionOutcome)
    (seg : Segment) : Prop :=
  (seg.Ended ∧ seg.result = result) ∨
    ∃ cp, seg.result = .ok (.paused cp) ∧
      Suspended ex order cp.position cp.loopState (resumeState cp) ∧ restOf ex order cp = result

theorem executeWith_eq (hver : checkVersionCompatibility ex.plan.version = .ok ())
    (horder : ex.plan.topologicalOrder = .ok order) (inputs : Context) (policy : PausePolicy) :
    executeWith ex inputs policy =
      finishPass (mainPass ex order policy order 0 (initialState ex inputs)) := by
  simp only [executeWith, hver, horder]

theorem resume_eq (hver : checkVersionCompatibility ex.plan.version = .ok ())
    (horder : ex.plan.topologicalOrder = .ok order) (cp : Checkpoint) (policy : PausePolicy) :
    resume ex cp policy = finishPass (resumePass ex order policy cp (resumeState cp)) := by
  simp only [resume, hver, horder]

theorem ended_finishPass {x : M PassOutcome} (h : Returns (fun r => ∀ p ls, r ≠ .paused p ls) x)
    (s : ExecState) : (finishPass (x s)).Ended := by
  intro cp hcp
  match hx : x s with
  | .ok .completed t => rw [hx] at hcp; cases hcp
  | .ok (.paused p ls) t => exact h s _ t hx p ls rfl
  | .error e t => rw [hx] at hcp; cases hcp

/-- An uninterrupted run is never paused. -/
theorem execute_ended (ex : Executor) (inputs : Context) : (execute ex inputs).Ended := by
  unfold execute executeWith
  split
  · rintro cp ⟨⟩
  · split
    · rintro cp ⟨⟩
    · exact ended_finishPass (mainPass_never _ _) _

theorem continueRun_never (position : Nat) (ls : Option LoopState) :
    Returns (fun r => ∀ p ls, r ≠ .paused p ls) (continueRun ex order position ls) := by
  unfold continueRun
  split
  · exact mainPass_never _ _
  · split
    · exact Returns.throw _
    · refine Returns.bind (loopRest_never _ _) fun r hr => ?_
      match r, hr with
      | .paused ls, hr => exact absurd rfl (hr ls)
      | .ok, _ => exact mainPass_never _ _

theorem executeWith_onTrack (hwf : ex.plan.WellFormed)
    (hver : checkVersionCompatibility ex.plan.version = .ok ())
    (horder : ex.plan.topologicalOrder = .ok order) (inputs : Context) (policy : PausePolicy) :
    OnTrack ex order (execute ex inputs).result (executeWith ex inputs policy) := by
  rw [execute, executeWith_eq hver horder, executeWith_eq hver horder]
  rcases mainPass_split hwf horder policy order 0 (initialState ex inputs) rfl with
    heq | ⟨p, ls, t, hp, hs, -, hn⟩
  · rw [heq]
    exact Or.inl ⟨ended_finishPass (mainPass_never _ _) _, rfl⟩
  · refine Or.inr ⟨buildCheckpoint t p ls, by rw [hp]; rfl, suspended_buildCheckpoint hs, ?_⟩
    rw [restOf_buildCheckpoint, ← hn]

theorem resume_onTrack (hwf : ex.plan.WellFormed)
    (hver : checkVersionCompatibility ex.plan.version = .ok ())
    (horder : ex.plan.topologicalOrder = .ok order) {cp : Checkpoint}
    (hs : Suspended ex order cp.position cp.loopState (resumeState cp))
    (hintact : cp.LoopVarIntact ex) (policy : PausePolicy) :
    OnTrack ex order (restOf ex order cp) (resume ex cp policy) ∧
      ∀ cp', (resume ex cp policy).result = .ok (.paused cp') →
        RankLt (pauseRank order cp'.position cp'.loopState)
          (pauseRank order cp.position cp.loopState) := by
  obtain ⟨l, hl⟩ := resumePass_default hs hintact
  have hrest : (finishPass (resumePass ex order .default cp (resumeState cp))).result =
      restOf ex order cp := by
    rw [hl, finishPass_withLog, restOf]
  rw [resume_eq hver horder]
  rcases resumePass_split hwf horder policy hs (resumeState cp) with
    heq | ⟨p, ls, t, hp, hsus, hlt, hn⟩
  · have hend : (finishPass (resumePass ex order policy cp (resumeState cp))).Ended := by
      intro cp' hcp
      rw [heq, hrest] at hcp
      exact ended_finishPass (continueRun_never _ _) _ cp' hcp
    exact ⟨Or.inl ⟨hend, by rw [heq, hrest]⟩, fun cp' hcp => absurd hcp (hend cp')⟩
  · rw [hp]
    refine ⟨Or.inr ⟨buildCheckpoint t p ls, rfl, suspended_buildCheckpoint hsus, ?_⟩, ?_⟩
    · rw [restOf_buildCheckpoint, ← hn, hrest]
    · rintro cp' ⟨⟩
      exact hlt

variable {inputs : Context} {policies : Nat → PausePolicy}

theorem segment_succ_paused {n : Nat} {cp : Checkpoint}
    (h : (segment ex inputs policies n).result = .ok (.paused cp)) :
    segment ex inputs policies (n + 1) = resume ex cp (policies (n + 1)) := by
  simp only [segment, h]

theorem segment_succ_ended {n : Nat} (h : (segment ex inputs policies n).Ended) :
    segment ex inputs policies (n + 1) = segment ex inputs policies n := by
  simp only [segment]
  split
  · exact absurd ‹_› (h _)
  · rfl

section Track

variable (hwf : ex.plan.WellFormed) (hver : checkVersionCompatibility ex.plan.version = .ok ())
  (horder : ex.plan.topologicalOrder = .ok order)
  (hintact : ∀ n cp, (segment ex inputs policies n).result = .ok (.paused cp) →
    cp.LoopVarIntact ex)

include hwf hver horder hintact

theorem segment_onTrack (n : Nat) :
    OnTrack ex order (execute ex inputs).result (segment ex inputs policies n) := by
  induction n with
  | zero => exact executeWith_onTrack hwf hver horder inputs _
  | succ n ih =>
    rcases ih with ⟨hend, hres⟩ | ⟨cp, hcp, hs, hrest⟩
    · exact Or.inl (by rw [segment_succ_ended hend]; exact ⟨hend, hres⟩)
    · rw [segment_succ_paused hcp, ← hrest]
      exact (resume_onTrack hwf hver horder hs (hintact n cp hcp) _).1

/-- The segments come to an end, whatever the policies: each resume moves the position in
the order, the iteration or the position in the body. -/
theorem segment_ends : ∃ n, (segment ex inputs policies n).Ended := by
  suffices h : ∀ r : Nat × Nat × Nat, ∀ n cp,
      (segment ex inputs policies n).result = .ok (.paused cp) →
      pauseRank order cp.position cp.loopState = r →
      ∃ m, (segment ex inputs policies m).Ended by
    by_cases h0 : (segment ex inputs policies 0).Ended
    · exact ⟨0, h0⟩
    · obtain ⟨cp, hcp⟩ := not_forall_not.1 h0
      exact h _ 0 cp hcp rfl
  intro r
  induction r using rankLt_wf.induction with
  | _ r ih =>
    intro n cp hcp hr
    have htrack := segment_onTrack hwf hver horder hintact n
    rcases htrack with ⟨hend, -⟩ | ⟨cp', hcp', hs, -⟩
    · exact absurd hcp (hend cp)
    obtain rfl : cp = cp' := by rw [hcp] at hcp'; cases hcp'; rfl
    by_cases hend : (segment ex inputs policies (n + 1)).Ended
    · exact ⟨n + 1, hend⟩
    · obtain ⟨next, hnext⟩ := not_forall_not.1 hend
      have hlt := (resume_onTrack hwf hver horder hs (hintact n cp hcp) (policies (n + 1))).2 next
        (by rw [← segment_succ_paused hcp]; exact hnext)
      exact ih _ (hr ▸ hlt) (n + 1) next hnext rfl

end Track

/-- A run of a validated plan that is paused and resumed, under any policies, comes to an
end, and it ends as the uninterrupted run does, when every checkpoint on the way is intact. -/
theorem segments_eq_execute {p : ExecutionPlan} (hv : validate p = .ok ()) (opts : List Text)
    (registry : Registry) (depth : Nat) (inputs : Context) (policies : Nat → PausePolicy)
    (hintact : ∀ n cp,
      (segment ⟨.fromExecutionPlan p opts, registry, depth⟩ inputs policies n).result =
        .ok (.paused cp) →
      cp.LoopVarIntact ⟨.fromExecutionPlan p opts, registry, depth⟩) :
    (∃ n, (segment ⟨.fromExecutionPlan p opts, registry, depth⟩ inputs policies n).Ended) ∧
      ∀ n, (segment ⟨.fromExecutionPlan p opts, registry, depth⟩ inputs policies n).Ended →
        (segment ⟨.fromExecutionPlan p opts, registry, depth⟩ inputs policies n).result =
          (execute ⟨.fromExecutionPlan p opts, registry, depth⟩ inputs).result := by
  generalize hex : (⟨.fromExecutionPlan p opts, registry, depth⟩ : Executor) = ex at *
  have hwf : ex.plan.WellFormed := hex ▸ wellFormed_of_validate opts hv
  have hver : checkVersionCompatibility ex.plan.version = .ok () := hex ▸ rfl
  cases horder : ex.plan.topologicalOrder with
  | ok order =>
    refine ⟨segment_ends hwf hver horder hintact, fun n hend => ?_⟩
    rcases segment_onTrack hwf hver horder hintact n with ⟨-, hres⟩ | ⟨cp, hcp, -⟩
    · exact hres
    · exact absurd hcp (hend cp)
  | error e =>
    have hrun : ∀ policy, executeWith ex inputs policy = ⟨.error e, []⟩ := by
      intro policy
      simp only [executeWith, hver, horder]
    have hseg : ∀ n, segment ex inputs policies n = ⟨.error e, []⟩ := by
      intro n
      induction n with
      | zero => exact hrun _
      | succ n ih => simp only [segment, ih]
    refine ⟨⟨0, ?_⟩, fun n _ => by rw [hseg, execute, hrun]⟩
    rw [hseg]
    rintro cp ⟨⟩

end Runs

/-! ### A loop that assigns its own variable -/

/-- The checkpoint of a paused segment. -/
def Segment.checkpoint (seg : Segment) : Option Checkpoint :=
  match seg.result with
  | .ok (.paused cp) => some cp
  | _ => none

theorem Segment.checkpoint_eq_some {seg : Segment} {cp : Checkpoint} :
    seg.checkpoint = some cp ↔ seg.result = .ok (.paused cp) := by
  unfold Segment.checkpoint
  split
  · simp [*]
  · simp only [reduceCtorEq, false_iff]
    exact fun h => ‹∀ cp, seg.result = .ok (.paused cp) → False› cp h

/-- `for i in range(1): <var> = i + 10; x = i` and `return x` -/
def countingLoop (var : Text) : ExecutionPlan := ExecutionPlan.new
  [⟨"n0", .loop, [⟨"target", .string "i"⟩, ⟨"max_iterations", .int 1⟩], none, none, none⟩,
   ⟨"n1", .calc, [⟨"expr", .string "i + 10"⟩, ⟨"output", .string var⟩], none, none, none⟩,
   ⟨"n2", .calc, [⟨"expr", .string "i"⟩, ⟨"output", .string "x"⟩], none, none, none⟩,
   ⟨"n3", .act, [⟨"type", .string "return"⟩, ⟨"value", .string "x"⟩], none, none, none⟩]
  [Edge.new "n0" "n1", Edge.new "n1" "n2", Edge.control "n0" "n3"]

/-- A pause behind the first node of the body, and none after it. -/
def pauseInBody (n : Nat) : PausePolicy :=
  if n = 0 then ⟨none, some ["n1"]⟩ else PausePolicy.default

def countingExecutor (var : Text) : Executor :=
  Executor.of (CompiledPlan.fromExecutionPlan (countingLoop var) [])

/-- Resuming inside the iteration undoes the assignment: `x` is 0, uninterrupted it is 10. -/
theorem segments_countingLoop_diverge :
    validate (countingLoop "i") = .ok () ∧
      (segment (countingExecutor "i") (inputsOf []) pauseInBody 1).output = some (.int 0) ∧
      (execute (countingExecutor "i") (inputsOf [])).output = some (.int 10) :=
  ⟨rfl, by decide +kernel, by decide +kernel⟩

theorem segments_eq_execute_countingLoop :
    (∃ n, (segment (countingExecutor "y") (inputsOf []) pauseInBody n).Ended) ∧
      ∀ n, (segment (countingExecutor "y") (inputsOf []) pauseInBody n).Ended →
        (segment (countingExecutor "y") (inputsOf []) pauseInBody n).result =
          (execute (countingExecutor "y") (inputsOf [])).result := by
  refine segments_eq_execute (p := countingLoop "y") rfl [] echo 0 (inputsOf []) pauseInBody ?_
  show ∀ n cp, (segment (countingExecutor "y") (inputsOf []) pauseInBody n).result =
    .ok (.paused cp) → cp.LoopVarIntact (countingExecutor "y")
  have hcp : (segment (countingExecutor "y") (inputsOf []) pauseInBody 0).checkpoint.map
      (fun cp => (cp.loopState, decide (cp.context.set "i" (.int 0) = cp.context))) =
      some (some ⟨0, 0, 1⟩, true) := by decide +kernel
  have hend : (segment (countingExecutor "y") (inputsOf []) pauseInBody 1).checkpoint.isNone := by
    decide +kernel
  have hlater : ∀ n, (segment (countingExecutor "y") (inputsOf []) pauseInBody (n + 1)) =
      segment (countingExecutor "y") (inputsOf []) pauseInBody 1 := by
    intro n
    induction n with
    | zero => rfl
    | succ n ih =>
      rw [segment_succ_ended, ih]
      intro cp h
      rw [ih, ← Segment.checkpoint_eq_some] at h
      rw [h] at hend
      cases hend
  intro n cp h ls nd v hls hnd hv
  rw [← Segment.checkpoint_eq_some] at h
  cases n with
  | succ n =>
    rw [hlater] at h
    rw [h] at hend
    cases hend
  | zero =>
    rw [h] at hcp
    simp only [Option.map_some, Option.some.injEq, Prod.mk.injEq, decide_eq_true_eq] at hcp
    obtain rfl : ls = ⟨0, 0, 1⟩ := by rw [hcp.1] at hls; cases hls; rfl
    have hvar : ((countingExecutor "y").plan.getNode 0).bind loopTarget = some "i" := by
      decide +kernel
    rw [hnd] at hvar
    have hvi : v = "i" := by
      rw [Option.bind_some, hv] at hvar
      exact Option.some.inj hvar
    rw [hvi]
    exact hcp.2

end Tinypipe
