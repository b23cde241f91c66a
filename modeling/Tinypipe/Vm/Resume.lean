import Tinypipe.Vm.Frame
import Tinypipe.Vm.Order

/-! Pause and resume. A run with pauses either takes the steps of the uninterrupted run,
or stops in a state from which the uninterrupted run goes on: first for a pass over a
loop body, then for the iterations, the LOOP and the main pass. Resuming a checkpoint
rebuilds that state, except that the loop variable is written again. -/

namespace Tinypipe

open Lib Lib.Stateful

/-- The policy of an uninterrupted run, as the loops get it. -/
abbrev never : Option PausePolicy := some PausePolicy.default

@[simp] theorem shouldPause_default (n : Nat) (id : Text) :
    PausePolicy.default.shouldPause n id = false := rfl

@[simp] theorem pauses_never (n : Nat) (id : Text) : pauses never n id = false := rfl

section Loop

variable {ex : Executor} {visit : List Frame} {pause : Option PausePolicy}

/-- A pass over the body that pauses stops at a position the uninterrupted pass goes on from. -/
theorem runBody_split : ∀ (position : Nat) (nodes : List Nat) (s : ExecState),
    runBody ex visit pause position nodes s = runBody ex visit never position nodes s ∨
      ∃ k t, runBody ex visit pause position nodes s = .ok (.paused k) t ∧
        position < k ∧ k ≤ position + nodes.length ∧
        runBody ex visit never position nodes s =
          runBody ex visit never k (nodes.drop (k - position)) t
  | _, [], _ => Or.inl rfl
  | position, idx :: rest, s => by
    have step : ∀ t, runBody ex visit pause (position + 1) rest t =
          runBody ex visit never (position + 1) rest t ∨
        ∃ k u, runBody ex visit pause (position + 1) rest t = .ok (.paused k) u ∧
          position < k ∧ k ≤ position + (idx :: rest).length ∧
          runBody ex visit never (position + 1) rest t =
            runBody ex visit never k ((idx :: rest).drop (k - position)) u := by
      intro t
      refine (runBody_split (position + 1) rest t).imp_right ?_
      rintro ⟨k, u, hp, hk, hlen, hn⟩
      have hdrop : k - position = (k - (position + 1)) + 1 := by omega
      refine ⟨k, u, hp, by omega, ?_, by rw [hn, hdrop, List.drop_succ_cons]⟩
      rw [List.length_cons]
      omega
    cases hb : bodyNode ex visit idx s with
    | error e t => exact Or.inl (by simp only [runBody, bind_of_error _ hb])
    | ok r t =>
      simp only [runBody, bind_of_ok _ hb]
      match r with
      | none => exact step t
      | some (nd, .nextUnpaused) => exact step t
      | some (nd, .breakLoop) => exact Or.inl rfl
      | some (nd, .skipRest) => exact Or.inl rfl
      | some (nd, .next) =>
        simp only [get_bind, pauses_never, Bool.false_eq_true, if_false]
        by_cases hp : pauses pause t.nodeCount nd.id = true
        · simp only [if_pos hp]
          refine Or.inr ⟨position + 1, t, rfl, by omega, by rw [List.length_cons]; omega, ?_⟩
          rw [Nat.add_sub_cancel_left, List.drop_one, List.tail_cons]
        · simp only [if_neg hp]
          exact step t

theorem runBody_never : ∀ (position : Nat) (nodes : List Nat),
    Returns (fun r => ∀ k, r ≠ .paused k) (runBody ex visit never position nodes)
  | _, [] => Returns.pure (by rintro k ⟨⟩)
  | position, idx :: rest => by
    refine Returns.bind_any fun r => ?_
    split
    · exact runBody_never _ rest
    · exact runBody_never _ rest
    · exact Returns.pure (by rintro k ⟨⟩)
    · exact Returns.pure (by rintro k ⟨⟩)
    · exact Returns.bind_any fun s => runBody_never _ rest

variable {loop : Nat} {target : Option Text} {body : List Nat}

/-- An iteration from a position on, without the write of the loop variable, and the
iterations after it. -/
def iterationRest (ex : Executor) (visit : List Frame) (pause : Option PausePolicy) (loop : Nat)
    (target : Option Text) (body : List Nat) (remaining iteration start : Nat) : M NodeOutcome := do
  match ← runBody ex (visit ++ [.iteration loop iteration]) pause start (body.drop start) with
  | .finished => runIterations ex visit pause loop target body remaining (iteration + 1) 0
  | .broke => pure .ok
  | .paused position => pure (.paused ⟨loop, iteration, position⟩)

theorem runIterations_succ (remaining iteration start : Nat) :
    runIterations ex visit pause loop target body (remaining + 1) iteration start =
      (writeOutput target (.int (Int64.ofNat iteration)) >>= fun _ =>
        noteIteration visit loop iteration start >>= fun _ =>
          iterationRest ex visit pause loop target body remaining iteration start) := rfl

theorem noteIteration_resumed (visit : List Frame) {loop i start : Nat} (h : 0 < start)
    (s : ExecState) : noteIteration visit loop i start s = .ok ⟨⟩ s := by
  simp only [noteIteration, modify_apply, if_neg (Nat.ne_of_gt h)]

theorem writeOutput_ok (target : Option Text) (v : Value) (s : ExecState) :
    ∃ s', writeOutput target v s = .ok () s' ∧ s'.nodeOutputs = s.nodeOutputs := by
  cases target with
  | none => exact ⟨_, rfl, rfl⟩
  | some x => exact ⟨_, rfl, rfl⟩

/-- A loop state lies behind an iteration and a position in it. -/
def LoopState.Behind (ls : LoopState) (cursor : Nat × Nat) : Prop :=
  cursor.1 < ls.iteration ∨ cursor.1 = ls.iteration ∧ cursor.2 < ls.bodyPosition

theorem runIterations_split : ∀ (remaining iteration start : Nat) (s : ExecState),
    runIterations ex visit pause loop target body remaining iteration start s =
        runIterations ex visit never loop target body remaining iteration start s ∨
      ∃ ls rest t, runIterations ex visit pause loop target body remaining iteration start s =
          .ok (.paused ls) t ∧ ls.loopIndex = loop ∧ ls.Behind (iteration, start) ∧
        0 < ls.bodyPosition ∧ ls.bodyPosition ≤ body.length ∧
        ls.iteration + rest + 1 = iteration + remaining ∧
        runIterations ex visit never loop target body remaining iteration start s =
          iterationRest ex visit never loop target body rest ls.iteration ls.bodyPosition t
  | 0, _, _, _ => Or.inl rfl
  | remaining + 1, iteration, start, s => by
    rw [runIterations_succ, runIterations_succ]
    obtain ⟨s', hw, -⟩ := writeOutput_ok target (.int (Int64.ofNat iteration)) s
    rw [bind_of_ok _ hw, bind_of_ok _ hw, noteIteration, modify_bind, modify_bind]
    generalize (if start = 0 then _ else s' : ExecState) = s'
    rcases @runBody_split ex (visit ++ [.iteration loop iteration]) pause start (body.drop start) s'
      with heq | ⟨k, t, hp, hk, hlen, hn⟩
    · simp only [iterationRest, bind_apply, heq]
      cases runBody ex (visit ++ [.iteration loop iteration]) never start (body.drop start) s' with
      | error e t => exact Or.inl rfl
      | ok r t =>
        match r with
        | .broke => exact Or.inl rfl
        | .paused k => exact Or.inl rfl
        | .finished =>
          refine (runIterations_split remaining (iteration + 1) 0 t).imp_right ?_
          rintro ⟨ls, rest, u, hp, hloop, hlater, hpos, hlen, hi, hn⟩
          refine ⟨ls, rest, u, hp, hloop, Or.inl ?_, hpos, hlen, by omega, hn⟩
          rcases hlater with h | ⟨h, -⟩ <;> exact Nat.lt_of_succ_le (by simp at h; omega)
    · rw [List.length_drop] at hlen
      refine Or.inr ⟨⟨loop, iteration, k⟩, remaining, t, ?_, rfl, Or.inr ⟨rfl, hk⟩,
        Nat.zero_lt_of_lt hk, by show k ≤ _; omega, by show iteration + _ + _ = _; omega, ?_⟩
      · simp only [iterationRest, bind_apply, hp]
        rfl
      · have hdrop : (body.drop start).drop (k - start) = body.drop k := by
          rw [List.drop_drop]
          congr 1
          omega
        rw [hdrop] at hn
        simp only [iterationRest, bind_apply, hn]

theorem runIterations_never : ∀ (remaining iteration start : Nat),
    Returns (fun r => ∀ ls, r ≠ .paused ls)
      (runIterations ex visit never loop target body remaining iteration start)
  | 0, _, _ => Returns.pure (by rintro k ⟨⟩)
  | remaining + 1, iteration, start => by
    refine Returns.bind_any fun _ => Returns.bind_any fun _ =>
      Returns.bind (runBody_never _ _) fun r hr => ?_
    match r, hr with
    | .finished, _ => exact runIterations_never remaining _ _
    | .broke, _ => exact Returns.pure (by rintro k ⟨⟩)
    | .paused k, hr => exact absurd rfl (hr k)

theorem iterationRest_never (remaining iteration start : Nat) :
    Returns (fun r => ∀ ls, r ≠ .paused ls)
      (iterationRest ex visit never loop target body remaining iteration start) := by
  refine Returns.bind (runBody_never _ _) fun r hr => ?_
  match r, hr with
  | .finished, _ => exact runIterations_never remaining _ _
  | .broke, _ => exact Returns.pure (by rintro k ⟨⟩)
  | .paused k, hr => exact absurd rfl (hr k)

theorem iterationRest_logFree {l : List Event} (remaining iteration start : Nat) :
    Commutes (withLog l)
      (iterationRest ex visit pause loop target body remaining iteration start) := by
  refine Commutes.bind (runBody_logFree _ _) fun r => ?_
  split
  · exact runIterations_logFree loop target body remaining _ _
  · exact Commutes.pure _
  · exact Commutes.pure _

end Loop

/-! ### The LOOP -/

section RunLoop

variable {ex : Executor} {order : List Nat} {bodies : List (Nat × Finset Nat)}
  {visit : List Frame} {pause : Option PausePolicy} {nd : CompiledNode}

/-- The variable a LOOP counts in. -/
def loopTarget (nd : CompiledNode) : Option Text := (nd.arg "target").map trimQuotes

/-- The body of a LOOP in execution order. -/
def bodyVec (plan : CompiledPlan) (order : List Nat) (loop : Nat) : List Nat :=
  order.filter (· ∈ plan.loopBody loop)

/-- A LOOP from a body position of an iteration to its end. -/
def loopRest (ex : Executor) (order : List Nat) (bodies : List (Nat × Finset Nat))
    (visit : List Frame) (nd : CompiledNode) (i k : Nat) : M NodeOutcome := do
  let s ← get
  match ← iterationRest ex visit never nd.index (loopTarget nd) (bodyVec ex.plan order nd.index)
      (loopBound ex.plan s.nodeOutputs nd - i - 1) i k with
  | .paused ls => pure (.paused ls)
  | .ok => finishLoop ex bodies nd

/-- The state of a pause in an iteration of a LOOP: the body is out of the main pass, and
the iteration is below the bound. -/
structure PausedIn (ex : Executor) (order : List Nat) (nd : CompiledNode) (ls : LoopState)
    (t : ExecState) : Prop where
  loopIndex : ls.loopIndex = nd.index
  anchors : ex.plan.anchors nd.index false ≠ []
  skipped : ex.plan.loopBody nd.index ⊆ t.loopSkipped
  iteration_lt : ls.iteration < loopBound ex.plan t.nodeOutputs nd
  position_pos : 0 < ls.bodyPosition
  position_le : ls.bodyPosition ≤ order.length

theorem runLoop_split (hwf : ex.plan.WellFormed) (horder : ex.plan.topologicalOrder = .ok order)
    (bodies : List (Nat × Finset Nat)) (visit : List Frame) (pause : Option PausePolicy)
    (nd : CompiledNode) (cursor : Nat × Nat) (s : ExecState) :
    runLoop ex order bodies visit pause cursor nd s =
        runLoop ex order bodies visit never cursor nd s ∨
      ∃ ls t, runLoop ex order bodies visit pause cursor nd s = .ok (.paused ls) t ∧
        PausedIn ex order nd ls t ∧ ls.Behind cursor ∧
        runLoop ex order bodies visit never cursor nd s =
          loopRest ex order bodies visit nd ls.iteration ls.bodyPosition t := by
  by_cases ha : ex.plan.anchors nd.index false = []
  · exact Or.inl (by simp only [runLoop, get_bind, if_pos ha])
  simp only [runLoop, get_bind, if_neg ha, modify_bind]
  generalize hs1 : ({ s with loopSkipped := s.loopSkipped ∪ ex.plan.loopBody nd.index } :
    ExecState) = s1
  rcases @runIterations_split ex visit pause nd.index (loopTarget nd)
    (bodyVec ex.plan order nd.index) (loopBound ex.plan s.nodeOutputs nd - cursor.1) cursor.1 cursor.2 s1 with
    heq | ⟨ls, rest, t, hp, hloop, hlater, hpos, hlen, hi, hn⟩
  · exact Or.inl (bind_congr heq _)
  · right
    have hstep : BodyStep (ex.plan.loopBody nd.index) s1 t :=
      (runIterations_bodyStep hwf.index nd.index (loopTarget nd)
        (fun i hi => by simpa using (List.mem_filter.1 hi).2) _ _ _).ok hp
    have hbound : loopBound ex.plan t.nodeOutputs nd = loopBound ex.plan s.nodeOutputs nd := by
      refine loopBound_congr fun e he hto => ?_
      have hnot : e.fromIndex ∉ ex.plan.loopBody nd.index :=
        hto ▸ CompiledPlan.pred_notMem_loopBody hwf horder he
      rw [hstep.nodeOutputs _ hnot, ← hs1]
    have hle : cursor.1 ≤ ls.iteration := by rcases hlater with h | ⟨h, -⟩ <;> simp at h <;> omega
    refine ⟨ls, t, ?_, ⟨hloop, ha, ?_, by omega, hpos, hlen.trans (List.length_filter_le _ _)⟩, hlater, ?_⟩
    · exact bind_of_ok _ hp
    · rw [hstep.loopSkipped, ← hs1]
      exact Finset.subset_union_right
    · have hrest : rest = loopBound ex.plan t.nodeOutputs nd - ls.iteration - 1 := by omega
      subst hrest
      exact bind_congr hn _

theorem finishLoop_never : Returns (fun r => ∀ ls, r ≠ .paused ls) (finishLoop ex bodies nd) :=
  Returns.bind_any fun _ => Returns.bind_any fun _ => Returns.bind_any fun _ =>
    Returns.pure (by rintro k ⟨⟩)

theorem runLoop_never (cursor : Nat × Nat) :
    Returns (fun r => ∀ ls, r ≠ .paused ls) (runLoop ex order bodies visit never cursor nd) := by
  refine Returns.bind_any fun s => Returns.ite finishLoop_never (Returns.bind_any fun _ => ?_)
  refine Returns.bind (runIterations_never _ _ _) fun r hr => ?_
  match r, hr with
  | .ok, _ => exact finishLoop_never
  | .paused ls, hr => exact absurd rfl (hr ls)

/-- Resuming a LOOP writes its variable and goes on. -/
theorem runLoop_resume {ls : LoopState} {t : ExecState} (h : PausedIn ex order nd ls t) :
    runLoop ex order bodies visit never (ls.iteration, ls.bodyPosition) nd t =
      (writeOutput (loopTarget nd) (.int (Int64.ofNat ls.iteration)) >>= fun _ =>
        loopRest ex order bodies visit nd ls.iteration ls.bodyPosition) t := by
  have hskip : t.loopSkipped ∪ ex.plan.loopBody nd.index = t.loopSkipped :=
    Finset.union_eq_left.2 h.skipped
  have hsame : ({ t with loopSkipped := t.loopSkipped ∪ ex.plan.loopBody nd.index } : ExecState) =
      t := by rw [hskip]
  obtain ⟨n, hn⟩ : ∃ n, loopBound ex.plan t.nodeOutputs nd = n + ls.iteration + 1 :=
    ⟨loopBound ex.plan t.nodeOutputs nd - ls.iteration - 1, by have := h.iteration_lt; omega⟩
  have hsucc : n + ls.iteration + 1 - ls.iteration = n + 1 := by omega
  have hpred : n + ls.iteration + 1 - ls.iteration - 1 = n := by omega
  obtain ⟨t', hw, hout⟩ := writeOutput_ok (loopTarget nd) (.int (Int64.ofNat ls.iteration)) t
  rw [bind_of_ok _ hw]
  simp only [runLoop, get_bind, if_neg h.anchors, modify_bind, hsame, hn, hsucc, runIterations_succ]
  simp only [loopRest, get_bind, hout, hn, hpred]
  exact bind_congr ((bind_of_ok _ hw).trans
    (bind_of_ok _ (noteIteration_resumed visit h.position_pos t'))) _

theorem loopRest_never (i k : Nat) :
    Returns (fun r => ∀ ls, r ≠ .paused ls) (loopRest ex order bodies visit nd i k) := by
  refine Returns.bind_any fun s => Returns.bind (iterationRest_never _ _ _) fun r hr => ?_
  match r, hr with
  | .ok, _ => exact finishLoop_never
  | .paused ls, hr => exact absurd rfl (hr ls)

theorem loopRest_logFree {l : List Event} (i k : Nat) :
    Commutes (withLog l) (loopRest ex order bodies visit nd i k) := by
  refine Commutes.get_bind (fun _ => rfl) fun s => Commutes.bind (iterationRest_logFree _ _ _)
    fun r => ?_
  split
  · exact Commutes.pure _
  · exact finishLoop_logFree

end RunLoop

end Tinypipe
