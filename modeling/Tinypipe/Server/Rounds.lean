import Tinypipe.Ir.FlatBuffers
import Tinypipe.Store.Storage
import Tinypipe.Vm.Stops

/-! Rounds of the scheduler (`tinypipe-scheduler/src/lib.rs`): every paused execution is resumed
under a budget once. -/

namespace Tinypipe

open Lib Lib.Stateful

inductive SchedulerError where
  | storage (e : StorageError)
  | checkpointDecode (message : Text)
  | planDecode (message : Text)
  | envCheck (message : Text)
  | execution (e : ExecutionError)

structure SchedulerSummary where
  processed : Nat
  completed : Nat
  stillPaused : Nat
  failed : Nat
deriving DecidableEq

inductive ResumeOutcome where
  | completed
  | stillPaused

def SchedulerSummary.add (summary : SchedulerSummary) :
    Except SchedulerError ResumeOutcome → SchedulerSummary
  | .ok .completed => { summary with completed := summary.completed + 1 }
  | .ok .stillPaused => { summary with stillPaused := summary.stillPaused + 1 }
  | .error _ => { summary with failed := summary.failed + 1 }

/-- What a scheduler works with: the bytes of plans and of checkpoints, the check of a graph's
environment, and the tools. -/
structure Scheduler (Blob : Type) where
  fb : FlatBuffers Blob
  encodeCheckpoint : Checkpoint → Except Text Blob
  decodeCheckpoint : Blob → Except Text Checkpoint
  checkEnv : Text → Except Text Unit
  registry : Registry

/-- The time at which the segment of an execution ends, and how long the execution took. -/
abbrev Clock := Text → Text × Nat

namespace Scheduler

variable {Blob : Type} (sch : Scheduler Blob)

abbrev SchedulerM (Blob : Type) := EStateM SchedulerError (Tables Blob)

def onStorage {α : Type} (x : StorageM Blob α) : SchedulerM Blob α := EStateM.adaptExcept .storage x

/-- What `resume_one` makes of the end of a segment. -/
def record (clock : Clock) (id : Text) (e : Execution) :
    Except ExecutionError ExecutionOutcome → SchedulerM Blob ResumeOutcome
  | .error e => throw (.execution e)
  | .ok (.completed result) => do
    onStorage (Storage.saveExecution id { e with
      status := .completed
      output := result.output
      context := some result.context
      durationUs := some (clock id).2
      completedAt := some (clock id).1 })
    pure .completed
  | .ok (.paused cp) => match sch.encodeCheckpoint cp with
    | .error message => throw (.checkpointDecode message)
    | .ok blob => do
      onStorage (Storage.saveCheckpoint id blob)
      pure .stillPaused

def loadedCheckpoint (id : Text) : SchedulerM Blob Checkpoint := do
  match ← onStorage (Storage.loadCheckpoint id) with
  | none => throw (.checkpointDecode "no checkpoint stored for paused execution")
  | some blob => match sch.decodeCheckpoint blob with
    | .error message => throw (.checkpointDecode message)
    | .ok cp => pure cp

def loadedPlan (e : Execution) : SchedulerM Blob CompiledPlan := do
  match CompiledPlan.fromFbBytes sch.fb (← onStorage (Storage.loadPlanVersion e.graphId e.graphVersion)) with
  | .error message => throw (.planDecode message)
  | .ok plan => pure plan

def resumeOne (clock : Clock) (policy : PausePolicy) (id : Text) (e : Execution) :
    SchedulerM Blob ResumeOutcome := do
  let cp ← sch.loadedCheckpoint id
  let plan ← sch.loadedPlan e
  match sch.checkEnv e.graphId with
  | .error message => throw (.envCheck message)
  | .ok () => sch.record clock id e (resume ⟨plan, sch.registry, 0⟩ cp policy).result

/-- A resume that fails does not stop the round. -/
def resumeEach (clock : Clock) (policy : PausePolicy) :
    List (Text × Execution) → SchedulerSummary → SchedulerM Blob SchedulerSummary
  | [], summary => pure summary
  | (id, e) :: rest, summary => do
    let outcome ← attempt (sch.resumeOne clock policy id e)
    resumeEach clock policy rest (summary.add outcome)

def runOnce (clock : Clock) (maxNodes : Option Nat) : SchedulerM Blob SchedulerSummary := do
  let paused ← onStorage Storage.listPausedExecutions
  sch.resumeEach clock ⟨maxNodes, none⟩ paused ⟨paused.length, 0, 0, 0⟩

/-- The store behind some rounds of one budget. -/
def after (clocks : Nat → Clock) (k : Nat) (s : Tables Blob) : Nat → Tables Blob
  | 0 => s
  | n + 1 => finalState (sch.runOnce (clocks n) (some k) (after clocks k s n))

/-! ### One execution of a store -/

/-- An execution is paused in the store, can be resumed, and this is its checkpoint. -/
structure Holds (s : Tables Blob) (id : Text) (e : Execution) (plan : CompiledPlan) (cp : Checkpoint) :
    Prop where
  row : ∃ blob, s.executions.get id = some ⟨e, some blob⟩ ∧ sch.decodeCheckpoint blob = .ok cp
  paused : e.status = .paused
  version : ∃ r bytes, s.versions.get (e.graphId, e.graphVersion) = some r ∧
    r.executionPlan = some bytes ∧ CompiledPlan.fromFbBytes sch.fb bytes = .ok plan
  env : sch.checkEnv e.graphId = .ok ()

/-- A checkpoint comes back from its bytes. -/
def Persists (cp : Checkpoint) : Prop :=
  ∃ blob, sch.encodeCheckpoint cp = .ok blob ∧ sch.decodeCheckpoint blob = .ok cp

/-! ### A round, for one of its executions -/

/-- Two stores with the same row of an execution and the same versions of graphs. -/
def Agrees (id : Text) (s t : Tables Blob) : Prop :=
  t.versions = s.versions ∧ t.executions.get id = s.executions.get id

instance (id : Text) : Std.Refl (@Agrees Blob id) := ⟨fun _ => ⟨rfl, rfl⟩⟩

instance (id : Text) : IsTrans (Tables Blob) (Agrees id) :=
  ⟨fun _ _ _ h h' => ⟨h'.1.trans h.1, h'.2.trans h.2⟩⟩

variable {sch} {s t : Tables Blob} {id : Text} {e : Execution} {plan : CompiledPlan} {cp : Checkpoint}
  {clock : Clock} {policy : PausePolicy}

theorem Holds.of_agrees (h : sch.Holds s id e plan cp) (ht : Agrees id s t) : sch.Holds t id e plan cp := by
  refine ⟨?_, h.paused, ?_, h.env⟩
  · rw [ht.2]
    exact h.row
  · rw [ht.1]
    exact h.version

theorem Holds.checkpoint_eq {cp' : Checkpoint} (h : sch.Holds s id e plan cp)
    (h' : sch.Holds s id e plan cp') : cp = cp' := by
  obtain ⟨blob, hrow, hdecode⟩ := h.row
  obtain ⟨blob', hrow', hdecode'⟩ := h'.row
  cases hrow.symm.trans hrow'
  cases hdecode.symm.trans hdecode'
  rfl

theorem agrees_onStorage {α : Type} {x : StorageM Blob α} (hx : Steps (Agrees id) x) :
    Steps (Agrees id) (onStorage x) := by
  intro s
  rw [onStorage, finalState_adaptExcept]
  exact hx s

/-- Resuming an execution writes no other one. -/
theorem agrees_resumeOne {other : Text} (hne : other ≠ id) (e : Execution) :
    Steps (Agrees other) (sch.resumeOne clock policy id e) := by
  have hcheckpoint : Steps (Agrees other) (sch.loadedCheckpoint id) := by
    refine Steps.bind (agrees_onStorage (Steps.get_bind fun s => ?_)) fun r => ?_
    · split
      · exact Steps.pure _
      · exact Steps.throw _
    · split
      · exact Steps.throw _
      · split
        · exact Steps.throw _
        · exact Steps.pure _
  have hplan : Steps (Agrees other) (sch.loadedPlan e) := by
    refine Steps.bind (agrees_onStorage (Steps.get_bind fun s => ?_)) fun bytes => ?_
    · split
      · exact Steps.throw _
      · split
        · exact Steps.pure _
        · exact Steps.throw _
    · split
      · exact Steps.throw _
      · exact Steps.pure _
  have hrecord : ∀ outcome, Steps (Agrees other) (sch.record clock id e outcome) := by
    intro outcome
    unfold record
    split
    · exact Steps.throw _
    · refine Steps.bind (agrees_onStorage (Steps.modify fun s => ⟨rfl, ?_⟩)) fun _ => Steps.pure _
      rw [Dict.get_set_ne _ hne.symm, Dict.get_erase_ne _ hne]
    · split
      · exact Steps.throw _
      · refine Steps.bind (agrees_onStorage (Steps.modify fun s => ?_)) fun _ => Steps.pure _
        split
        · exact ⟨rfl, Dict.get_set_ne _ hne.symm _⟩
        · exact ⟨rfl, rfl⟩
  refine Steps.bind hcheckpoint fun cp => Steps.bind hplan fun plan => ?_
  split
  · exact Steps.throw _
  · exact hrecord _

theorem agrees_attempt {α : Type} {x : SchedulerM Blob α} (hx : Steps (Agrees id) x) :
    Steps (Agrees id) (attempt x : SchedulerM Blob (Except SchedulerError α)) := by
  intro s
  have h := hx s
  unfold attempt
  cases hr : x s with
  | ok a t =>
    rw [hr] at h
    exact h
  | error e t =>
    rw [hr] at h
    exact h

theorem agrees_resumeEach : ∀ (l : List (Text × Execution)) (summary : SchedulerSummary),
    id ∉ l.map Prod.fst → Steps (Agrees id) (sch.resumeEach clock policy l summary)
  | [], _, _ => Steps.pure _
  | (id', e) :: rest, summary, hid => by
    rw [List.map_cons, List.mem_cons, not_or] at hid
    exact Steps.bind (agrees_attempt (agrees_resumeOne hid.1 e)) fun outcome =>
      agrees_resumeEach rest _ hid.2

/-- The round changes the row of an execution when it resumes it, and at no other time. -/
theorem resumeEach_at : ∀ (l : List (Text × Execution)) (summary : SchedulerSummary) (s : Tables Blob),
    (l.map Prod.fst).Nodup → (id, e) ∈ l → ∃ u, Agrees id s u ∧
      Agrees id (finalState (sch.resumeOne clock policy id e u))
        (finalState (sch.resumeEach clock policy l summary s))
  | (id', e') :: rest, summary, s, hnodup, hmem => by
    rw [List.map_cons, List.nodup_cons] at hnodup
    obtain ⟨outcome, hout⟩ : ∃ outcome, (attempt (sch.resumeOne clock policy id' e') :
        SchedulerM Blob (Except SchedulerError ResumeOutcome)) s =
          .ok outcome (finalState (sch.resumeOne clock policy id' e' s)) := by
      unfold attempt
      cases sch.resumeOne clock policy id' e' s with
      | ok a t => exact ⟨_, rfl⟩
      | error e t => exact ⟨_, rfl⟩
    rw [resumeEach, bind_of_ok _ hout]
    rcases List.mem_cons.1 hmem with heq | hlater
    · cases heq
      exact ⟨s, refl_of (Agrees id) s, agrees_resumeEach rest _ hnodup.1 _⟩
    · have hne : id ≠ id' := by
        rintro rfl
        exact hnodup.1 (List.mem_map.2 ⟨_, hlater, rfl⟩)
      obtain ⟨u, hu, hend⟩ := resumeEach_at rest (summary.add outcome)
        (finalState (sch.resumeOne clock policy id' e' s)) hnodup.2 hlater
      exact ⟨u, trans_of (Agrees id) (agrees_resumeOne hne e' s) hu, hend⟩

theorem runOnce_eq (clock : Clock) (k : Nat) (s : Tables Blob) :
    ∃ l, (l.map Prod.fst).Nodup ∧ (∀ id e, (id, e) ∈ l ↔ e.status = .paused ∧
        ∃ checkpoint, s.executions.get id = some ⟨e, checkpoint⟩) ∧
      sch.runOnce clock (some k) s = sch.resumeEach clock (budget k) l ⟨l.length, 0, 0, 0⟩ s := by
  refine ⟨_, ?_, fun id e => ?_, rfl⟩
  · rw [List.map_map]
    exact s.executions.nodup.sublist (List.filter_sublist.map _)
  · rw [List.mem_map]
    constructor
    · rintro ⟨⟨id', row⟩, hrow, heq⟩
      cases heq
      obtain ⟨hmem, hpaused⟩ := List.mem_filter.1 hrow
      exact ⟨of_decide_eq_true hpaused, row.checkpoint, Dict.get_eq_some_iff.2 hmem⟩
    · rintro ⟨hpaused, checkpoint, hrow⟩
      exact ⟨(id, ⟨e, checkpoint⟩), List.mem_filter.2 ⟨Dict.get_eq_some_iff.1 hrow,
        decide_eq_true hpaused⟩, rfl⟩

theorem Holds.resumeOne (h : sch.Holds s id e plan cp) :
    sch.resumeOne clock policy id e s =
      sch.record clock id e (resume ⟨plan, sch.registry, 0⟩ cp policy).result s := by
  obtain ⟨blob, hrow, hdecode⟩ := h.row
  obtain ⟨r, bytes, hversion, hbytes, hplan⟩ := h.version
  have hcheckpoint : sch.loadedCheckpoint id s = .ok cp s := by
    have hload : (onStorage (Storage.loadCheckpoint id) : SchedulerM Blob _) s = .ok (some blob) s := by
      simp only [onStorage, Storage.loadCheckpoint, EStateM.adaptExcept, get_bind, hrow]
      rfl
    rw [loadedCheckpoint, bind_of_ok _ hload]
    simp only [hdecode]
    rfl
  have hload : sch.loadedPlan e s = .ok plan s := by
    have hload : (onStorage (Storage.loadPlanVersion e.graphId e.graphVersion) : SchedulerM Blob _) s =
        .ok bytes s := by
      simp only [onStorage, Storage.loadPlanVersion, EStateM.adaptExcept, get_bind, hversion, hbytes]
      rfl
    rw [loadedPlan, bind_of_ok _ hload, hplan]
    rfl
  rw [Scheduler.resumeOne, bind_of_ok _ hcheckpoint, bind_of_ok _ hload]
  simp only [h.env]

/-- The row of an execution behind a round, from the end of its segment. -/
theorem Holds.runOnce (h : sch.Holds s id e plan cp) (clock : Clock) (k : Nat) :
    ∃ u, sch.Holds u id e plan cp ∧ Agrees id
      (finalState (sch.record clock id e (resume ⟨plan, sch.registry, 0⟩ cp (budget k)).result u))
      (finalState (sch.runOnce clock (some k) s)) := by
  obtain ⟨blob, hrow, hdecode⟩ := h.row
  obtain ⟨l, hnodup, hmem, hrun⟩ := @runOnce_eq Blob sch clock k s
  obtain ⟨u, hu, hend⟩ := @resumeEach_at Blob sch id e clock (budget k) l
    ⟨l.length, 0, 0, 0⟩ s hnodup ((hmem id e).2 ⟨h.paused, some blob, hrow⟩)
  have hheld := h.of_agrees hu
  rw [hheld.resumeOne] at hend
  rw [hrun]
  exact ⟨u, hheld, hend⟩

theorem record_paused {row : ExecutionRow Blob} {blob : Blob} (hrow : s.executions.get id = some row)
    (hencode : sch.encodeCheckpoint cp = .ok blob) :
    sch.record clock id e (.ok (.paused cp)) s =
      .ok .stillPaused { s with executions := s.executions.set id { row with checkpoint := some blob } } := by
  have hsave : (onStorage (Storage.saveCheckpoint id blob) : SchedulerM Blob _) s =
      .ok ⟨⟩ { s with executions := s.executions.set id { row with checkpoint := some blob } } := by
    simp only [onStorage, Storage.saveCheckpoint, EStateM.adaptExcept, modify_apply, hrow]
  simp only [record, hencode, bind_of_ok _ hsave]
  rfl

/-- The record of a completed execution. -/
def completion (clock : Clock) (id : Text) (e : Execution) (result : ExecutionResult) : Execution :=
  { e with
    status := .completed
    output := result.output
    context := some result.context
    durationUs := some (clock id).2
    completedAt := some (clock id).1 }

theorem record_completed (result : ExecutionResult) :
    sch.record clock id e (.ok (.completed result)) s = .ok .completed { s with
      executions := (s.executions.erase id).set id ⟨completion clock id e result, none⟩ } := rfl

theorem Holds.paused_runOnce (h : sch.Holds s id e plan cp) (clock : Clock) {k : Nat} {cp' : Checkpoint}
    (hresult : (resume ⟨plan, sch.registry, 0⟩ cp (budget k)).result = .ok (.paused cp'))
    (hpersists : sch.Persists cp') : sch.Holds (finalState (sch.runOnce clock (some k) s)) id e plan cp' := by
  obtain ⟨u, hheld, hend⟩ := h.runOnce clock k
  obtain ⟨blob, hrow, -⟩ := hheld.row
  obtain ⟨blob', hencode, hdecode⟩ := hpersists
  rw [hresult, record_paused hrow hencode] at hend
  have hnew : sch.Holds { u with executions := u.executions.set id ⟨e, some blob'⟩ } id e plan cp' :=
    ⟨⟨blob', Dict.get_set_self _ _ _, hdecode⟩, h.paused, hheld.version, h.env⟩
  exact hnew.of_agrees hend

theorem Holds.completed_runOnce (h : sch.Holds s id e plan cp) (clock : Clock) {k : Nat}
    {result : ExecutionResult}
    (hresult : (resume ⟨plan, sch.registry, 0⟩ cp (budget k)).result = .ok (.completed result)) :
    (finalState (sch.runOnce clock (some k) s)).executions.get id =
      some ⟨completion clock id e result, none⟩ := by
  obtain ⟨u, -, hend⟩ := h.runOnce clock k
  rw [hresult, record_completed] at hend
  rw [hend.2]
  exact Dict.get_set_self _ _ _

/-! ### Rounds -/

/-- What rounds of a budget are meant to do with an execution that has this checkpoint: each of them
runs `k` nodes more or what is left, and as many complete it as the nodes that are left take. -/
structure Settles (sch : Scheduler Blob) (clocks : Nat → Clock) (k : Nat) (s : Tables Blob) (id : Text)
    (e : Execution) (plan : CompiledPlan) (cp : Checkpoint) : Prop where
  rounds : ∀ n cp', sch.Holds (sch.after clocks k s n) id e plan cp' →
    executed ⟨plan, sch.registry, 0⟩ cp' (budget k) = min k (remaining ⟨plan, sch.registry, 0⟩ cp')
  completes : 0 < remaining ⟨plan, sch.registry, 0⟩ cp → ∃ clock result,
    (resume ⟨plan, sch.registry, 0⟩ cp .default).result = .ok (.completed result) ∧
    (sch.after clocks k s ((remaining ⟨plan, sch.registry, 0⟩ cp + k - 1) / k)).executions.get id =
      some ⟨completion clock id e result, none⟩

/-- The condition of a round: the budget fits the checkpoint, a LOOP that it resumes still has the
number of the iteration in its variable, and the checkpoint that the round leaves comes back. -/
structure RoundFits (sch : Scheduler Blob) (k : Nat) (plan : CompiledPlan) (cp : Checkpoint) : Prop where
  fits : BudgetFits ⟨plan, sch.registry, 0⟩ cp k
  intact : cp.LoopVarIntact ⟨plan, sch.registry, 0⟩
  persists : ∀ cp', (resume ⟨plan, sch.registry, 0⟩ cp (budget k)).result = .ok (.paused cp') →
    sch.Persists cp'

section Run

variable {clocks : Nat → Clock} {k : Nat} {p : ExecutionPlan} {opts : List Text}

theorem after_succ (clocks : Nat → Clock) (k : Nat) (s : Tables Blob) (n : Nat) :
    sch.after clocks k s (n + 1) = finalState (sch.runOnce (clocks n) (some k) (sch.after clocks k s n)) :=
  rfl

/-- A round that fails leaves the checkpoint. -/
theorem Holds.failed_runOnce (h : sch.Holds s id e plan cp) (clock : Clock) {err : ExecutionError}
    (hresult : (resume ⟨plan, sch.registry, 0⟩ cp (budget k)).result = .error err) :
    sch.Holds (finalState (sch.runOnce clock (some k) s)) id e plan cp := by
  obtain ⟨u, hheld, hend⟩ := h.runOnce clock k
  rw [hresult] at hend
  exact hheld.of_agrees hend

/-- No round touches an execution that is not paused. -/
theorem agrees_runOnce {row : ExecutionRow Blob} (hrow : s.executions.get id = some row)
    (hstatus : row.execution.status ≠ .paused) (clock : Clock) (k : Nat) :
    Agrees id s (finalState (sch.runOnce clock (some k) s)) := by
  obtain ⟨l, -, hmem, hrun⟩ := @runOnce_eq Blob sch clock k s
  rw [hrun]
  refine agrees_resumeEach l _ (fun hid => ?_) s
  obtain ⟨⟨id', e⟩, he, rfl⟩ := List.mem_map.1 hid
  obtain ⟨hpaused, checkpoint, hrow'⟩ := (hmem id' e).1 he
  cases hrow.symm.trans hrow'
  exact hstatus hpaused

/-- Behind some rounds the execution is paused at a checkpoint that a run has reached, or completed. -/
theorem after_cases (h : sch.Holds s id e plan cp) (hreached : Reached plan cp)
    (hfits : ∀ n cp', sch.Holds (sch.after clocks k s n) id e plan cp' → RoundFits sch k plan cp') (n : Nat) :
    (∃ cp', sch.Holds (sch.after clocks k s n) id e plan cp' ∧ Reached plan cp') ∨
      ∃ clock result, (sch.after clocks k s n).executions.get id =
        some ⟨completion clock id e result, none⟩ := by
  induction n with
  | zero => exact Or.inl ⟨cp, h, hreached⟩
  | succ n ih =>
    rw [after_succ]
    rcases ih with ⟨cp', hheld, hcp'⟩ | ⟨clock, result, hrow⟩
    · match hresult : (resume ⟨plan, sch.registry, 0⟩ cp' (budget k)).result with
      | .error err => exact Or.inl ⟨cp', hheld.failed_runOnce (clocks n) hresult, hcp'⟩
      | .ok (.completed result) =>
        exact Or.inr ⟨clocks n, result, hheld.completed_runOnce (clocks n) hresult⟩
      | .ok (.paused next) =>
        have hpersists := (hfits n cp' hheld).persists next hresult
        exact Or.inl ⟨next, hheld.paused_runOnce (clocks n) hresult hpersists, .resumed hcp' hresult⟩
    · have hagrees := @agrees_runOnce Blob sch _ _ _ hrow (by rintro ⟨⟩) (clocks n) k
      exact Or.inr ⟨clock, result, hagrees.2.trans hrow⟩

theorem Holds.reached (h : sch.Holds s id e plan cp) (hreached : Reached plan cp)
    (hfits : ∀ n cp', sch.Holds (sch.after clocks k s n) id e plan cp' → RoundFits sch k plan cp')
    {n : Nat} {cp' : Checkpoint} (hheld : sch.Holds (sch.after clocks k s n) id e plan cp') :
    Reached plan cp' := by
  rcases after_cases h hreached hfits n with ⟨cp'', hheld', hcp⟩ | ⟨clock, result, hrow⟩
  · rwa [hheld.checkpoint_eq hheld']
  · obtain ⟨blob, hrow', -⟩ := hheld.row
    have hsome := congrArg ExecutionRow.checkpoint (Option.some.inj (hrow.symm.trans hrow'))
    cases hsome

/-- Rounds before the last: each of them takes `k` nodes. -/
theorem after_paused (hwf : plan.WellFormed) (hver : checkVersionCompatibility plan.version = .ok ())
    (h : sch.Holds s id e plan cp) (hreached : Reached plan cp)
    (hfits : ∀ n cp', sch.Holds (sch.after clocks k s n) id e plan cp' → RoundFits sch k plan cp') (n : Nat)
    (hn : n * k < remaining ⟨plan, sch.registry, 0⟩ cp) :
    ∃ cp', sch.Holds (sch.after clocks k s n) id e plan cp' ∧
      remaining ⟨plan, sch.registry, 0⟩ cp' = remaining ⟨plan, sch.registry, 0⟩ cp - n * k ∧
      (resume ⟨plan, sch.registry, 0⟩ cp' .default).result =
        (resume ⟨plan, sch.registry, 0⟩ cp .default).result := by
  induction n with
  | zero => exact ⟨cp, h, by omega, rfl⟩
  | succ n ih =>
    rw [Nat.succ_mul] at hn ⊢
    obtain ⟨cp', hheld, hrest, hresult⟩ := ih (by omega)
    obtain ⟨order, horder⟩ := hreached.exists_order
    have hsus := @Reached.suspended ⟨plan, sch.registry, 0⟩ _ _ hwf hver horder (h.reached hreached hfits hheld)
    obtain ⟨next, hpaused, -, hnext⟩ := @resume_budget_paused ⟨plan, sch.registry, 0⟩ _ _ _ hwf hver
      horder hsus (hfits n cp' hheld).fits (by omega)
    have hheld' := hheld.paused_runOnce (clocks n) hpaused ((hfits n cp' hheld).persists next hpaused)
    obtain ⟨hremaining, hsame⟩ := hnext (hfits (n + 1) next hheld').intact
    exact ⟨next, hheld', by omega, hsame.trans hresult⟩

theorem settles_of_fits (hwf : plan.WellFormed) (hver : checkVersionCompatibility plan.version = .ok ())
    (hk : 0 < k) (h : sch.Holds s id e plan cp) (hreached : Reached plan cp)
    (hfits : ∀ n cp', sch.Holds (sch.after clocks k s n) id e plan cp' → RoundFits sch k plan cp') :
    Settles sch clocks k s id e plan cp := by
  obtain ⟨order, horder⟩ := hreached.exists_order
  have hsus : ∀ n cp', sch.Holds (sch.after clocks k s n) id e plan cp' →
      Suspended ⟨plan, sch.registry, 0⟩ order cp'.position cp'.loopState (resumeState cp') := fun n cp' hheld =>
    @Reached.suspended ⟨plan, sch.registry, 0⟩ _ _ hwf hver horder (h.reached hreached hfits hheld)
  refine ⟨fun n cp' hheld => ?_, fun hpos => ?_⟩
  · have hadvances := (@advances_iff ⟨plan, sch.registry, 0⟩ _ _ _ hwf hver horder hk
      (hsus n cp' hheld)).2 (hfits n cp' hheld).fits
    exact hadvances.nodes
  · -- the last round starts with a positive rest of at most `k` nodes
    obtain ⟨n, hn⟩ : ∃ n, (remaining ⟨plan, sch.registry, 0⟩ cp + k - 1) / k = n + 1 :=
      Nat.exists_eq_succ_of_ne_zero (Nat.ne_of_gt (Nat.div_pos (by omega) hk))
    have hlow : n * k < remaining ⟨plan, sch.registry, 0⟩ cp := by
      have hdiv := Nat.div_mul_le_self (remaining ⟨plan, sch.registry, 0⟩ cp + k - 1) k
      rw [hn, Nat.succ_mul] at hdiv
      omega
    have hhigh : remaining ⟨plan, sch.registry, 0⟩ cp ≤ n * k + k := by
      have hdiv := Nat.lt_div_mul_add (a := remaining ⟨plan, sch.registry, 0⟩ cp + k - 1) hk
      rw [hn, Nat.succ_mul] at hdiv
      omega
    obtain ⟨cp', hheld, hrest, hresult⟩ := after_paused hwf hver h hreached hfits n hlow
    obtain ⟨hfind, result, hdefault⟩ := (hfits n cp' hheld).fits.completes (by omega) (by omega)
    have hdone : (resume ⟨plan, sch.registry, 0⟩ cp' (budget k)).result = .ok (.completed result) := by
      rw [resume_eq_finishPass, @resumeRun_done ⟨plan, sch.registry, 0⟩ _ _ _ hver horder hfind,
        ← resume_eq_finishPass, hdefault]
    rw [hn]
    exact ⟨clocks n, result, hresult.symm.trans hdefault, hheld.completed_runOnce (clocks n) hdone⟩

end Run

/-! ### A budget of two nodes -/

/-- `a = 1`, `b = a`, `return b` -/
def threeNodes : ExecutionPlan := ExecutionPlan.new
  [⟨"n0", .calc, [⟨"expr", .string "1"⟩, ⟨"output", .string "a"⟩], none, none, none⟩,
   ⟨"n1", .calc, [⟨"expr", .string "a"⟩, ⟨"output", .string "b"⟩], none, none, none⟩,
   ⟨"n2", .act, [⟨"type", .string "return"⟩, ⟨"value", .string "b"⟩], none, none, none⟩]
  [Edge.new "n0" "n1", Edge.new "n1" "n2"]

def threeCompiled : CompiledPlan := CompiledPlan.fromExecutionPlan threeNodes []

/-- Plans and checkpoints as their own bytes. -/
def plainScheduler : Scheduler (Fb.ExecutionPlan ⊕ Checkpoint) where
  fb := ⟨.inl, fun
    | .inl t => .ok t
    | .inr _ => .error "not a plan", fun _ => rfl⟩
  encodeCheckpoint := fun cp => .ok (.inr cp)
  decodeCheckpoint := fun
    | .inr cp => .ok cp
    | .inl _ => .error "not a checkpoint"
  checkEnv := fun _ => .ok ()
  registry := echo

/-- The checkpoints behind one node and behind two. -/
def pausedBehind (n : Nat) : Option Checkpoint :=
  (executeWith ⟨threeCompiled, echo, 0⟩ (inputsOf []) (budget n)).checkpoint

def pausedExecution : Execution :=
  ⟨"g", 1, inputsOf [], none, .paused, none, "0", none, none, none⟩

def pausedStore (cp : Checkpoint) : Tables (Fb.ExecutionPlan ⊕ Checkpoint) where
  graphs := Dict.empty
  versions := Dict.empty.set ("g", 1) ⟨"", some (threeCompiled.toFbBytes plainScheduler.fb), "0"⟩
  executions := Dict.empty.set "x" ⟨pausedExecution, some (.inr cp)⟩

def noClock : Clock := fun _ => ("0", 0)

theorem pausedStore_holds (cp : Checkpoint) :
    plainScheduler.Holds (pausedStore cp) "x" pausedExecution threeCompiled cp := by
  refine ⟨⟨.inr cp, rfl, rfl⟩, rfl, ⟨_, _, rfl, rfl, ?_⟩, rfl⟩
  rfl

/-- The checkpoint of the execution in a store, if it is paused. -/
def pausedIn (s : Tables (Fb.ExecutionPlan ⊕ Checkpoint)) : Option Checkpoint :=
  match s.executions.get "x" with
  | some ⟨e, some (.inr cp)⟩ => if e.status = .paused then some cp else none
  | _ => none

/-- What the fit of a budget of one node depends on. -/
def oneNodeFacts (cp : Checkpoint) : Nat × Nat × Option Nat × Bool × Bool :=
  (cp.nodeCount, remaining ⟨threeCompiled, echo, 0⟩ cp, (stops ⟨threeCompiled, echo, 0⟩ cp).find? (1 ≤ ·),
    cp.loopState.isNone, match (resume ⟨threeCompiled, echo, 0⟩ cp .default).result with
      | .ok (.completed _) => true
      | _ => false)

theorem roundFits_of_facts {c r : Nat} {next : Option Nat} {cp : Checkpoint}
    (h : oneNodeFacts cp = (c, r, next, true, true)) (hnext : 1 < r → next = some (c + 1))
    (hlast : r ≤ 1 → next = none) : RoundFits plainScheduler 1 threeCompiled cp := by
  simp only [oneNodeFacts, Prod.mk.injEq] at h
  obtain ⟨rfl, rfl, hfind, hloop, hdone⟩ := h
  refine ⟨⟨fun hlt => ?_, fun hpos hle => ⟨?_, ?_⟩⟩, fun ls nd v hls => ?_, fun cp' _ => ⟨.inr cp', rfl, rfl⟩⟩
  · exact hfind.trans (hnext hlt)
  · exact hfind.trans (hlast hle)
  · match hresult : (resume ⟨threeCompiled, echo, 0⟩ cp .default).result with
    | .ok (.completed result) => exact ⟨result, hresult⟩
    | .ok (.paused cp') => simp [hresult] at hdone
    | .error e => simp [hresult] at hdone
  · rw [hls] at hloop
    cases hloop

end Scheduler

end Tinypipe
