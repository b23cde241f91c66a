import Tinypipe.Lib.Rely
import Tinypipe.Server.Resumers

/-! Everything that runs or resumes executions, statement by statement, and what it leaves of a
paused one. A process may be stopped at any point; then it does not move any more. -/

namespace Tinypipe

open Lib Lib.Stateful

inductive ExecutionJob (Blob : Type) where
  /-- `run_execution` of the server. -/
  | runExecution (audit : Bool) (now id graphId : Text) (version : Nat) (input : Context)
    (how : SegmentEnd Blob)
  /-- `cmd_execute`, which exits if its environment is incomplete. -/
  | cmdExecute (now id graphId : Text) (version : Nat) (input : Context) (elapsedUs : Nat)
    (how : Option (SegmentEnd Blob))
  /-- `resume_execution`, `cmd_resume`, and rounds of the scheduler and of `run_scheduler`. For each
  execution it is open how the segment ends, and whether it can be started. -/
  | resume (kind : ResumerKind) (now : Text) (how : Text → Option (SegmentEnd Blob))

inductive SegmentStep (Blob : Type) where
  | load
  | create (id : Text)
  | segment (id : Text) (how : SegmentEnd Blob)
  | record (id : Text)
  | checkpoint (id : Text)
  | steps

/-- The storage, with history variables: how many segments of an execution have been run, the
checkpoint of the last one, the process that has run it as long as its end is not written, and
the number of the segment whose checkpoint has been saved last. -/
structure Segments (Blob : Type) where
  tables : Tables Blob
  count : Text → Nat
  latest : Text → Option Blob
  holder : Text → Option Nat
  source : Text → Option Nat

abbrev SegmentM (Blob : Type) := Script (SegmentStep Blob) Unit (Segments Blob)

namespace SegmentEnd

variable {Blob : Type}

def checkpoint? : SegmentEnd Blob → Option Blob
  | paused checkpoint _ _ => some checkpoint
  | completed _ _ _ | failed _ => none

end SegmentEnd

namespace Segments

variable {Blob : Type}

def start : Segments Blob := ⟨Tables.empty, fun _ => 0, fun _ => none, fun _ => none, fun _ => none⟩

def create (id : Text) (e : Execution) (t : Segments Blob) : Segments Blob :=
  { t with tables := finalState (Storage.saveExecution id e t.tables) }

def run (i : Nat) (id : Text) (how : SegmentEnd Blob) (t : Segments Blob) : Segments Blob :=
  { t with
    count := Function.update t.count id (t.count id + 1)
    latest := Function.update t.latest id how.checkpoint?
    holder := Function.update t.holder id (some i) }

/-- The end of a segment is written, but for its checkpoint. -/
def record (id : Text) (e : Execution) (t : Segments Blob) : Segments Blob :=
  { t with
    tables := finalState (Storage.saveExecution id e t.tables)
    holder := if e.status = .paused then t.holder else Function.update t.holder id none }

def save (id : Text) (checkpoint : Blob) (number : Nat) (t : Segments Blob) : Segments Blob :=
  { t with
    tables := finalState (Storage.saveCheckpoint id checkpoint t.tables)
    holder := Function.update t.holder id none
    source := Function.update t.source id (some number) }

/-! ### What the processes do -/

/-- A statement, behind which the process goes on if it does not fail. -/
def execute (label : SegmentStep Blob) (write : Segments Blob → Segments Blob)
    (k otherwise : SegmentM Blob Unit) : SegmentM Blob Unit :=
  .step label write (fun _ => k) fun _ => otherwise

def query (k : Segments Blob → SegmentM Blob Unit) (otherwise : SegmentM Blob Unit) : SegmentM Blob Unit :=
  .step .load (fun t => t) k fun _ => otherwise

/-- `save_execution` and `save_checkpoint` of a pause. -/
def pause (id : Text) (e : Execution) (checkpoint : Blob) (number : Nat) (k : SegmentM Blob Unit) :
    SegmentM Blob Unit :=
  execute (.record id) (record id e) (execute (.checkpoint id) (save id checkpoint number) k k) k

/-- What is written behind a segment, and what follows. The scheduler writes only the checkpoint of a
pause, and nothing of a failure. -/
def finish (kind : ResumerKind) (now id : Text) (e : Execution) (number : Nat) (how : SegmentEnd Blob)
    (k : SegmentM Blob Unit) : SegmentM Blob Unit :=
  if kind.audits then
    match how with
    | .completed output context durationUs =>
      let e := { e with
        status := .completed
        output := output
        durationUs := some durationUs
        completedAt := some now
        context := some context }
      match kind with
      | .scheduler => execute .steps (fun t => t) (execute (.record id) (record id e) k k) k
      | .http _ _ | .cli _ | .serverScheduler _ =>
        execute (.record id) (record id e) (execute .steps (fun t => t) k k) k
    | .paused checkpoint context elapsedUs =>
      match kind with
      | .scheduler => execute (.checkpoint id) (save id checkpoint number) k k
      | .cli _ => pause id { e with
          status := .paused
          durationUs := some elapsedUs
          context := some context } checkpoint number k
      | .http _ _ | .serverScheduler _ => pause id { e with
          status := .paused
          context := some context } checkpoint number k
    | .failed message =>
      match kind with
      | .scheduler => k
      | .http _ _ | .cli _ | .serverScheduler _ => execute (.record id) (record id { e with
          status := .failed
          error := some message
          completedAt := some now }) k k
  else k

/-- One segment. -/
def runSegment (i : Nat) (id : Text) (how : SegmentEnd Blob) (k : Nat → SegmentM Blob Unit) : SegmentM Blob Unit :=
  .step (.segment id how) (run i id how) (fun t => k (t.count id + 1)) fun _ => .throw ()

/-- The checkpoint of an execution is loaded, and one segment is run. -/
def resumeOne (decodes : Blob → Bool) (kind : ResumerKind) (i : Nat) (now id : Text) (e : Execution)
    (how : Option (SegmentEnd Blob)) (k : SegmentM Blob Unit) : SegmentM Blob Unit :=
  query (fun t => match Storage.loadCheckpoint id t.tables with
    | .ok (some checkpoint) _ =>
      match how with
      | some how =>
        if decodes checkpoint then
          runSegment i id how fun number => finish kind now id e number how k
        else k
      | none => k
    | .ok none _ | .error _ _ => k) k

/-- `load_execution`, and the check that it is paused. -/
def checked (id : Text) (k : Execution → SegmentM Blob Unit) (otherwise : SegmentM Blob Unit) :
    SegmentM Blob Unit :=
  query (fun t => match Storage.loadExecution id t.tables with
    | .ok e _ => if e.status = .paused then k e else otherwise
    | .error _ _ => otherwise) otherwise

def resumeAll (decodes : Blob → Bool) (kind : ResumerKind) (i : Nat) (now : Text)
    (how : Text → Option (SegmentEnd Blob)) : List (Text × Execution) → SegmentM Blob Unit
  | [] => pure ()
  | (id, e) :: todo =>
    let rest := resumeAll decodes kind i now how todo
    match kind with
    | .serverScheduler _ => checked id (fun e => resumeOne decodes kind i now id e (how id) rest) rest
    | .http _ _ | .cli _ | .scheduler => resumeOne decodes kind i now id e (how id) rest

/-- Everything that is paused. -/
def round (decodes : Blob → Bool) (kind : ResumerKind) (i : Nat) (now : Text)
    (how : Text → Option (SegmentEnd Blob)) : SegmentM Blob Unit :=
  query (fun t => match Storage.listPausedExecutions t.tables with
    | .ok l _ => resumeAll decodes kind i now how l
    | .error _ _ => pure ()) (pure ())

def resume (decodes : Blob → Bool) (kind : ResumerKind) (i : Nat) (now : Text)
    (how : Text → Option (SegmentEnd Blob)) : SegmentM Blob Unit :=
  match kind with
  | .http _ id | .cli id => checked id (fun e => resumeOne decodes kind i now id e (how id) (pure ())) (pure ())
  | .scheduler | .serverScheduler _ => round decodes kind i now how

def newExecution (now graphId : Text) (version : Nat) (input : Context) (context : Option Context) : Execution :=
  ⟨graphId, version, input, none, .running, none, now, none, none, context⟩

/-- The segment of `run_execution`, and what is written behind it. -/
def runFirst (audit : Bool) (i : Nat) (now id : Text) (e : Execution) (how : SegmentEnd Blob) : SegmentM Blob Unit :=
  runSegment i id how fun number =>
    if audit then
      match how with
      | .completed output context durationUs =>
        execute (.record id) (record id { e with
          status := .completed
          output := output
          durationUs := some durationUs
          completedAt := some now
          context := some context }) (execute .steps (fun t => t) (pure ()) (pure ())) (pure ())
      | .paused checkpoint context _ => pause id { e with
          status := .paused
          completedAt := some now
          context := some context } checkpoint number (pure ())
      | .failed message => execute (.record id) (record id { e with
          status := .failed
          error := some message
          completedAt := some now
          context := some e.input }) (pure ()) (pure ())
    else pure ()

def runExecution (audit : Bool) (i : Nat) (now id graphId : Text) (version : Nat) (input : Context)
    (how : SegmentEnd Blob) : SegmentM Blob Unit :=
  let e := newExecution now graphId version input none
  if audit then execute (.create id) (create id e) (runFirst audit i now id e how) (pure ())
  else runFirst audit i now id e how

def cmdExecute (i : Nat) (now id graphId : Text) (version : Nat) (input : Context) (elapsedUs : Nat)
    (how : Option (SegmentEnd Blob)) : SegmentM Blob Unit :=
  let e := newExecution now graphId version input (some input)
  execute (.create id) (create id e) (match how with
    | some how => runSegment i id how fun number => match how with
      | .completed output context durationUs =>
        execute (.record id) (record id { e with
          status := .completed
          output := output
          durationUs := some durationUs
          completedAt := some now
          context := some context }) (execute .steps (fun t => t) (pure ()) (pure ())) (pure ())
      | .paused checkpoint context elapsed => pause id { e with
          status := .paused
          durationUs := some elapsed
          context := some context } checkpoint number (pure ())
      | .failed message => execute (.record id) (record id { e with
          status := .failed
          error := some message
          completedAt := some now
          durationUs := some elapsedUs }) (pure ()) (pure ())
    | none => pure ()) (pure ())

def script (decodes : Blob → Bool) (i : Nat) : ExecutionJob Blob → SegmentM Blob Unit
  | .runExecution audit now id graphId version input how => runExecution audit i now id graphId version input how
  | .cmdExecute now id graphId version input elapsedUs how =>
    cmdExecute i now id graphId version input elapsedUs how
  | .resume kind now how => resume decodes kind i now how

end Segments

/-- Processes at work on one store, in which there is no execution yet. -/
def executing {Blob : Type} (decodes : Blob → Bool) (jobs : Nat → Option (ExecutionJob Blob)) :
    Threads (SegmentStep Blob) Unit (Segments Blob) Unit where
  shared := .start
  programs i := match jobs i with
    | some job => Segments.script decodes i job
    | none => pure ()

/-- The row holds the checkpoint of the last segment that has been run, and it can be decoded. -/
def Resumable {Blob : Type} (decodes : Blob → Bool) (t : Segments Blob) (id : Text) : Prop :=
  ∃ row checkpoint, t.tables.executions.get id = some row ∧ row.checkpoint = some checkpoint ∧
    decodes checkpoint ∧ t.latest id = some checkpoint ∧ t.source id = some (t.count id)

/-- Every paused row is resumable. -/
def PausedResumable {Blob : Type} (decodes : Blob → Bool) (t : Segments Blob) : Prop :=
  ∀ id row, t.tables.executions.get id = some row → row.execution.status = .paused → Resumable decodes t id

/-- The checkpoints that are saved can be decoded, and only the process that has run the last segment of an
execution writes its end. Any statement may fail. -/
def SegmentStep.Allowed {Blob : Type} (decodes : Blob → Bool) (i : Nat) (label : SegmentStep Blob)
    (fault : Option Text) (t : Segments Blob) : Prop :=
  match label, fault with
  | .segment _ how, none => how.checkpoint?.all decodes
  | .record id, none | .checkpoint id, none => t.holder id = some i
  | _, _ => True

namespace Segments

section Terms

variable {Blob : Type} {decodes : Blob → Bool} {i : Nat} {t u : Segments Blob} {id : Text}

structure Inv (decodes : Blob → Bool) (t : Segments Blob) : Prop where
  bound : ∀ id n, t.source id = some n → n ≤ t.count id
  behind : ∀ id, t.holder id ≠ none → t.source id ≠ some (t.count id)
  resumable : ∀ id row, t.tables.executions.get id = some row → row.execution.status = .paused →
    t.holder id = none → Resumable decodes t id

/-- What the others do to the executions of which process `i` has run the last segment. -/
def Keeps (i : Nat) (t t' : Segments Blob) : Prop :=
  ∀ id, t'.holder id = some i → t.holder id = some i ∧ t'.count id = t.count id ∧ t'.latest id = t.latest id

def contract (decodes : Blob → Bool) (i : Nat) : Contract (SegmentStep Blob) (Segments Blob) where
  inv := Inv decodes
  rely := Keeps i
  guar t t' := ∀ j, j ≠ i → Keeps j t t'
  allowed := SegmentStep.Allowed decodes i
  refl _ _ hi := ⟨hi, rfl, rfl⟩
  trans _ _ _ h h' id hi := by
    obtain ⟨hu, hcount, hlatest⟩ := h' id hi
    obtain ⟨ht, hcount', hlatest'⟩ := h id hu
    exact ⟨ht, hcount.trans hcount', hlatest.trans hlatest'⟩

theorem contract_compatible (decodes : Blob → Bool) : Threads.Compatible (contract decodes) :=
  ⟨fun _ _ _ h => h, fun _ _ hne _ _ _ h => h _ (Ne.symm hne)⟩

def Safe (decodes : Blob → Bool) (i : Nat) : SegmentM Blob Unit → Segments Blob → Prop :=
  Script.Safe (contract decodes i) fun _ _ => True

theorem safe_done {r : Except Unit Unit} : Safe decodes i (.done r) t := fun _ _ => trivial

/-- A segment that process `i` has run, as long as it is the last one. -/
def Mine (i : Nat) (id : Text) (number : Nat) (checkpoint : Option Blob) (t : Segments Blob) : Prop :=
  t.holder id = some i → t.count id = number ∧ t.latest id = checkpoint

theorem Mine.keeps {number : Nat} {checkpoint : Option Blob} (h : Mine i id number checkpoint t)
    (hu : Keeps i t u) : Mine i id number checkpoint u := by
  intro hi
  obtain ⟨ht, hcount, hlatest⟩ := hu id hi
  exact ⟨hcount.trans (h ht).1, hlatest.trans (h ht).2⟩

/-! ### The statements -/

theorem get_saveExecution (id id' : Text) (e : Execution) (u : Tables Blob) :
    (finalState (Storage.saveExecution id e u)).executions.get id' =
      if id = id' then some ⟨e, none⟩ else u.executions.get id' := by
  rw [Storage.saveExecution, modify_apply, finalState, Dict.get_set]
  split
  · rfl
  · rw [Dict.get_erase_ne _ (Ne.symm ‹_›)]

theorem get_saveCheckpoint (id id' : Text) (checkpoint : Blob) (u : Tables Blob) :
    (finalState (Storage.saveCheckpoint id checkpoint u)).executions.get id' =
      if id = id' then (u.executions.get id).map fun row => { row with checkpoint := some checkpoint }
      else u.executions.get id' := by
  rw [Storage.saveCheckpoint, modify_apply, finalState]
  cases hrow : u.executions.get id with
  | none =>
    by_cases hid : id = id'
    · subst hid
      rw [if_pos rfl]
      exact hrow
    · rw [if_neg hid]
  | some row => rw [Dict.get_set, Option.map_some]

theorem Inv.create (h : Inv decodes t) (id : Text) {e : Execution} (he : e.status = .running) : Inv decodes (t.create id e) := by
  refine ⟨h.bound, h.behind, fun id' row hrow hpaused hholder => ?_⟩
  rw [Segments.create, get_saveExecution] at hrow
  split at hrow
  case isTrue =>
    cases hrow
    rw [he] at hpaused
    cases hpaused
  case isFalse hne =>
    obtain ⟨row', checkpoint, hrow', hrest⟩ := h.resumable id' row hrow hpaused hholder
    exact ⟨row', checkpoint, by rw [Segments.create, get_saveExecution, if_neg hne]; exact hrow', hrest⟩

theorem Inv.run (h : Inv decodes t) (i : Nat) (id : Text) (how : SegmentEnd Blob) :
    Inv decodes (t.run i id how) := by
  refine ⟨fun id' n hn => ?_, fun id' hid => ?_, fun id' row hrow hpaused hholder => ?_⟩
  · have hle := h.bound id' n hn
    rw [Segments.run]
    dsimp only
    rw [Function.update_apply]
    split
    · exact Nat.le_succ_of_le (‹id' = id› ▸ hle)
    · exact hle
  · rw [Segments.run] at hid ⊢
    dsimp only at hid ⊢
    rw [Function.update_apply] at hid ⊢
    split at hid
    case isTrue heq =>
      rw [if_pos heq]
      intro hsource
      have := h.bound id' _ hsource
      rw [heq] at this
      omega
    case isFalse hne =>
      rw [if_neg hne]
      exact h.behind id' hid
  · rw [Segments.run] at hholder
    dsimp only at hholder
    rw [Function.update_apply] at hholder
    split at hholder
    case isTrue => cases hholder
    case isFalse hne =>
      obtain ⟨row', checkpoint, hrow', hcp, hdecodes, hlatest, hsource⟩ := h.resumable id' row hrow hpaused hholder
      refine ⟨row', checkpoint, hrow', hcp, hdecodes, ?_, ?_⟩
      · exact (Function.update_of_ne hne ..).trans hlatest
      · exact hsource.trans (congrArg some (Function.update_of_ne hne _ _).symm)

theorem Inv.record (h : Inv decodes t) (hid : t.holder id = some i) (e : Execution) :
    Inv decodes (t.record id e) := by
  have hholder : ∀ id', id' ≠ id → (t.record id e).holder id' = t.holder id' := by
    intro id' hne
    rw [Segments.record]
    dsimp only
    split
    · rfl
    · exact Function.update_of_ne hne ..
  refine ⟨h.bound, fun id' hne => ?_, fun id' row hrow hpaused hnone => ?_⟩
  · by_cases heq : id' = id
    · exact h.behind id' (by rw [heq, hid]; exact Option.some_ne_none i)
    · rw [hholder id' heq] at hne
      exact h.behind id' hne
  · rw [Segments.record, get_saveExecution] at hrow
    split at hrow
    case isTrue heq =>
      cases hrow
      subst heq
      rw [Segments.record] at hnone
      dsimp only at hnone hpaused
      rw [if_pos hpaused, hid] at hnone
      cases hnone
    case isFalse hne =>
      rw [hholder id' (Ne.symm hne)] at hnone
      obtain ⟨row', checkpoint, hrow', hrest⟩ := h.resumable id' row hrow hpaused hnone
      exact ⟨row', checkpoint, by rw [Segments.record, get_saveExecution, if_neg hne]; exact hrow', hrest⟩

theorem Inv.save (h : Inv decodes t) {number : Nat} {checkpoint : Blob} (hid : t.holder id = some i)
    (hmine : Mine i id number (some checkpoint) t) (hdecodes : decodes checkpoint) :
    Inv decodes (t.save id checkpoint number) := by
  obtain ⟨hcount, hlatest⟩ := hmine hid
  refine ⟨fun id' n hn => ?_, fun id' hne => ?_, fun id' row hrow hpaused hnone => ?_⟩
  · rw [Segments.save] at hn
    dsimp only at hn
    rw [Function.update_apply] at hn
    split at hn
    case isTrue heq =>
      rw [heq]
      exact (hcount.trans (Option.some.inj hn)).ge
    case isFalse => exact h.bound id' n hn
  · rw [Segments.save] at hne ⊢
    dsimp only at hne ⊢
    rw [Function.update_apply] at hne ⊢
    split at hne
    case isTrue => exact absurd rfl hne
    case isFalse hid' =>
      rw [if_neg hid']
      exact h.behind id' hne
  · by_cases heq : id = id'
    · subst heq
      rw [Segments.save, get_saveCheckpoint, if_pos rfl] at hrow
      obtain ⟨row', hrow', rfl⟩ := Option.map_eq_some_iff.1 hrow
      refine ⟨_, checkpoint, by rw [Segments.save, get_saveCheckpoint, if_pos rfl, hrow', Option.map_some], rfl,
        hdecodes, hlatest, ?_⟩
      rw [Segments.save]
      dsimp only
      rw [Function.update_self, hcount]
    · rw [Segments.save, get_saveCheckpoint, if_neg heq] at hrow
      have hnone' : t.holder id' = none := (Function.update_of_ne (Ne.symm heq) _ _).symm.trans hnone
      obtain ⟨row', checkpoint', hrow', hcp, hdecodes', hlatest', hsource⟩ := h.resumable id' row hrow hpaused hnone'
      refine ⟨row', checkpoint', by rw [Segments.save, get_saveCheckpoint, if_neg heq]; exact hrow', hcp, hdecodes',
        hlatest', ?_⟩
      exact (Function.update_of_ne (Ne.symm heq) _ _).trans hsource

/-! ### The processes -/

variable {k otherwise : SegmentM Blob Unit}

theorem keeps_of_eq {t' : Segments Blob} (hholder : t'.holder = t.holder) (hcount : t'.count = t.count)
    (hlatest : t'.latest = t.latest) (j : Nat) : Keeps j t t' := by
  intro id hj
  rw [hcount, hlatest]
  exact ⟨hholder ▸ hj, rfl, rfl⟩

/-- The last segment of an execution changes hands. -/
theorem keeps_of_holder {t' : Segments Blob} {j : Nat} (hself : t'.holder id ≠ some j)
    (hothers : ∀ id', id' ≠ id → t'.holder id' = t.holder id' ∧ t'.count id' = t.count id' ∧
      t'.latest id' = t.latest id') : Keeps j t t' := by
  intro id' hj
  obtain ⟨hholder, hcount, hlatest⟩ := hothers id' fun heq => hself (heq ▸ hj)
  exact ⟨hholder ▸ hj, hcount, hlatest⟩

theorem safe_query {next : Segments Blob → SegmentM Blob Unit} (hnext : ∀ u, Safe decodes i (next u) u)
    (hfault : ∀ u, Safe decodes i otherwise u) : Safe decodes i (query next otherwise) t :=
  fun u _ hinv => ⟨fun _ => ⟨hinv, fun j _ => keeps_of_eq rfl rfl rfl j, hnext u⟩, fun _ _ => hfault u⟩

theorem safe_steps (hk : ∀ u, Keeps i t u → Safe decodes i k u) (hfault : ∀ u, Safe decodes i otherwise u) :
    Safe decodes i (execute .steps (fun t => t) k otherwise) t :=
  fun u hu hinv => ⟨fun _ => ⟨hinv, fun j _ => keeps_of_eq rfl rfl rfl j, hk u hu⟩, fun _ _ => hfault u⟩

theorem safe_create {e : Execution} (he : e.status = .running) (hk : ∀ u, Safe decodes i k u)
    (hfault : ∀ u, Safe decodes i otherwise u) :
    Safe decodes i (execute (.create id) (create id e) k otherwise) t :=
  fun u _ hinv => ⟨fun _ => ⟨hinv.create id he, fun j _ => keeps_of_eq rfl rfl rfl j, hk _⟩, fun _ _ => hfault u⟩

theorem safe_record {e : Execution} {number : Nat} {checkpoint : Option Blob}
    (hmine : Mine i id number checkpoint t) (hk : ∀ u, Mine i id number checkpoint u → Safe decodes i k u)
    (hfault : ∀ u, Safe decodes i otherwise u) :
    Safe decodes i (execute (.record id) (record id e) k otherwise) t := by
  intro u hu hinv
  have hholder : ∀ id' j, (u.record id e).holder id' = some j → u.holder id' = some j := by
    intro id' j hj
    rw [record] at hj
    dsimp only at hj
    split at hj
    case isTrue => exact hj
    case isFalse =>
      rw [Function.update_apply] at hj
      split at hj
      case isTrue => cases hj
      case isFalse => exact hj
  have hmine' := hmine.keeps hu
  exact ⟨fun hid => ⟨hinv.record hid e, fun j _ id' hj => ⟨hholder id' j hj, rfl, rfl⟩, hk _ fun hj =>
    hmine' (hholder id i hj)⟩, fun _ _ => hfault u⟩

theorem safe_save {number : Nat} {checkpoint : Blob} (hmine : Mine i id number (some checkpoint) t)
    (hdecodes : decodes checkpoint) (hk : ∀ u, Safe decodes i k u) (hfault : ∀ u, Safe decodes i otherwise u) :
    Safe decodes i (execute (.checkpoint id) (save id checkpoint number) k otherwise) t := by
  intro u hu hinv
  refine ⟨fun hid => ⟨hinv.save hid (hmine.keeps hu) hdecodes, fun j _ => ?_, hk _⟩, fun _ _ => hfault u⟩
  refine @keeps_of_holder Blob u id _ j ?_ fun id' hne => ⟨Function.update_of_ne hne .., rfl, rfl⟩
  rw [save]
  dsimp only
  rw [Function.update_self]
  exact nofun

theorem safe_pause {e : Execution} {number : Nat} {checkpoint : Blob}
    (hmine : Mine i id number (some checkpoint) t) (hdecodes : decodes checkpoint)
    (hk : ∀ u, Safe decodes i k u) : Safe decodes i (pause id e checkpoint number k) t :=
  safe_record hmine (fun _ hu => safe_save hu hdecodes hk hk) hk

/-- A process runs a segment, and goes on with what it has then. -/
theorem safe_runSegment {how : SegmentEnd Blob} {k : Nat → SegmentM Blob Unit}
    (hk : ∀ u n, Mine i id n how.checkpoint? u → how.checkpoint?.all decodes → Safe decodes i (k n) u) :
    Safe decodes i (runSegment i id how k) t := by
  intro u _ hinv
  refine ⟨fun hall => ⟨hinv.run i id how, fun j hj => ?_, hk _ _ (fun _ => ⟨?_, ?_⟩) hall⟩, fun _ _ => safe_done⟩
  · refine @keeps_of_holder Blob u id _ j ?_ fun id' hne => ⟨Function.update_of_ne hne .., Function.update_of_ne hne ..,
      Function.update_of_ne hne ..⟩
    rw [run]
    dsimp only
    rw [Function.update_self]
    exact fun heq => hj (Option.some.inj heq).symm
  · exact Function.update_self ..
  · exact Function.update_self ..

theorem safe_finish {kind : ResumerKind} {now : Text} {e : Execution} {number : Nat} {how : SegmentEnd Blob}
    (hmine : Mine i id number how.checkpoint? t) (hdecodes : how.checkpoint?.all decodes)
    (hk : ∀ u, Safe decodes i k u) : Safe decodes i (finish kind now id e number how k) t := by
  unfold finish
  split
  case isFalse => exact hk t
  case isTrue =>
    cases how with
    | completed output context durationUs =>
      cases kind with
      | scheduler => exact safe_steps (fun u hu => safe_record (hmine.keeps hu) (fun v _ => hk v) hk) hk
      | _ => exact safe_record hmine (fun u _ => safe_steps (fun v _ => hk v) hk) hk
    | paused checkpoint context elapsedUs =>
      cases kind with
      | scheduler => exact safe_save hmine hdecodes hk hk
      | _ => exact safe_pause hmine hdecodes hk
    | failed message =>
      cases kind with
      | scheduler => exact hk t
      | _ => exact safe_record hmine (fun u _ => hk u) hk

theorem safe_resumeOne {kind : ResumerKind} {now : Text} {e : Execution} {how : Option (SegmentEnd Blob)}
    (hk : ∀ u, Safe decodes i k u) : Safe decodes i (resumeOne decodes kind i now id e how k) t := by
  refine safe_query (fun u => ?_) hk
  cases Storage.loadCheckpoint id u.tables with
  | error e _ => exact hk u
  | ok loaded _ =>
    cases loaded with
    | none => exact hk u
    | some checkpoint =>
      cases how with
      | none => exact hk u
      | some how =>
        dsimp only
        split
        · exact safe_runSegment fun v n hmine hall => safe_finish hmine hall hk
        · exact hk u

theorem safe_checked {k : Execution → SegmentM Blob Unit} (hk : ∀ e u, Safe decodes i (k e) u)
    (hotherwise : ∀ u, Safe decodes i otherwise u) : Safe decodes i (checked id k otherwise) t := by
  refine safe_query (fun u => ?_) hotherwise
  cases Storage.loadExecution id u.tables with
  | error e _ => exact hotherwise u
  | ok e _ =>
    dsimp only
    split
    · exact hk e u
    · exact hotherwise u

theorem safe_resumeAll {kind : ResumerKind} {now : Text} {how : Text → Option (SegmentEnd Blob)}
    (todo : List (Text × Execution)) : Safe decodes i (resumeAll decodes kind i now how todo) t := by
  induction todo generalizing t with
  | nil => exact safe_done
  | cons entry todo ih =>
    obtain ⟨id, e⟩ := entry
    unfold resumeAll
    cases kind with
    | serverScheduler audit => exact safe_checked (fun e u => safe_resumeOne fun _ => ih) fun _ => ih
    | _ => exact safe_resumeOne fun _ => ih

theorem safe_round {kind : ResumerKind} {now : Text} {how : Text → Option (SegmentEnd Blob)} :
    Safe decodes i (round decodes kind i now how) t := by
  refine safe_query (fun u => ?_) fun _ => safe_done
  cases Storage.listPausedExecutions u.tables with
  | ok l _ => exact safe_resumeAll l
  | error e _ => exact safe_done

theorem safe_resume {kind : ResumerKind} {now : Text} {how : Text → Option (SegmentEnd Blob)} :
    Safe decodes i (resume decodes kind i now how) t := by
  cases kind with
  | http audit id => exact safe_checked (fun e u => safe_resumeOne fun _ => safe_done) fun _ => safe_done
  | cli id => exact safe_checked (fun e u => safe_resumeOne fun _ => safe_done) fun _ => safe_done
  | scheduler => exact safe_round
  | serverScheduler audit => exact safe_round

theorem safe_runFirst {audit : Bool} {now : Text} {e : Execution} {how : SegmentEnd Blob} :
    Safe decodes i (runFirst audit i now id e how) t := by
  refine safe_runSegment fun u n hmine hall => ?_
  cases audit with
  | false => exact safe_done
  | true =>
    cases how with
    | completed output context durationUs =>
      exact safe_record hmine (fun v _ => safe_steps (fun _ _ => safe_done) fun _ => safe_done) fun _ => safe_done
    | paused checkpoint context elapsedUs => exact safe_pause hmine hall fun _ => safe_done
    | failed message => exact safe_record hmine (fun _ _ => safe_done) fun _ => safe_done

theorem safe_script (job : ExecutionJob Blob) : Safe decodes i (script decodes i job) t := by
  cases job with
  | runExecution audit now id graphId version input how =>
    cases audit with
    | true => exact safe_create rfl (fun _ => safe_runFirst) fun _ => safe_done
    | false => exact safe_runFirst
  | cmdExecute now id graphId version input elapsedUs how =>
    refine safe_create rfl (fun u => ?_) fun _ => safe_done
    cases how with
    | none => exact safe_done
    | some how =>
      refine safe_runSegment fun v n hmine hall => ?_
      cases how with
      | completed output context durationUs =>
        exact safe_record hmine (fun v _ => safe_steps (fun _ _ => safe_done) fun _ => safe_done) fun _ => safe_done
      | paused checkpoint context elapsed => exact safe_pause hmine hall fun _ => safe_done
      | failed message => exact safe_record hmine (fun _ _ => safe_done) fun _ => safe_done
  | resume kind now how => exact safe_resume

end Terms

end Segments

section Runs

variable {Blob : Type}

theorem executing_bound (decodes : Blob → Bool) (jobs : Nat → Option (ExecutionJob Blob)) :
    (executing decodes jobs).Bound (Segments.contract decodes) fun _ _ _ => True := by
  refine ⟨fun _ => ⟨fun _ _ hn => (by cases hn), fun _ hne => (hne rfl).elim, fun _ _ hrow => (by cases hrow)⟩,
    fun i => ?_⟩
  rw [executing]
  dsimp only
  cases jobs i with
  | none => exact Segments.safe_done
  | some job => exact Segments.safe_script job

end Runs

instance decidableSegmentStep {Blob : Type} (decodes : Blob → Bool) (i : Nat) (label : SegmentStep Blob)
    (fault : Option Text) (t : Segments Blob) : Decidable (label.Allowed decodes i fault t) := by
  unfold SegmentStep.Allowed
  split <;> infer_instance

/-- An execution that is paused, and resumed by a request and by a round of the scheduler. -/
def pausedTwice : Nat → Option (ExecutionJob Text)
  | 0 => some (.runExecution true "0" "e" "g" 1 Context.new (.paused "a" Context.new 1))
  | 1 => some (.resume (.http true "e") "1" fun _ => some (.paused "b" Context.new 1))
  | 2 => some (.resume .scheduler "2" fun _ => some (.paused "c" Context.new 1))
  | _ => none

end Tinypipe
