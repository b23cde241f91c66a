import Tinypipe.Store.Storage

/-! Resumers at work on one store: `resume_execution` and `run_scheduler` of the server
(`tinypipe-server/src/engine.rs`), a round of the scheduler
(`tinypipe-scheduler/src/lib.rs`) and `cmd_resume` (`tinypipe-cli/src/main.rs`). A step is one
statement of the storage or one segment of an execution; how a segment ends, and whether it
can be started at all, is left open. -/

namespace Tinypipe

open Lib Lib.Stateful

inductive ResumerKind where
  /-- `resume_execution`, with the audit flag of the server. -/
  | http (audit : Bool) (id : Text)
  | cli (id : Text)
  | scheduler
  /-- `run_scheduler`: the server resumes one execution after the other. -/
  | serverScheduler (audit : Bool)

/-- Whether the end of a segment is written to the store. -/
def ResumerKind.audits : ResumerKind → Bool
  | http audit _ | serverScheduler audit => audit
  | cli _ | scheduler => true

inductive SegmentEnd (Blob : Type) where
  | completed (output : Option Value) (context : Context) (durationUs : Nat)
  | paused (checkpoint : Blob) (context : Context) (elapsedUs : Nat)
  | failed (message : Text)

def SegmentEnd.isCompleted {Blob : Type} : SegmentEnd Blob → Bool
  | completed _ _ _ => true
  | paused _ _ _ | failed _ => false

inductive Phase (Blob : Type) where
  | start
  /-- Between two executions of a round. -/
  | next (todo : List (Text × Execution))
  | loaded (id : Text) (e : Execution) (todo : List (Text × Execution))
  /-- The checkpoint is loaded, the segment not yet run. -/
  | holding (id : Text) (e : Execution) (checkpoint : Blob) (number : Nat)
    (todo : List (Text × Execution))
  | ran (id : Text) (e : Execution) (how : SegmentEnd Blob) (todo : List (Text × Execution))
  /-- The execution is saved, its new checkpoint not yet. -/
  | saved (id : Text) (checkpoint : Blob) (todo : List (Text × Execution))
  | stopped

/-- A segment that has been run. -/
structure Ran where
  id : Text
  number : Nat
  completed : Bool
deriving DecidableEq

structure World (Blob : Type) where
  tables : Tables Blob
  phases : Nat → Phase Blob
  /-- History variables: the number of an execution's checkpoint, whether a segment has been run
  whose end is not written, and the segments in the order they were run. -/
  number : Text → Nat
  unwritten : Text → Bool
  log : List Ran

/-- What the environment decides in a step. -/
structure Choice (Blob : Type) where
  now : Text
  /-- How the segment ends, unless its plan or its environment is missing. -/
  how : Option (SegmentEnd Blob)

namespace World

variable {Blob : Type}

/-- No resumer has started. -/
def of (tables : Tables Blob) : World Blob :=
  ⟨tables, fun _ => .start, fun _ => 0, fun _ => false, []⟩

def setPhase (i : Nat) (p : Phase Blob) (w : World Blob) : World Blob :=
  { w with phases := Function.update w.phases i p }

def saveExecution (id : Text) (e : Execution) (w : World Blob) : World Blob :=
  { w with
    tables := finalState (Storage.saveExecution id e w.tables)
    unwritten := Function.update w.unwritten id false }

def saveCheckpoint (id : Text) (checkpoint : Blob) (w : World Blob) : World Blob :=
  { w with
    tables := finalState (Storage.saveCheckpoint id checkpoint w.tables)
    number := Function.update w.number id (w.number id + 1)
    unwritten := Function.update w.unwritten id false }

def run (id : Text) (number : Nat) (how : SegmentEnd Blob) (w : World Blob) : World Blob :=
  { w with
    unwritten := Function.update w.unwritten id true
    log := w.log ++ [⟨id, number, how.isCompleted⟩] }

/-- `load_execution` and the check that it is paused. -/
def check (id : Text) (todo : List (Text × Execution)) (w : World Blob) : Phase Blob :=
  match Storage.loadExecution id w.tables with
  | .ok e _ => if e.status = .paused then .loaded id e todo else .next todo
  | .error _ _ => .next todo

def listPaused (w : World Blob) : List (Text × Execution) :=
  match Storage.listPausedExecutions w.tables with
  | .ok l _ => l
  | .error _ _ => []

/-- Where a resumer goes from the start, and to the next execution. -/
def first (kind : ResumerKind) (w : World Blob) : Phase Blob :=
  match kind with
  | .http _ id | .cli id => w.check id []
  | .scheduler | .serverScheduler _ => .next w.listPaused

def following (kind : ResumerKind) (todo : List (Text × Execution)) (w : World Blob) : Phase Blob :=
  match todo with
  | [] => .stopped
  | (id, e) :: todo =>
    match kind with
    | .serverScheduler _ => w.check id todo
    | .http _ _ | .cli _ | .scheduler => .loaded id e todo

def load (i : Nat) (id : Text) (e : Execution) (todo : List (Text × Execution)) (w : World Blob) :
    World Blob :=
  match Storage.loadCheckpoint id w.tables with
  | .ok (some checkpoint) _ => w.setPhase i (.holding id e checkpoint (w.number id) todo)
  | .ok none _ | .error _ _ => w.setPhase i (.next todo)

/-- What is written when a segment has ended. The scheduler saves a new checkpoint only, and
nothing of a failure. -/
def write (kind : ResumerKind) (i : Nat) (now id : Text) (e : Execution)
    (todo : List (Text × Execution)) (how : SegmentEnd Blob) (w : World Blob) : World Blob :=
  if kind.audits then
    match how with
    | .completed output context durationUs =>
      (w.saveExecution id { e with
        status := .completed
        output := output
        durationUs := some durationUs
        completedAt := some now
        context := some context }).setPhase i (.next todo)
    | .paused checkpoint context elapsedUs =>
      match kind with
      | .scheduler => (w.saveCheckpoint id checkpoint).setPhase i (.next todo)
      | .cli _ => (w.saveExecution id { e with
          status := .paused
          durationUs := some elapsedUs
          context := some context }).setPhase i (.saved id checkpoint todo)
      | .http _ _ | .serverScheduler _ => (w.saveExecution id { e with
          status := .paused
          context := some context }).setPhase i (.saved id checkpoint todo)
    | .failed message =>
      match kind with
      | .scheduler => w.setPhase i (.next todo)
      | .http _ _ | .cli _ | .serverScheduler _ => (w.saveExecution id { e with
          status := .failed
          error := some message
          completedAt := some now }).setPhase i (.next todo)
  else w.setPhase i (.next todo)

/-- The next step of resumer `i`. -/
def step (kinds : Nat → ResumerKind) (w : World Blob) (move : Nat × Choice Blob) : World Blob :=
  let (i, choice) := move
  match w.phases i with
  | .start => w.setPhase i (w.first (kinds i))
  | .next todo => w.setPhase i (w.following (kinds i) todo)
  | .loaded id e todo => w.load i id e todo
  | .holding id e _ number todo =>
    match choice.how with
    | some how => (w.run id number how).setPhase i (.ran id e how todo)
    | none => w.setPhase i (.next todo)
  | .ran id e how todo => w.write (kinds i) i choice.now id e todo how
  | .saved id checkpoint todo => (w.saveCheckpoint id checkpoint).setPhase i (.next todo)
  | .stopped => w

end World

/-- No segment is run twice, and nothing is run behind a completion. -/
def AtMostOnce (log : List Ran) : Prop :=
  log.Pairwise fun a b => a.id = b.id → a.number ≠ b.number ∧ a.completed = false

/-! ### One resumer at a time -/

section Owners

variable {Blob : Type}

/-- The resumer has the checkpoint of an execution, or has not written yet what became of it. -/
def Phase.works : Phase Blob → Text → Prop
  | holding id _ _ _ _, id' | ran id _ _ _, id' | saved id _ _, id' => id = id'
  | start, _ | next _, _ | loaded _ _ _, _ | stopped, _ => False

/-- The resumer will or may save a new checkpoint of an execution. -/
def Phase.pauses : Phase Blob → Text → Prop
  | ran id _ how _, id' => id = id' ∧ how.isCompleted = false
  | saved id _ _, id' => id = id'
  | start, _ | next _, _ | loaded _ _ _, _ | holding _ _ _ _ _, _ | stopped, _ => False

theorem Phase.Pauses.works {p : Phase Blob} {id : Text} (h : p.pauses id) : p.works id := by
  cases p with
  | ran id' e how todo => exact h.1
  | saved id' checkpoint todo => exact h
  | start => cases h
  | next todo => cases h
  | loaded id' e todo => cases h
  | holding id' e checkpoint number todo => cases h
  | stopped => cases h

namespace World

def HasCheckpoint (w : World Blob) (id : Text) : Prop :=
  ∃ row checkpoint, w.tables.executions.get id = some row ∧ row.checkpoint = some checkpoint

/-- A checkpoint is only loaded while no other resumer works on the execution and the end of every
segment that was run of it is written. -/
def Exclusive (w : World Blob) (i : Nat) : Prop :=
  ∀ id e todo, w.phases i = .loaded id e todo →
    w.unwritten id = false ∧ ∀ j, j ≠ i → ¬(w.phases j).works id

structure Inv (w : World Blob) : Prop where
  once : AtMostOnce w.log
  bound : ∀ r ∈ w.log, r.number ≤ w.number r.id
  clean : ∀ id, w.unwritten id = false → w.HasCheckpoint id → ∀ r ∈ w.log, r.id = id →
    r.number < w.number id ∧ r.completed = false
  owner : ∀ i j id, (w.phases i).works id → (w.phases j).works id → i = j
  holding : ∀ i id e checkpoint number todo, w.phases i = .holding id e checkpoint number todo →
    number = w.number id ∧ w.unwritten id = false ∧ w.HasCheckpoint id
  pauses : ∀ i id, (w.phases i).pauses id → ∀ r ∈ w.log, r.id = id → r.completed = false

variable {w : World Blob}

theorem inv_of (tables : Tables Blob) : Inv (of tables) where
  once := List.Pairwise.nil
  bound := fun _ hr => by cases hr
  clean := fun _ _ _ _ hr => by cases hr
  owner := fun _ _ _ hw => by cases hw
  holding := fun _ _ _ _ _ _ hp => by cases hp
  pauses := fun _ _ hp => by cases hp

theorem phases_setPhase (i j : Nat) (p : Phase Blob) (w : World Blob) :
    (w.setPhase i p).phases j = if j = i then p else w.phases j :=
  Function.update_apply ..

/-- A resumer goes to another phase: what it works on then, no other resumer does. -/
theorem Inv.setPhase (h : Inv w) (i : Nat) {p : Phase Blob}
    (hfree : ∀ id, p.works id → ∀ j, j ≠ i → ¬(w.phases j).works id)
    (hholding : ∀ id e checkpoint number todo, p = .holding id e checkpoint number todo →
      number = w.number id ∧ w.unwritten id = false ∧ w.HasCheckpoint id)
    (hpauses : ∀ id, p.pauses id → ∀ r ∈ w.log, r.id = id → r.completed = false) :
    Inv (w.setPhase i p) := by
  refine ⟨h.once, h.bound, h.clean, fun j k id hj hk => ?_,
    fun j id e checkpoint number todo hj => ?_, fun j id hj => ?_⟩
  · rw [phases_setPhase] at hj hk
    split at hj
    case isTrue hji =>
      split at hk
      case isTrue hki => rw [hji, hki]
      case isFalse hki => exact absurd hk (hfree id hj k hki)
    case isFalse hji =>
      split at hk
      case isTrue hki => exact absurd hj (hfree id hk j hji)
      case isFalse => exact h.owner j k id hj hk
  · rw [phases_setPhase] at hj
    split at hj
    · exact hholding id e checkpoint number todo hj
    · exact h.holding j id e checkpoint number todo hj
  · rw [phases_setPhase] at hj
    split at hj
    · exact hpauses id hj
    · exact h.pauses j id hj

/-- A phase in which nothing is held. -/
theorem Inv.release (h : Inv w) (i : Nat) {p : Phase Blob} (hp : ∀ id, ¬p.works id) :
    Inv (w.setPhase i p) := by
  refine h.setPhase i (fun id hw => absurd hw (hp id)) (fun id e checkpoint number todo heq => ?_)
    fun id hw => absurd (Phase.Pauses.works hw) (hp id)
  exact absurd (by rw [heq]; rfl) (hp id)

/-- Nobody works on an execution that its only owner has released. -/
theorem Inv.free_of_release (h : Inv w) {i : Nat} {id : Text} (hi : (w.phases i).works id)
    {p : Phase Blob} (hp : ∀ id, ¬p.works id) (j : Nat) : ¬((w.setPhase i p).phases j).works id := by
  rw [phases_setPhase]
  split
  case isTrue => exact hp id
  case isFalse hj => exact fun hw => hj (h.owner j i id hw hi)

theorem unwritten_run (id : Text) (number : Nat) (how : SegmentEnd Blob) (w : World Blob) :
    (w.run id number how).unwritten = Function.update w.unwritten id true := rfl

theorem unwritten_saveExecution (id : Text) (e : Execution) (w : World Blob) :
    (w.saveExecution id e).unwritten = Function.update w.unwritten id false := rfl

theorem unwritten_saveCheckpoint (id : Text) (checkpoint : Blob) (w : World Blob) :
    (w.saveCheckpoint id checkpoint).unwritten = Function.update w.unwritten id false := rfl

theorem number_saveCheckpoint (id : Text) (checkpoint : Blob) (w : World Blob) :
    (w.saveCheckpoint id checkpoint).number = Function.update w.number id (w.number id + 1) := rfl

theorem hasCheckpoint_saveExecution_self (id : Text) (e : Execution) (w : World Blob) :
    ¬(w.saveExecution id e).HasCheckpoint id := by
  rintro ⟨row, checkpoint, hrow, hcheckpoint⟩
  rw [World.saveExecution, Storage.saveExecution, modify_apply, finalState, Dict.get_set, if_pos rfl] at hrow
  cases hrow
  cases hcheckpoint

theorem hasCheckpoint_saveExecution {id id' : Text} (hne : id' ≠ id) (e : Execution) (w : World Blob) :
    (w.saveExecution id e).HasCheckpoint id' ↔ w.HasCheckpoint id' := by
  rw [HasCheckpoint, World.saveExecution, Storage.saveExecution, modify_apply, finalState, Dict.get_set,
    if_neg (Ne.symm hne), Dict.get_erase_ne _ hne]
  rfl

theorem hasCheckpoint_saveCheckpoint {id id' : Text} (hne : id' ≠ id) (checkpoint : Blob)
    (w : World Blob) : (w.saveCheckpoint id checkpoint).HasCheckpoint id' ↔ w.HasCheckpoint id' := by
  rw [HasCheckpoint, World.saveCheckpoint, Storage.saveCheckpoint, modify_apply, finalState]
  cases w.tables.executions.get id with
  | none => rfl
  | some row =>
    dsimp only
    rw [Dict.get_set, if_neg (Ne.symm hne)]
    rfl

theorem Inv.run (h : Inv w) {id : Text} (hfree : ∀ j, ¬(w.phases j).works id)
    (hnew : ∀ r ∈ w.log, r.id = id → r.number < w.number id ∧ r.completed = false)
    (how : SegmentEnd Blob) : Inv (w.run id (w.number id) how) := by
  refine ⟨?_, fun r hr => ?_, fun id' hu hc r hr hid => ?_, h.owner,
    fun j id' e checkpoint number todo hj => ?_, fun j id' hj r hr hid => ?_⟩
  · refine List.pairwise_append.2 ⟨h.once, List.pairwise_singleton _ _, fun a ha b hb hab => ?_⟩
    rw [List.mem_singleton.1 hb] at hab ⊢
    obtain ⟨hlt, hcompleted⟩ := hnew a ha hab
    exact ⟨Nat.ne_of_lt hlt, hcompleted⟩
  · rcases List.mem_append.1 hr with hr | hr
    · exact h.bound r hr
    · rw [List.mem_singleton.1 hr]
      exact Nat.le_refl _
  · rw [unwritten_run, Function.update_apply] at hu
    split at hu
    case isTrue => cases hu
    case isFalse hne =>
      rcases List.mem_append.1 hr with hr | hr
      · exact h.clean id' hu hc r hr hid
      · rw [List.mem_singleton.1 hr] at hid
        exact absurd hid.symm hne
  · obtain ⟨hnumber, hu, hc⟩ := h.holding j id' e checkpoint number todo hj
    have hne : id' ≠ id := by
      rintro rfl
      refine hfree j ?_
      rw [show w.phases j = _ from hj]
      rfl
    refine ⟨hnumber, ?_, hc⟩
    rw [unwritten_run, Function.update_of_ne hne]
    exact hu
  · rcases List.mem_append.1 hr with hr | hr
    · exact h.pauses j id' hj r hr hid
    · rw [List.mem_singleton.1 hr] at hid
      cases hid
      exact absurd (Phase.Pauses.works hj) (hfree j)

theorem Inv.saveExecution (h : Inv w) {id : Text} (hfree : ∀ j, ¬(w.phases j).works id)
    (e : Execution) : Inv (w.saveExecution id e) := by
  refine ⟨h.once, h.bound, fun id' hu hc => ?_, h.owner, fun j id' e' checkpoint number todo hj => ?_,
    h.pauses⟩
  · by_cases hid : id' = id
    · subst hid
      exact absurd hc (hasCheckpoint_saveExecution_self id' e w)
    · rw [unwritten_saveExecution, Function.update_of_ne hid] at hu
      exact h.clean id' hu ((hasCheckpoint_saveExecution hid e w).1 hc)
  · obtain ⟨hnumber, hu, hc⟩ := h.holding j id' e' checkpoint number todo hj
    have hne : id' ≠ id := by
      rintro rfl
      refine hfree j ?_
      rw [show w.phases j = _ from hj]
      rfl
    refine ⟨hnumber, ?_, (hasCheckpoint_saveExecution hne e w).2 hc⟩
    rw [unwritten_saveExecution, Function.update_of_ne hne]
    exact hu

/-- A new checkpoint has a number of its own. -/
theorem Inv.saveCheckpoint (h : Inv w) {id : Text} (hfree : ∀ j, ¬(w.phases j).works id)
    (hopen : ∀ r ∈ w.log, r.id = id → r.completed = false) (checkpoint : Blob) :
    Inv (w.saveCheckpoint id checkpoint) := by
  refine ⟨h.once, fun r hr => ?_, fun id' hu hc r hr hid => ?_, h.owner,
    fun j id' e' checkpoint' number todo hj => ?_, h.pauses⟩
  · rw [number_saveCheckpoint, Function.update_apply]
    split
    case isTrue hid => exact Nat.le_succ_of_le (hid ▸ h.bound r hr)
    case isFalse => exact h.bound r hr
  · by_cases hne : id' = id
    · subst hne
      rw [number_saveCheckpoint, Function.update_self]
      exact ⟨Nat.lt_succ_of_le (hid ▸ h.bound r hr), hopen r hr hid⟩
    · rw [unwritten_saveCheckpoint, Function.update_of_ne hne] at hu
      rw [number_saveCheckpoint, Function.update_of_ne hne]
      exact h.clean id' hu ((hasCheckpoint_saveCheckpoint hne checkpoint w).1 hc) r hr hid
  · obtain ⟨hnumber, hu, hc⟩ := h.holding j id' e' checkpoint' number todo hj
    have hne : id' ≠ id := by
      rintro rfl
      refine hfree j ?_
      rw [show w.phases j = _ from hj]
      rfl
    rw [number_saveCheckpoint, Function.update_of_ne hne, unwritten_saveCheckpoint,
      Function.update_of_ne hne]
    exact ⟨hnumber, hu, (hasCheckpoint_saveCheckpoint hne checkpoint w).2 hc⟩

/-! ### Steps -/

theorem load_eq (i : Nat) (id : Text) (e : Execution) (todo : List (Text × Execution)) (w : World Blob) :
    (∃ checkpoint, w.HasCheckpoint id ∧
      w.load i id e todo = w.setPhase i (.holding id e checkpoint (w.number id) todo)) ∨
    w.load i id e todo = w.setPhase i (.next todo) := by
  rw [World.load, Storage.loadCheckpoint, get_bind]
  cases hrow : w.tables.executions.get id with
  | none => exact Or.inr rfl
  | some row =>
    cases hcheckpoint : row.checkpoint with
    | none =>
      refine Or.inr ?_
      simp only [hcheckpoint, pure_apply]
    | some checkpoint =>
      refine Or.inl ⟨checkpoint, ⟨row, checkpoint, hrow, hcheckpoint⟩, ?_⟩
      simp only [hcheckpoint, pure_apply]

theorem Inv.load (h : Inv w) {i : Nat} (hx : w.Exclusive i) {id : Text} {e : Execution}
    {todo : List (Text × Execution)} (hi : w.phases i = .loaded id e todo) :
    Inv (w.load i id e todo) := by
  obtain ⟨hunwritten, hfree⟩ := hx id e todo hi
  rcases load_eq i id e todo w with ⟨checkpoint, hc, heq⟩ | heq
  · rw [heq]
    refine h.setPhase i (fun id' hw => ?_) (fun id' e' checkpoint' number todo' hp => ?_)
      fun id' hp => by cases hp
    · cases hw
      exact hfree
    · cases hp
      exact ⟨rfl, hunwritten, hc⟩
  · rw [heq]
    exact h.release i fun _ hw => hw

theorem Inv.runHeld (h : Inv w) {i : Nat} {id : Text} {e : Execution} {checkpoint : Blob} {number : Nat}
    {todo : List (Text × Execution)} (hi : w.phases i = .holding id e checkpoint number todo)
    (how : SegmentEnd Blob) : Inv ((w.run id number how).setPhase i (.ran id e how todo)) := by
  obtain ⟨rfl, hu, hc⟩ := h.holding i id e checkpoint number todo hi
  have hworks : (w.phases i).works id := by rw [hi]; rfl
  have hfree := h.free_of_release hworks (p := .next todo) fun _ hw => hw
  have hnew := h.clean id hu hc
  have hinv := (h.release i (p := .next todo) fun _ hw => hw).run hfree hnew how
  have htake := hinv.setPhase i (p := .ran id e how todo) (fun id' hw => ?_)
    (fun id' e' checkpoint' number todo' hp => by cases hp) fun id' hp r hr hid => ?_
  · simpa [World.run, World.setPhase] using htake
  · cases hw
    exact fun j _ => hfree j
  · obtain ⟨rfl, hcompleted⟩ := hp
    rcases List.mem_append.1 hr with hr | hr
    · exact (hnew r hr hid).2
    · rw [List.mem_singleton.1 hr]
      exact hcompleted

theorem Inv.saveExecutionHeld (h : Inv w) {i : Nat} {id : Text} (hi : (w.phases i).works id)
    (e : Execution) {p : Phase Blob} (hp : ∀ id', p.works id' → id' = id)
    (hholding : ∀ id' e' checkpoint number todo, p ≠ .holding id' e' checkpoint number todo)
    (hpauses : ∀ id', p.pauses id' → ∀ r ∈ w.log, r.id = id' → r.completed = false) :
    Inv ((w.saveExecution id e).setPhase i p) := by
  have hfree := h.free_of_release hi (p := .next []) fun _ hw => hw
  have hinv := (h.release i (p := .next []) fun _ hw => hw).saveExecution hfree e
  have htake := hinv.setPhase i (p := p) (fun id' hw j _ => ?_)
    (fun id' e' checkpoint number todo heq => absurd heq (hholding id' e' checkpoint number todo)) hpauses
  · simpa [World.saveExecution, World.setPhase] using htake
  · rw [hp id' hw]
    exact hfree j

theorem Inv.saveCheckpointHeld (h : Inv w) {i : Nat} {id : Text} (hi : (w.phases i).pauses id)
    (checkpoint : Blob) {p : Phase Blob} (hp : ∀ id, ¬p.works id) :
    Inv ((w.saveCheckpoint id checkpoint).setPhase i p) := by
  have hfree := h.free_of_release (Phase.Pauses.works hi) (p := .next []) fun _ hw => hw
  have hinv := (h.release i (p := .next []) fun _ hw => hw).saveCheckpoint hfree (h.pauses i id hi) checkpoint
  have htake := hinv.release i hp
  simpa [World.saveCheckpoint, World.setPhase] using htake

theorem Inv.write (h : Inv w) {i : Nat} {id : Text} {e : Execution} {how : SegmentEnd Blob}
    {todo : List (Text × Execution)} (hi : w.phases i = .ran id e how todo) (kind : ResumerKind)
    (now : Text) : Inv (w.write kind i now id e todo how) := by
  have hworks : (w.phases i).works id := by
    rw [hi]
    rfl
  have hdone : ∀ e', Inv ((w.saveExecution id e').setPhase i (.next todo)) := fun e' =>
    h.saveExecutionHeld hworks e' (fun _ hw => by cases hw) (fun _ _ _ _ _ heq => by cases heq)
      fun _ hw => by cases hw
  unfold World.write
  split
  case isTrue =>
    cases how with
    | completed output context durationUs => exact hdone _
    | paused checkpoint context elapsedUs =>
      have hpauses : (w.phases i).pauses id := by
        rw [hi]
        exact ⟨rfl, rfl⟩
      have hsaved : ∀ e', Inv ((w.saveExecution id e').setPhase i (.saved id checkpoint todo)) := by
        intro e'
        refine h.saveExecutionHeld hworks e' (fun _ hw => hw.symm) (fun _ _ _ _ _ heq => by cases heq) ?_
        rintro id' rfl
        exact h.pauses i id hpauses
      cases kind with
      | http audit id' => exact hsaved _
      | cli id' => exact hsaved _
      | scheduler => exact h.saveCheckpointHeld hpauses checkpoint fun _ hw => hw
      | serverScheduler audit => exact hsaved _
    | failed message =>
      cases kind with
      | http audit id' => exact hdone _
      | cli id' => exact hdone _
      | scheduler => exact h.release i fun _ hw => hw
      | serverScheduler audit => exact hdone _
  case isFalse => exact h.release i fun _ hw => hw

theorem works_check {id id' : Text} {todo : List (Text × Execution)} : ¬(w.check id todo).works id' := by
  rw [World.check]
  cases Storage.loadExecution id w.tables with
  | error e t => exact fun hw => hw
  | ok e t =>
    dsimp only
    split
    · exact fun hw => hw
    · exact fun hw => hw

theorem works_first {kind : ResumerKind} {id : Text} : ¬(w.first kind).works id := by
  cases kind with
  | http audit id' => exact works_check
  | cli id' => exact works_check
  | scheduler => exact fun hw => hw
  | serverScheduler audit => exact fun hw => hw

theorem works_following {kind : ResumerKind} {todo : List (Text × Execution)} {id : Text} :
    ¬(w.following kind todo).works id := by
  cases todo with
  | nil => exact fun hw => hw
  | cons x todo =>
    cases kind with
    | http audit id' => exact fun hw => hw
    | cli id' => exact fun hw => hw
    | scheduler => exact fun hw => hw
    | serverScheduler audit => exact works_check

theorem Inv.step (h : Inv w) (kinds : Nat → ResumerKind) {move : Nat × Choice Blob}
    (hx : w.Exclusive move.1) : Inv (w.step kinds move) := by
  obtain ⟨i, choice⟩ := move
  unfold World.step
  dsimp only at hx ⊢
  split
  case h_1 => exact h.release i fun _ => works_first
  case h_2 todo _ => exact h.release i fun _ => works_following
  case h_3 id e todo hi => exact h.load hx hi
  case h_4 id e checkpoint number todo hi =>
    split
    case h_1 how _ => exact h.runHeld hi how
    case h_2 => exact h.release i fun _ hw => hw
  case h_5 id e how todo hi => exact h.write hi (kinds i) choice.now
  case h_6 id checkpoint todo hi =>
    have hpauses : (w.phases i).pauses id := by rw [hi]; rfl
    exact h.saveCheckpointHeld hpauses checkpoint fun _ hw => hw
  case h_7 => exact h

/-! ### Interleavings -/

def runs (kinds : Nat → ResumerKind) (w : World Blob) (moves : List (Nat × Choice Blob)) : World Blob :=
  moves.foldl (World.step kinds) w

def AllExclusive (kinds : Nat → ResumerKind) : World Blob → List (Nat × Choice Blob) → Prop
  | _, [] => True
  | w, move :: moves => w.Exclusive move.1 ∧ AllExclusive kinds (w.step kinds move) moves

theorem Inv.runs (h : Inv w) (kinds : Nat → ResumerKind) {moves : List (Nat × Choice Blob)}
    (hx : AllExclusive kinds w moves) : Inv (w.runs kinds moves) := by
  induction moves generalizing w with
  | nil => exact h
  | cons move moves ih => exact ih (h.step kinds hx.1) hx.2

theorem allExclusive_append (kinds : Nat → ResumerKind) {moves moves' : List (Nat × Choice Blob)}
    (hx : AllExclusive kinds w (moves ++ moves')) : AllExclusive kinds w moves := by
  induction moves generalizing w with
  | nil => exact trivial
  | cons move moves ih => exact ⟨hx.1, ih hx.2⟩

end World

end Owners

/-! ### Two resumers of one execution -/

/-- A paused execution with its checkpoint. -/
def onePaused : Tables Unit :=
  { Tables.empty with
    executions := Dict.empty.set "e" ⟨⟨"g", 1, Context.new, none, .paused, none, "0", none, none, none⟩,
      some ()⟩ }

def completes : Choice Unit := ⟨"1", some (.completed none Context.new 1)⟩

end Tinypipe
