import Tinypipe.Daemon.Workers
import Tinypipe.Lib.Runs

/-! Calls of a tool through the daemon (`tinypipe-daemon/src/lib.rs`): `invoke_inner`, the inbound
loop of `connect_worker` and what `disconnect_worker` does behind the groups. A step is one
operation on a map, on a group or on a channel; any number of calls, of connections and of
disconnects are under way at once. -/

namespace Tinypipe

open Lib

structure InvokeRequest where
  toolName : Text
  argsJson : Text
  kwargsJson : Text
  env : Dict Text Text

structure TaskRequest where
  taskId : Text
  toolName : Text
  argsJson : Text
  kwargsJson : Text
  env : Dict Text Text

structure TaskResponse where
  taskId : Text
  success : Bool
  outputJson : Text
  errorMessage : Text
  registeredTools : List ToolDefinition
  apiKey : Text

structure InvokeResponse where
  success : Bool
  outputJson : Text
  errorMessage : Text
  durationUs : Nat

inductive InvokeResult where
  | response (r : InvokeResponse)
  | status (status : RpcStatus)
  | deadlineExceeded (message : Text)

inductive Oneshot where
  | empty
  | sent (r : TaskResponse)
  /-- The sender is gone. -/
  | dropped

/-- How far a call of `invoke_inner` is. -/
inductive Invocation where
  | idle
  | called (req : InvokeRequest)
  | defined (req : InvokeRequest) (tool : ToolDefinition)
  | grouped (req : InvokeRequest) (tool : ToolDefinition) (group : Nat)
  | chosen (req : InvokeRequest) (tool : ToolDefinition) (worker : Text)
  | pended (req : InvokeRequest) (tool : ToolDefinition) (worker : Text)
  | registered (req : InvokeRequest) (tool : ToolDefinition) (worker : Text)
  | waiting (tool : ToolDefinition) (worker : Text)
  /-- The result is known; the task still has to leave `pending`. -/
  | clearing (worker : Text) (result : InvokeResult)
  /-- The task still has to leave `in_flight`. -/
  | leaving (worker : Text) (result : InvokeResult)
  | ended (result : InvokeResult)
  /-- The future was dropped. -/
  | cancelled (worker : Text)

/-- The part of `disconnect_worker` behind the groups. -/
inductive Sweep where
  | idle
  | removing (worker : Text)
  /-- The entry in `in_flight` is gone; its tasks are still to be answered. -/
  | failing (worker : Text) (tasks : List Text)

structure Switchboard where
  hub : Hub
  /-- By the id of the task, the call that holds the receiver. -/
  pending : Dict Text Nat
  inFlight : Dict Text (List Text)
  oneshot : Nat → Oneshot
  /-- The channel of a worker. -/
  queue : Text → List TaskRequest
  closed : Text → Bool
  invocation : Nat → Invocation
  /-- By the call of `disconnect_worker`. -/
  sweep : Nat → Sweep

inductive DaemonMove where
  | hub (move : HubMove)
  | call (i : Nat) (req : InvokeRequest)
  /-- The next step of a call, which may find its time to be up. -/
  | advance (i : Nat) (elapsed : Bool) (durationUs : Nat)
  | cancel (i : Nat)
  /-- A message on the stream of a worker. -/
  | respond (worker : Text) (r : TaskResponse)
  | takeTask (worker : Text)
  | close (worker : Text)
  | sweep (c : Nat)
  | failTask (c : Nat) (task : Text)

def WorkerGroup.fetchAdd (g : WorkerGroup) : WorkerGroup := { g with nextIdx := (g.nextIdx + 1) % 2 ^ 64 }

def workerDisconnected (task : Text) : TaskResponse := ⟨task, false, [], "worker disconnected", [], []⟩

def InvokeResponse.of (r : TaskResponse) (durationUs : Nat) : InvokeResponse :=
  ⟨r.success, r.outputJson, r.errorMessage, durationUs⟩

namespace Switchboard

def new : Switchboard :=
  ⟨Hub.new, Dict.empty, Dict.empty, fun _ => .empty, fun _ => [], fun _ => false, fun _ => .idle, fun _ => .idle⟩

def goTo (i : Nat) (x : Invocation) (s : Switchboard) : Switchboard :=
  { s with invocation := Function.update s.invocation i x }

/-- Takes the sender of a task out of `pending`, to send a value with it or to drop it. -/
def release (task : Text) (value : Oneshot) (s : Switchboard) : Switchboard :=
  match s.pending.get task with
  | some i => { s with pending := s.pending.erase task, oneshot := Function.update s.oneshot i value }
  | none => s

/-- `in_flight.entry(worker).or_default()`, and a change of what is there. -/
def changeEntry (worker : Text) (f : List Text → List Text) (s : Switchboard) : Switchboard :=
  { s with inFlight := s.inFlight.set worker (f ((s.inFlight.get worker).getD [])) }

def enqueue (worker : Text) (task : TaskRequest) (s : Switchboard) : Switchboard :=
  { s with queue := Function.update s.queue worker (s.queue worker ++ [task]) }

def timeoutText (timeoutMs : Nat) (tool : ToolDefinition) : Text :=
  ("tool '" : Text) ++ tool.name ++ ("' timed out after " : Text) ++
    Text.ofNat (if tool.timeoutMs > 0 then tool.timeoutMs else timeoutMs) ++ ("ms" : Text)

section

variable (uuid : Nat → Text) (timeoutMs : Nat)

def advance (i : Nat) (elapsed : Bool) (durationUs : Nat) (s : Switchboard) : Switchboard :=
  match s.invocation i with
  | .called req =>
    match s.hub.daemon.invokeDef req.toolName with
    | .ok tool => s.goTo i (.defined req tool)
    | .error status => s.goTo i (.ended (.status status))
  | .defined req tool =>
    match s.hub.daemon.invokeGroup req.toolName with
    | .ok group => s.goTo i (.grouped req tool group)
    | .error status => s.goTo i (.ended (.status status))
  | .grouped req tool group =>
    match s.hub.daemon.invokeWorker req.toolName group with
    | .ok worker =>
      { s with hub := s.hub.setDaemon (s.hub.daemon.changeGroup group .fetchAdd) }.goTo i
        (.chosen req tool worker)
    | .error status => s.goTo i (.ended (.status status))
  | .chosen req tool worker => { s with pending := s.pending.set (uuid i) i }.goTo i (.pended req tool worker)
  | .pended req tool worker => (s.changeEntry worker (.insert (uuid i))).goTo i (.registered req tool worker)
  | .registered req tool worker =>
    -- `try_send`
    if s.closed worker || (s.queue worker).length ≥ 256 then
      s.goTo i (.clearing worker (.status (.unavailable "worker connection lost")))
    else
      (s.enqueue worker ⟨uuid i, req.toolName, req.argsJson, req.kwargsJson, req.env⟩).goTo i
        (.waiting tool worker)
  | .waiting tool worker =>
    match s.oneshot i with
    | .sent r => s.goTo i (.leaving worker (.response (.of r durationUs)))
    | .dropped => s.goTo i (.leaving worker (.status (.unavailable "worker disconnected while processing")))
    | .empty =>
      if elapsed then s.goTo i (.clearing worker (.deadlineExceeded (timeoutText timeoutMs tool))) else s
  | .clearing worker result => (s.release (uuid i) .dropped).goTo i (.leaving worker result)
  | .leaving worker result => (s.changeEntry worker (.filter (· ≠ uuid i))).goTo i (.ended result)
  | .idle | .ended _ | .cancelled _ => s

/-- A disconnect that starts in the hub goes on behind the groups. -/
def follow (hub : Hub) : HubMove → Switchboard → Switchboard
  | .disconnect c _, s =>
    match s.sweep c, (hub.cleanup c).leaving with
    | .idle, some worker => { s with hub, sweep := Function.update s.sweep c (.removing worker) }
    | _, _ => { s with hub }
  | _, s => { s with hub }

def sweepEntry (c : Nat) (s : Switchboard) : Switchboard :=
  match s.hub.cleanup c, s.sweep c with
  | .done, .removing worker => { s with
      inFlight := s.inFlight.erase worker
      sweep := Function.update s.sweep c (.failing worker ((s.inFlight.get worker).getD [])) }
  | _, _ => s

def failTask (c : Nat) (task : Text) (s : Switchboard) : Switchboard :=
  match s.sweep c with
  | .failing worker tasks =>
    if task ∈ tasks then
      { s with sweep := Function.update s.sweep c (.failing worker (tasks.filter (· ≠ task))) }.release task
        (.sent (workerDisconnected task))
    else s
  | _ => s

/-- The inbound loop starts behind the registration. -/
def listening (worker : Text) (s : Switchboard) : Bool :=
  match s.hub.registration worker with
  | .connected _ | .disconnected => true
  | _ => false

/-- The channel is dropped with the stream, behind its cleanup, or with a rejected registration. -/
def closable (worker : Text) (s : Switchboard) : Bool :=
  match s.hub.registration worker with
  | .disconnected | .rejected _ => true
  | _ => false

def step (s : Switchboard) : DaemonMove → Switchboard
  | .hub move => s.follow (s.hub.step move) move
  | .call i req =>
    match s.invocation i with
    | .idle => s.goTo i (.called req)
    | _ => s
  | .advance i elapsed durationUs => s.advance uuid timeoutMs i elapsed durationUs
  | .cancel i =>
    match s.invocation i with
    | .waiting _ worker => s.goTo i (.cancelled worker)
    | _ => s
  | .respond worker r => if s.listening worker then s.release r.taskId (.sent r) else s
  | .takeTask worker => { s with queue := Function.update s.queue worker (s.queue worker).tail }
  | .close worker => if s.closable worker then { s with closed := Function.update s.closed worker true } else s
  | .sweep c => s.sweepEntry c
  | .failTask c task => s.failTask c task

end

/-! ### What a step can do -/

def run (uuid : Nat → Text) (timeoutMs : Nat) (moves : List DaemonMove) : Switchboard :=
  moves.foldl (step uuid timeoutMs) new

def tasksOf (worker : Text) (s : Switchboard) : List Text := (s.inFlight.get worker).getD []

/-- A disconnect has removed the entry of the worker. -/
def Swept (worker : Text) (s : Switchboard) : Prop := ∃ c tasks, s.sweep c = .failing worker tasks

end Switchboard

namespace Invocation

/-- Before its task is in `pending`. -/
def early : Invocation → Bool
  | idle | called _ | defined .. | grouped .. | chosen .. => true
  | _ => false

/-- Its task may be in `pending`. -/
def pendable : Invocation → Bool
  | pended .. | registered .. | waiting .. | clearing .. | cancelled _ => true
  | _ => false

/-- The worker in whose entry its task is. -/
def worker? : Invocation → Option Text
  | registered _ _ worker | waiting _ worker | clearing worker _ | leaving worker _ | cancelled worker =>
    some worker
  | _ => none

def finished : Invocation → Bool
  | ended _ | cancelled _ => true
  | _ => false

/-- The steps that are left once the time is up. -/
def remaining : Invocation → Nat
  | idle | ended _ | cancelled _ => 0
  | called _ => 9
  | defined .. => 8
  | grouped .. => 7
  | chosen .. => 6
  | pended .. => 5
  | registered .. => 4
  | waiting .. => 3
  | clearing .. => 2
  | leaving .. => 1

/-- The steps of a call that touch neither of the two maps. -/
inductive Next (o : Oneshot) : Invocation → Invocation → Prop where
  | look {x y : Invocation} (hx : x.early) (hy : y.early) (hidle : y ≠ idle)
    (h : y.remaining < x.remaining) : Next o x y
  | refuse {x : Invocation} (hx : x.early) (h : 0 < x.remaining) (status : RpcStatus) :
    Next o x (ended (.status status))
  | send (req : InvokeRequest) (tool : ToolDefinition) (worker : Text) :
    Next o (registered req tool worker) (waiting tool worker)
  | unsent (req : InvokeRequest) (tool : ToolDefinition) (worker : Text) (status : RpcStatus) :
    Next o (registered req tool worker) (clearing worker (.status status))
  | answer {r : TaskResponse} (h : o = .sent r) (tool : ToolDefinition) (worker : Text) (durationUs : Nat) :
    Next o (waiting tool worker) (leaving worker (.response (.of r durationUs)))
  | lose (h : o = .dropped) (tool : ToolDefinition) (worker : Text) (status : RpcStatus) :
    Next o (waiting tool worker) (leaving worker (.status status))
  | expire (h : o = .empty) (tool : ToolDefinition) (worker message : Text) :
    Next o (waiting tool worker) (clearing worker (.deadlineExceeded message))

theorem worker?_early {x : Invocation} (h : x.early = true) : x.worker? = none := by
  cases x <;> first | rfl | cases h

theorem pendable_early {x : Invocation} (h : x.early = true) : x.pendable = false := by
  cases x <;> first | rfl | cases h

section

variable {o : Oneshot} {x y : Invocation}

/-- The place of the task in the two maps stays as it is. -/
structure Follows (o : Oneshot) (x y : Invocation) : Prop where
  worker : y.worker? = x.worker?
  pendable : x.pendable = true → o = .empty → y.pendable = true
  early : y.early = true → x.early = true
  not_ended : ∀ result, x ≠ ended result

theorem Next.follows (h : Next o x y) : Follows o x y := by
  refine ⟨?_, fun hx ho => ?_, fun hy => ?_, ?_⟩
  · induction h with
    | look hx hy => rw [worker?_early hx, worker?_early hy]
    | refuse hx =>
      rw [worker?_early hx]
      rfl
    | _ => rfl
  · induction h with
    | look he | refuse he => cases (pendable_early he).symm.trans hx
    | answer h | lose h => cases h.symm.trans ho
    | send | unsent | expire => rfl
  · induction h with
    | look hx => exact hx
    | _ => cases hy
  · rintro result rfl
    cases h with
    | look hx | refuse hx => cases hx

theorem Next.not_cancelled (h : Next o x y) (worker : Text) : y ≠ cancelled worker := by
  rintro rfl
  cases h with
  | look hx hy => cases hy

theorem Next.not_idle (h : Next o x y) : y ≠ idle := by
  induction h with
  | look hx hy hidle => exact hidle
  | _ => exact nofun

theorem Next.remaining_lt (h : Next o x y) : y.remaining < x.remaining := by
  induction h with
  | look hx hy hidle h => exact h
  | refuse hx h => exact h
  | _ => simp [remaining]

end

end Invocation

namespace Switchboard

variable {uuid : Nat → Text} {timeoutMs : Nat} {s t : Switchboard} {i : Nat}

/-- The steps of a call. -/
inductive Advances (uuid : Nat → Text) (i : Nat) (s : Switchboard) : Switchboard → Prop where
  | go (hub : Hub) (queue : Text → List TaskRequest) {y : Invocation}
    (h : (s.invocation i).Next (s.oneshot i) y) : Advances uuid i s ({ s with hub, queue }.goTo i y)
  | pend {req : InvokeRequest} {tool : ToolDefinition} {worker : Text}
    (h : s.invocation i = .chosen req tool worker) :
    Advances uuid i s ({ s with pending := s.pending.set (uuid i) i }.goTo i (.pended req tool worker))
  | register {req : InvokeRequest} {tool : ToolDefinition} {worker : Text}
    (h : s.invocation i = .pended req tool worker) :
    Advances uuid i s ((s.changeEntry worker (.insert (uuid i))).goTo i (.registered req tool worker))
  | clear {worker : Text} {result : InvokeResult} (h : s.invocation i = .clearing worker result) :
    Advances uuid i s ((s.release (uuid i) .dropped).goTo i (.leaving worker result))
  | leave {worker : Text} {result : InvokeResult} (h : s.invocation i = .leaving worker result) :
    Advances uuid i s ((s.changeEntry worker (.filter (· ≠ uuid i))).goTo i (.ended result))

theorem advance_cases (elapsed : Bool) (durationUs : Nat) :
    s.advance uuid timeoutMs i elapsed durationUs = s ∧
        ((s.invocation i).remaining = 0 ∨
          elapsed = false ∧ ∃ tool worker, s.invocation i = .waiting tool worker) ∨
      Advances uuid i s (s.advance uuid timeoutMs i elapsed durationUs) := by
  unfold advance
  split
  case h_1 req h =>
    split
    · exact .inr (.go s.hub s.queue (h ▸ .look rfl rfl nofun (by simp [Invocation.remaining])))
    · exact .inr (.go s.hub s.queue (h ▸ .refuse rfl (by simp [Invocation.remaining]) _))
  case h_2 req tool h =>
    split
    · exact .inr (.go s.hub s.queue (h ▸ .look rfl rfl nofun (by simp [Invocation.remaining])))
    · exact .inr (.go s.hub s.queue (h ▸ .refuse rfl (by simp [Invocation.remaining]) _))
  case h_3 req tool group h =>
    split
    · exact .inr (.go _ s.queue (h ▸ .look rfl rfl nofun (by simp [Invocation.remaining])))
    · exact .inr (.go s.hub s.queue (h ▸ .refuse rfl (by simp [Invocation.remaining]) _))
  case h_4 req tool worker h => exact .inr (.pend h)
  case h_5 req tool worker h => exact .inr (.register h)
  case h_6 req tool worker h =>
    split
    · exact .inr (.go s.hub s.queue (h ▸ .unsent req tool worker _))
    · exact .inr (.go s.hub _ (h ▸ .send req tool worker))
  case h_7 tool worker h =>
    split
    case h_1 r ho => exact .inr (.go s.hub s.queue (h ▸ .answer ho tool worker durationUs))
    case h_2 ho => exact .inr (.go s.hub s.queue (h ▸ .lose ho tool worker _))
    case h_3 ho =>
      split
      · exact .inr (.go s.hub s.queue (h ▸ .expire ho tool worker _))
      case isFalse he => exact .inl ⟨rfl, .inr ⟨Bool.not_eq_true _ ▸ he, tool, worker, h⟩⟩
  case h_8 worker result h => exact .inr (.clear h)
  case h_9 worker result h => exact .inr (.leave h)
  case h_10 h => exact .inl ⟨rfl, .inl (by rw [h]; rfl)⟩
  case h_11 result h => exact .inl ⟨rfl, .inl (by rw [h]; rfl)⟩
  case h_12 worker h => exact .inl ⟨rfl, .inl (by rw [h]; rfl)⟩

/-- What is true of a call and of its task. -/
structure Settled (uuid : Nat → Text) (i : Nat) (s : Switchboard) : Prop where
  sender : ∀ j, s.pending.get (uuid i) = some j →
    j = i ∧ (s.invocation i).pendable = true ∧ s.oneshot i = .empty
  early : (s.invocation i).early = true → s.oneshot i = .empty
  entry : ∀ worker, uuid i ∈ s.tasksOf worker → (s.invocation i).worker? = some worker
  todo : ∀ c worker tasks, s.sweep c = .failing worker tasks → uuid i ∈ tasks →
    (s.invocation i).worker? = some worker ∨ ∃ result, s.invocation i = .ended result
  present : ∀ worker, (s.invocation i).worker? = some worker → uuid i ∈ s.tasksOf worker ∨ s.Swept worker

structure Inv (uuid : Nat → Text) (s : Switchboard) : Prop where
  keys : ∀ task, (s.pending.get task).isSome → ∃ i, task = uuid i
  settled : ∀ i, Settled uuid i s

theorem inv_new : Inv uuid new where
  keys := fun _ h => by cases h
  settled := fun _ => ⟨fun _ h => (by cases h), fun _ => rfl, fun _ h => (by cases h),
    fun _ _ _ h => (by cases h), fun _ h => (by cases h)⟩

/-- Nothing that concerns another call has changed. -/
structure OnlyAt (uuid : Nat → Text) (i : Nat) (s t : Switchboard) : Prop where
  pending : ∀ task, task ≠ uuid i → t.pending.get task = s.pending.get task
  oneshot : ∀ j, j ≠ i → t.oneshot j = s.oneshot j
  invocation : ∀ j, j ≠ i → t.invocation j = s.invocation j
  tasks : ∀ worker task, task ≠ uuid i → (task ∈ t.tasksOf worker ↔ task ∈ s.tasksOf worker)
  sweep : t.sweep = s.sweep

theorem OnlyAt.refl (uuid : Nat → Text) (i : Nat) (s : Switchboard) : OnlyAt uuid i s s :=
  ⟨fun _ _ => rfl, fun _ _ => rfl, fun _ _ => rfl, fun _ _ _ => Iff.rfl, rfl⟩

theorem OnlyAt.trans {u : Switchboard} (h : OnlyAt uuid i s t) (h' : OnlyAt uuid i t u) :
    OnlyAt uuid i s u :=
  ⟨fun task ht => (h'.pending task ht).trans (h.pending task ht),
    fun j hj => (h'.oneshot j hj).trans (h.oneshot j hj),
    fun j hj => (h'.invocation j hj).trans (h.invocation j hj),
    fun w task ht => (h'.tasks w task ht).trans (h.tasks w task ht), h'.sweep.trans h.sweep⟩

theorem onlyAt_goTo (x : Invocation) : OnlyAt uuid i s (s.goTo i x) :=
  ⟨fun _ _ => rfl, fun _ _ => rfl, fun _ hj => Function.update_of_ne hj .., fun _ _ _ => Iff.rfl, rfl⟩

theorem tasksOf_changeEntry (worker : Text) (f : List Text → List Text) (w : Text) :
    (s.changeEntry worker f).tasksOf w = if worker = w then f (s.tasksOf worker) else s.tasksOf w := by
  rw [tasksOf, changeEntry, Dict.get_set]
  split <;> rfl

theorem onlyAt_changeEntry {worker : Text} {f : List Text → List Text}
    (hf : ∀ tasks task, task ≠ uuid i → (task ∈ f tasks ↔ task ∈ tasks)) :
    OnlyAt uuid i s (s.changeEntry worker f) := by
  refine ⟨fun _ _ => rfl, fun _ _ => rfl, fun _ _ => rfl, fun w task ht => ?_, rfl⟩
  rw [tasksOf_changeEntry]
  split
  case isTrue hw => rw [hf _ _ ht, hw]
  case isFalse => rfl

theorem release_none {task : Text} (h : s.pending.get task = none) (value : Oneshot) :
    s.release task value = s := by
  rw [release, h]

theorem release_some {task : Text} {j : Nat} (h : s.pending.get task = some j) (value : Oneshot) :
    s.release task value =
      { s with pending := s.pending.erase task, oneshot := Function.update s.oneshot j value } := by
  rw [release, h]

theorem Inv.release_onlyAt (h : Inv uuid s) (value : Oneshot) : OnlyAt uuid i s (s.release (uuid i) value) := by
  cases hget : s.pending.get (uuid i) with
  | none =>
    rw [release_none hget]
    exact OnlyAt.refl uuid i s
  | some j =>
    obtain ⟨rfl, -⟩ := (h.settled i).sender j hget
    rw [release_some hget]
    exact ⟨fun task ht => Dict.get_erase_ne _ ht, fun _ hj => Function.update_of_ne hj .., fun _ _ => rfl,
      fun _ _ _ => Iff.rfl, rfl⟩

theorem pending_release (s : Switchboard) (task : Text) (value : Oneshot) (task' : Text) :
    (s.release task value).pending.get task' = if task' = task then none else s.pending.get task' := by
  cases hget : s.pending.get task with
  | none =>
    rw [release_none hget]
    split
    case isTrue heq => rw [heq, hget]
    case isFalse => rfl
  | some j =>
    rw [release_some hget]
    split
    case isTrue heq => rw [heq, Dict.get_erase_self]
    case isFalse hne => rw [Dict.get_erase_ne _ hne]

theorem invocation_release (task : Text) (value : Oneshot) :
    (s.release task value).invocation = s.invocation := by
  rw [release]
  split <;> rfl

theorem inFlight_release (task : Text) (value : Oneshot) : (s.release task value).inFlight = s.inFlight := by
  rw [release]
  split <;> rfl

theorem sweep_release (task : Text) (value : Oneshot) : (s.release task value).sweep = s.sweep := by
  rw [release]
  split <;> rfl

theorem tasksOf_release (task : Text) (value : Oneshot) (worker : Text) :
    (s.release task value).tasksOf worker = s.tasksOf worker := by
  rw [tasksOf, inFlight_release, tasksOf]

theorem swept_release (task : Text) (value : Oneshot) (worker : Text) :
    (s.release task value).Swept worker ↔ s.Swept worker := by
  rw [Swept, sweep_release, Swept]

/-- Only what concerns the one call needs a look. -/
theorem Inv.only (huuid : Function.Injective uuid) (h : Inv uuid s) (hs : OnlyAt uuid i s t)
    (hi : Settled uuid i t) : Inv uuid t := by
  refine ⟨fun task ht => ?_, fun j => ?_⟩
  · by_cases htask : task = uuid i
    · exact ⟨i, htask⟩
    · rw [hs.pending task htask] at ht
      exact h.keys task ht
  · by_cases hj : j = i
    · exact hj ▸ hi
    · have hne : uuid j ≠ uuid i := huuid.ne hj
      have hold := h.settled j
      refine ⟨fun k hk => ?_, fun he => ?_, fun w hw => ?_, fun c w tasks hc ht => ?_, fun w hw => ?_⟩
      · rw [hs.pending _ hne] at hk
        rw [hs.invocation j hj, hs.oneshot j hj]
        exact hold.sender k hk
      · rw [hs.invocation j hj] at he
        rw [hs.oneshot j hj]
        exact hold.early he
      · rw [hs.invocation j hj]
        exact hold.entry w ((hs.tasks w _ hne).1 hw)
      · rw [hs.invocation j hj]
        exact hold.todo c w tasks (hs.sweep ▸ hc) ht
      · rw [hs.invocation j hj] at hw
        rw [hs.tasks w _ hne, Swept, hs.sweep]
        exact hold.present w hw

theorem invocation_goTo (x : Invocation) : (s.goTo i x).invocation i = x := Function.update_self ..

theorem Advances.onlyAt (h : Inv uuid s) (ha : Advances uuid i s t) : OnlyAt uuid i s t := by
  cases ha with
  | go hub queue =>
    exact ⟨fun _ _ => rfl, fun _ _ => rfl, fun _ hj => Function.update_of_ne hj .., fun _ _ _ => Iff.rfl, rfl⟩
  | pend =>
    exact ⟨fun task ht => Dict.get_set_ne _ ht.symm _, fun _ _ => rfl, fun _ hj => Function.update_of_ne hj ..,
      fun _ _ _ => Iff.rfl, rfl⟩
  | register =>
    refine OnlyAt.trans (onlyAt_changeEntry fun tasks task ht => ?_) (onlyAt_goTo _)
    rw [List.mem_insert_iff, or_iff_right ht]
  | clear => exact (h.release_onlyAt .dropped).trans (onlyAt_goTo _)
  | leave =>
    refine OnlyAt.trans (onlyAt_changeEntry fun tasks task ht => ?_) (onlyAt_goTo _)
    rw [List.mem_filter, decide_eq_true ht]
    exact and_iff_left rfl

theorem Settled.goTo (h : Settled uuid i s) {x : Invocation} (hx : (s.invocation i).Follows (s.oneshot i) x) :
    Settled uuid i (s.goTo i x) := by
  refine ⟨fun j hj => ?_, fun he => ?_, fun w hw => ?_, fun c w tasks hc ht => ?_, fun w hw => ?_⟩
  all_goals try rw [invocation_goTo]
  · obtain ⟨hji, hp, ho⟩ := h.sender j hj
    exact ⟨hji, hx.pendable hp ho, ho⟩
  · rw [invocation_goTo] at he
    exact h.early (hx.early he)
  · rw [hx.worker]
    exact h.entry w hw
  · obtain hwork | ⟨result, hend⟩ := h.todo c w tasks hc ht
    · exact .inl (hx.worker.trans hwork)
    · exact absurd hend (hx.not_ended result)
  · rw [invocation_goTo, hx.worker] at hw
    exact h.present w hw

theorem Advances.settled (h : Inv uuid s) (ha : Advances uuid i s t) : Settled uuid i t := by
  have hold := h.settled i
  cases ha with
  | go hub queue hnext =>
    have hsame : Settled uuid i { s with hub, queue } :=
      ⟨hold.sender, hold.early, hold.entry, hold.todo, hold.present⟩
    exact hsame.goTo hnext.follows
  | pend hx =>
    refine ⟨fun j hj => ?_, fun he => ?_, fun w hw => ?_, fun c w tasks hc ht => ?_, fun w hw => ?_⟩
    all_goals try rw [invocation_goTo]
    · have hget : (s.pending.set (uuid i) i).get (uuid i) = some j := hj
      rw [Dict.get_set_self] at hget
      exact ⟨(Option.some.inj hget).symm, rfl, hold.early (hx ▸ rfl)⟩
    · rw [invocation_goTo] at he
      cases he
    · have hwork := hold.entry w hw
      rw [hx] at hwork
      cases hwork
    · obtain hwork | ⟨result, hend⟩ := hold.todo c w tasks hc ht
      · rw [hx] at hwork
        cases hwork
      · cases hx.symm.trans hend
    · rw [invocation_goTo] at hw
      cases hw
  | @register req tool worker hx =>
    refine ⟨fun j hj => ?_, fun he => ?_, fun w hw => ?_, fun c w tasks hc ht => ?_, fun w hw => ?_⟩
    all_goals try rw [invocation_goTo]
    · obtain ⟨hji, -, ho⟩ := hold.sender j hj
      exact ⟨hji, rfl, ho⟩
    · rw [invocation_goTo] at he
      cases he
    · change uuid i ∈ (s.changeEntry worker _).tasksOf w at hw
      rw [tasksOf_changeEntry] at hw
      split at hw
      case isTrue heq => rw [← heq, Invocation.worker?]
      case isFalse =>
        have hwork := hold.entry w hw
        rw [hx] at hwork
        cases hwork
    · obtain hwork | ⟨result, hend⟩ := hold.todo c w tasks hc ht
      · rw [hx] at hwork
        cases hwork
      · cases hx.symm.trans hend
    · rw [invocation_goTo] at hw
      injection hw with hw
      left
      change uuid i ∈ (s.changeEntry worker _).tasksOf w
      rw [tasksOf_changeEntry, if_pos hw]
      exact List.mem_insert_self
  | @clear worker result hx =>
    refine ⟨fun j hj => ?_, fun he => ?_, fun w hw => ?_, fun c w tasks hc ht => ?_, fun w hw => ?_⟩
    all_goals try rw [invocation_goTo]
    · change (s.release (uuid i) .dropped).pending.get (uuid i) = some j at hj
      rw [pending_release, if_pos rfl] at hj
      cases hj
    · rw [invocation_goTo] at he
      cases he
    · change uuid i ∈ (s.release (uuid i) .dropped).tasksOf w at hw
      rw [tasksOf_release] at hw
      have hwork := hold.entry w hw
      rwa [hx] at hwork
    · change (s.release (uuid i) .dropped).sweep c = _ at hc
      rw [sweep_release] at hc
      obtain hwork | ⟨result, hend⟩ := hold.todo c w tasks hc ht
      · exact .inl (by rwa [hx] at hwork)
      · cases hx.symm.trans hend
    · rw [invocation_goTo] at hw
      change uuid i ∈ (s.release (uuid i) .dropped).tasksOf w ∨ (s.release (uuid i) .dropped).Swept w
      rw [tasksOf_release, swept_release]
      exact hold.present w (by rw [hx]; exact hw)
  | @leave worker result hx =>
    refine ⟨fun j hj => ?_, fun he => ?_, fun w hw => ?_, fun c w tasks hc ht => ?_, fun w hw => ?_⟩
    all_goals try rw [invocation_goTo]
    · obtain ⟨-, hp, -⟩ := hold.sender j hj
      rw [hx] at hp
      cases hp
    · rw [invocation_goTo] at he
      cases he
    · change uuid i ∈ (s.changeEntry worker _).tasksOf w at hw
      rw [tasksOf_changeEntry] at hw
      split at hw
      · exact absurd rfl (of_decide_eq_true (List.mem_filter.1 hw).2)
      case isFalse hne =>
        have hwork := hold.entry w hw
        rw [hx] at hwork
        exact absurd (Option.some.inj hwork) hne
    · exact .inr ⟨result, rfl⟩
    · rw [invocation_goTo] at hw
      cases hw

/-- Nothing that concerns a task has changed. -/
structure Quiet (s t : Switchboard) : Prop where
  pending : t.pending = s.pending
  inFlight : t.inFlight = s.inFlight
  oneshot : t.oneshot = s.oneshot
  invocation : t.invocation = s.invocation
  sweep : ∀ c worker tasks, t.sweep c = .failing worker tasks ↔ s.sweep c = .failing worker tasks

/-- The call has nothing to do. -/
def Idles (s : Switchboard) : DaemonMove → Prop
  | .advance i elapsed _ => (s.invocation i).remaining = 0 ∨
    elapsed = false ∧ ∃ tool worker, s.invocation i = .waiting tool worker
  | .cancel i => ∀ tool worker, s.invocation i ≠ .waiting tool worker
  | _ => True

/-- The tasks of a worker are the disconnect's. -/
def swept (c : Nat) (worker : Text) (s : Switchboard) : Switchboard :=
  { s with
    inFlight := s.inFlight.erase worker
    sweep := Function.update s.sweep c (.failing worker (s.tasksOf worker)) }

/-- The steps, by what they do to the tasks. -/
inductive Effect (uuid : Nat → Text) (s : Switchboard) : DaemonMove → Switchboard → Prop where
  | quiet {move : DaemonMove} {t : Switchboard} (h : Quiet s t) (hidle : s.Idles move) : Effect uuid s move t
  | advance {i : Nat} {t : Switchboard} (elapsed : Bool) (durationUs : Nat) (h : Advances uuid i s t) :
    Effect uuid s (.advance i elapsed durationUs) t
  | call {i : Nat} (req : InvokeRequest) (h : s.invocation i = .idle) :
    Effect uuid s (.call i req) (s.goTo i (.called req))
  | cancel {i : Nat} {tool : ToolDefinition} {worker : Text} (h : s.invocation i = .waiting tool worker) :
    Effect uuid s (.cancel i) (s.goTo i (.cancelled worker))
  | respond {worker : Text} (r : TaskResponse) (h : s.listening worker = true) :
    Effect uuid s (.respond worker r) (s.release r.taskId (.sent r))
  | sweep {c : Nat} {worker : Text} (h : s.sweep c = .removing worker) :
    Effect uuid s (.sweep c) (s.swept c worker)
  | failTask {c : Nat} {worker task : Text} {tasks : List Text} (h : s.sweep c = .failing worker tasks)
    (ht : task ∈ tasks) :
    Effect uuid s (.failTask c task)
      ({ s with sweep := Function.update s.sweep c (.failing worker (tasks.filter (· ≠ task))) }.release task
        (.sent (workerDisconnected task)))

theorem Quiet.refl (s : Switchboard) : Quiet s s := ⟨rfl, rfl, rfl, rfl, fun _ _ _ => Iff.rfl⟩

theorem follow_quiet (hub : Hub) (move : HubMove) : Quiet s (s.follow hub move) := by
  unfold follow
  split
  case h_1 c worker =>
    split
    case h_1 w hc _ =>
      refine ⟨rfl, rfl, rfl, rfl, fun c' w' tasks => ?_⟩
      by_cases hc' : c' = c
      · subst hc'
        dsimp only
        rw [Function.update_self, hc]
        exact ⟨fun h => (by cases h), fun h => (by cases h)⟩
      · dsimp only
        rw [Function.update_of_ne hc']
    case h_2 => exact ⟨rfl, rfl, rfl, rfl, fun _ _ _ => Iff.rfl⟩
  case h_2 => exact ⟨rfl, rfl, rfl, rfl, fun _ _ _ => Iff.rfl⟩

theorem effect (uuid : Nat → Text) (timeoutMs : Nat) (s : Switchboard) (move : DaemonMove) :
    Effect uuid s move (s.step uuid timeoutMs move) := by
  cases move with
  | hub move => exact .quiet (follow_quiet (s.hub.step move) move) trivial
  | call i req =>
    unfold step
    dsimp only
    split
    case h_1 h => exact .call req h
    case h_2 => exact .quiet (Quiet.refl s) trivial
  | advance i elapsed durationUs =>
    obtain ⟨hsame, hidle⟩ | h := @advance_cases uuid timeoutMs s i elapsed durationUs
    · rw [step, hsame]
      exact .quiet (Quiet.refl s) hidle
    · exact .advance elapsed durationUs h
  | cancel i =>
    unfold step
    dsimp only
    split
    case h_1 h => exact .cancel h
    case h_2 h => exact .quiet (Quiet.refl s) h
  | respond worker r =>
    unfold step
    dsimp only
    split
    case isTrue h => exact .respond r h
    case isFalse => exact .quiet (Quiet.refl s) trivial
  | takeTask worker => exact .quiet ⟨rfl, rfl, rfl, rfl, fun _ _ _ => Iff.rfl⟩ trivial
  | close worker =>
    unfold step
    dsimp only
    split <;> exact .quiet ⟨rfl, rfl, rfl, rfl, fun _ _ _ => Iff.rfl⟩ trivial
  | sweep c =>
    unfold step sweepEntry
    dsimp only
    split
    case h_1 h => exact .sweep h
    case h_2 => exact .quiet (Quiet.refl s) trivial
  | failTask c task =>
    unfold step failTask
    dsimp only
    split
    case h_1 h =>
      split
      case isTrue ht => exact .failTask h ht
      case isFalse => exact .quiet (Quiet.refl s) trivial
    case h_2 => exact .quiet (Quiet.refl s) trivial

/-! ### The invariant -/

theorem Quiet.tasksOf (h : Quiet s t) (worker : Text) : t.tasksOf worker = s.tasksOf worker := by
  rw [Switchboard.tasksOf, h.inFlight, Switchboard.tasksOf]

theorem Quiet.swept (h : Quiet s t) (worker : Text) : t.Swept worker ↔ s.Swept worker :=
  exists_congr fun c => exists_congr fun tasks => h.sweep c worker tasks

theorem Inv.quiet (h : Inv uuid s) (hq : Quiet s t) : Inv uuid t := by
  refine ⟨fun task ht => h.keys task (hq.pending ▸ ht), fun i => ?_⟩
  have hold := h.settled i
  refine ⟨fun j hj => ?_, fun he => ?_, fun w hw => ?_, fun c w tasks hc ht => ?_, fun w hw => ?_⟩
  all_goals try rw [hq.invocation]
  · rw [hq.oneshot]
    exact hold.sender j (hq.pending ▸ hj)
  · rw [hq.oneshot]
    exact hold.early (hq.invocation ▸ he)
  · exact hold.entry w (hq.tasksOf w ▸ hw)
  · exact hold.todo c w tasks ((hq.sweep c w tasks).1 hc) ht
  · rw [hq.tasksOf, hq.swept]
    exact hold.present w (hq.invocation ▸ hw)

theorem Inv.release (huuid : Function.Injective uuid) (h : Inv uuid s) (task : Text) (value : Oneshot) :
    Inv uuid (s.release task value) := by
  cases hget : s.pending.get task with
  | none =>
    rw [release_none hget]
    exact h
  | some j =>
    obtain ⟨i, rfl⟩ := h.keys task (hget ▸ rfl)
    have hold := h.settled i
    obtain ⟨rfl, hpendable, -⟩ := hold.sender j hget
    refine h.only huuid (h.release_onlyAt value) ⟨fun k hk => ?_, fun he => ?_, fun w hw => ?_,
      fun c w tasks hc ht => ?_, fun w hw => ?_⟩
    all_goals try rw [invocation_release]
    · rw [pending_release, if_pos rfl] at hk
      cases hk
    · rw [invocation_release] at he
      cases hpendable.symm.trans (Invocation.pendable_early he)
    · exact hold.entry w (tasksOf_release (uuid j) value w ▸ hw)
    · rw [sweep_release] at hc
      exact hold.todo c w tasks hc ht
    · rw [invocation_release] at hw
      rw [tasksOf_release, swept_release]
      exact hold.present w hw

theorem swept_shrink {c : Nat} {worker : Text} {tasks : List Text} (hc : s.sweep c = .failing worker tasks)
    (tasks' : List Text) (w : Text) :
    Swept w { s with sweep := Function.update s.sweep c (.failing worker tasks') } ↔ s.Swept w := by
  constructor
  · rintro ⟨c', ts, hc'⟩
    by_cases heq : c' = c
    · subst heq
      dsimp only at hc'
      rw [Function.update_self] at hc'
      injection hc' with hworker htasks
      exact ⟨c', tasks, hworker ▸ hc⟩
    · dsimp only at hc'
      rw [Function.update_of_ne heq] at hc'
      exact ⟨c', ts, hc'⟩
  · rintro ⟨c', ts, hc'⟩
    by_cases heq : c' = c
    · subst heq
      injection hc.symm.trans hc' with hworker htasks
      exact ⟨c', tasks', by dsimp only; rw [Function.update_self, hworker]⟩
    · exact ⟨c', ts, by dsimp only; rwa [Function.update_of_ne heq]⟩

/-- A disconnect has fewer tasks to answer. -/
theorem Inv.shrink (h : Inv uuid s) {c : Nat} {worker : Text} {tasks tasks' : List Text}
    (hc : s.sweep c = .failing worker tasks) (hsub : tasks' ⊆ tasks) :
    Inv uuid { s with sweep := Function.update s.sweep c (.failing worker tasks') } := by
  refine ⟨h.keys, fun i => ?_⟩
  have hold := h.settled i
  refine ⟨hold.sender, hold.early, hold.entry, fun c' w ts hc' ht => ?_, fun w hw => ?_⟩
  · by_cases heq : c' = c
    · subst heq
      dsimp only at hc'
      rw [Function.update_self] at hc'
      injection hc' with hworker htasks
      exact hold.todo c' w tasks (hworker ▸ hc) (hsub (htasks ▸ ht))
    · dsimp only at hc'
      rw [Function.update_of_ne heq] at hc'
      exact hold.todo c' w ts hc' ht
  · exact (hold.present w hw).imp_right (swept_shrink hc tasks' w).2

theorem swept_iff {c : Nat} {worker : Text} (hc : s.sweep c = .removing worker) (w : Text) :
    (s.swept c worker).Swept w ↔ w = worker ∨ s.Swept w := by
  constructor
  · rintro ⟨c', ts, hc'⟩
    dsimp only [swept] at hc'
    by_cases heq : c' = c
    · subst heq
      rw [Function.update_self] at hc'
      injection hc' with hworker
      exact .inl hworker.symm
    · rw [Function.update_of_ne heq] at hc'
      exact .inr ⟨c', ts, hc'⟩
  · rintro (rfl | ⟨c', ts, hc'⟩)
    · exact ⟨c, s.tasksOf w, Function.update_self ..⟩
    · have hne : c' ≠ c := fun heq => by cases hc.symm.trans (heq ▸ hc')
      exact ⟨c', ts, (Function.update_of_ne hne ..).trans hc'⟩

theorem tasksOf_swept (c : Nat) (worker w : Text) :
    (s.swept c worker).tasksOf w = if w = worker then [] else s.tasksOf w := by
  rw [tasksOf, swept]
  split
  case isTrue heq =>
    rw [heq, Dict.get_erase_self]
    rfl
  case isFalse hne =>
    rw [Dict.get_erase_ne _ hne]
    rfl

theorem Inv.sweep (h : Inv uuid s) {c : Nat} {worker : Text} (hc : s.sweep c = .removing worker) :
    Inv uuid (s.swept c worker) := by
  refine ⟨h.keys, fun i => ?_⟩
  have hold := h.settled i
  refine ⟨hold.sender, hold.early, fun w hw => ?_, fun c' w ts hc' ht => ?_, fun w hw => ?_⟩
  · rw [tasksOf_swept] at hw
    split at hw
    · cases hw
    · exact hold.entry w hw
  · dsimp only [swept] at hc'
    by_cases heq : c' = c
    · subst heq
      rw [Function.update_self] at hc'
      injection hc' with hworker htasks
      exact .inl (hold.entry w (by rwa [← hworker, htasks]))
    · rw [Function.update_of_ne heq] at hc'
      exact hold.todo c' w ts hc' ht
  · rw [tasksOf_swept, swept_iff hc]
    by_cases hworker : w = worker
    · exact .inr (.inl hworker)
    · rw [if_neg hworker]
      exact (hold.present w hw).imp_right .inr

theorem follows_called (req : InvokeRequest) (o : Oneshot) : Invocation.idle.Follows o (.called req) :=
  ⟨rfl, fun h => (by cases h), fun _ => rfl, fun _ h => (by cases h)⟩

theorem follows_cancelled (tool : ToolDefinition) (worker : Text) (o : Oneshot) :
    (Invocation.waiting tool worker).Follows o (.cancelled worker) :=
  ⟨rfl, fun _ _ => rfl, fun h => (by cases h), fun _ h => (by cases h)⟩

theorem Inv.effect (huuid : Function.Injective uuid) (h : Inv uuid s) {move : DaemonMove}
    (he : Effect uuid s move t) : Inv uuid t := by
  cases he with
  | quiet hq => exact h.quiet hq
  | advance elapsed durationUs ha => exact h.only huuid (ha.onlyAt h) (ha.settled h)
  | @call i req hi => exact h.only huuid (onlyAt_goTo _) ((h.settled i).goTo (hi ▸ follows_called req _))
  | @cancel i tool worker hi =>
    exact h.only huuid (onlyAt_goTo _) ((h.settled i).goTo (hi ▸ follows_cancelled tool worker _))
  | respond r => exact h.release huuid r.taskId (.sent r)
  | sweep hc => exact h.sweep hc
  | failTask hc ht => exact (h.shrink hc (List.filter_subset_self _)).release huuid _ _

theorem Inv.step (huuid : Function.Injective uuid) (timeoutMs : Nat) (s : Switchboard) (move : DaemonMove)
    (h : Inv uuid s) : Inv uuid (s.step uuid timeoutMs move) :=
  h.effect huuid (Switchboard.effect uuid timeoutMs s move)

/-! ### Bookkeeping -/

/-- A task of a disconnected worker that is still pending is about to be answered by the
disconnect. -/
def FailFast (uuid : Nat → Text) (s : Switchboard) : Prop :=
  ∀ i worker, (s.invocation i).worker? = some worker → s.Swept worker →
    (s.pending.get (uuid i)).isSome → ∃ c worker' tasks, s.sweep c = .failing worker' tasks ∧ uuid i ∈ tasks

/-- The task of a call that is over is in neither of the maps. -/
def Cleared (uuid : Nat → Text) (s : Switchboard) : Prop :=
  ∀ i, (s.invocation i).finished = true →
    s.pending.get (uuid i) = none ∧ ∀ worker, uuid i ∉ s.tasksOf worker

/-- A disconnected worker has no entry. -/
def NoEntry (s : Switchboard) : Prop := ∀ worker, s.Swept worker → s.inFlight.get worker = none

/-- No call enters a task for a worker whose entry is gone, unless nothing waits for it. -/
def RegistersInTime (uuid : Nat → Text) (s : Switchboard) : DaemonMove → Prop
  | .advance i _ _ => ∀ req tool worker, s.invocation i = .pended req tool worker → s.Swept worker →
    s.pending.get (uuid i) = none
  | _ => True

/-- No future is dropped while its task is in one of the maps. -/
def CancelsCleared (uuid : Nat → Text) (s : Switchboard) : DaemonMove → Prop
  | .cancel i => ∀ tool worker, s.invocation i = .waiting tool worker →
    s.pending.get (uuid i) = none ∧ ∀ worker', uuid i ∉ s.tasksOf worker'
  | _ => True

/-- No call enters or removes a task for a worker whose entry is gone. -/
def KeepsEntries (s : Switchboard) : DaemonMove → Prop
  | .advance i _ _ => (∀ req tool worker, s.invocation i = .pended req tool worker → ¬s.Swept worker) ∧
    ∀ worker result, s.invocation i = .leaving worker result → ¬s.Swept worker
  | _ => True

/-- What a call adds to the maps. -/
structure Advances.Adds (uuid : Nat → Text) (i : Nat) (s t : Switchboard) : Prop where
  pending : (t.pending.get (uuid i)).isSome → (s.pending.get (uuid i)).isSome ∨
    ∃ req tool worker, t.invocation i = .pended req tool worker
  worker : ∀ worker, (t.invocation i).worker? = some worker → (s.invocation i).worker? = some worker ∨
    ∃ req tool, s.invocation i = .pended req tool worker

theorem Advances.adds (ha : Advances uuid i s t) : Advances.Adds uuid i s t := by
  refine ⟨fun hp => ?_, fun w hw => ?_⟩
  · cases ha with
    | go | register => exact .inl hp
    | @pend req tool worker => exact .inr ⟨req, tool, worker, invocation_goTo _⟩
    | clear =>
      change ((s.release (uuid i) .dropped).pending.get (uuid i)).isSome at hp
      rw [pending_release, if_pos rfl] at hp
      cases hp
    | leave => exact .inl hp
  · cases ha with
    | go hub queue hnext =>
      rw [invocation_goTo, hnext.follows.worker] at hw
      exact .inl hw
    | @register req tool worker hx =>
      rw [invocation_goTo] at hw
      injection hw with hw
      exact .inr ⟨req, tool, hw ▸ hx⟩
    | clear hx =>
      rw [invocation_goTo] at hw
      exact .inl (hx ▸ hw)
    | pend | leave =>
      rw [invocation_goTo] at hw
      cases hw

theorem OnlyAt.swept (h : OnlyAt uuid i s t) (worker : Text) : t.Swept worker ↔ s.Swept worker := by
  rw [Swept, h.sweep, Swept]

/-- For a task that is in `pending` before and after, nothing else can have changed. -/
theorem FailFast.release (hf : FailFast uuid s) (task : Text) (value : Oneshot) :
    FailFast uuid (s.release task value) := by
  intro i w hw hs hp
  rw [invocation_release] at hw
  rw [swept_release] at hs
  rw [pending_release] at hp
  split at hp
  · cases hp
  · rw [sweep_release]
    exact hf i w hw hs hp

theorem FailFast.goTo (hf : FailFast uuid s) {x : Invocation} (hx : x.worker? = (s.invocation i).worker?) :
    FailFast uuid (s.goTo i x) := by
  intro j w hw hs hp
  by_cases hj : j = i
  · subst hj
    rw [invocation_goTo, hx] at hw
    exact hf j w hw hs hp
  · rw [(@onlyAt_goTo uuid _ _ x).invocation j hj] at hw
    exact hf j w hw hs hp

theorem FailFast.quiet (hf : FailFast uuid s) (hq : Quiet s t) : FailFast uuid t := by
  intro i w hw hs hp
  rw [hq.invocation] at hw
  rw [hq.swept] at hs
  rw [hq.pending] at hp
  obtain ⟨c, worker, tasks, hc, ht⟩ := hf i w hw hs hp
  exact ⟨c, worker, tasks, (hq.sweep c worker tasks).2 hc, ht⟩

theorem Advances.of_pended (ha : Advances uuid i s t) {req : InvokeRequest} {tool : ToolDefinition}
    {worker : Text} (hx : s.invocation i = .pended req tool worker) :
    t = (s.changeEntry worker (.insert (uuid i))).goTo i (.registered req tool worker) := by
  cases ha with
  | go hub queue hnext =>
    rw [hx] at hnext
    cases hnext with
    | look he | refuse he => cases he
  | register h =>
    cases hx.symm.trans h
    rfl
  | pend h | clear h | leave h => cases hx.symm.trans h

theorem FailFast.advance_iff (huuid : Function.Injective uuid) (h : Inv uuid s) (hf : FailFast uuid s) (ha : Advances uuid i s t)
    (elapsed : Bool) (durationUs : Nat) :
    FailFast uuid t ↔ s.RegistersInTime uuid (.advance i elapsed durationUs) := by
  have honly := ha.onlyAt h
  constructor
  · intro ht req tool worker hx hs
    have hnew : t.invocation i = .registered req tool worker := by
      rw [ha.of_pended hx]
      exact invocation_goTo _
    have hpending : t.pending = s.pending := by rw [ha.of_pended hx]; rfl
    by_contra hp
    obtain ⟨c, w, tasks, hc, htask⟩ := ht i worker (by rw [hnew]; rfl) ((honly.swept worker).2 hs)
      (by rw [hpending]; exact Option.isSome_iff_ne_none.2 hp)
    -- the disconnect took the tasks before this one was entered
    rw [honly.sweep] at hc
    obtain hwork | ⟨result, hend⟩ := (h.settled i).todo c w tasks hc htask
    · rw [hx] at hwork
      cases hwork
    · cases hx.symm.trans hend
  · intro hin j w hw hs hp
    rw [honly.swept] at hs
    rw [honly.sweep]
    by_cases hj : j = i
    · subst hj
      have hsome : (s.pending.get (uuid j)).isSome := by
        rcases ha.adds.pending hp with hsome | ⟨req, tool, worker, hx⟩
        · exact hsome
        · rw [hx] at hw
          cases hw
      obtain hwork | ⟨req, tool, hx⟩ := ha.adds.worker w hw
      · exact hf j w hwork hs hsome
      · rw [hin req tool w hx hs] at hsome
        cases hsome
    · rw [honly.invocation j hj] at hw
      rw [honly.pending _ (huuid.ne hj)] at hp
      exact hf j w hw hs hp

theorem FailFast.effect_iff (huuid : Function.Injective uuid) (h : Inv uuid s) (hf : FailFast uuid s)
    {move : DaemonMove} (he : Effect uuid s move t) : FailFast uuid t ↔ s.RegistersInTime uuid move := by
  cases he with
  | quiet hq hidle =>
    refine iff_of_true (hf.quiet hq) ?_
    cases move with
    | advance i elapsed durationUs =>
      intro req tool worker hx
      obtain hzero | ⟨-, tool', worker', hx'⟩ := hidle
      · rw [hx] at hzero
        cases hzero
      · cases hx.symm.trans hx'
    | _ => trivial
  | advance elapsed durationUs ha => exact hf.advance_iff huuid h ha elapsed durationUs
  | call req hi => exact iff_of_true (hf.goTo (by rw [hi]; rfl)) trivial
  | cancel hi => exact iff_of_true (hf.goTo (by rw [hi]; rfl)) trivial
  | respond r => exact iff_of_true (hf.release _ _) trivial
  | @sweep c worker hc =>
    refine iff_of_true (fun i w hw hs hp => ?_) trivial
    by_cases hold : s.Swept w
    · obtain ⟨c', w', tasks, hc', ht⟩ := hf i w hw hold hp
      have hne : c' ≠ c := fun heq => by cases hc.symm.trans (heq ▸ hc')
      exact ⟨c', w', tasks, (Function.update_of_ne hne ..).trans hc', ht⟩
    · have hworker : w = worker := ((swept_iff hc w).1 hs).resolve_right hold
      have htask := ((h.settled i).present w hw).resolve_right hold
      exact ⟨c, worker, s.tasksOf worker, Function.update_self .., hworker ▸ htask⟩
  | @failTask c worker task tasks hc ht =>
    refine iff_of_true (fun i w hw hs hp => ?_) trivial
    rw [invocation_release] at hw
    rw [swept_release, swept_shrink hc] at hs
    rw [pending_release] at hp
    split at hp
    · cases hp
    case isFalse hne =>
      obtain ⟨c', w', ts, hc', htask⟩ := hf i w hw hs hp
      rw [sweep_release]
      dsimp only
      by_cases heq : c' = c
      · subst heq
        injection hc.symm.trans hc' with hworker htasks
        refine ⟨c', worker, _, by rw [Function.update_self], List.mem_filter.2 ⟨?_, decide_eq_true hne⟩⟩
        exact htasks ▸ htask
      · exact ⟨c', w', ts, by rwa [Function.update_of_ne heq], htask⟩

theorem Inv.cleared (h : Inv uuid s) (hcancelled : ∀ i worker, s.invocation i = .cancelled worker →
    s.pending.get (uuid i) = none ∧ ∀ w, uuid i ∉ s.tasksOf w) : Cleared uuid s := by
  intro i hi
  cases hx : s.invocation i with
  | cancelled worker => exact hcancelled i worker hx
  | ended result =>
    have hold := h.settled i
    rw [Option.eq_none_iff_forall_ne_some]
    refine ⟨fun j hj => ?_, fun w hw => ?_⟩
    · obtain ⟨-, hp, -⟩ := hold.sender j hj
      rw [hx] at hp
      cases hp
    · have hwork := hold.entry w hw
      rw [hx] at hwork
      cases hwork
  | _ =>
    rw [hx] at hi
    cases hi

theorem Advances.not_cancelled (ha : Advances uuid i s t) (worker : Text) :
    t.invocation i ≠ .cancelled worker := by
  cases ha with
  | go hub queue hnext =>
    rw [invocation_goTo]
    exact hnext.not_cancelled worker
  | _ =>
    rw [invocation_goTo]
    intro h
    cases h

theorem Cleared.effect_iff (huuid : Function.Injective uuid) (h : Inv uuid s) (hclear : Cleared uuid s)
    {move : DaemonMove} (he : Effect uuid s move t) : Cleared uuid t ↔ s.CancelsCleared uuid move := by
  have hold : ∀ i worker, s.invocation i = .cancelled worker →
      s.pending.get (uuid i) = none ∧ ∀ w, uuid i ∉ s.tasksOf w :=
    fun i worker hi => hclear i (by rw [hi]; rfl)
  have hnew := h.effect huuid he
  cases he with
  | quiet hq hidle =>
    refine iff_of_true (hnew.cleared fun i worker hi => ?_) ?_
    · rw [hq.invocation] at hi
      rw [hq.pending]
      exact ⟨(hold i worker hi).1, fun w => hq.tasksOf w ▸ (hold i worker hi).2 w⟩
    · cases move with
      | cancel i => exact fun tool worker hx => absurd hx (hidle tool worker)
      | _ => trivial
  | @advance i t elapsed durationUs ha =>
    have honly := ha.onlyAt h
    refine iff_of_true (hnew.cleared fun j worker hj => ?_) trivial
    have hne : j ≠ i := fun heq => ha.not_cancelled worker (heq ▸ hj)
    rw [honly.invocation j hne] at hj
    rw [honly.pending _ (huuid.ne hne)]
    exact ⟨(hold j worker hj).1, fun w => (honly.tasks w _ (huuid.ne hne)).not.2 ((hold j worker hj).2 w)⟩
  | @call i req hi =>
    refine iff_of_true (hnew.cleared fun j worker hj => ?_) trivial
    have hne : j ≠ i := fun heq => by
      rw [heq, invocation_goTo] at hj
      cases hj
    rw [(@onlyAt_goTo uuid _ _ _).invocation j hne] at hj
    exact hold j worker hj
  | @cancel i tool worker hi =>
    constructor
    · intro hc tool' worker' _
      exact hc i (by rw [invocation_goTo]; rfl)
    · intro hc
      refine hnew.cleared fun j worker' hj => ?_
      by_cases hne : j = i
      · rw [hne]
        exact hc tool worker hi
      · rw [(@onlyAt_goTo uuid _ _ _).invocation j hne] at hj
        exact hold j worker' hj
  | respond r =>
    refine iff_of_true (hnew.cleared fun j worker hj => ?_) trivial
    rw [invocation_release] at hj
    rw [pending_release]
    refine ⟨?_, fun w => by rw [tasksOf_release]; exact (hold j worker hj).2 w⟩
    split
    · rfl
    · exact (hold j worker hj).1
  | @sweep c worker hc =>
    refine iff_of_true (hnew.cleared fun j worker' hj => ⟨(hold j worker' hj).1, fun w => ?_⟩) trivial
    rw [tasksOf_swept]
    split
    · exact List.not_mem_nil
    · exact (hold j worker' hj).2 w
  | failTask hc ht =>
    refine iff_of_true (hnew.cleared fun j worker hj => ?_) trivial
    rw [invocation_release] at hj
    rw [pending_release]
    refine ⟨?_, fun w => by rw [tasksOf_release]; exact (hold j worker hj).2 w⟩
    split
    · rfl
    · exact (hold j worker hj).1

theorem NoEntry.changeEntry_iff (h : NoEntry s) (worker : Text) (f : List Text → List Text) :
    NoEntry (s.changeEntry worker f) ↔ ¬s.Swept worker := by
  have hget : ∀ w, (s.changeEntry worker f).inFlight.get w =
      if worker = w then some (f (s.tasksOf worker)) else s.inFlight.get w := fun w => Dict.get_set ..
  constructor
  · intro hnone hs
    have hentry := hnone worker hs
    rw [hget, if_pos rfl] at hentry
    cases hentry
  · intro hs w hw
    rw [hget]
    split
    case isTrue heq => exact absurd (heq ▸ hw) hs
    case isFalse => exact h w hw

theorem Advances.noEntry_iff (ha : Advances uuid i s t) (h : NoEntry s) (elapsed : Bool) (durationUs : Nat) :
    NoEntry t ↔ s.KeepsEntries (.advance i elapsed durationUs) := by
  have hkeeps : (∀ req tool worker, s.invocation i ≠ .pended req tool worker) →
      (∀ worker result, s.invocation i ≠ .leaving worker result) →
        s.KeepsEntries (.advance i elapsed durationUs) :=
    fun hp hl => ⟨fun req tool worker hx => absurd hx (hp req tool worker),
      fun worker result hx => absurd hx (hl worker result)⟩
  cases ha with
  | go hub queue hnext =>
    refine iff_of_true h (hkeeps (fun req tool worker hx => ?_) fun worker result hx => ?_)
    all_goals
      rw [hx] at hnext
      cases hnext with
      | look he | refuse he => cases he
  | pend hx =>
    refine iff_of_true h (hkeeps (fun _ _ _ hx' => ?_) fun _ _ hx' => ?_)
    all_goals cases hx.symm.trans hx'
  | @register req tool worker hx =>
    refine (h.changeEntry_iff worker (.insert (uuid i))).trans ⟨fun hs => ⟨fun req' tool' w hx' => ?_,
      fun _ _ hx' => ?_⟩, fun hk => hk.1 req tool worker hx⟩
    · cases hx.symm.trans hx'
      exact hs
    · cases hx.symm.trans hx'
  | clear hx =>
    refine iff_of_true (fun w hw => ?_) (hkeeps (fun _ _ _ hx' => ?_) fun _ _ hx' => ?_)
    · change (s.release (uuid i) .dropped).inFlight.get w = none
      rw [inFlight_release]
      exact h w ((swept_release (uuid i) .dropped w).1 hw)
    all_goals cases hx.symm.trans hx'
  | @leave worker result hx =>
    refine (h.changeEntry_iff worker (.filter (· ≠ uuid i))).trans ⟨fun hs => ⟨fun _ _ _ hx' => ?_,
      fun w result' hx' => ?_⟩, fun hk => hk.2 worker result hx⟩
    · cases hx.symm.trans hx'
    · cases hx.symm.trans hx'
      exact hs

theorem NoEntry.effect_iff (h : NoEntry s) {move : DaemonMove} (he : Effect uuid s move t) :
    NoEntry t ↔ s.KeepsEntries move := by
  cases he with
  | quiet hq hidle =>
    refine iff_of_true (fun w hw => by rw [hq.inFlight]; exact h w ((hq.swept w).1 hw)) ?_
    cases move with
    | advance i elapsed durationUs =>
      obtain hzero | ⟨-, tool', worker', hx'⟩ := hidle
      · refine ⟨fun req tool worker hx => ?_, fun worker result hx => ?_⟩
        all_goals
          rw [hx] at hzero
          cases hzero
      · refine ⟨fun req tool worker hx => ?_, fun worker result hx => ?_⟩
        all_goals cases hx.symm.trans hx'
    | _ => trivial
  | advance elapsed durationUs ha => exact ha.noEntry_iff h elapsed durationUs
  | call req hi => exact iff_of_true h trivial
  | cancel hi => exact iff_of_true h trivial
  | respond r =>
    refine iff_of_true (fun w hw => ?_) trivial
    rw [inFlight_release]
    exact h w ((swept_release _ _ w).1 hw)
  | @sweep c worker hc =>
    refine iff_of_true (fun w hw => ?_) trivial
    rcases (swept_iff hc w).1 hw with rfl | hold
    · exact Dict.get_erase_self ..
    · by_cases heq : w = worker
      · rw [heq]
        exact Dict.get_erase_self ..
      · exact (Dict.get_erase_ne _ heq).trans (h w hold)
  | failTask hc ht =>
    refine iff_of_true (fun w hw => ?_) trivial
    rw [inFlight_release]
    rw [swept_release, swept_shrink hc] at hw
    exact h w hw

/-! ### Outcomes -/

theorem Advances.remaining_lt (ha : Advances uuid i s t) :
    (t.invocation i).remaining < (s.invocation i).remaining := by
  cases ha with
  | go hub queue hnext =>
    rw [invocation_goTo]
    exact hnext.remaining_lt
  | pend hx | register hx | clear hx | leave hx =>
    rw [invocation_goTo, hx]
    simp [Invocation.remaining]

theorem Advances.not_idle (ha : Advances uuid i s t) : t.invocation i ≠ .idle := by
  cases ha with
  | go hub queue hnext =>
    rw [invocation_goTo]
    exact hnext.not_idle
  | _ =>
    rw [invocation_goTo]
    exact nofun

/-- The moves that bring a call on: the next of its steps, once its time is up. -/
def ticks (i : Nat) : DaemonMove → Bool
  | .advance j true _ => j = i
  | _ => false

theorem Effect.not_advanced {move : DaemonMove} (h : Inv uuid s) (he : Effect uuid s move t) :
    t.invocation i = s.invocation i ∨
      (s.invocation i = .idle ∧ ∃ req, t.invocation i = .called req) ∨
      (∃ tool worker, s.invocation i = .waiting tool worker ∧ t.invocation i = .cancelled worker) ∨
      Advances uuid i s t := by
  cases he with
  | quiet hq => exact .inl (congrFun hq.invocation i)
  | @advance j t elapsed durationUs ha =>
    by_cases hj : i = j
    · exact .inr (.inr (.inr (hj ▸ ha)))
    · exact .inl ((ha.onlyAt h).invocation i hj)
  | @call j req hx =>
    by_cases hj : i = j
    · subst hj
      exact .inr (.inl ⟨hx, req, invocation_goTo _⟩)
    · exact .inl (Function.update_of_ne hj ..)
  | @cancel j tool worker hx =>
    by_cases hj : i = j
    · subst hj
      exact .inr (.inr (.inl ⟨tool, worker, hx, invocation_goTo _⟩))
    · exact .inl (Function.update_of_ne hj ..)
  | respond r => exact .inl (congrFun (invocation_release _ _) i)
  | sweep => exact .inl rfl
  | failTask => exact .inl (congrFun (invocation_release _ _) i)

theorem Effect.finished_stays {move : DaemonMove} (h : Inv uuid s) (he : Effect uuid s move t)
    (hi : (s.invocation i).finished = true) : t.invocation i = s.invocation i := by
  have hzero : (s.invocation i).remaining = 0 := by
    cases hx : s.invocation i with
    | ended | cancelled => rfl
    | _ =>
      rw [hx] at hi
      cases hi
  obtain hsame | ⟨hidle, -⟩ | ⟨tool, worker, hx, -⟩ | ha := he.not_advanced (i := i) h
  · exact hsame
  · rw [hidle] at hi
    cases hi
  · rw [hx] at hi
    cases hi
  · have := ha.remaining_lt
    omega

theorem Effect.tick {durationUs : Nat} (he : Effect uuid s (.advance i true durationUs) t) :
    (t.invocation i).remaining ≤ (s.invocation i).remaining - 1 := by
  cases he with
  | quiet hq hidle =>
    rw [hq.invocation]
    obtain hzero | ⟨hfalse, -⟩ := hidle
    · omega
    · cases hfalse
  | advance elapsed durationUs ha =>
    have := ha.remaining_lt
    omega

theorem Effect.remaining_le {move : DaemonMove} (h : Inv uuid s) (he : Effect uuid s move t)
    (hi : s.invocation i ≠ .idle) : t.invocation i ≠ .idle ∧
      (t.invocation i).remaining ≤ (s.invocation i).remaining - (if ticks i move then 1 else 0) := by
  have hmoved : t.invocation i ≠ .idle ∧ (t.invocation i).remaining ≤ (s.invocation i).remaining := by
    obtain hsame | ⟨hidle, -⟩ | ⟨tool, worker, -, hx⟩ | ha := he.not_advanced (i := i) h
    · rw [hsame]
      exact ⟨hi, le_refl _⟩
    · exact absurd hidle hi
    · rw [hx]
      exact ⟨nofun, Nat.zero_le _⟩
    · exact ⟨ha.not_idle, ha.remaining_lt.le⟩
  refine ⟨hmoved.1, ?_⟩
  split
  case isFalse => exact hmoved.2
  case isTrue htick =>
    unfold ticks at htick
    split at htick
    case h_1 j durationUs =>
      cases of_decide_eq_true htick
      exact he.tick
    case h_2 => cases htick

/-- A call that has begun ends once it is brought on often enough, whatever the others do. -/
theorem Inv.ends (huuid : Function.Injective uuid) (timeoutMs : Nat) (h : Inv uuid s)
    (hi : s.invocation i ≠ .idle) (moves : List DaemonMove)
    (hticks : (s.invocation i).remaining ≤ (moves.filter (ticks i)).length) :
    ((moves.foldl (Switchboard.step uuid timeoutMs) s).invocation i).finished = true := by
  induction moves generalizing s with
  | nil =>
    cases hx : s.invocation i with
    | idle => exact absurd hx hi
    | ended | cancelled => exact hx ▸ rfl
    | _ =>
      rw [hx] at hticks
      cases hticks
  | cons move moves ih =>
    obtain ⟨hidle, hle⟩ := (Switchboard.effect uuid timeoutMs s move).remaining_le h hi
    refine ih (h.step huuid timeoutMs s move) hidle ?_
    rw [List.filter_cons] at hticks
    split at hticks
    case isTrue htick =>
      rw [if_pos htick] at hle
      rw [List.length_cons] at hticks
      omega
    case isFalse htick =>
      rw [if_neg htick] at hle
      omega

variable (uuid timeoutMs)

theorem not_swept_new (worker : Text) : ¬new.Swept worker := by
  rintro ⟨c, tasks, h⟩
  cases h

theorem inv_run (huuid : Function.Injective uuid) (moves : List DaemonMove) :
    Inv uuid (run uuid timeoutMs moves) :=
  Runs.always_of_step (fun s move h => h.step huuid timeoutMs s move) inv_new moves

theorem run_append (moves rest : List DaemonMove) : run uuid timeoutMs (moves ++ rest) =
    rest.foldl (step uuid timeoutMs) (run uuid timeoutMs moves) := List.foldl_append ..

/-- A call has one outcome, and reaches it whatever the others do; and when the tasks are where they
belong. -/
theorem dispatch_bookkeeping (huuid : Function.Injective uuid) (moves : List DaemonMove) :
    (∀ i rest, ((run uuid timeoutMs moves).invocation i).finished = true →
      (run uuid timeoutMs (moves ++ rest)).invocation i = (run uuid timeoutMs moves).invocation i) ∧
    (∀ i rest, (run uuid timeoutMs moves).invocation i ≠ .idle → 9 ≤ (rest.filter (ticks i)).length →
      ((run uuid timeoutMs (moves ++ rest)).invocation i).finished = true) ∧
    (Runs.Always (step uuid timeoutMs) (FailFast uuid) new moves ↔
      Runs.Along (step uuid timeoutMs) (RegistersInTime uuid) new moves) ∧
    (Runs.Always (step uuid timeoutMs) (Cleared uuid) new moves ↔
      Runs.Along (step uuid timeoutMs) (CancelsCleared uuid) new moves) ∧
    (Runs.Always (step uuid timeoutMs) NoEntry new moves ↔
      Runs.Along (step uuid timeoutMs) KeepsEntries new moves) := by
  have hinv := inv_run uuid timeoutMs huuid moves
  refine ⟨fun i rest hi => ?_, fun i rest hi hticks => ?_, ?_, ?_, ?_⟩
  · rw [run_append]
    have hrun : ∀ s, Inv uuid s → s.invocation i = (run uuid timeoutMs moves).invocation i →
        (rest.foldl (step uuid timeoutMs) s).invocation i = s.invocation i := by
      induction rest with
      | nil => exact fun _ _ _ => rfl
      | cons move rest ih =>
        intro s hs heq
        have hstep := (effect uuid timeoutMs s move).finished_stays (i := i) hs (heq ▸ hi)
        exact (ih _ (hs.step huuid timeoutMs s move) (hstep.trans heq)).trans hstep
    exact hrun _ hinv rfl
  · rw [run_append]
    refine hinv.ends huuid timeoutMs hi rest (le_trans ?_ hticks)
    cases (run uuid timeoutMs moves).invocation i <;> simp [Invocation.remaining]
  · exact Runs.always_iff_along (fun s move h => h.step huuid timeoutMs s move)
      (fun s move h hf => hf.effect_iff huuid h (effect uuid timeoutMs s move)) inv_new
      (fun _ _ h => by cases h) moves
  · exact Runs.always_iff_along (fun s move h => h.step huuid timeoutMs s move)
      (fun s move h hc => hc.effect_iff huuid h (effect uuid timeoutMs s move)) inv_new
      (fun _ h => by cases h) moves
  · exact Runs.always_iff_along (fun s move h => Inv.step huuid timeoutMs s move h)
      (fun s move _ hn => hn.effect_iff (effect uuid timeoutMs s move)) inv_new
      (fun worker h => absurd h (not_swept_new worker)) moves

/-! ### A disconnect between the steps of a call -/

def ids (n : Nat) : Text := List.replicate n 'x'

theorem ids_injective : Function.Injective ids := fun m n h => by
  simpa [ids] using congrArg List.length h

def askT : InvokeRequest := ⟨"t", "[]", "{}", Dict.empty⟩

/-- A call is brought on by so many steps, its time not yet up. -/
def steps (i n : Nat) : List DaemonMove := List.replicate n (.advance i false 0)

/-- `a` registers the tool, and a call chooses it. -/
def choosesA : List DaemonMove := (Hub.registers "a" "t").map .hub ++ .call 0 askT :: steps 0 3

/-- `a` is removed from the groups, and its entry from `in_flight`. -/
def losesA : List DaemonMove :=
  [.hub (.disconnect 0 "a"), .hub (.cleanup 0 (some "t")), .hub (.cleanup 0 none), .hub (.cleanup 0 none),
    .hub (.cleanup 0 none), .hub (.cleanup 0 none), .hub (.cleanup 0 none), .sweep 0]

theorem dispatch_bookkeeping_unregistered :
    (run ids 30000 [.call 0 askT, .advance 0 true 5, .advance 0 true 6]).invocation 0 =
      (run ids 30000 [.call 0 askT, .advance 0 true 5]).invocation 0 :=
  (dispatch_bookkeeping ids 30000 ids_injective [.call 0 askT, .advance 0 true 5]).1 0 [.advance 0 true 6] rfl

/-- The call enters its task behind the disconnect and waits for its time to be up; a call that the
disconnect has failed leaves an empty entry behind; a dropped future leaves both. -/
theorem bookkeeping_broken :
    ¬FailFast ids (run ids 30000 (choosesA ++ losesA ++ steps 0 3)) ∧
    ¬NoEntry (run ids 30000 (choosesA ++ steps 0 3 ++ losesA ++ .failTask 0 (ids 0) :: steps 0 2)) ∧
    ¬Cleared ids (run ids 30000 (choosesA ++ steps 0 3 ++ [.cancel 0])) := by
  refine ⟨fun h => ?_, fun h => ?_, fun h => ?_⟩
  · have hsweep : (run ids 30000 (choosesA ++ losesA ++ steps 0 3)).sweep =
        Function.update (Function.update (fun _ => .idle) 0 (.removing "a")) 0 (.failing "a" []) := rfl
    obtain ⟨c, worker, tasks, hc, ht⟩ := h 0 "a" rfl ⟨0, [], rfl⟩ rfl
    rw [hsweep] at hc
    by_cases hzero : c = 0
    · rw [hzero, Function.update_self] at hc
      injection hc with _ htasks
      rw [← htasks] at ht
      cases ht
    · rw [Function.update_of_ne hzero, Function.update_of_ne hzero] at hc
      cases hc
  · have hentry := h "a" ⟨0, [], rfl⟩
    revert hentry
    decide +kernel
  · have hpending := (h 0 rfl).1
    revert hpending
    decide +kernel

end Switchboard

end Tinypipe
