import Tinypipe.Daemon.Invokes

/-! Whose answer a call of a tool returns (the inbound loop of `connect_worker` and `invoke_inner`,
`tinypipe-daemon/src/lib.rs`). An answer is matched by the id of the task, on whichever stream it
arrives. -/

namespace Tinypipe

open Lib

def Invocation.result? : Invocation → Option InvokeResult
  | clearing _ result | leaving _ result | ended result => some result
  | _ => none

theorem Invocation.Next.result {o : Oneshot} {x y : Invocation} (h : Next o x y) {a : InvokeResponse}
    (ha : y.result? = some (.response a)) : ∃ r durationUs, o = .sent r ∧ a = .of r durationUs := by
  induction h with
  | @look x y hx hy =>
    cases y with
    | clearing | leaving | ended => cases hy
    | _ => cases ha
  | answer ho tool worker durationUs =>
    injection ha with ha
    injection ha with ha
    exact ⟨_, durationUs, ho, ha.symm⟩
  | _ => cases ha

/-- A call up to the point where it waits. -/
def Invocation.front : Invocation → Option Invocation
  | waiting .. | clearing .. | leaving .. | ended _ | cancelled _ => none
  | x => some x

namespace Sweep

def forget : Sweep → Sweep
  | failing worker _ => failing worker []
  | x => x

def tasks : Sweep → List Text
  | failing _ tasks => tasks
  | _ => []

theorem forget_eq_idle {x : Sweep} : x.forget = idle ↔ x = idle := by
  cases x <;> simp [forget]

theorem forget_eq_removing {x : Sweep} {worker : Text} : x.forget = removing worker ↔ x = removing worker := by
  cases x <;> simp [forget]

theorem forget_eq_failing {x : Sweep} {worker : Text} :
    x.forget = failing worker [] ↔ ∃ tasks, x = failing worker tasks := by
  cases x <;> simp [forget]

end Sweep

theorem Invocation.eq_of_front {x y : Invocation} (h : x.front = some y) : x = y := by
  cases x <;> first | exact Option.some.inj h | cases h

namespace Switchboard

variable {uuid : Nat → Text} {timeoutMs : Nat} {s t : Switchboard} {i : Nat}

/-! ### Where an answer comes from -/

/-- A message of a connected worker with the id of the task. -/
def FromWorker (uuid : Nat → Text) (timeoutMs : Nat) (moves : List DaemonMove) (i : Nat)
    (r : TaskResponse) : Prop :=
  r.taskId = uuid i ∧ ∃ before worker, before ++ [.respond worker r] <+: moves ∧
    (run uuid timeoutMs before).listening worker = true

/-- The failure that a disconnect of the worker of the task sends. -/
def FromDisconnect (uuid : Nat → Text) (timeoutMs : Nat) (moves : List DaemonMove) (i : Nat)
    (r : TaskResponse) : Prop :=
  r = workerDisconnected (uuid i) ∧ ∃ before c worker tasks, before ++ [.failTask c (uuid i)] <+: moves ∧
    (run uuid timeoutMs before).sweep c = .failing worker tasks ∧
    ((run uuid timeoutMs before).invocation i).worker? = some worker

structure Sourced (uuid : Nat → Text) (timeoutMs : Nat) (moves : List DaemonMove) (s : Switchboard) :
    Prop where
  sent : ∀ i r, s.oneshot i = .sent r →
    FromWorker uuid timeoutMs moves i r ∨ FromDisconnect uuid timeoutMs moves i r
  result : ∀ i x, (s.invocation i).result? = some (.response x) →
    ∃ r durationUs, s.oneshot i = .sent r ∧ x = .of r durationUs

theorem FromWorker.mono {moves moves' : List DaemonMove} (hm : moves <+: moves') {r : TaskResponse}
    (h : FromWorker uuid timeoutMs moves i r) : FromWorker uuid timeoutMs moves' i r := by
  obtain ⟨hid, before, worker, hpre, hl⟩ := h
  exact ⟨hid, before, worker, hpre.trans hm, hl⟩

theorem FromDisconnect.mono {moves moves' : List DaemonMove} (hm : moves <+: moves') {r : TaskResponse}
    (h : FromDisconnect uuid timeoutMs moves i r) : FromDisconnect uuid timeoutMs moves' i r := by
  obtain ⟨hr, before, c, worker, tasks, hpre, hc, hw⟩ := h
  exact ⟨hr, before, c, worker, tasks, hpre.trans hm, hc, hw⟩

theorem oneshot_release (task : Text) (value : Oneshot) (i : Nat) :
    (s.release task value).oneshot i = s.oneshot i ∨
      s.pending.get task = some i ∧ (s.release task value).oneshot i = value := by
  cases hget : s.pending.get task with
  | none =>
    rw [release_none hget]
    exact .inl rfl
  | some j =>
    rw [release_some hget]
    by_cases hj : i = j
    · subst hj
      exact .inr ⟨rfl, Function.update_self ..⟩
    · exact .inl (Function.update_of_ne hj ..)

/-- The sender of a task is in its own entry of `pending`. -/
theorem Inv.task_of_sender (h : Inv uuid s) {task : Text} (hget : s.pending.get task = some i) :
    task = uuid i := by
  obtain ⟨j, rfl⟩ := h.keys task (hget ▸ rfl)
  rw [((h.settled j).sender i hget).1]

/-- What is sent stays. -/
theorem Inv.release_sent (h : Inv uuid s) (task : Text) (value : Oneshot) {r : TaskResponse}
    (hr : s.oneshot i = .sent r) : (s.release task value).oneshot i = .sent r := by
  obtain hsame | ⟨hget, -⟩ := oneshot_release (s := s) task value i
  · exact hsame.trans hr
  · obtain rfl := h.task_of_sender hget
    cases ((h.settled i).sender i hget).2.2.symm.trans hr

theorem Inv.effect_sent (h : Inv uuid s) {move : DaemonMove} (he : Effect uuid s move t)
    {r : TaskResponse} (hr : s.oneshot i = .sent r) : t.oneshot i = .sent r := by
  cases he with
  | quiet hq => rwa [hq.oneshot]
  | advance elapsed durationUs ha =>
    cases ha with
    | clear => exact h.release_sent _ _ hr
    | _ => exact hr
  | respond r' => exact h.release_sent _ _ hr
  | failTask hc ht => exact (h.shrink hc (List.filter_subset_self _)).release_sent _ _ hr
  | _ => exact hr

theorem Advances.oneshot_sent (ha : Advances uuid i s t) {j : Nat} {r : TaskResponse}
    (hr : t.oneshot j = .sent r) : s.oneshot j = .sent r := by
  cases ha with
  | clear =>
    obtain hsame | ⟨-, hdropped⟩ := oneshot_release (s := s) (uuid i) .dropped j
    · exact hsame.symm.trans hr
    · cases hdropped.symm.trans hr
  | _ => exact hr

theorem Sourced.effect_sent {before : List DaemonMove} (hs : run uuid timeoutMs before = s)
    (h : Inv uuid s) (hold : Sourced uuid timeoutMs before s) {move : DaemonMove}
    (he : Effect uuid s move t) {r : TaskResponse} (hr : t.oneshot i = .sent r) :
    FromWorker uuid timeoutMs (before ++ [move]) i r ∨ FromDisconnect uuid timeoutMs (before ++ [move]) i r := by
  have hkept : s.oneshot i = .sent r →
      FromWorker uuid timeoutMs (before ++ [move]) i r ∨
        FromDisconnect uuid timeoutMs (before ++ [move]) i r := fun hr' =>
    (hold.sent i r hr').imp (FromWorker.mono (List.prefix_append ..))
      (FromDisconnect.mono (List.prefix_append ..))
  cases he with
  | quiet hq => exact hkept (hq.oneshot ▸ hr)
  | advance elapsed durationUs ha => exact hkept (ha.oneshot_sent hr)
  | @respond worker r' hl =>
    obtain hsame | ⟨hget, hvalue⟩ := oneshot_release (s := s) r'.taskId (.sent r') i
    · exact hkept (hsame.symm.trans hr)
    · injection hvalue.symm.trans hr with heq
      subst heq
      exact .inl ⟨h.task_of_sender hget, before, worker, List.prefix_refl _, hs ▸ hl⟩
  | @failTask c worker task tasks hc ht =>
    obtain hsame | ⟨hget, hvalue⟩ := oneshot_release (s := { s with
      sweep := Function.update s.sweep c (.failing worker (tasks.filter (· ≠ task))) }) task
      (.sent (workerDisconnected task)) i
    · exact hkept (hsame.symm.trans hr)
    · injection hvalue.symm.trans hr with heq
      obtain rfl := h.task_of_sender hget
      -- a task in `pending` belongs to a call that is not over, so the worker is still known
      have hworker : (s.invocation i).worker? = some worker := by
        obtain hworker | ⟨result, hend⟩ := (h.settled i).todo c worker tasks hc ht
        · exact hworker
        · have hp := ((h.settled i).sender i hget).2.1
          rw [hend] at hp
          cases hp
      exact .inr ⟨heq.symm, before, c, worker, tasks, List.prefix_refl _, hs ▸ hc, hs ▸ hworker⟩
  | call | cancel | sweep => exact hkept hr

/-- A response that a call is about to return was received by it. -/
theorem Advances.result (ha : Advances uuid i s t) {x : InvokeResponse}
    (hx : (t.invocation i).result? = some (.response x)) :
    (s.invocation i).result? = some (.response x) ∨
      ∃ r durationUs, s.oneshot i = .sent r ∧ x = .of r durationUs := by
  cases ha with
  | go hub queue hnext =>
    rw [invocation_goTo] at hx
    exact .inr (hnext.result hx)
  | pend | register =>
    rw [invocation_goTo] at hx
    cases hx
  | clear hs | leave hs =>
    rw [invocation_goTo] at hx
    exact .inl (hs ▸ hx)

theorem Sourced.effect {before : List DaemonMove} (hs : run uuid timeoutMs before = s)
    (h : Inv uuid s) (hold : Sourced uuid timeoutMs before s) {move : DaemonMove}
    (he : Effect uuid s move t) : Sourced uuid timeoutMs (before ++ [move]) t := by
  refine ⟨fun i r => hold.effect_sent hs h he, fun i x hx => ?_⟩
  have hkept : (s.invocation i).result? = some (.response x) →
      ∃ r durationUs, t.oneshot i = .sent r ∧ x = .of r durationUs := fun hx' => by
    obtain ⟨r, durationUs, hr, heq⟩ := hold.result i x hx'
    exact ⟨r, durationUs, h.effect_sent he hr, heq⟩
  obtain hsame | ⟨-, req, hcalled⟩ | ⟨tool, worker, -, hc⟩ | ha := he.not_advanced (i := i) h
  · exact hkept (hsame ▸ hx)
  · rw [hcalled] at hx
    cases hx
  · rw [hc] at hx
    cases hx
  · obtain hx' | ⟨r, durationUs, hr, heq⟩ := ha.result hx
    · exact hkept hx'
    · exact ⟨r, durationUs, h.effect_sent he hr, heq⟩

theorem sourced_run (huuid : Function.Injective uuid) (moves : List DaemonMove) :
    Sourced uuid timeoutMs moves (run uuid timeoutMs moves) :=
  Runs.along_run (I := Inv uuid) (fun s move h => h.step huuid timeoutMs s move) inv_new
    ⟨fun _ _ h => (by cases h), fun _ _ h => (by cases h)⟩
    (fun _ s move hs h hold => hold.effect hs h (Switchboard.effect uuid timeoutMs s move)) moves

/-! ### Messages for other tasks -/

/-- The same for one call: of the others only what can be of use to it. -/
structure Alike (uuid : Nat → Text) (i : Nat) (s t : Switchboard) : Prop where
  hub : t.hub = s.hub
  queue : t.queue = s.queue
  closed : t.closed = s.closed
  pending : t.pending.get (uuid i) = s.pending.get (uuid i)
  oneshot : t.oneshot i = s.oneshot i
  invocation : t.invocation i = s.invocation i
  front : ∀ j, (t.invocation j).front = (s.invocation j).front
  tasks : ∀ worker, uuid i ∈ t.tasksOf worker ↔ uuid i ∈ s.tasksOf worker
  sweep : ∀ c, (t.sweep c).forget = (s.sweep c).forget
  todo : ∀ c, uuid i ∈ (t.sweep c).tasks ↔ uuid i ∈ (s.sweep c).tasks

namespace Alike

theorem refl (uuid : Nat → Text) (i : Nat) (s : Switchboard) : Alike uuid i s s :=
  ⟨rfl, rfl, rfl, rfl, rfl, rfl, fun _ => rfl, fun _ => Iff.rfl, fun _ => rfl, fun _ => Iff.rfl⟩

theorem symm (h : Alike uuid i s t) : Alike uuid i t s :=
  ⟨h.hub.symm, h.queue.symm, h.closed.symm, h.pending.symm, h.oneshot.symm, h.invocation.symm,
    fun j => (h.front j).symm, fun w => (h.tasks w).symm, fun c => (h.sweep c).symm, fun c => (h.todo c).symm⟩

theorem trans {u : Switchboard} (h : Alike uuid i s t) (h' : Alike uuid i t u) : Alike uuid i s u :=
  ⟨h'.hub.trans h.hub, h'.queue.trans h.queue, h'.closed.trans h.closed, h'.pending.trans h.pending,
    h'.oneshot.trans h.oneshot, h'.invocation.trans h.invocation, fun j => (h'.front j).trans (h.front j),
    fun w => (h'.tasks w).trans (h.tasks w), fun c => (h'.sweep c).trans (h.sweep c),
    fun c => (h'.todo c).trans (h.todo c)⟩

theorem goTo (h : Alike uuid i s t) (j : Nat) (x : Invocation) :
    Alike uuid i (s.goTo j x) (t.goTo j x) := by
  refine { h with invocation := ?_, front := fun k => ?_ }
  · by_cases hj : i = j
    · subst hj
      rw [invocation_goTo, invocation_goTo]
    · exact (Function.update_of_ne hj ..).trans (h.invocation.trans (Function.update_of_ne hj ..).symm)
  · by_cases hk : k = j
    · subst hk
      rw [invocation_goTo, invocation_goTo]
    · have hs : (s.goTo j x).invocation k = s.invocation k := Function.update_of_ne hk ..
      have ht : (t.goTo j x).invocation k = t.invocation k := Function.update_of_ne hk ..
      rw [hs, ht]
      exact h.front k

/-- A change of the front of another call does not show where there is none. -/
theorem goTo_other (uuid : Nat → Text) {j : Nat} (hj : j ≠ i) {x : Invocation}
    (hx : x.front = (s.invocation j).front) : Alike uuid i s (s.goTo j x) := by
  refine { refl uuid i s with invocation := Function.update_of_ne hj.symm .., front := fun k => ?_ }
  by_cases hk : k = j
  · subst hk
    rw [invocation_goTo]
    exact hx
  · exact congrArg Invocation.front (Function.update_of_ne hk ..)

theorem changeEntry (h : Alike uuid i s t) (worker : Text) {f : List Text → List Text}
    (hf : ∀ tasks tasks', (uuid i ∈ tasks' ↔ uuid i ∈ tasks) → (uuid i ∈ f tasks' ↔ uuid i ∈ f tasks)) :
    Alike uuid i (s.changeEntry worker f) (t.changeEntry worker f) := by
  refine { h with tasks := fun w => ?_ }
  rw [tasksOf_changeEntry, tasksOf_changeEntry]
  split
  · exact hf _ _ (h.tasks worker)
  · exact h.tasks w

/-- The task of another call is of no concern. -/
theorem release_other (h : Inv uuid s) {task : Text} (htask : task ≠ uuid i) (value : Oneshot) :
    Alike uuid i s (s.release task value) := by
  refine ⟨?_, ?_, ?_, ?_, ?_, ?_, fun j => ?_, fun w => ?_, fun c => ?_, fun c => ?_⟩
  · rw [release]
    split <;> rfl
  · rw [release]
    split <;> rfl
  · rw [release]
    split <;> rfl
  · rw [pending_release, if_neg htask.symm]
  · obtain hsame | ⟨hget, -⟩ := oneshot_release (s := s) task value i
    · exact hsame
    · exact absurd (h.task_of_sender hget) htask
  · rw [invocation_release]
  · rw [invocation_release]
  · rw [tasksOf_release]
  · rw [sweep_release]
  · rw [sweep_release]

theorem release (hs : Inv uuid s) (ht : Inv uuid t) (h : Alike uuid i s t) (task : Text) (value : Oneshot) :
    Alike uuid i (s.release task value) (t.release task value) := by
  by_cases htask : task = uuid i
  · subst htask
    cases hget : s.pending.get (uuid i) with
    | none =>
      rw [release_none hget, release_none (h.pending.trans hget)]
      exact h
    | some j =>
      obtain rfl := ((hs.settled i).sender j hget).1
      rw [release_some hget, release_some (h.pending.trans hget)]
      refine { h with pending := ?_, oneshot := ?_ }
      · exact (Dict.get_erase_self ..).trans (Dict.get_erase_self ..).symm
      · dsimp only
        rw [Function.update_self, Function.update_self]
  · exact (release_other hs htask value).symm.trans (h.trans (release_other ht htask value))

theorem changeEntry_other (worker : Text) {f : List Text → List Text}
    (hf : ∀ tasks, uuid i ∈ f tasks ↔ uuid i ∈ tasks) : Alike uuid i s (s.changeEntry worker f) := by
  refine { refl uuid i s with tasks := fun w => ?_ }
  rw [tasksOf_changeEntry]
  split
  case isTrue hw => rw [hf, hw]
  case isFalse => rfl

/-- A call that waits, or is behind that, does nothing to another. -/
theorem advance_other (huuid : Function.Injective uuid) (hs : Inv uuid s) {j : Nat} (hj : j ≠ i)
    (hfront : (s.invocation j).front = none) (elapsed : Bool) (durationUs : Nat) :
    Alike uuid i s (s.advance uuid timeoutMs j elapsed durationUs) := by
  have hne : uuid j ≠ uuid i := huuid.ne hj
  unfold advance
  split
  case h_7 => 
    split
    · exact goTo_other uuid hj hfront.symm
    · exact goTo_other uuid hj hfront.symm
    · split
      · exact goTo_other uuid hj hfront.symm
      · exact refl uuid i s
  case h_8 => 
    refine (release_other hs hne .dropped).trans (goTo_other uuid hj ?_)
    rw [invocation_release, hfront]
    rfl
  case h_9 =>
    refine (changeEntry_other _ fun tasks => ?_).trans (goTo_other uuid hj hfront.symm)
    rw [List.mem_filter, decide_eq_true hne.symm]
    exact and_iff_left rfl
  case h_10 | h_11 | h_12 => exact refl uuid i s
  all_goals
    rename_i hx
    rw [hx] at hfront
    cases hfront

/-- A call that is where it is in the other state makes the same step there. -/
theorem advance (hs : Inv uuid s) (ht : Inv uuid t) (h : Alike uuid i s t) {j : Nat}
    (hx : t.invocation j = s.invocation j) (hj : j = i ∨ (s.invocation j).front ≠ none) (elapsed : Bool)
    (durationUs : Nat) :
    Alike uuid i (s.advance uuid timeoutMs j elapsed durationUs) (t.advance uuid timeoutMs j elapsed durationUs) := by
  unfold Switchboard.advance
  rw [hx, h.hub, h.queue, h.closed]
  cases hinv : s.invocation j with
  | called req =>
    dsimp only
    split <;> exact h.goTo j _
  | defined req tool =>
    dsimp only
    split <;> exact h.goTo j _
  | grouped req tool group =>
    dsimp only
    split
    · refine goTo ?_ j _
      exact { h with hub := rfl, queue := rfl, closed := rfl }
    · exact h.goTo j _
  | chosen req tool worker =>
    dsimp only
    refine goTo ?_ j _
    refine { h with pending := ?_, hub := rfl, queue := rfl, closed := rfl }
    dsimp only
    rw [Dict.get_set, Dict.get_set, h.pending]
  | pended req tool worker =>
    refine (h.changeEntry worker fun tasks tasks' hmem => ?_).goTo j _
    rw [List.mem_insert_iff, List.mem_insert_iff, hmem]
  | registered req tool worker =>
    dsimp only
    split
    · exact h.goTo j _
    · refine goTo ?_ j _
      refine { h with queue := ?_ }
      rw [enqueue, enqueue, h.queue]
  | waiting tool worker =>
    obtain rfl : j = i := hj.resolve_right fun hne => hne (by rw [hinv]; rfl)
    dsimp only
    rw [h.oneshot]
    split
    · exact h.goTo j _
    · exact h.goTo j _
    · split
      · exact h.goTo j _
      · exact h
  | clearing worker result => exact (h.release hs ht (uuid j) .dropped).goTo j _
  | leaving worker result =>
    refine (h.changeEntry worker fun tasks tasks' hmem => ?_).goTo j _
    rw [List.mem_filter, List.mem_filter, hmem]
  | idle | ended | cancelled => exact h

theorem same_of_front (h : Alike uuid i s t) {j : Nat} (hj : (s.invocation j).front ≠ none) :
    t.invocation j = s.invocation j := by
  obtain ⟨x, hx⟩ := Option.ne_none_iff_exists'.1 hj
  exact (Invocation.eq_of_front ((h.front j).trans hx)).trans (Invocation.eq_of_front hx).symm

/-- Both disconnects go on alike. -/
theorem setSweep (h : Alike uuid i s t) (c : Nat) {x y : Sweep} (hforget : y.forget = x.forget)
    (htodo : uuid i ∈ y.tasks ↔ uuid i ∈ x.tasks) :
    Alike uuid i { s with sweep := Function.update s.sweep c x } { t with sweep := Function.update t.sweep c y } := by
  refine { h with sweep := fun c' => ?_, todo := fun c' => ?_ }
  all_goals
    dsimp only
    by_cases hc : c' = c
    · subst hc
      rw [Function.update_self, Function.update_self]
      assumption
    · rw [Function.update_of_ne hc, Function.update_of_ne hc]
      first | exact h.sweep c' | exact h.todo c'

theorem follow (h : Alike uuid i s t) (hub : Hub) (move : HubMove) :
    Alike uuid i (s.follow hub move) (t.follow hub move) := by
  have hset : Alike uuid i { s with hub } { t with hub } := { h with hub := rfl }
  unfold Switchboard.follow
  split
  case h_1 c worker =>
    have hidle : t.sweep c = .idle ↔ s.sweep c = .idle := by
      rw [← Sweep.forget_eq_idle, h.sweep c, Sweep.forget_eq_idle]
    by_cases hs : s.sweep c = .idle
    · rw [hs, hidle.2 hs]
      split
      · exact hset.setSweep c rfl Iff.rfl
      · exact hset
    · split
      case h_1 hs' _ => exact absurd hs' hs
      case h_2 =>
        split
        case h_1 ht _ => exact absurd (hidle.1 ht) hs
        case h_2 => exact hset
  case h_2 => exact hset

theorem sweepEntry (h : Alike uuid i s t) (c : Nat) : Alike uuid i (s.sweepEntry c) (t.sweepEntry c) := by
  unfold Switchboard.sweepEntry
  have hcleanup : t.hub.cleanup c = s.hub.cleanup c := by rw [h.hub]
  rw [hcleanup]
  have hremoving : ∀ worker, t.sweep c = .removing worker ↔ s.sweep c = .removing worker := fun worker => by
    rw [← Sweep.forget_eq_removing, h.sweep c, Sweep.forget_eq_removing]
  split
  case h_1 worker hdone hs =>
    rw [hdone, (hremoving worker).2 hs]
    have herase : Alike uuid i { s with inFlight := s.inFlight.erase worker }
        { t with inFlight := t.inFlight.erase worker } := by
      refine { h with tasks := fun w => ?_ }
      rw [tasksOf, tasksOf]
      by_cases hw : w = worker
      · rw [hw, Dict.get_erase_self, Dict.get_erase_self]
      · rw [Dict.get_erase_ne _ hw, Dict.get_erase_ne _ hw]
        exact h.tasks w
    have hnext := @setSweep uuid _ _ i herase c (.failing worker (s.tasksOf worker))
      (.failing worker (t.tasksOf worker)) rfl (h.tasks worker)
    exact hnext
  case h_2 hs =>
    split
    case h_1 worker hdone ht => exact absurd ((hremoving worker).1 ht) (hs worker hdone)
    case h_2 => exact h

/-- A disconnect may answer another task in one of the states only. -/
theorem failTask_other (hs : Inv uuid s) (c : Nat) {task : Text} (htask : task ≠ uuid i) :
    Alike uuid i s (s.failTask c task) := by
  unfold Switchboard.failTask
  split
  case h_1 worker tasks hc =>
    split
    · refine Alike.trans ?_ (release_other (hs.shrink hc (List.filter_subset_self _)) htask _)
      have hnext := @setSweep uuid _ _ i (refl uuid i s) c (.failing worker tasks)
        (.failing worker (tasks.filter (· ≠ task))) rfl (by
          rw [Sweep.tasks, Sweep.tasks, List.mem_filter, decide_eq_true htask.symm]
          exact and_iff_left rfl)
      rwa [← hc, Function.update_eq_self] at hnext
    · exact refl uuid i s
  case h_2 => exact refl uuid i s

theorem failTask (hs : Inv uuid s) (ht : Inv uuid t) (h : Alike uuid i s t) (c : Nat) (task : Text) :
    Alike uuid i (s.failTask c task) (t.failTask c task) := by
  by_cases htask : task = uuid i
  · subst htask
    have hfailing : ∀ worker, (∃ tasks, t.sweep c = .failing worker tasks) ↔
        ∃ tasks, s.sweep c = .failing worker tasks := fun worker => by
      rw [← Sweep.forget_eq_failing, h.sweep c, Sweep.forget_eq_failing]
    have htodo := h.todo c
    unfold Switchboard.failTask
    split
    case h_1 worker tasks hc =>
      obtain ⟨tasks', hc'⟩ := (hfailing worker).2 ⟨tasks, hc⟩
      rw [hc, hc', Sweep.tasks, Sweep.tasks] at htodo
      rw [hc']
      dsimp only
      by_cases hmem : uuid i ∈ tasks
      · rw [if_pos hmem, if_pos (htodo.2 hmem)]
        refine release (hs.shrink hc (List.filter_subset_self _)) (ht.shrink hc' (List.filter_subset_self _)) ?_ _ _
        refine h.setSweep c rfl ?_
        rw [Sweep.tasks, Sweep.tasks, List.mem_filter, List.mem_filter, htodo]
      · rw [if_neg hmem, if_neg fun hmem' => hmem (htodo.1 hmem')]
        exact h
    case h_2 hs' =>
      split
      case h_1 worker tasks' hc' =>
        obtain ⟨tasks, hc⟩ := (hfailing worker).1 ⟨tasks', hc'⟩
        exact absurd hc (hs' worker tasks)
      case h_2 => exact h
  · exact (failTask_other hs c htask).symm.trans (h.trans (failTask_other ht c htask))

theorem call_begun {j : Nat} (hj : s.invocation j ≠ .idle) (req : InvokeRequest) :
    s.step uuid timeoutMs (.call j req) = s := by
  rw [Switchboard.step]
  split
  · contradiction
  · rfl

theorem cancel_other {j : Nat} (hj : j ≠ i) : Alike uuid i s (s.step uuid timeoutMs (.cancel j)) := by
  rw [Switchboard.step]
  split
  case h_1 tool worker hx => exact goTo_other uuid hj (by rw [hx]; rfl)
  case h_2 => exact refl uuid i s

theorem step (huuid : Function.Injective uuid) (hs : Inv uuid s) (ht : Inv uuid t) (h : Alike uuid i s t)
    (move : DaemonMove) : Alike uuid i (s.step uuid timeoutMs move) (t.step uuid timeoutMs move) := by
  cases move with
  | hub move =>
    rw [Switchboard.step, Switchboard.step, h.hub]
    exact h.follow (s.hub.step move) move
  | call j req =>
    by_cases hj : s.invocation j = .idle
    · have hx : t.invocation j = .idle := (h.same_of_front (by rw [hj]; rintro ⟨⟩)).trans hj
      rw [Switchboard.step, Switchboard.step, hj, hx]
      exact h.goTo j _
    · have hx : t.invocation j ≠ .idle := fun hx =>
        hj ((h.symm.same_of_front (by rw [hx]; rintro ⟨⟩)).trans hx)
      rw [call_begun hj, call_begun hx]
      exact h
  | advance j elapsed durationUs =>
    by_cases hj : j = i ∨ (s.invocation j).front ≠ none
    · have hx : t.invocation j = s.invocation j := hj.elim (fun heq => heq ▸ h.invocation) h.same_of_front
      exact advance hs ht h hx hj elapsed durationUs
    · obtain ⟨hne, hfront⟩ := not_or.1 hj
      rw [not_ne_iff] at hfront
      exact (advance_other huuid hs hne hfront elapsed durationUs).symm.trans
        (h.trans (advance_other huuid ht hne ((h.front j).trans hfront) elapsed durationUs))
  | cancel j =>
    by_cases hj : j = i
    · subst hj
      rw [Switchboard.step, Switchboard.step, h.invocation]
      split
      · exact h.goTo j _
      · exact h
    · exact (cancel_other hj).symm.trans (h.trans (cancel_other hj))
  | respond worker r =>
    have hlistening : t.listening worker = s.listening worker := by rw [listening, h.hub, listening]
    rw [Switchboard.step, Switchboard.step, hlistening]
    split
    · exact release hs ht h _ _
    · exact h
  | takeTask worker => exact { h with queue := by rw [Switchboard.step, Switchboard.step, h.queue] }
  | close worker =>
    have hclosable : t.closable worker = s.closable worker := by rw [closable, h.hub, closable]
    rw [Switchboard.step, Switchboard.step, hclosable]
    split
    · exact { h with closed := by dsimp only; rw [h.closed] }
    · exact h
  | sweep c => exact h.sweepEntry c
  | failTask c task => exact failTask hs ht h c task

/-- A message for another task does nothing to the call. -/
theorem respond_other (hs : Inv uuid s) (worker : Text) {r : TaskResponse} (hr : r.taskId ≠ uuid i) :
    Alike uuid i s (s.step uuid timeoutMs (.respond worker r)) := by
  rw [Switchboard.step]
  split
  · exact release_other hs hr _
  · exact refl uuid i s

end Alike

/-- A message with the id of another task. -/
def forOther (uuid : Nat → Text) (i : Nat) : DaemonMove → Bool
  | .respond _ r => r.taskId ≠ uuid i
  | _ => false

/-- Without the messages for other tasks the run is the same to the call. -/
theorem Alike.runs (huuid : Function.Injective uuid) (hs : Inv uuid s) (ht : Inv uuid t)
    (h : Alike uuid i s t) (moves : List DaemonMove) :
    Alike uuid i (moves.foldl (Switchboard.step uuid timeoutMs) s)
      ((moves.filter fun move => !forOther uuid i move).foldl (Switchboard.step uuid timeoutMs) t) := by
  induction moves generalizing s t with
  | nil => exact h
  | cons move moves ih =>
    have hs' := hs.step huuid timeoutMs s move
    cases hmove : forOther uuid i move with
    | false =>
      rw [List.filter_cons_of_pos (by rw [hmove]; rfl)]
      exact ih hs' (ht.step huuid timeoutMs t move) (h.step huuid hs ht move)
    | true =>
      rw [List.filter_cons_of_neg (by rw [hmove]; exact nofun)]
      refine ih hs' ht (Alike.trans ?_ h)
      cases move with
      | respond worker r => exact (respond_other hs worker (of_decide_eq_true hmove)).symm
      | _ => cases hmove

/-- A task is dispatched to `a`; another worker registers. -/
def dispatchedToA : List DaemonMove := choosesA ++ steps 0 3 ++ (Hub.registers "b" "u").map .hub

def forged : TaskResponse := ⟨ids 0, true, "7", [], [], []⟩

/-- `b` answers the task. -/
def answeredByB : List DaemonMove :=
  dispatchedToA ++ [.respond "b" forged, .advance 0 false 5, .advance 0 false 5]

end Switchboard

end Tinypipe
