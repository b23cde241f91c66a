import Tinypipe.Lib.Dict
import Tinypipe.Lib.Text

/-! Workers of the daemon (`tinypipe-daemon/src/lib.rs`): `register_tool`, `disconnect_worker`
and what `invoke_inner` looks up. A step is one operation on a map or on a group; any number of
connections and of disconnects are under way at once. -/

namespace Tinypipe

open Lib

structure ToolDefinition where
  name : Text
  description : Text
  inputSchemaJson : Text
  outputSchemaJson : Text
  pure : Bool
  timeoutMs : Nat

inductive RpcStatus where
  | invalidArgument (message : Text)
  | notFound (message : Text)
  | unavailable (message : Text)
deriving DecidableEq

structure WorkerGroup where
  workers : List Text
  nextIdx : Nat

namespace WorkerGroup

def new : WorkerGroup := ⟨[], 0⟩

def add (worker : Text) (g : WorkerGroup) : WorkerGroup := { g with workers := g.workers ++ [worker] }

def removeWorker (worker : Text) (g : WorkerGroup) : WorkerGroup :=
  { g with workers := g.workers.filter (· ≠ worker) }

def workerCount (g : WorkerGroup) : Nat := g.workers.length

def getNextWorker (g : WorkerGroup) : Option Text := g.workers[g.nextIdx % g.workers.length]?

end WorkerGroup

structure Daemon where
  toolGroups : Dict Text Nat
  toolDefs : Dict Text ToolDefinition
  /-- The groups there ever were: one that is no longer in the map can still be held. -/
  groups : Nat → WorkerGroup
  created : Nat

namespace Daemon

def new : Daemon := ⟨Dict.empty, Dict.empty, fun _ => WorkerGroup.new, 0⟩

/-- The group of a tool, a new one if there is none. -/
def entry (name : Text) (d : Daemon) : Nat × Daemon :=
  match d.toolGroups.get name with
  | some group => (group, d)
  | none => (d.created, { d with
      toolGroups := d.toolGroups.set name d.created
      groups := Function.update d.groups d.created WorkerGroup.new
      created := d.created + 1 })

def changeGroup (group : Nat) (f : WorkerGroup → WorkerGroup) (d : Daemon) : Daemon :=
  { d with groups := Function.update d.groups group (f (d.groups group)) }

def noRegisteredWorker (toolName : Text) : RpcStatus :=
  .notFound (("tool '" : Text) ++ toolName ++ ("' has no registered worker" : Text))

/-! What an invocation looks up, in this order. -/

def invokeDef (toolName : Text) (d : Daemon) : Except RpcStatus ToolDefinition :=
  match d.toolDefs.get toolName with
  | some tool => .ok tool
  | none => .error (noRegisteredWorker toolName)

def invokeGroup (toolName : Text) (d : Daemon) : Except RpcStatus Nat :=
  match d.toolGroups.get toolName with
  | some group => .ok group
  | none => .error (noRegisteredWorker toolName)

def invokeWorker (toolName : Text) (group : Nat) (d : Daemon) : Except RpcStatus Text :=
  match (d.groups group).getNextWorker with
  | some worker => .ok worker
  | none => .error (.unavailable (("no worker available for tool '" : Text) ++ toolName ++ ("'" : Text)))

end Daemon

/-- How far the registration of a worker is. -/
inductive Registration where
  | idle
  | registering (done todo : List ToolDefinition)
  /-- In `register_tool`, with the group of the tool. -/
  | fetched (done : List ToolDefinition) (tool : ToolDefinition) (group : Nat) (todo : List ToolDefinition)
  | added (done : List ToolDefinition) (tool : ToolDefinition) (todo : List ToolDefinition)
  | connected (tools : List ToolDefinition)
  | rejected (status : RpcStatus)
  | disconnected

/-- How far a call of `disconnect_worker` is. -/
inductive Cleanup where
  | idle
  /-- Over the groups: the ones from the start that are still to come, the ones seen. -/
  | visiting (worker : Text) (due seen emptied : List Text)
  /-- The worker is removed from a group, the others not yet counted. -/
  | counting (worker name : Text) (group : Nat) (due seen emptied : List Text)
  | clearing (emptied : List Text)
  | clearingDef (name : Text) (emptied : List Text)
  | done

structure Hub where
  daemon : Daemon
  /-- By the id of the worker: each connection gets a new one. -/
  registration : Text → Registration
  cleanup : Nat → Cleanup

inductive HubMove where
  | connect (worker : Text) (tools : List ToolDefinition)
  | register (worker : Text)
  | disconnect (call : Nat) (worker : Text)
  /-- The next step of a disconnect; on its way over the groups, to which of them. -/
  | cleanup (call : Nat) (entry : Option Text)

namespace Hub

def new : Hub := ⟨Daemon.new, fun _ => .idle, fun _ => .idle⟩

def setRegistration (worker : Text) (r : Registration) (s : Hub) : Hub :=
  { s with registration := Function.update s.registration worker r }

def setCleanup (call : Nat) (c : Cleanup) (s : Hub) : Hub :=
  { s with cleanup := Function.update s.cleanup call c }

def setDaemon (d : Daemon) (s : Hub) : Hub := { s with daemon := d }

def register (worker : Text) (s : Hub) : Hub :=
  match s.registration worker with
  | .registering done [] => s.setRegistration worker (.connected done)
  | .registering done (tool :: todo) =>
    if Text.trim tool.name = [] then
      s.setRegistration worker (.rejected (.invalidArgument "tool name must not be empty"))
    else
      let (group, d) := s.daemon.entry tool.name
      (s.setDaemon d).setRegistration worker (.fetched done tool group todo)
  | .fetched done tool group todo =>
    (s.setDaemon (s.daemon.changeGroup group (.add worker))).setRegistration worker (.added done tool todo)
  | .added done tool todo =>
    (s.setDaemon { s.daemon with toolDefs := s.daemon.toolDefs.set tool.name tool }).setRegistration worker
      (.registering (done ++ [tool]) todo)
  | .idle | .connected _ | .rejected _ | .disconnected => s

/-- A worker can only be disconnected once it is registered; it may be disconnected twice. -/
def disconnect (call : Nat) (worker : Text) (s : Hub) : Hub :=
  match s.cleanup call, s.registration worker with
  | .idle, .connected _ | .idle, .disconnected =>
    (s.setRegistration worker .disconnected).setCleanup call (.visiting worker s.daemon.toolGroups.keys [] [])
  | _, _ => s

def cleanupStep (call : Nat) (entry : Option Text) (s : Hub) : Hub :=
  match s.cleanup call with
  | .visiting worker due seen emptied =>
    match entry with
    | some name =>
      match s.daemon.toolGroups.get name with
      | some group =>
        if name ∈ seen then s
        else (s.setDaemon (s.daemon.changeGroup group (.removeWorker worker))).setCleanup call
          (.counting worker name group (due.erase name) (name :: seen) emptied)
      | none => s
    | none =>
      if due.any s.daemon.toolGroups.contains then s
      else s.setCleanup call (.clearing emptied)
  | .counting worker name group due seen emptied =>
    if (s.daemon.groups group).workerCount = 0 then
      s.setCleanup call (.visiting worker due seen (emptied ++ [name]))
    else s.setCleanup call (.visiting worker due seen emptied)
  | .clearing [] => s.setCleanup call .done
  | .clearing (name :: emptied) =>
    (s.setDaemon { s.daemon with toolGroups := s.daemon.toolGroups.erase name }).setCleanup call
      (.clearingDef name emptied)
  | .clearingDef name emptied =>
    (s.setDaemon { s.daemon with toolDefs := s.daemon.toolDefs.erase name }).setCleanup call
      (.clearing emptied)
  | .idle | .done => s

def step (s : Hub) : HubMove → Hub
  | .connect worker tools =>
    match s.registration worker with
    | .idle => s.setRegistration worker (.registering [] tools)
    | _ => s
  | .register worker => s.register worker
  | .disconnect call worker => s.disconnect call worker
  | .cleanup call entry => s.cleanupStep call entry

def runs (s : Hub) (moves : List HubMove) : Hub := moves.foldl step s

end Hub

/-! ### What a worker has registered -/

namespace Registration

/-- The tools whose definition was inserted. -/
def done : Registration → List ToolDefinition
  | registering done _ | fetched done _ _ _ | added done _ _ | connected done => done
  | idle | rejected _ | disconnected => []

/-- The tools whose group has the worker. -/
def joined : Registration → List ToolDefinition
  | added done tool _ => done ++ [tool]
  | r => r.done

/-- The tools whose group was fetched. -/
def holding : Registration → List ToolDefinition
  | fetched done tool _ _ => done ++ [tool]
  | r => r.joined

theorem joined_subset_holding (r : Registration) : r.joined ⊆ r.holding := by
  cases r with
  | fetched done tool group todo => exact List.subset_append_left done [tool]
  | _ => exact List.Subset.refl _

theorem done_subset_joined (r : Registration) : r.done ⊆ r.joined := by
  cases r with
  | added done tool todo => exact List.subset_append_left done [tool]
  | _ => exact List.Subset.refl _

end Registration

/-- The worker that is being removed from the groups. -/
def Cleanup.leaving : Cleanup → Option Text
  | visiting worker _ _ _ | counting worker _ _ _ _ _ => some worker
  | idle | clearing _ | clearingDef _ _ | done => none

/-- The tool whose group the next step removes. -/
def Cleanup.removesGroup : Cleanup → Option Text
  | clearing (name :: _) => some name
  | clearing [] | idle | visiting .. | counting .. | clearingDef .. | done => none

def Cleanup.removesDef : Cleanup → Option Text
  | clearingDef name _ => some name
  | idle | visiting .. | counting .. | clearing _ | done => none

namespace Hub

/-- Every tool of a connected worker is listed, and the group of the tool has the worker: what an
invocation looks up is there. -/
def ToolsListed (s : Hub) : Prop :=
  ∀ worker tools, s.registration worker = .connected tools → ∀ tool ∈ tools,
    (∃ def', s.daemon.invokeDef tool.name = .ok def') ∧
      ∃ group, s.daemon.invokeGroup tool.name = .ok group ∧ worker ∈ (s.daemon.groups group).workers

/-- No group is removed that a worker has joined or is about to, and no definition that a worker has
inserted. -/
def Spares (s : Hub) : HubMove → Prop
  | .cleanup call _ =>
    (∀ name ∈ (s.cleanup call).removesGroup, ∀ worker, ∀ tool ∈ (s.registration worker).holding,
      tool.name ≠ name) ∧
    ∀ name ∈ (s.cleanup call).removesDef, ∀ worker, ∀ tool ∈ (s.registration worker).done, tool.name ≠ name
  | .connect .. | .register _ | .disconnect .. => True

structure Inv (s : Hub) : Prop where
  fetched : ∀ worker done tool group todo, s.registration worker = .fetched done tool group todo →
    s.daemon.toolGroups.get tool.name = some group
  joined : ∀ worker, ∀ tool ∈ (s.registration worker).joined, ∃ group,
    s.daemon.toolGroups.get tool.name = some group ∧ worker ∈ (s.daemon.groups group).workers
  listed : ∀ worker, ∀ tool ∈ (s.registration worker).done, (s.daemon.toolDefs.get tool.name).isSome
  fresh : ∀ name group, s.daemon.toolGroups.get name = some group → group < s.daemon.created
  leaving : ∀ call worker, (s.cleanup call).leaving = some worker → s.registration worker = .disconnected

variable {s : Hub}

theorem inv_new : Inv new where
  fetched := fun _ _ _ _ _ h => by cases h
  joined := fun _ _ h => by cases h
  listed := fun _ _ h => by cases h
  fresh := fun _ _ h => by cases h
  leaving := fun _ _ h => by cases h

theorem Inv.toolsListed (h : Inv s) : s.ToolsListed := by
  intro worker tools hr tool htool
  have hdone : tool ∈ (s.registration worker).done := by rwa [hr]
  obtain ⟨def', hdef⟩ := Option.isSome_iff_exists.1 (h.listed worker tool hdone)
  obtain ⟨group, hgroup, hmem⟩ := h.joined worker tool (Registration.done_subset_joined _ hdone)
  exact ⟨⟨def', by rw [Daemon.invokeDef, hdef]⟩, group, by rw [Daemon.invokeGroup, hgroup], hmem⟩

theorem registration_setDaemon (d : Daemon) : (s.setDaemon d).registration = s.registration := rfl

theorem groups_changeGroup (d : Daemon) (group : Nat) (f : WorkerGroup → WorkerGroup) (g : Nat) :
    (d.changeGroup group f).groups g = if g = group then f (d.groups group) else d.groups g :=
  Function.update_apply ..

/-- A worker goes on with its registration, and what that says of it holds. -/
theorem Inv.setRegistration (h : Inv s) (worker : Text) {r : Registration}
    (hfetched : ∀ done tool group todo, r = .fetched done tool group todo →
      s.daemon.toolGroups.get tool.name = some group)
    (hjoined : ∀ tool ∈ r.joined, ∃ group,
      s.daemon.toolGroups.get tool.name = some group ∧ worker ∈ (s.daemon.groups group).workers)
    (hlisted : ∀ tool ∈ r.done, (s.daemon.toolDefs.get tool.name).isSome)
    (hleaving : s.registration worker = .disconnected → r = .disconnected) :
    Inv (s.setRegistration worker r) := by
  have hget : ∀ w, (s.setRegistration worker r).registration w = if w = worker then r else s.registration w :=
    fun w => Function.update_apply ..
  refine ⟨fun w done tool group todo hw => ?_, fun w tool hw => ?_, fun w tool hw => ?_, h.fresh,
    fun call w hc => ?_⟩
  · rw [hget] at hw
    split at hw
    · exact hfetched done tool group todo hw
    · exact h.fetched w done tool group todo hw
  · rw [hget] at hw
    split at hw
    case isTrue hworker => exact hworker ▸ hjoined tool hw
    case isFalse => exact h.joined w tool hw
  · rw [hget] at hw
    split at hw
    · exact hlisted tool hw
    · exact h.listed w tool hw
  · have hw := h.leaving call w hc
    rw [hget]
    split
    case isTrue hworker => exact hleaving (hworker ▸ hw)
    case isFalse => exact hw

theorem Inv.setCleanup (h : Inv s) (call : Nat) {c : Cleanup}
    (hleaving : ∀ worker, c.leaving = some worker → s.registration worker = .disconnected) :
    Inv (s.setCleanup call c) := by
  refine ⟨h.fetched, h.joined, h.listed, h.fresh, fun call' worker hc => ?_⟩
  have hget : (s.setCleanup call c).cleanup call' = if call' = call then c else s.cleanup call' :=
    Function.update_apply ..
  rw [hget] at hc
  split at hc
  · exact hleaving worker hc
  · exact h.leaving call' worker hc

/-- A change of the maps or the groups that takes away nothing a worker has. -/
theorem Inv.setDaemon (h : Inv s) {d : Daemon}
    (hgroups : ∀ worker, ∀ tool ∈ (s.registration worker).holding, ∀ group,
      s.daemon.toolGroups.get tool.name = some group → d.toolGroups.get tool.name = some group)
    (hworkers : ∀ worker, s.registration worker ≠ .disconnected → ∀ name group,
      s.daemon.toolGroups.get name = some group → worker ∈ (s.daemon.groups group).workers →
        worker ∈ (d.groups group).workers)
    (hdefs : ∀ worker, ∀ tool ∈ (s.registration worker).done,
      (s.daemon.toolDefs.get tool.name).isSome → (d.toolDefs.get tool.name).isSome)
    (hfresh : ∀ name group, d.toolGroups.get name = some group → group < d.created) :
    Inv (s.setDaemon d) := by
  refine ⟨fun worker done tool group todo hr => ?_, fun worker tool ht => ?_, fun worker tool ht => ?_,
    hfresh, h.leaving⟩
  · have hheld : tool ∈ (s.registration worker).holding := by
      rw [show s.registration worker = _ from hr]
      exact List.mem_append_right done (List.mem_singleton_self tool)
    exact hgroups worker tool hheld group (h.fetched worker done tool group todo hr)
  · obtain ⟨group, hget, hmem⟩ := h.joined worker tool ht
    have hconnected : s.registration worker ≠ .disconnected := fun hr => by
      replace ht : tool ∈ (s.registration worker).joined := ht
      rw [hr] at ht
      cases ht
    exact ⟨group, hgroups worker tool (Registration.joined_subset_holding _ ht) group hget,
      hworkers worker hconnected tool.name group hget hmem⟩
  · exact hdefs worker tool ht (h.listed worker tool ht)

theorem entry_spec (name : Text) {d : Daemon} (hfresh : ∀ n g, d.toolGroups.get n = some g → g < d.created) :
    (d.entry name).2.toolGroups.get name = some (d.entry name).1 ∧
    (∀ n g, d.toolGroups.get n = some g → (d.entry name).2.toolGroups.get n = some g ∧
      (d.entry name).2.groups g = d.groups g) ∧
    (d.entry name).2.toolDefs = d.toolDefs ∧
    ∀ n g, (d.entry name).2.toolGroups.get n = some g → g < (d.entry name).2.created := by
  unfold Daemon.entry
  cases hname : d.toolGroups.get name with
  | some group => exact ⟨hname, fun n g hg => ⟨hg, rfl⟩, rfl, hfresh⟩
  | none =>
    refine ⟨Dict.get_set_self _ _ _, fun n g hg => ⟨?_, ?_⟩, rfl, fun n g hg => ?_⟩
    · have hne : name ≠ n := fun heq => by
        rw [heq, hg] at hname
        cases hname
      rw [Dict.get_set_ne _ hne]
      exact hg
    · exact Function.update_of_ne (Nat.ne_of_lt (hfresh n g hg)) _ _
    · rw [Dict.get_set] at hg
      split at hg
      · cases hg
        exact Nat.lt_succ_self _
      · exact Nat.lt_succ_of_lt (hfresh n g hg)

/-! ### Steps -/

theorem Inv.register (h : Inv s) (worker : Text) : Inv (s.register worker) := by
  unfold Hub.register
  split
  case h_1 done hr =>
    refine h.setRegistration worker (fun _ _ _ _ heq => by cases heq) (fun tool ht => ?_) (fun tool ht => ?_)
      fun heq => by rw [hr] at heq; cases heq
    · exact h.joined worker tool (by rwa [hr])
    · exact h.listed worker tool (by rwa [hr])
  case h_2 done tool todo hr =>
    split
    · exact h.setRegistration worker (fun _ _ _ _ heq => by cases heq) (fun _ ht => by cases ht)
        (fun _ ht => by cases ht) fun heq => by rw [hr] at heq; cases heq
    · obtain ⟨hgroup, hkept, hdefs, hfresh⟩ := entry_spec tool.name h.fresh
      have hinv : Inv (s.setDaemon (s.daemon.entry tool.name).2) :=
        h.setDaemon (fun _ _ _ _ hg => (hkept _ _ hg).1)
          (fun _ _ n g hg hmem => by rwa [(hkept n g hg).2]) (fun _ _ _ hs => by rwa [hdefs]) hfresh
      refine hinv.setRegistration worker (fun _ _ _ _ heq => ?_) (fun tool' ht => ?_) (fun tool' ht => ?_)
        fun heq => by rw [registration_setDaemon, hr] at heq; cases heq
      · cases heq
        exact hgroup
      · exact hinv.joined worker tool' (by rwa [registration_setDaemon, hr])
      · exact hinv.listed worker tool' (by rwa [registration_setDaemon, hr])
  case h_3 done tool group todo hr =>
    have hinv : Inv (s.setDaemon (s.daemon.changeGroup group (.add worker))) := by
      refine h.setDaemon (fun _ _ _ _ hg => hg) (fun w _ n g _ hmem => ?_) (fun _ _ _ hs => hs) h.fresh
      rw [groups_changeGroup]
      split
      case isTrue hg => exact List.mem_append_left _ (hg ▸ hmem)
      case isFalse => exact hmem
    refine hinv.setRegistration worker (fun _ _ _ _ heq => by cases heq) (fun tool' ht => ?_) (fun tool' ht => ?_)
      fun heq => by rw [registration_setDaemon, hr] at heq; cases heq
    · rcases List.mem_append.1 ht with ht | ht
      · exact hinv.joined worker tool' (by rwa [registration_setDaemon, hr])
      · rw [List.mem_singleton.1 ht]
        refine ⟨group, h.fetched worker done tool group todo hr, ?_⟩
        show worker ∈ ((s.daemon.changeGroup group (.add worker)).groups group).workers
        rw [groups_changeGroup, if_pos rfl]
        exact List.mem_append_right _ (List.mem_singleton_self worker)
    · exact hinv.listed worker tool' (by rwa [registration_setDaemon, hr])
  case h_4 done tool todo hr =>
    have hinv : Inv (s.setDaemon { s.daemon with toolDefs := s.daemon.toolDefs.set tool.name tool }) := by
      refine h.setDaemon (fun _ _ _ _ hg => hg) (fun _ _ _ _ _ hmem => hmem) (fun _ tool' _ hs => ?_) h.fresh
      rw [Dict.get_set]
      split
      · rfl
      · exact hs
    refine hinv.setRegistration worker (fun _ _ _ _ heq => by cases heq) (fun tool' ht => ?_) (fun tool' ht => ?_)
      fun heq => by rw [registration_setDaemon, hr] at heq; cases heq
    · exact h.joined worker tool' (by rwa [hr])
    · rcases List.mem_append.1 ht with ht | ht
      · exact hinv.listed worker tool' (by rwa [registration_setDaemon, hr])
      · rw [List.mem_singleton.1 ht]
        show ((s.daemon.toolDefs.set tool.name tool).get tool.name).isSome
        rw [Dict.get_set_self]
        rfl
  all_goals exact h

theorem Inv.disconnect (h : Inv s) (call : Nat) (worker : Text) : Inv (s.disconnect call worker) := by
  have leave : Inv ((s.setRegistration worker .disconnected).setCleanup call
      (.visiting worker s.daemon.toolGroups.keys [] [])) := by
    have hinv := h.setRegistration worker (r := .disconnected) (fun _ _ _ _ heq => by cases heq)
      (fun _ ht => by cases ht) (fun _ ht => by cases ht) fun _ => rfl
    refine hinv.setCleanup call fun w hw => ?_
    cases hw
    exact Function.update_self ..
  unfold Hub.disconnect
  split
  · exact leave
  · exact leave
  · exact h

theorem Inv.cleanupStep (h : Inv s) {call : Nat} {entry : Option Text} (hspares : s.Spares (.cleanup call entry)) :
    Inv (s.cleanupStep call entry) := by
  obtain ⟨hgroups, hdefs⟩ := hspares
  unfold Hub.cleanupStep
  split
  case h_1 worker due seen emptied hc =>
    have hleaving : s.registration worker = .disconnected := h.leaving call worker (by rw [hc]; rfl)
    split
    case h_1 name =>
      split
      case h_1 group hg =>
        split
        case isTrue => exact h
        case isFalse =>
          have hinv : Inv (s.setDaemon (s.daemon.changeGroup group (.removeWorker worker))) := by
            refine h.setDaemon (fun _ _ _ _ hg => hg) (fun w hw n g _ hmem => ?_) (fun _ _ _ hs => hs) h.fresh
            rw [groups_changeGroup]
            split
            case isTrue hgroup =>
              have hne : w ≠ worker := fun heq => hw (heq ▸ hleaving)
              exact List.mem_filter.2 ⟨hgroup ▸ hmem, decide_eq_true hne⟩
            case isFalse => exact hmem
          refine hinv.setCleanup call fun w hw => ?_
          cases hw
          exact hleaving
      case h_2 => exact h
    case h_2 =>
      split
      · exact h
      · exact h.setCleanup call fun w hw => by cases hw
  case h_2 worker name group due seen emptied hc =>
    have hleaving : s.registration worker = .disconnected := h.leaving call worker (by rw [hc]; rfl)
    split
    all_goals
      refine h.setCleanup call fun w hw => ?_
      cases hw
      exact hleaving
  case h_3 => exact h.setCleanup call fun w hw => by cases hw
  case h_4 name emptied hc =>
    rw [hc] at hgroups
    have hinv : Inv (s.setDaemon { s.daemon with toolGroups := s.daemon.toolGroups.erase name }) := by
      refine h.setDaemon (fun w tool ht g hg => ?_) (fun _ _ _ _ _ hmem => hmem) (fun _ _ _ hs => hs)
        fun n g hg => ?_
      · rw [Dict.get_erase_ne _ (hgroups name rfl w tool ht)]
        exact hg
      · by_cases hn : n = name
        · rw [hn, Dict.get_erase_self] at hg
          cases hg
        · rw [Dict.get_erase_ne _ hn] at hg
          exact h.fresh n g hg
    exact hinv.setCleanup call fun w hw => by cases hw
  case h_5 name emptied hc =>
    rw [hc] at hdefs
    have hinv : Inv (s.setDaemon { s.daemon with toolDefs := s.daemon.toolDefs.erase name }) := by
      refine h.setDaemon (fun _ _ _ _ hg => hg) (fun _ _ _ _ _ hmem => hmem) (fun w tool ht hs => ?_) h.fresh
      rw [Dict.get_erase_ne _ (hdefs name rfl w tool ht)]
      exact hs
    exact hinv.setCleanup call fun w hw => by cases hw
  case h_6 => exact h
  case h_7 => exact h

theorem Inv.step (h : Inv s) {move : HubMove} (hspares : s.Spares move) : Inv (s.step move) := by
  cases move with
  | connect worker tools =>
    unfold Hub.step
    dsimp only
    split
    case h_1 hr =>
      exact h.setRegistration worker (fun _ _ _ _ heq => by cases heq) (fun _ ht => by cases ht)
        (fun _ ht => by cases ht) fun heq => by rw [hr] at heq; cases heq
    case h_2 => exact h
  | register worker => exact h.register worker
  | disconnect call worker => exact h.disconnect call worker
  | cleanup call entry => exact h.cleanupStep hspares

theorem spares_of_keeps {call : Nat} {entry : Option Text} (hgroup : (s.cleanup call).removesGroup = none)
    (hdef : (s.cleanup call).removesDef = none) : s.Spares (.cleanup call entry) := by
  refine ⟨fun name hname => ?_, fun name hname => ?_⟩
  · rw [hgroup] at hname
    cases hname
  · rw [hdef] at hname
    cases hname

/-! ### Interleavings -/

def AllSpare : Hub → List HubMove → Prop
  | _, [] => True
  | s, move :: moves => s.Spares move ∧ AllSpare (s.step move) moves

theorem Inv.runs (h : Inv s) {moves : List HubMove} (hspare : AllSpare s moves) : Inv (s.runs moves) := by
  induction moves generalizing s with
  | nil => exact h
  | cons move moves ih => exact ih (h.step hspare.1) hspare.2

theorem allSpare_append {moves moves' : List HubMove} (h : AllSpare s (moves ++ moves')) :
    AllSpare s moves := by
  induction moves generalizing s with
  | nil => exact trivial
  | cons move moves ih => exact ⟨h.1, ih h.2⟩

/-- As long as no disconnect removes a tool that another worker has registered or is registering, the
tools of every connected worker stay listed. -/
theorem registration_survives (moves moves' : List HubMove) (h : AllSpare new (moves ++ moves')) :
    (new.runs moves).ToolsListed :=
  (inv_new.runs (allSpare_append h)).toolsListed

/-! ### A registration during a disconnect -/

def plainTool (name : Text) : ToolDefinition := ⟨name, [], "\x7b\x7d", "\x7b\x7d", false, 0⟩

/-- A worker connects with one tool. -/
def registers (worker name : Text) : List HubMove :=
  [.connect worker [plainTool name], .register worker, .register worker, .register worker, .register worker]

/-- `b` registers the tool of `a` behind the point where its group was found empty. -/
def registersLate : List HubMove :=
  registers "a" "t" ++ [.disconnect 0 "a", .cleanup 0 (some "t"), .cleanup 0 none] ++ registers "b" "t" ++
    [.cleanup 0 none, .cleanup 0 none, .cleanup 0 none]

theorem registration_lost : ¬(new.runs registersLate).ToolsListed := by
  intro h
  have hconnected : (new.runs registersLate).registration "b" = .connected [plainTool "t"] := rfl
  obtain ⟨⟨def', hdef⟩, -⟩ := h "b" [plainTool "t"] hconnected (plainTool "t") (List.mem_singleton_self _)
  have hmissing : (new.runs registersLate).daemon.invokeDef "t" = .error (Daemon.noRegisteredWorker "t") := rfl
  cases hmissing.symm.trans hdef

/-- `b` registers the tool before `a` is disconnected. -/
def registersEarly : List HubMove :=
  registers "a" "t" ++ registers "b" "t" ++
    [.disconnect 0 "a", .cleanup 0 (some "t"), .cleanup 0 none, .cleanup 0 none, .cleanup 0 none]

theorem registration_survives_early : (new.runs registersEarly).ToolsListed := by
  refine registration_survives registersEarly [] ⟨trivial, trivial, trivial, trivial, trivial, trivial, trivial,
    trivial, trivial, trivial, trivial, spares_of_keeps ?_ ?_, spares_of_keeps ?_ ?_, spares_of_keeps ?_ ?_,
    spares_of_keeps ?_ ?_, trivial⟩
  all_goals decide +kernel

end Hub

end Tinypipe
