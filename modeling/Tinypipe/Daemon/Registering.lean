import Tinypipe.Daemon.Invokes

/-! The first message of a worker (`tinypipe-daemon/src/lib.rs`, `connect_worker`): what is refused
before a tool is registered, the loop over the tools and how it is left. The loop is read twice: in
one piece, and as the steps of `Daemon.Workers` between which anything else can happen. -/

namespace Tinypipe

open Lib

/-! ### One call -/

inductive ConnectError where
  /-- The stream broke before the first message. -/
  | stream
  | status (status : RpcStatus)
  | unauthenticated (message : Text)
deriving DecidableEq

def keyBytes (t : Text) : List UInt8 := t.flatMap String.utf8EncodeChar

/-- The comparison takes as long for a wrong key as for a right one. -/
def sameKey (provided expected : List UInt8) : Bool :=
  provided.length == expected.length &&
    (provided.zip expected).foldl (fun acc p => acc ||| (p.1 ^^^ p.2)) 0 == 0

/-- Without a key of its own the daemon takes every worker. -/
def keyAccepted (apiKey : Option Text) (first : TaskResponse) : Bool :=
  match apiKey with
  | some expected => sameKey (keyBytes first.apiKey) (keyBytes expected)
  | none => true

def invalidApiKey : Text := "invalid daemon api key — set TINYPIPE_DAEMON_API_KEY on the worker"

namespace ToolDefinition

def Blank (tool : ToolDefinition) : Prop := Text.trim tool.name = []

instance (tool : ToolDefinition) : Decidable tool.Blank := inferInstanceAs (Decidable (_ = _))

end ToolDefinition

namespace Daemon

def registerTool (tool : ToolDefinition) (worker : Text) (d : Daemon) : Except RpcStatus Daemon :=
  if tool.Blank then .error (.invalidArgument "tool name must not be empty")
  else
    let (group, d) := d.entry tool.name
    let d := d.changeGroup group (.add worker)
    .ok { d with toolDefs := d.toolDefs.set tool.name tool }

/-- The loop of `connect_worker`. What was registered before an error stays. -/
def registerTools (worker : Text) : List ToolDefinition → Daemon → Option RpcStatus × Daemon
  | [], d => (none, d)
  | tool :: tools, d =>
    match d.registerTool tool worker with
    | .ok d => registerTools worker tools d
    | .error status => (some status, d)

/-- The workers of the group of a tool. -/
def members (d : Daemon) (name : Text) : List Text :=
  match d.toolGroups.get name with
  | some group => (d.groups group).workers
  | none => []

end Daemon

/-- Where the registration of a worker ends. -/
def Registration.closing (tools : List ToolDefinition) : Option RpcStatus → Registration
  | none => .connected tools
  | some status => .rejected status

namespace Switchboard

/-- The worker id is drawn before the first tool. On an error the receiver of the task channel is
dropped with the call. -/
def connectWorker (apiKey : Option Text) (worker : Text) (first : Except Unit (Option TaskResponse))
    (s : Switchboard) : Option ConnectError × Switchboard :=
  match first with
  | .error () => (some .stream, s)
  | .ok none => (some (.status (.invalidArgument "worker sent no registration message")), s)
  | .ok (some first) =>
    if !keyAccepted apiKey first then
      (some (.unauthenticated invalidApiKey), s)
    else
      let (status, d) := s.hub.daemon.registerTools worker first.registeredTools
      let hub := (s.hub.setDaemon d).setRegistration worker (.closing first.registeredTools status)
      (status.map .status, { s with
        hub := hub
        closed := if status.isSome then Function.update s.closed worker true else s.closed })

end Switchboard

/-! ### What a call leaves behind -/

namespace Daemon

/-- No two tools share a group, and the next group is a new one. -/
structure Owned (d : Daemon) : Prop where
  distinct : ∀ n n' g, d.toolGroups.get n = some g → d.toolGroups.get n' = some g → n = n'
  fresh : ∀ n g, d.toolGroups.get n = some g → g < d.created

variable {d : Daemon} {worker : Text}

theorem owned_new : Owned new := ⟨fun _ _ _ h _ => (by cases h), fun _ _ h => (by cases h)⟩

theorem Owned.entry (h : d.Owned) (name : Text) : (d.entry name).2.Owned := by
  unfold Daemon.entry
  cases hname : d.toolGroups.get name with
  | some group => exact h
  | none =>
    have hold : ∀ {n g}, (d.toolGroups.set name d.created).get n = some g →
        n = name ∧ g = d.created ∨ d.toolGroups.get n = some g ∧ g < d.created := by
      intro n g hg
      rw [Dict.get_set] at hg
      split at hg
      case isTrue heq => exact .inl ⟨heq.symm, (Option.some.inj hg).symm⟩
      case isFalse => exact .inr ⟨hg, h.fresh n g hg⟩
    refine ⟨fun n n' g hn hn' => ?_, fun n g hn => ?_⟩
    · rcases hold hn with ⟨rfl, hg⟩ | ⟨hn, hg⟩ <;> rcases hold hn' with ⟨rfl, hg'⟩ | ⟨hn', hg'⟩
      · rfl
      · exact absurd hg (Nat.ne_of_lt hg')
      · exact absurd hg' (Nat.ne_of_lt hg)
      · exact h.distinct n n' g hn hn'
    · rcases hold hn with ⟨-, hg⟩ | ⟨-, hg⟩
      · exact hg ▸ Nat.lt_succ_self _
      · exact Nat.lt_succ_of_lt hg

theorem Owned.changeGroup (h : d.Owned) (group : Nat) (f : WorkerGroup → WorkerGroup) :
    (d.changeGroup group f).Owned :=
  ⟨h.distinct, h.fresh⟩

theorem members_eq {d : Daemon} {n : Text} {group : Nat} (h : d.toolGroups.get n = some group) :
    d.members n = (d.groups group).workers := by
  rw [members, h]

theorem members_eq_nil {d : Daemon} {n : Text} (h : d.toolGroups.get n = none) : d.members n = [] := by
  rw [members, h]

theorem members_entry (h : d.Owned) (name n : Text) : (d.entry name).2.members n = d.members n := by
  unfold Daemon.entry
  cases hname : d.toolGroups.get name with
  | some group => rfl
  | none =>
    by_cases heq : n = name
    · rw [heq, members_eq_nil hname, members_eq (Dict.get_set_self ..)]
      exact congrArg WorkerGroup.workers (Function.update_self d.created WorkerGroup.new d.groups)
    · have hget : (d.toolGroups.set name d.created).get n = d.toolGroups.get n :=
        Dict.get_set_ne _ (Ne.symm heq) _
      cases hn : d.toolGroups.get n with
      | none => rw [members_eq_nil hn, members_eq_nil (hget.trans hn)]
      | some g =>
        rw [members_eq hn, members_eq (hget.trans hn)]
        exact congrArg WorkerGroup.workers (Function.update_of_ne (Nat.ne_of_lt (h.fresh n g hn)) ..)

/-- The group that is fetched is the one of the tool. -/
theorem get_entry (d : Daemon) (name : Text) : (d.entry name).2.toolGroups.get name = some (d.entry name).1 := by
  unfold Daemon.entry
  cases hname : d.toolGroups.get name with
  | some group => exact hname
  | none => exact Dict.get_set_self ..

theorem members_changeGroup (h : d.Owned) {name : Text} {group : Nat} (hgroup : d.toolGroups.get name = some group)
    (n : Text) : (d.changeGroup group (.add worker)).members n =
      if n = name then d.members n ++ [worker] else d.members n := by
  split
  case isTrue heq =>
    rw [heq, members_eq hgroup, members_eq (d := d.changeGroup group (.add worker)) hgroup]
    exact congrArg WorkerGroup.workers (Function.update_self group ((d.groups group).add worker) d.groups)
  case isFalse hne =>
    cases hn : d.toolGroups.get n with
    | none => rw [members_eq_nil hn, members_eq_nil (d := d.changeGroup group (.add worker)) hn]
    | some g =>
      have hgroups : g ≠ group := fun heq => hne (h.distinct n name g hn (heq ▸ hgroup))
      rw [members_eq hn, members_eq (d := d.changeGroup group (.add worker)) hn]
      exact congrArg WorkerGroup.workers (Function.update_of_ne hgroups ..)

/-- One tool is registered: the worker joins its group, the definition is the new one, and nothing
else changes. -/
theorem registerTool_ok (worker : Text) (h : d.Owned) {tool : ToolDefinition} (hname : ¬tool.Blank) :
    ∃ d', d.registerTool tool worker = .ok d' ∧ d'.Owned ∧ d'.toolDefs = d.toolDefs.set tool.name tool ∧
      ∀ n, d'.members n = if n = tool.name then d.members n ++ [worker] else d.members n := by
  have hdefs : (d.entry tool.name).2.toolDefs = d.toolDefs := by
    unfold Daemon.entry
    split <;> rfl
  refine ⟨_, if_neg hname, ?_, ?_, fun n => ?_⟩
  · exact ⟨(h.entry tool.name).distinct, (h.entry tool.name).fresh⟩
  · exact congrArg (·.set tool.name tool) hdefs
  · rw [← members_entry h tool.name]
    exact members_changeGroup (h.entry tool.name) (get_entry d tool.name) n

theorem registerTool_blank {tool : ToolDefinition} (hname : tool.Blank) :
    d.registerTool tool worker = .error (.invalidArgument "tool name must not be empty") :=
  if_pos hname

/-- The tools that are registered. -/
def accepted (tools : List ToolDefinition) : List ToolDefinition := tools.takeWhile fun tool => ¬tool.Blank

theorem accepted_of_named {tools : List ToolDefinition} (h : ∀ tool ∈ tools, ¬tool.Blank) :
    accepted tools = tools :=
  List.takeWhile_eq_self_iff.2 fun tool htool => decide_eq_true (h tool htool)

/-- How often each tool's group has the worker afterwards. -/
theorem count_registerTools (worker : Text) (h : d.Owned) (tools : List ToolDefinition) (n : Text) :
    ((registerTools worker tools d).2.members n).count worker =
      (d.members n).count worker + ((accepted tools).map ToolDefinition.name).count n := by
  induction tools generalizing d with
  | nil => rfl
  | cons tool tools ih =>
    by_cases hname : tool.Blank
    · have haccepted : accepted (tool :: tools) = [] := List.takeWhile_cons_of_neg (by simpa using hname)
      rw [registerTools, registerTool_blank hname, haccepted]
      rfl
    · obtain ⟨d', hok, howned, -, hmembers⟩ := registerTool_ok worker h hname
      have haccepted : accepted (tool :: tools) = tool :: accepted tools :=
        List.takeWhile_cons_of_pos (by simpa using hname)
      rw [registerTools, hok, haccepted, List.map_cons, List.count_cons]
      dsimp only
      rw [ih howned, hmembers]
      split
      case isTrue heq =>
        rw [List.count_append, List.count_singleton_self, heq, beq_self_eq_true, if_pos rfl]
        omega
      case isFalse hne =>
        rw [if_neg (by simpa using Ne.symm hne)]
        rfl

theorem registerTools_status (worker : Text) (h : d.Owned) (tools : List ToolDefinition) :
    (registerTools worker tools d).1 = none ↔ ∀ tool ∈ tools, ¬tool.Blank := by
  induction tools generalizing d with
  | nil => exact iff_of_true rfl fun _ h => by cases h
  | cons tool tools ih =>
    by_cases hname : tool.Blank
    · rw [registerTools, registerTool_blank hname]
      exact iff_of_false (fun h => by cases h) fun h => h tool List.mem_cons_self hname
    · obtain ⟨d', hok, howned, -⟩ := registerTool_ok worker h hname
      rw [registerTools, hok, List.forall_mem_cons, and_iff_right hname]
      exact ih howned

theorem get_registerTools_of_notMem (h : d.Owned) {tools : List ToolDefinition} {n : Text}
    (hn : n ∉ tools.map ToolDefinition.name) :
    (registerTools worker tools d).2.toolDefs.get n = d.toolDefs.get n := by
  induction tools generalizing d with
  | nil => rfl
  | cons tool tools ih =>
    rw [List.map_cons, List.mem_cons, not_or] at hn
    by_cases hname : tool.Blank
    · rw [registerTools, registerTool_blank hname]
    · obtain ⟨d', hok, howned, hdefs, -⟩ := registerTool_ok worker h hname
      rw [registerTools, hok]
      dsimp only
      rw [ih howned hn.2, hdefs, Dict.get_set_ne _ (Ne.symm hn.1)]

/-- With different names no definition of the list overwrites another. -/
theorem get_registerTools (h : d.Owned) {tools : List ToolDefinition} (hnamed : ∀ tool ∈ tools, ¬tool.Blank)
    (hnodup : (tools.map ToolDefinition.name).Nodup) {tool : ToolDefinition} (htool : tool ∈ tools) :
    (registerTools worker tools d).2.toolDefs.get tool.name = some tool := by
  induction tools generalizing d with
  | nil => cases htool
  | cons first tools ih =>
    rw [List.map_cons, List.nodup_cons] at hnodup
    obtain ⟨d', hok, howned, hdefs, -⟩ := registerTool_ok worker h (hnamed first List.mem_cons_self)
    rw [registerTools, hok]
    dsimp only
    rcases List.mem_cons.1 htool with rfl | htool
    · rw [get_registerTools_of_notMem howned hnodup.1, hdefs, Dict.get_set_self]
    · exact ih howned (fun t ht => hnamed t (List.mem_cons_of_mem first ht)) hnodup.2 htool

end Daemon

/-! ### All or nothing -/

def Daemon.SameTools (d d' : Daemon) : Prop :=
  d'.toolGroups = d.toolGroups ∧ (∀ n, d'.members n = d.members n) ∧ d'.toolDefs = d.toolDefs

/-- An error leaves everything as it was; without one every tool of the message has its definition and
the worker once. -/
structure AllOrNothing (first : Except Unit (Option TaskResponse)) (worker : Text) (s : Switchboard)
    (result : Option ConnectError × Switchboard) : Prop where
  nothing : result.1 ≠ none → s.hub.daemon.SameTools result.2.hub.daemon ∧ result.2.pending = s.pending ∧
    result.2.inFlight = s.inFlight
  all : result.1 = none → ∃ message, first = .ok (some message) ∧ ∀ tool ∈ message.registeredTools,
    (result.2.hub.daemon.members tool.name).count worker = 1 ∧
      result.2.hub.daemon.toolDefs.get tool.name = some tool

/-- The first tool is already refused, or none is and no two have the same name. -/
def Uniform (tools : List ToolDefinition) : Prop :=
  (∃ tool ∈ tools.head?, tool.Blank) ∨
    (∀ tool ∈ tools, ¬tool.Blank) ∧ (tools.map ToolDefinition.name).Nodup

namespace Daemon

variable {d : Daemon} {worker : Text} {tools : List ToolDefinition}

theorem SameTools.refl (d : Daemon) : d.SameTools d := ⟨rfl, fun _ => rfl, rfl⟩

theorem registerTools_of_head (worker : Text) (d : Daemon) (h : ∃ tool ∈ tools.head?, tool.Blank) :
    registerTools worker tools d = (some (.invalidArgument "tool name must not be empty"), d) := by
  obtain ⟨tool, htool, hblank⟩ := h
  cases tools with
  | nil => cases htool
  | cons first tools =>
    cases htool
    rw [registerTools, registerTool_blank hblank]

/-- A tool in front of a blank one has the worker in its group. -/
theorem not_sameTools (h : d.Owned) (herror : (registerTools worker tools d).1 ≠ none)
    (hhead : ¬∃ tool ∈ tools.head?, tool.Blank) : ¬d.SameTools (registerTools worker tools d).2 := by
  rintro ⟨-, hmembers, -⟩
  cases tools with
  | nil => exact herror rfl
  | cons first tools =>
    have hname : ¬first.Blank := fun hblank => hhead ⟨first, rfl, hblank⟩
    have haccepted : accepted (first :: tools) = first :: accepted tools :=
      List.takeWhile_cons_of_pos (by simpa using hname)
    have hcount := count_registerTools worker h (first :: tools) first.name
    rw [hmembers, haccepted, List.map_cons, List.count_cons_self] at hcount
    omega

theorem registered_once (h : d.Owned) (hfresh : ∀ n, worker ∉ d.members n)
    (hnamed : ∀ tool ∈ tools, ¬tool.Blank) :
    (∀ tool ∈ tools, ((registerTools worker tools d).2.members tool.name).count worker = 1) ↔
      (tools.map ToolDefinition.name).Nodup := by
  have hcount : ∀ n, ((registerTools worker tools d).2.members n).count worker =
      (tools.map ToolDefinition.name).count n := by
    intro n
    rw [count_registerTools worker h, accepted_of_named hnamed, List.count_eq_zero_of_not_mem (hfresh n), Nat.zero_add]
  rw [List.nodup_iff_count_eq_one, List.forall_mem_map]
  exact forall₂_congr fun tool _ => by rw [hcount]

end Daemon

section

variable {apiKey : Option Text} {worker : Text} {s : Switchboard} {message : TaskResponse}

theorem connectWorker_accepted (hkey : keyAccepted apiKey message = true) :
    s.connectWorker apiKey worker (.ok (some message)) =
      ((s.hub.daemon.registerTools worker message.registeredTools).1.map .status, { s with
        hub := (s.hub.setDaemon (s.hub.daemon.registerTools worker message.registeredTools).2).setRegistration
          worker (.closing message.registeredTools (s.hub.daemon.registerTools worker message.registeredTools).1)
        closed := if (s.hub.daemon.registerTools worker message.registeredTools).1.isSome then
          Function.update s.closed worker true else s.closed }) := by
  rw [Switchboard.connectWorker, hkey]
  rfl

/-- The loop, for a message that gets as far. -/
theorem allOrNothing_iff_uniform (hkey : keyAccepted apiKey message = true) (howned : s.hub.daemon.Owned)
    (hfresh : ∀ n, worker ∉ s.hub.daemon.members n) :
    AllOrNothing (.ok (some message)) worker s (s.connectWorker apiKey worker (.ok (some message))) ↔
      Uniform message.registeredTools := by
  rw [connectWorker_accepted hkey]
  have hstatus := Daemon.registerTools_status worker howned message.registeredTools
  constructor
  · intro h
    by_cases hnamed : ∀ tool ∈ message.registeredTools, ¬tool.Blank
    · have hnone := hstatus.2 hnamed
      obtain ⟨_, heq, hall⟩ := h.all (by rw [hnone]; rfl)
      cases heq
      exact .inr ⟨hnamed, (Daemon.registered_once howned hfresh hnamed).1 fun tool htool => (hall tool htool).1⟩
    · have hsome : (s.hub.daemon.registerTools worker message.registeredTools).1 ≠ none :=
        fun hnone => hnamed (hstatus.1 hnone)
      by_contra hmixed
      refine Daemon.not_sameTools howned hsome (fun hhead => hmixed (.inl hhead)) (h.nothing ?_).1
      exact fun hnone => hsome (Option.map_eq_none_iff.1 hnone)
  · rintro (hhead | ⟨hnamed, hnodup⟩)
    · have hloop := Daemon.registerTools_of_head worker s.hub.daemon hhead
      refine ⟨fun _ => ⟨?_, rfl, rfl⟩, fun hnone => ?_⟩
      · show s.hub.daemon.SameTools (s.hub.daemon.registerTools worker message.registeredTools).2
        rw [hloop]
        exact Daemon.SameTools.refl _
      · rw [hloop] at hnone
        cases hnone
    · have hnone := hstatus.2 hnamed
      refine ⟨fun hsome => absurd (by rw [hnone]; rfl) hsome, fun _ => ⟨message, rfl, fun tool htool => ?_⟩⟩
      exact ⟨(Daemon.registered_once howned hfresh hnamed).2 hnodup tool htool,
        Daemon.get_registerTools howned hnamed hnodup htool⟩

end

/-- A message that never gets as far as the loop, or one whose tools are uniform. -/
def Registrable (apiKey : Option Text) (first : Except Unit (Option TaskResponse)) : Prop :=
  ∀ message, first = .ok (some message) → keyAccepted apiKey message = true → Uniform message.registeredTools

theorem allOrNothing_iff (apiKey : Option Text) (worker : Text) (first : Except Unit (Option TaskResponse))
    {s : Switchboard} (howned : s.hub.daemon.Owned) (hfresh : ∀ n, worker ∉ s.hub.daemon.members n) :
    AllOrNothing first worker s (s.connectWorker apiKey worker first) ↔ Registrable apiKey first := by
  have hrefused : ∀ e, s.connectWorker apiKey worker first = (some e, s) →
      AllOrNothing first worker s (s.connectWorker apiKey worker first) := by
    intro e he
    rw [he]
    exact ⟨fun _ => ⟨Daemon.SameTools.refl _, rfl, rfl⟩, fun hnone => by cases hnone⟩
  rcases first with _ | _ | message
  · exact iff_of_true (hrefused _ rfl) fun _ h => by cases h
  · exact iff_of_true (hrefused _ rfl) fun _ h => by cases h
  · cases hkey : keyAccepted apiKey message with
    | false =>
      have herror : s.connectWorker apiKey worker (.ok (some message)) = (some (.unauthenticated invalidApiKey), s) := by
        rw [Switchboard.connectWorker, hkey]
        rfl
      refine iff_of_true (hrefused _ herror) fun m hm haccepted => ?_
      cases hm
      cases hkey.symm.trans haccepted
    | true =>
      rw [allOrNothing_iff_uniform hkey howned hfresh]
      refine ⟨fun h m hm _ => ?_, fun h => h message rfl hkey⟩
      cases hm
      exact h

/-! ### The loop as steps -/

namespace Hub

variable {s : Hub} {worker : Text}

theorem runs_append (moves moves' : List HubMove) : s.runs (moves ++ moves') = (s.runs moves).runs moves' :=
  List.foldl_append ..

theorem registration_setRegistration (r : Registration) : (s.setRegistration worker r).registration worker = r :=
  Function.update_self ..

theorem setRegistration_setRegistration (r r' : Registration) :
    (s.setRegistration worker r).setRegistration worker r' = s.setRegistration worker r' := by
  unfold setRegistration
  dsimp only
  rw [Function.update_idem]

section

variable {done todo : List ToolDefinition} {tool : ToolDefinition}

theorem register_registering (hr : s.registration worker = .registering done (tool :: todo))
    (hname : ¬tool.Blank) :
    s.register worker = (s.setDaemon (s.daemon.entry tool.name).2).setRegistration worker
      (.fetched done tool (s.daemon.entry tool.name).1 todo) := by
  rw [register, hr]
  exact if_neg hname

theorem register_fetched {group : Nat} (hr : s.registration worker = .fetched done tool group todo) :
    s.register worker = (s.setDaemon (s.daemon.changeGroup group (.add worker))).setRegistration worker
      (.added done tool todo) := by
  rw [register, hr]

theorem register_added (hr : s.registration worker = .added done tool todo) :
    s.register worker = (s.setDaemon { s.daemon with toolDefs := s.daemon.toolDefs.set tool.name tool
      }).setRegistration worker (.registering (done ++ [tool]) todo) := by
  rw [register, hr]

end

/-- One turn of the loop, in three steps. -/
theorem runs_registerTool {done todo : List ToolDefinition} {tool : ToolDefinition} {d : Daemon}
    (hr : s.registration worker = .registering done (tool :: todo))
    (hok : s.daemon.registerTool tool worker = .ok d) :
    s.runs (List.replicate 3 (.register worker)) =
      (s.setDaemon d).setRegistration worker (.registering (done ++ [tool]) todo) := by
  have hname : ¬tool.Blank := fun hblank => by
    rw [Daemon.registerTool_blank hblank] at hok
    cases hok
  rw [Daemon.registerTool, if_neg hname] at hok
  cases hok
  show ((s.register worker).register worker).register worker = _
  rw [register_registering hr hname, register_fetched (registration_setRegistration _),
    register_added (registration_setRegistration _)]
  unfold setRegistration setDaemon
  dsimp only
  rw [Function.update_idem, Function.update_idem]
  rfl

/-- With nothing in between, the steps of the registration come to what the loop does in one piece. -/
theorem runs_registerTools {done todo : List ToolDefinition}
    (hr : s.registration worker = .registering done todo) :
    ∃ n, s.runs (List.replicate n (.register worker)) =
      (s.setDaemon (s.daemon.registerTools worker todo).2).setRegistration worker
        (.closing (done ++ todo) (s.daemon.registerTools worker todo).1) := by
  induction todo generalizing s done with
  | nil =>
    refine ⟨1, ?_⟩
    show s.register worker = _
    rw [register, hr, List.append_nil]
    rfl
  | cons tool todo ih =>
    by_cases hname : tool.Blank
    · refine ⟨1, ?_⟩
      show s.register worker = _
      rw [register, hr, Daemon.registerTools, Daemon.registerTool_blank hname]
      exact if_pos hname
    · obtain ⟨d, hok⟩ : ∃ d, s.daemon.registerTool tool worker = .ok d := ⟨_, if_neg hname⟩
      have hturn := runs_registerTool hr hok
      obtain ⟨n, hrest⟩ := ih (s := (s.setDaemon d).setRegistration worker (.registering (done ++ [tool]) todo))
        (registration_setRegistration _)
      refine ⟨3 + n, ?_⟩
      rw [List.replicate_add, runs_append, hturn, hrest, Daemon.registerTools, hok]
      dsimp only
      rw [List.append_assoc]
      unfold setRegistration setDaemon
      dsimp only
      rw [Function.update_idem]
      rfl

end Hub

namespace Switchboard

variable {uuid : Nat → Text} {timeoutMs : Nat} {apiKey : Option Text} {worker : Text} {s : Switchboard}

theorem hub_foldl (moves : List HubMove) (hquiet : ∀ move ∈ moves, ∀ c w, move ≠ .disconnect c w) :
    (moves.map DaemonMove.hub).foldl (step uuid timeoutMs) s = { s with hub := s.hub.runs moves } := by
  induction moves generalizing s with
  | nil => rfl
  | cons move moves ih =>
    have hstep : step uuid timeoutMs s (.hub move) = { s with hub := s.hub.step move } := by
      cases move with
      | disconnect c w => exact absurd rfl (hquiet _ List.mem_cons_self c w)
      | connect => rfl
      | register => rfl
      | cleanup => rfl
    rw [List.map_cons, List.foldl_cons, hstep, ih fun m hm => hquiet m (List.mem_cons_of_mem move hm)]
    rfl

theorem step_close {tools : List ToolDefinition} {status : Option RpcStatus}
    (hr : s.hub.registration worker = .closing tools status) :
    step uuid timeoutMs s (.close worker) =
      { s with closed := if status.isSome then Function.update s.closed worker true else s.closed } := by
  have hclosable : s.closable worker = status.isSome := by
    rw [closable, hr]
    cases status with
    | none => rfl
    | some status => rfl
  rw [step, hclosable]
  cases status with
  | none => rfl
  | some status => rfl

def registering (worker : Text) (tools : List ToolDefinition) (n : Nat) : List HubMove :=
  .connect worker tools :: List.replicate n (.register worker)

/-- A call with nothing in between is one way for its steps to go. -/
theorem connectWorker_runs {message : TaskResponse} (hkey : keyAccepted apiKey message = true)
    (hidle : s.hub.registration worker = .idle) :
    ∃ n, ((registering worker message.registeredTools n).map DaemonMove.hub ++ [DaemonMove.close worker]).foldl
      (step uuid timeoutMs) s = (s.connectWorker apiKey worker (.ok (some message))).2 := by
  have hconnect : s.hub.step (.connect worker message.registeredTools) =
      s.hub.setRegistration worker (.registering [] message.registeredTools) := by
    rw [Hub.step, hidle]
  obtain ⟨n, hn⟩ := Hub.runs_registerTools (s := s.hub.step (.connect worker message.registeredTools))
    (by rw [hconnect]; exact Hub.registration_setRegistration _)
  have hquiet : ∀ move ∈ registering worker message.registeredTools n, ∀ c w, move ≠ .disconnect c w := by
    intro move hmove c w heq
    rcases List.mem_cons.1 hmove with rfl | hmove
    · cases heq
    · cases (List.eq_of_mem_replicate hmove).symm.trans heq
  have hruns : s.hub.runs (registering worker message.registeredTools n) =
      (s.hub.setDaemon (s.hub.daemon.registerTools worker message.registeredTools).2).setRegistration worker
        (.closing message.registeredTools (s.hub.daemon.registerTools worker message.registeredTools).1) := by
    show (s.hub.step (.connect worker message.registeredTools)).runs _ = _
    rw [hn, hconnect]
    unfold Hub.setRegistration Hub.setDaemon
    dsimp only
    rw [Function.update_idem]
    rfl
  refine ⟨n, ?_⟩
  rw [List.foldl_append, hub_foldl _ hquiet, connectWorker_accepted hkey, hruns, List.foldl_cons, List.foldl_nil,
    step_close (Hub.registration_setRegistration _)]

end Switchboard

/-! ### Workers that are gone -/

/-- The disconnect still comes to this group. -/
def Cleanup.WillVisit (worker name : Text) : Cleanup → Prop
  | visiting w due _ _ | counting w _ _ due _ _ => w = worker ∧ name ∈ due
  | idle | clearing _ | clearingDef _ _ | done => False

namespace Registration

/-- No tool of the worker was registered. -/
def Outside : Registration → Prop
  | idle | rejected _ | registering [] _ => True
  | registering (_ :: _) _ | fetched .. | added .. | connected _ | disconnected => False

/-- What is to come can only be refused at the first tool. -/
def Sound : Registration → Prop
  | registering [] todo => (∃ tool ∈ todo.head?, tool.Blank) ∨ ∀ tool ∈ todo, ¬tool.Blank
  | registering (_ :: _) todo | fetched _ _ _ todo | added _ _ todo => ∀ tool ∈ todo, ¬tool.Blank
  | idle | connected _ | rejected _ | disconnected => True

end Registration

/-- The first tool is already refused, or none is. -/
def HubMove.Sound : HubMove → Prop
  | .connect _ tools => (∃ tool ∈ tools.head?, tool.Blank) ∨ ∀ tool ∈ tools, ¬tool.Blank
  | .register _ | .disconnect .. | .cleanup .. => True

namespace Hub

structure Tended (s : Hub) : Prop where
  sound : ∀ w, (s.registration w).Sound
  inside : ∀ w n, w ∈ s.daemon.members n → ¬(s.registration w).Outside
  leaving : ∀ w n, w ∈ s.daemon.members n → s.registration w = .disconnected →
    ∃ call, (s.cleanup call).WillVisit w n

variable {s : Hub} {worker : Text}

theorem tended_new : Tended new :=
  ⟨fun _ => trivial, fun _ _ h => (by cases h), fun _ _ h => (by cases h)⟩

/-- A change of the groups after which no group has more workers. -/
theorem Tended.setDaemon (h : Tended s) {d : Daemon} (hd : ∀ w n, w ∈ d.members n → w ∈ s.daemon.members n) :
    Tended (s.setDaemon d) :=
  ⟨h.sound, fun w n hw => h.inside w n (hd w n hw), fun w n hw => h.leaving w n (hd w n hw)⟩

theorem registration_apply (r : Registration) (w : Text) :
    (s.setRegistration worker r).registration w = if w = worker then r else s.registration w :=
  Function.update_apply ..

theorem Tended.setRegistration (h : Tended s) {r : Registration} (hsound : r.Sound)
    (hinside : ∀ n, worker ∈ s.daemon.members n → ¬r.Outside)
    (hleaving : r = .disconnected → s.registration worker = .disconnected) :
    Tended (s.setRegistration worker r) := by
  refine ⟨fun w => ?_, fun w n hw => ?_, fun w n hw hr => ?_⟩
  · rw [registration_apply]
    split
    · exact hsound
    · exact h.sound w
  · rw [registration_apply]
    split
    case isTrue heq => exact hinside n (heq ▸ hw)
    case isFalse => exact h.inside w n hw
  · rw [registration_apply] at hr
    split at hr
    case isTrue heq => exact heq ▸ h.leaving worker n (heq ▸ hw) (hleaving hr)
    case isFalse => exact h.leaving w n hw hr

/-- A disconnect goes on, and leaves out no group that has its worker. -/
theorem Tended.setCleanup (h : Tended s) {call : Nat} {c : Cleanup}
    (hvisit : ∀ w n, w ∈ s.daemon.members n → (s.cleanup call).WillVisit w n → c.WillVisit w n) :
    Tended (s.setCleanup call c) := by
  refine ⟨h.sound, h.inside, fun w n hw hr => ?_⟩
  obtain ⟨other, hother⟩ := h.leaving w n hw hr
  have hget : ∀ i, (s.setCleanup call c).cleanup i = if i = call then c else s.cleanup i :=
    fun i => Function.update_apply ..
  refine ⟨other, ?_⟩
  rw [hget]
  split
  case isTrue heq => exact hvisit w n hw (heq ▸ hother)
  case isFalse => exact hother

theorem members_entry_subset {d : Daemon} {name w n : Text} (h : w ∈ (d.entry name).2.members n) :
    w ∈ d.members n := by
  unfold Daemon.entry at h
  cases hname : d.toolGroups.get name with
  | some group => rwa [hname] at h
  | none =>
    rw [hname] at h
    dsimp only at h
    have hempty : ∀ g, (Function.update d.groups d.created WorkerGroup.new g).workers ⊆ (d.groups g).workers := by
      intro g
      by_cases hg : g = d.created
      · rw [hg, Function.update_self]
        exact List.nil_subset _
      · rw [Function.update_of_ne hg]
        exact List.Subset.refl _
    by_cases heq : n = name
    · rw [heq, Daemon.members_eq (Dict.get_set_self ..)] at h
      replace h : w ∈ (Function.update d.groups d.created WorkerGroup.new d.created).workers := h
      rw [Function.update_self] at h
      cases h
    · have hget : (d.toolGroups.set name d.created).get n = d.toolGroups.get n :=
        Dict.get_set_ne _ (Ne.symm heq) _
      cases hn : d.toolGroups.get n with
      | none =>
        rw [Daemon.members_eq_nil (hget.trans hn)] at h
        cases h
      | some g =>
        rw [Daemon.members_eq (hget.trans hn)] at h
        rw [Daemon.members_eq hn]
        exact hempty g h

theorem get_of_get_erase {m : Dict Text Nat} {name n : Text} {g : Nat} (h : (m.erase name).get n = some g) :
    m.get n = some g := by
  by_cases hn : n = name
  · rw [hn, Dict.get_erase_self] at h
    cases h
  · rwa [Dict.get_erase_ne _ hn] at h

theorem members_erase {d : Daemon} {name w n : Text}
    (h : w ∈ ({ d with toolGroups := d.toolGroups.erase name } : Daemon).members n) : w ∈ d.members n := by
  cases hn : (d.toolGroups.erase name).get n with
  | none =>
    rw [Daemon.members_eq_nil (d := { d with toolGroups := d.toolGroups.erase name }) hn] at h
    cases h
  | some g =>
    rw [Daemon.members_eq (d := { d with toolGroups := d.toolGroups.erase name }) hn] at h
    rw [Daemon.members_eq (get_of_get_erase hn)]
    exact h

theorem mem_changeGroup {d : Daemon} {group : Nat} {f : WorkerGroup → WorkerGroup} {w n : Text}
    (h : w ∈ (d.changeGroup group f).members n) :
    w ∈ d.members n ∨ d.toolGroups.get n = some group ∧ w ∈ (f (d.groups group)).workers := by
  cases hn : d.toolGroups.get n with
  | none =>
    rw [Daemon.members_eq_nil (d := d.changeGroup group f) hn] at h
    cases h
  | some g =>
    rw [Daemon.members_eq (d := d.changeGroup group f) hn, groups_changeGroup] at h
    rw [Daemon.members_eq hn]
    split at h
    case isTrue heq => exact .inr ⟨congrArg some heq, h⟩
    case isFalse => exact .inl h

theorem Tended.register (h : Tended s) (worker : Text) : Tended (s.register worker) := by
  have hsound := h.sound worker
  unfold Hub.register
  split
  case h_1 done hr =>
    exact h.setRegistration trivial (fun _ _ => id) fun heq => by cases heq
  case h_2 done tool todo hr =>
    rw [hr] at hsound
    split
    case isTrue hblank =>
      refine h.setRegistration trivial (fun n hn => ?_) fun heq => by cases heq
      have hinside := h.inside worker n hn
      rw [hr] at hinside
      cases done with
      | nil => exact absurd trivial hinside
      | cons first done => exact absurd hblank (hsound tool List.mem_cons_self)
    case isFalse hname =>
      have hnamed : ∀ t ∈ todo, ¬t.Blank := by
        cases done with
        | nil =>
          rcases hsound with ⟨t, ht, hblank⟩ | hnamed
          · cases ht
            exact absurd hblank hname
          · exact fun t ht => hnamed t (List.mem_cons_of_mem tool ht)
        | cons first done => exact fun t ht => hsound t (List.mem_cons_of_mem tool ht)
      exact (h.setDaemon fun w n => members_entry_subset).setRegistration hnamed (fun _ _ => id)
        fun heq => by cases heq
  case h_3 done tool group todo hr =>
    rw [hr] at hsound
    -- Only the worker itself is new in a group, and its registration has moved on.
    have hmembers : ∀ w n, w ∈ (s.daemon.changeGroup group (.add worker)).members n →
        w ∈ s.daemon.members n ∨ w = worker := by
      intro w n hw
      rcases mem_changeGroup hw with hw | ⟨hn, hw⟩
      · exact .inl hw
      · rcases List.mem_append.1 hw with hw | hw
        · exact .inl (Daemon.members_eq hn ▸ hw)
        · exact .inr (List.mem_singleton.1 hw)
    refine ⟨fun w => ?_, fun w n hw => ?_, fun w n hw hdisconnected => ?_⟩
    · rw [registration_apply]
      split
      · exact hsound
      · exact h.sound w
    · rw [registration_apply]
      split
      case isTrue => exact id
      case isFalse hne => exact h.inside w n ((hmembers w n hw).resolve_right hne)
    · rw [registration_apply] at hdisconnected
      split at hdisconnected
      case isTrue => cases hdisconnected
      case isFalse hne => exact h.leaving w n ((hmembers w n hw).resolve_right hne) hdisconnected
  case h_4 done tool todo hr =>
    rw [hr] at hsound
    have hnext : (Registration.registering (done ++ [tool]) todo).Sound ∧
        ¬(Registration.registering (done ++ [tool]) todo).Outside := by
      cases done with
      | nil => exact ⟨hsound, id⟩
      | cons first done => exact ⟨hsound, id⟩
    have hdefs : Tended (s.setDaemon { s.daemon with toolDefs := s.daemon.toolDefs.set tool.name tool }) :=
      h.setDaemon fun _ _ hw => hw
    exact hdefs.setRegistration hnext.1 (fun _ _ => hnext.2) fun heq => by cases heq
  all_goals exact h

theorem mem_keys_of_mem_members {d : Daemon} {w n : Text} (h : w ∈ d.members n) : n ∈ d.toolGroups.keys := by
  cases hn : d.toolGroups.get n with
  | none =>
    rw [Daemon.members_eq_nil hn] at h
    cases h
  | some g => exact List.mem_map_of_mem (Dict.get_eq_some_iff.1 hn)

theorem Tended.disconnect (h : Tended s) (call : Nat) (worker : Text) : Tended (s.disconnect call worker) := by
  have leave (hidle : s.cleanup call = .idle) : Tended ((s.setRegistration worker .disconnected).setCleanup call
      (.visiting worker s.daemon.toolGroups.keys [] [])) := by
    have hget : ∀ i, ((s.setRegistration worker .disconnected).setCleanup call
        (.visiting worker s.daemon.toolGroups.keys [] [])).cleanup i =
          if i = call then .visiting worker s.daemon.toolGroups.keys [] [] else s.cleanup i :=
      fun i => Function.update_apply ..
    refine ⟨fun w => ?_, fun w n hw => ?_, fun w n hw hr => ?_⟩
    · show ((s.setRegistration worker .disconnected).registration w).Sound
      rw [registration_apply]
      split
      · exact trivial
      · exact h.sound w
    · show ¬((s.setRegistration worker .disconnected).registration w).Outside
      rw [registration_apply]
      split
      · exact id
      · exact h.inside w n hw
    · replace hr : (s.setRegistration worker .disconnected).registration w = .disconnected := hr
      rw [registration_apply] at hr
      split at hr
      case isTrue heq =>
        refine ⟨call, ?_⟩
        rw [hget, if_pos rfl]
        exact ⟨heq.symm, mem_keys_of_mem_members hw⟩
      case isFalse =>
        obtain ⟨other, hother⟩ := h.leaving w n hw hr
        refine ⟨other, ?_⟩
        rw [hget, if_neg fun heq => by rw [heq, hidle] at hother; exact hother]
        exact hother
  unfold Hub.disconnect
  split
  case h_1 hidle _ => exact leave hidle
  case h_2 hidle _ => exact leave hidle
  case h_3 => exact h

theorem Tended.cleanupStep (h : Tended s) (call : Nat) (entry : Option Text) :
    Tended (s.cleanupStep call entry) := by
  unfold Hub.cleanupStep
  split
  case h_1 worker due seen emptied hc =>
    split
    case h_1 name =>
      split
      case h_1 group hg =>
        split
        case isTrue => exact h
        case isFalse =>
          have hmembers : ∀ w n, w ∈ (s.daemon.changeGroup group (.removeWorker worker)).members n →
              w ∈ s.daemon.members n ∧ (n = name → w ≠ worker) := by
            intro w n hw
            cases hn : s.daemon.toolGroups.get n with
            | none =>
              rw [Daemon.members_eq_nil (d := s.daemon.changeGroup group (.removeWorker worker)) hn] at hw
              cases hw
            | some g =>
              rw [Daemon.members_eq (d := s.daemon.changeGroup group (.removeWorker worker)) hn,
                groups_changeGroup] at hw
              rw [Daemon.members_eq hn]
              split at hw
              case isTrue heq =>
                obtain ⟨hw, hne⟩ := List.mem_filter.1 hw
                exact ⟨heq ▸ hw, fun _ => of_decide_eq_true hne⟩
              case isFalse hne => exact ⟨hw, fun heq => absurd (Option.some.inj (hn.symm.trans (heq ▸ hg))) hne⟩
          refine (h.setDaemon fun w n hw => (hmembers w n hw).1).setCleanup fun w n hw hvisit => ?_
          replace hvisit : (s.cleanup call).WillVisit w n := hvisit
          rw [hc] at hvisit
          obtain ⟨rfl, hdue⟩ := hvisit
          have hne : n ≠ name := fun heq => (hmembers worker n hw).2 heq rfl
          exact ⟨rfl, (List.mem_erase_of_ne hne).2 hdue⟩
      case h_2 => exact h
    case h_2 =>
      split
      case isTrue => exact h
      case isFalse hnone =>
        refine h.setCleanup fun w n hw hvisit => ?_
        rw [hc] at hvisit
        refine absurd (List.any_eq_true.2 ⟨n, hvisit.2, ?_⟩) hnone
        rw [Dict.contains, Option.isSome_iff_ne_none]
        intro hget
        rw [Daemon.members_eq_nil hget] at hw
        cases hw
  case h_2 worker name group due seen emptied hc =>
    split
    all_goals exact h.setCleanup fun w n hw hvisit => by rwa [hc] at hvisit
  case h_3 hc => exact h.setCleanup fun w n hw hvisit => by rw [hc] at hvisit; exact hvisit
  case h_4 name emptied hc =>
    have hinv : Tended (s.setDaemon { s.daemon with toolGroups := s.daemon.toolGroups.erase name }) :=
      h.setDaemon fun _ _ => members_erase
    exact hinv.setCleanup fun w n hw hvisit => by
      replace hvisit : (s.cleanup call).WillVisit w n := hvisit
      rw [hc] at hvisit
      exact hvisit
  case h_5 name emptied hc =>
    have hinv : Tended (s.setDaemon { s.daemon with toolDefs := s.daemon.toolDefs.erase name }) :=
      h.setDaemon fun _ _ hw => hw
    exact hinv.setCleanup fun w n hw hvisit => by
      replace hvisit : (s.cleanup call).WillVisit w n := hvisit
      rw [hc] at hvisit
      exact hvisit
  case h_6 => exact h
  case h_7 => exact h

theorem Tended.step (h : Tended s) {move : HubMove} (hsound : move.Sound) : Tended (s.step move) := by
  cases move with
  | connect worker tools =>
    unfold Hub.step
    dsimp only
    split
    case h_1 hr =>
      refine h.setRegistration hsound (fun n hn => ?_) fun heq => by cases heq
      have hinside := h.inside worker n hn
      rw [hr] at hinside
      exact absurd trivial hinside
    case h_2 => exact h
  | register worker => exact h.register worker
  | disconnect call worker => exact h.disconnect call worker
  | cleanup call entry => exact h.cleanupStep call entry

end Hub

namespace Switchboard

variable {uuid : Nat → Text} {timeoutMs : Nat} {s t : Switchboard}

/-- The registrations and the disconnects stand still, and no group has other workers. -/
structure SameHub (s t : Switchboard) : Prop where
  registration : t.hub.registration = s.hub.registration
  cleanup : t.hub.cleanup = s.hub.cleanup
  members : ∀ n, t.hub.daemon.members n = s.hub.daemon.members n
  owned : s.hub.daemon.Owned → t.hub.daemon.Owned
  closed : t.closed = s.closed

theorem SameHub.of_eq (hhub : t.hub = s.hub) (hclosed : t.closed = s.closed) : SameHub s t :=
  ⟨by rw [hhub], by rw [hhub], fun _ => by rw [hhub], fun h => hhub ▸ h, hclosed⟩

theorem SameHub.trans {u : Switchboard} (h : SameHub s t) (h' : SameHub t u) : SameHub s u :=
  ⟨h'.registration.trans h.registration, h'.cleanup.trans h.cleanup, fun n => (h'.members n).trans (h.members n),
    fun howned => h'.owned (h.owned howned), h'.closed.trans h.closed⟩

theorem SameHub.goTo (h : SameHub s t) (i : Nat) (x : Invocation) : SameHub s (t.goTo i x) :=
  ⟨h.registration, h.cleanup, h.members, h.owned, h.closed⟩

theorem sameHub_release (task : Text) (value : Oneshot) : SameHub s (s.release task value) := by
  unfold release
  split
  · exact .of_eq rfl rfl
  · exact .of_eq rfl rfl

theorem sameHub_fetchAdd (group : Nat) :
    SameHub s { s with hub := s.hub.setDaemon (s.hub.daemon.changeGroup group .fetchAdd) } := by
  refine ⟨rfl, rfl, fun n => ?_, fun h => h.changeGroup group _, rfl⟩
  show (s.hub.daemon.changeGroup group .fetchAdd).members n = s.hub.daemon.members n
  cases hn : s.hub.daemon.toolGroups.get n with
  | none => rw [Daemon.members_eq_nil hn, Daemon.members_eq_nil (d := s.hub.daemon.changeGroup group .fetchAdd) hn]
  | some g =>
    rw [Daemon.members_eq hn, Daemon.members_eq (d := s.hub.daemon.changeGroup group .fetchAdd) hn,
      Hub.groups_changeGroup]
    split
    case isTrue heq =>
      rw [heq]
      rfl
    case isFalse => rfl

theorem sameHub_advance (i : Nat) (elapsed : Bool) (durationUs : Nat) :
    SameHub s (s.advance uuid timeoutMs i elapsed durationUs) := by
  have hsame : SameHub s s := .of_eq rfl rfl
  unfold advance
  split
  case h_3 =>
    split
    · exact (sameHub_fetchAdd _).goTo i _
    · exact .of_eq rfl rfl
  case h_8 => exact (sameHub_release ..).goTo i _
  all_goals
    repeat' split
    all_goals exact .of_eq rfl rfl

theorem hub_follow (hub : Hub) (move : HubMove) :
    (s.follow hub move).hub = hub ∧ (s.follow hub move).closed = s.closed := by
  unfold follow
  split
  · split
    · exact ⟨rfl, rfl⟩
    · exact ⟨rfl, rfl⟩
  · exact ⟨rfl, rfl⟩

/-- A step is one of the hub, or leaves it alone and closes at most one channel. -/
theorem hub_step (uuid : Nat → Text) (timeoutMs : Nat) (s : Switchboard) (move : DaemonMove) :
    (∃ m, move = .hub m ∧ (step uuid timeoutMs s move).hub = s.hub.step m ∧
      (step uuid timeoutMs s move).closed = s.closed) ∨
    (∃ worker, move = .close worker ∧ s.closable worker = true ∧
      step uuid timeoutMs s move = { s with closed := Function.update s.closed worker true }) ∨
    SameHub s (step uuid timeoutMs s move) := by
  have hsame : SameHub s s := .of_eq rfl rfl
  cases move with
  | hub m => exact .inl ⟨m, rfl, hub_follow ..⟩
  | call i req =>
    refine .inr (.inr ?_)
    unfold step
    dsimp only
    split
    · exact hsame.goTo i _
    · exact hsame
  | advance i elapsed durationUs => exact .inr (.inr (sameHub_advance ..))
  | cancel i =>
    refine .inr (.inr ?_)
    unfold step
    dsimp only
    split
    · exact hsame.goTo i _
    · exact hsame
  | respond worker r =>
    refine .inr (.inr ?_)
    unfold step
    dsimp only
    split
    · exact sameHub_release ..
    · exact hsame
  | takeTask worker => exact .inr (.inr (.of_eq rfl rfl))
  | close worker =>
    cases hclosable : s.closable worker with
    | false => exact .inr (.inr (.of_eq (by rw [step, hclosable]; rfl) (by rw [step, hclosable]; rfl)))
    | true => exact .inr (.inl ⟨worker, rfl, hclosable, by rw [step, hclosable]; rfl⟩)
  | sweep c =>
    refine .inr (.inr ?_)
    unfold step sweepEntry
    dsimp only
    split
    · exact .of_eq rfl rfl
    · exact hsame
  | failTask c task =>
    refine .inr (.inr ?_)
    unfold step failTask
    dsimp only
    split
    · split
      · refine SameHub.trans ?_ (sameHub_release ..)
        exact .of_eq rfl rfl
      · exact hsame
    · exact hsame

end Switchboard

/-- A registration never goes back. -/
def Registration.stage : Registration → Nat
  | idle => 0
  | registering .. | fetched .. | added .. => 1
  | connected _ => 2
  | disconnected | rejected _ => 3

namespace Hub

variable {s : Hub} {worker w n : Text}

theorem stage_setRegistration {r : Registration} (h : (s.registration worker).stage ≤ r.stage) (w : Text) :
    (s.registration w).stage ≤ ((s.setRegistration worker r).registration w).stage := by
  rw [registration_apply]
  split
  case isTrue heq => rwa [heq]
  case isFalse => exact Nat.le_refl _

theorem stage_step (move : HubMove) (w : Text) :
    (s.registration w).stage ≤ ((s.step move).registration w).stage := by
  have hstays : (s.registration w).stage ≤ (s.registration w).stage := Nat.le_refl _
  cases move with
  | connect worker tools =>
    unfold step
    dsimp only
    split
    case h_1 hr => exact stage_setRegistration (by rw [hr]; exact Nat.zero_le _) w
    case h_2 => exact hstays
  | register worker =>
    unfold step register
    dsimp only
    split
    case h_1 hr => exact stage_setRegistration (by rw [hr]; exact Nat.le_of_ble_eq_true rfl) w
    case h_2 hr =>
      split
      · exact stage_setRegistration (by rw [hr]; exact Nat.le_of_ble_eq_true rfl) w
      · exact stage_setRegistration (s := s.setDaemon _) (by rw [registration_setDaemon, hr]; exact Nat.le_of_ble_eq_true rfl) w
    case h_3 hr => exact stage_setRegistration (s := s.setDaemon _) (by rw [registration_setDaemon, hr]; exact Nat.le_of_ble_eq_true rfl) w
    case h_4 hr => exact stage_setRegistration (s := s.setDaemon _) (by rw [registration_setDaemon, hr]; exact Nat.le_of_ble_eq_true rfl) w
    all_goals exact hstays
  | disconnect call worker =>
    unfold step disconnect
    dsimp only
    split
    case h_1 hr => exact stage_setRegistration (s := s) (by rw [hr]; exact Nat.le_of_ble_eq_true rfl) w
    case h_2 hr => exact stage_setRegistration (s := s) (Nat.le_of_eq (congrArg Registration.stage hr)) w
    case h_3 => exact hstays
  | cleanup call entry =>
    have hsame : (s.cleanupStep call entry).registration = s.registration := by
      unfold cleanupStep
      repeat' split
      all_goals rfl
    show _ ≤ ((s.cleanupStep call entry).registration w).stage
    rw [hsame]

/-- Whoever is in a group has begun a registration. -/
structure Ready (s : Hub) : Prop where
  owned : s.daemon.Owned
  begun : ∀ w n, w ∈ s.daemon.members n → s.registration w ≠ .idle

theorem Ready.setDaemon (h : Ready s) {d : Daemon} (howned : d.Owned)
    (hd : ∀ w n, w ∈ d.members n → w ∈ s.daemon.members n) : Ready (s.setDaemon d) :=
  ⟨howned, fun w n hw => h.begun w n (hd w n hw)⟩

theorem Ready.setRegistration (h : Ready s) {r : Registration} (hr : r ≠ .idle) :
    Ready (s.setRegistration worker r) := by
  refine ⟨h.owned, fun w n hw => ?_⟩
  rw [registration_apply]
  split
  · exact hr
  · exact h.begun w n hw

theorem Ready.step (h : Ready s) (move : HubMove) : Ready (s.step move) := by
  cases move with
  | connect worker tools =>
    unfold Hub.step
    dsimp only
    split
    · exact h.setRegistration nofun
    · exact h
  | register worker =>
    unfold Hub.step register
    dsimp only
    split
    case h_1 => exact h.setRegistration nofun
    case h_2 done tool todo hr =>
      split
      · exact h.setRegistration nofun
      · exact (h.setDaemon (h.owned.entry tool.name) fun _ _ => members_entry_subset).setRegistration nofun
    case h_3 done tool group todo hr =>
      refine ⟨h.owned.changeGroup group _, fun w n hw => ?_⟩
      rw [registration_apply]
      split
      case isTrue => exact nofun
      case isFalse hne =>
        rcases mem_changeGroup hw with hw | ⟨hn, hw⟩
        · exact h.begun w n hw
        · rcases List.mem_append.1 hw with hw | hw
          · exact h.begun w n (Daemon.members_eq hn ▸ hw)
          · exact absurd (List.mem_singleton.1 hw) hne
    case h_4 done tool todo hr =>
      have hdefs : Ready (s.setDaemon { s.daemon with toolDefs := s.daemon.toolDefs.set tool.name tool }) :=
        h.setDaemon ⟨h.owned.distinct, h.owned.fresh⟩ fun _ _ hw => hw
      exact hdefs.setRegistration nofun
    all_goals exact h
  | disconnect call worker =>
    unfold Hub.step disconnect
    dsimp only
    have hleft : Ready (s.setRegistration worker .disconnected) := h.setRegistration nofun
    split
    case h_3 => exact h
    all_goals exact ⟨hleft.owned, hleft.begun⟩
  | cleanup call entry =>
    unfold Hub.step cleanupStep
    dsimp only
    split
    case h_1 worker due seen emptied hc =>
      split
      case h_1 name =>
        split
        case h_1 group hg =>
          split
          case isTrue => exact h
          case isFalse =>
            refine ⟨h.owned.changeGroup group _, fun w n hw => h.begun w n ?_⟩
            rcases mem_changeGroup hw with hw | ⟨hn, hw⟩
            · exact hw
            · exact Daemon.members_eq hn ▸ List.mem_of_mem_filter hw
        case h_2 => exact h
      case h_2 =>
        split
        · exact h
        · exact ⟨h.owned, h.begun⟩
    case h_2 =>
      split
      all_goals exact ⟨h.owned, h.begun⟩
    case h_4 name emptied hc =>
      refine ⟨⟨fun n n' g hn hn' => ?_, fun n g hn => ?_⟩, fun w n hw => h.begun w n (members_erase hw)⟩
      · exact h.owned.distinct n n' g (get_of_get_erase hn) (get_of_get_erase hn')
      · exact h.owned.fresh n g (get_of_get_erase hn)
    case h_6 => exact h
    case h_7 => exact h
    all_goals exact ⟨⟨h.owned.distinct, h.owned.fresh⟩, h.begun⟩

end Hub

namespace Switchboard

variable {uuid : Nat → Text} {timeoutMs : Nat} {s t : Switchboard}

/-- No group has a worker whose channel is closed and which no disconnect will remove. -/
def NoneLeft (s : Switchboard) : Prop :=
  ∀ worker name, worker ∈ s.hub.daemon.members name → s.closed worker = true →
    ∃ call, (s.hub.cleanup call).WillVisit worker name

/-- Only a channel whose worker is past its registration is closed. -/
def ClosedLate (s : Switchboard) : Prop := ∀ w, s.closed w = true → 3 ≤ (s.hub.registration w).stage

theorem stage_of_closable {w : Text} (h : s.closable w = true) : 3 ≤ (s.hub.registration w).stage := by
  unfold closable at h
  split at h
  case h_1 hr => exact Nat.le_of_eq (by rw [hr]; rfl)
  case h_2 hr => exact Nat.le_of_eq (by rw [hr]; rfl)
  case h_3 => cases h

theorem ClosedLate.step (h : ClosedLate s) (move : DaemonMove) : ClosedLate (step uuid timeoutMs s move) := by
  intro w hw
  rcases hub_step uuid timeoutMs s move with
    ⟨m, rfl, hhub, hclosed⟩ | ⟨worker, rfl, hclosable, heq⟩ | hsame
  · rw [hhub]
    rw [hclosed] at hw
    exact (h w hw).trans (Hub.stage_step m w)
  · rw [heq] at hw ⊢
    replace hw : Function.update s.closed worker true w = true := hw
    rw [Function.update_apply] at hw
    split at hw
    case isTrue hworker =>
      rw [hworker]
      exact stage_of_closable hclosable
    case isFalse => exact h w hw
  · rw [hsame.registration]
    exact h w (hsame.closed ▸ hw)

theorem Tended.sameHub (h : s.hub.Tended) (hsame : SameHub s t) : t.hub.Tended := by
  refine ⟨fun w => ?_, fun w n hw => ?_, fun w n hw hr => ?_⟩
  · rw [hsame.registration]
    exact h.sound w
  · rw [hsame.members] at hw
    rw [hsame.registration]
    exact h.inside w n hw
  · rw [hsame.members] at hw
    rw [hsame.registration] at hr
    rw [hsame.cleanup]
    exact h.leaving w n hw hr

theorem tended_step (h : s.hub.Tended) {move : DaemonMove} (hsound : ∀ m, move = .hub m → m.Sound) :
    (step uuid timeoutMs s move).hub.Tended := by
  rcases hub_step uuid timeoutMs s move with
    ⟨m, hm, hhub, -⟩ | ⟨worker, -, -, heq⟩ | hsame
  · rw [hhub]
    exact h.step (hsound m hm)
  · rw [heq]
    exact h
  · exact Tended.sameHub h hsame

theorem tended_run (uuid : Nat → Text) (timeoutMs : Nat) {moves : List DaemonMove} (hsound : ∀ m, .hub m ∈ moves → m.Sound) :
    (run uuid timeoutMs moves).hub.Tended := by
  induction moves using List.reverseRecOn with
  | nil => exact Hub.tended_new
  | append_singleton moves move ih =>
    rw [run_append]
    refine tended_step (ih fun m hm => hsound m (List.mem_append_left _ hm)) fun m hm => ?_
    exact hsound m (List.mem_append_right _ (hm ▸ List.mem_singleton_self _))

theorem closedLate_run (uuid : Nat → Text) (timeoutMs : Nat) (moves : List DaemonMove) : ClosedLate (run uuid timeoutMs moves) :=
  Runs.always_of_step (fun _ move h => h.step move) (fun _ h => Bool.noConfusion h) moves

theorem noneLeft_run {moves : List DaemonMove} (hsound : ∀ m, .hub m ∈ moves → m.Sound) :
    NoneLeft (run uuid timeoutMs moves) := by
  intro w n hw hclosed
  have h := tended_run uuid timeoutMs hsound
  have hstage := closedLate_run uuid timeoutMs moves w hclosed
  refine h.leaving w n hw ?_
  have hinside := h.inside w n hw
  cases hr : (run uuid timeoutMs moves).hub.registration w with
  | disconnected => rfl
  | rejected status =>
    rw [hr] at hinside
    exact absurd trivial hinside
  | idle | registering | fetched | added | connected =>
    rw [hr] at hstage
    exact absurd hstage (Nat.not_le_of_lt (Nat.lt_of_le_of_lt (Nat.le_of_ble_eq_true rfl) (Nat.lt_succ_self 2)))

theorem ready_step (h : s.hub.Ready) (move : DaemonMove) : (step uuid timeoutMs s move).hub.Ready := by
  rcases hub_step uuid timeoutMs s move with
    ⟨m, -, hhub, -⟩ | ⟨worker, -, -, heq⟩ | hsame
  · rw [hhub]
    exact h.step m
  · rw [heq]
    exact h
  · refine ⟨hsame.owned h.owned, fun w n hw => ?_⟩
    rw [hsame.members] at hw
    rw [hsame.registration]
    exact h.begun w n hw

theorem ready_run (uuid : Nat → Text) (timeoutMs : Nat) (moves : List DaemonMove) : (run uuid timeoutMs moves).hub.Ready := by
  induction moves using List.reverseRecOn with
  | nil => exact ⟨Daemon.owned_new, fun _ _ h => (by cases h)⟩
  | append_singleton moves move ih =>
    rw [run_append]
    exact ready_step ih move

end Switchboard

/-- A registration is all or nothing exactly if the message is refused before the loop, or the first
tool is, or no name is blank and no two are the same; and if a run has no message with a blank name
behind another, every worker left in a group that can no longer be reached is still to be removed. The
states of a run are as the first part wants them. -/
theorem registration_all_or_nothing (uuid : Nat → Text) (timeoutMs : Nat) :
    (∀ (apiKey : Option Text) (worker : Text) (first : Except Unit (Option TaskResponse)) (s : Switchboard),
      s.hub.daemon.Owned → (∀ n, worker ∉ s.hub.daemon.members n) →
        (AllOrNothing first worker s (s.connectWorker apiKey worker first) ↔ Registrable apiKey first)) ∧
    (∀ moves : List DaemonMove, (Switchboard.run uuid timeoutMs moves).hub.daemon.Owned ∧
      ∀ worker, (Switchboard.run uuid timeoutMs moves).hub.registration worker = .idle →
        ∀ n, worker ∉ (Switchboard.run uuid timeoutMs moves).hub.daemon.members n) ∧
    ∀ moves : List DaemonMove, (∀ m, DaemonMove.hub m ∈ moves → m.Sound) →
      (Switchboard.run uuid timeoutMs moves).NoneLeft := by
  refine ⟨fun apiKey worker first s howned hfresh => allOrNothing_iff apiKey worker first howned hfresh,
    fun moves => ?_, fun moves hsound => Switchboard.noneLeft_run hsound⟩
  have hready := Switchboard.ready_run uuid timeoutMs moves
  exact ⟨hready.owned, fun worker hidle n hn => hready.begun worker n hn hidle⟩

def registrationOf (tools : List ToolDefinition) : TaskResponse := ⟨[], false, [], [], tools, []⟩

def registersTwo : List DaemonMove :=
  (Switchboard.registering "w" [Hub.plainTool "a", Hub.plainTool "b"] 7).map DaemonMove.hub

theorem registration_of_two :
    AllOrNothing (.ok (some (registrationOf [Hub.plainTool "a", Hub.plainTool "b"]))) "w" Switchboard.new
      (Switchboard.new.connectWorker none "w"
        (.ok (some (registrationOf [Hub.plainTool "a", Hub.plainTool "b"])))) ∧
    (Switchboard.run (fun _ => []) 0 registersTwo).NoneLeft := by
  refine ⟨((registration_all_or_nothing (fun _ => []) 0).1 none "w" _ Switchboard.new Daemon.owned_new
    (fun _ h => (by cases h))).2 ?_, (registration_all_or_nothing (fun _ => []) 0).2.2 registersTwo ?_⟩
  · intro message hmessage _
    cases hmessage
    exact .inr ⟨by decide +kernel, by decide +kernel⟩
  · intro m hm
    obtain ⟨move, hmove, heq⟩ := List.mem_map.1 hm
    cases heq
    rcases List.mem_cons.1 hmove with rfl | hmove
    · exact .inr (by decide +kernel)
    · rw [List.eq_of_mem_replicate hmove]
      exact trivial

/-- A worker with a blank name behind another, and the moves of its call. -/
def registersBlank : List DaemonMove :=
  (Switchboard.registering "w" [Hub.plainTool "t", Hub.plainTool ""] 4).map DaemonMove.hub ++ [.close "w"]

/-- The call fails, and its worker stays in the group; a tool that is listed twice has its worker
twice. -/
theorem registration_partial :
    (Switchboard.new.connectWorker none "w"
      (.ok (some (registrationOf [Hub.plainTool "t", Hub.plainTool ""])))).1 =
        some (.status (.invalidArgument "tool name must not be empty")) ∧
    ¬AllOrNothing (.ok (some (registrationOf [Hub.plainTool "t", Hub.plainTool ""]))) "w" Switchboard.new
      (Switchboard.new.connectWorker none "w"
        (.ok (some (registrationOf [Hub.plainTool "t", Hub.plainTool ""])))) ∧
    ¬AllOrNothing (.ok (some (registrationOf [Hub.plainTool "t", Hub.plainTool "t"]))) "w" Switchboard.new
      (Switchboard.new.connectWorker none "w"
        (.ok (some (registrationOf [Hub.plainTool "t", Hub.plainTool "t"])))) ∧
    ¬(Switchboard.run (fun _ => []) 0 registersBlank).NoneLeft := by
  refine ⟨by decide +kernel, fun h => ?_, fun h => ?_, fun h => ?_⟩
  · have hmembers := (h.nothing (by decide +kernel)).1.2.1 "t"
    exact absurd hmembers (by decide +kernel)
  · obtain ⟨message, hmessage, hall⟩ := h.all (by decide +kernel)
    cases hmessage
    exact absurd (hall (Hub.plainTool "t") List.mem_cons_self).1 (by decide +kernel)
  · obtain ⟨call, hvisit⟩ := h "w" "t" (by decide +kernel) (by decide +kernel)
    have hidle : (Switchboard.run (fun _ => []) 0 registersBlank).hub.cleanup = fun _ => .idle := rfl
    rw [hidle] at hvisit
    exact hvisit

end Tinypipe
