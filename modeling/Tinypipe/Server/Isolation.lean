import Tinypipe.Server.Publish
import Tinypipe.Vm.Nesting

/-! What a published route gives to the execution of its graph (`tinypipe-server/src/engine.rs`):
nothing of the headers, but the environment of the process, whoever asks. -/

namespace Tinypipe

open Lib Lib.Stateful

/-! ### Environments -/

/-- A `StaticEnvProvider`, or the `OsEnvProvider` with the variables of its process. -/
inductive EnvProvider where
  | static (vars : Dict Text Text)
  | os (vars : Dict Text Text)

structure Env where
  providers : List EnvProvider
  /-- The innermost module last. -/
  scopes : List Text

def EnvProvider.get (key : Text) : EnvProvider → Option Text
  | static vars | os vars => vars.get key

/-- The first provider that has the key wins. -/
def Env.lookup (env : Env) (key : Text) : Option Text := env.providers.findSome? (EnvProvider.get key)

/-- `build_env`, for a request without overrides. -/
def buildEnv (os : Dict Text Text) : Env := ⟨[.static Dict.empty, .os os], []⟩

/-! ### Executions -/

def ctxFromInputs : Json → Context
  | .object m => m.foldl (fun ctx e => ctx.set e.1 (jsonToTp e.2)) Context.new
  | _ => Context.new

def applyTimeout (plan : CompiledPlan) : Option Nat → CompiledPlan
  | some 0 | none => plan
  | some ms => { plan with metadata := { plan.metadata with maxExecutionTimeMs := ms } }

/-- What is executed, on what, and in which environment. -/
structure Given where
  plan : CompiledPlan
  context : Context
  env : Env

def Executed.given (os : Dict Text Text) (e : Executed) : Given :=
  ⟨applyTimeout e.plan e.timeout, ctxFromInputs e.inputs, buildEnv os⟩

def Given.outcome (tools : Env → Registry) (l : Given) : Except ExecutionError ExecutionOutcome :=
  (executeWith ⟨l.plan, tools l.env, 0⟩ l.context PausePolicy.default).result

/-- What an execution gets from its process: the variables, a fresh id, the time it takes, and
how the writes of the audit go, before it and behind it. -/
structure Process where
  os : Dict Text Text
  uuid : Text
  durationUs : Nat
  saveRunning : Except Text Unit
  saveOutcome : Except Text Unit

def completedJson (p : Process) (result : ExecutionResult) : Json :=
  .object [("duration_us", .number (.posInt p.durationUs)), ("execution_id", .string p.uuid),
    ("nodes_executed", .number (.posInt result.nodeCount)),
    ("output", (result.output.map tpToJson).getD .null), ("status", .string "completed")]

def pausedJson (p : Process) (cp : Checkpoint) : Json :=
  .object [("execution_id", .string p.uuid),
    ("message", .string (("paused at " : Text) ++ Text.ofNat cp.nodeCount ++
      (" nodes — POST /api/executions/" : Text) ++ p.uuid ++ ("/resume" : Text))),
    ("status", .string "paused")]

def failedJson (p : Process) (e : ExecutionError) : Json :=
  .object [("error", .string e.text), ("execution_id", .string p.uuid), ("status", .string "failed")]

/-- `run_execution`, of a published route. -/
def runExecution (tools : Env → Registry) (p : Process) : Runner := fun plan inputs timeout =>
  let l : Given := ⟨applyTimeout plan timeout, ctxFromInputs inputs, buildEnv p.os⟩
  .ok (match p.saveRunning with
    | .error e => .error (("save execution: " : Text) ++ e)
    | .ok () =>
      let outcome := match l.outcome tools with
        | .ok (.completed result) => completedJson p result
        | .ok (.paused cp) => pausedJson p cp
        | .error e => failedJson p e
      match p.saveOutcome with
      | .error e => .error (("save execution: " : Text) ++ e)
      | .ok () => .ok outcome)

/-- `require_token` -/
def requireToken (token : Option Text) (headers : List (Text × Text)) : Bool :=
  match token with
  | none => false
  | some expected =>
    ((headers.find? fun h => h.1 = ("authorization" : Text)).bind fun h =>
      Text.stripPrefix "Bearer " h.2) = some expected

/-! ### What a request executes -/

def PublishEvent.executed? : PublishEvent → Option Executed
  | executed e => some e
  | _ => none

def AppState.executions (s : AppState) : List Executed := s.history.filterMap PublishEvent.executed?

/-- What the handler of a request hands to the executor, and what comes of it. -/
def launches (tools : Env → Registry) (p : Process) (req : Request) (s : AppState) :
    List (Given × Except ExecutionError ExecutionOutcome) :=
  match p.saveRunning with
  | .error _ => []
  | .ok () =>
    (finalState ((publish (runExecution tools p) req).run Script.noFaults { s with history := [] })).executions.map
      fun e => (e.given p.os, (e.given p.os).outcome tools)

/-- The route that a request is for. -/
def routeFor (req : Request) (s : AppState) : Option RouteConfig :=
  (reqMethod req.method).bind fun m => s.routes.get (routeKey (pathNoSlash req) m)

/-- What is executed for a request: its route is published, its inputs are read, the cache has no
response, and the plan is loaded. -/
def admitted (req : Request) (s : AppState) : Option Admitted :=
  if req.method = ("OPTIONS" : Text) then none
  else (routeFor req s).bind fun rc =>
    match requestInputs req with
    | .error _ => none
    | .ok inputs =>
      if 0 < rc.cacheTtl ∧ (s.lookup req.method (pathNoSlash req) inputs
          fun body => cacheResponse 200 body true).isSome then none
      else (s.plans.get rc.graphId).map fun plan => ⟨rc, inputs, plan, s.refreshes⟩

section Runs

variable {α β : Type} {s : AppState} {req : Request} {path : Text}

/-- The script comes to `r`, and executes nothing. -/
def Idle (x : PublishM α) (s : AppState) (r : α → AppState → Prop) : Prop :=
  ∃ a t, x.run Script.noFaults s = .ok a t ∧ t.executions = s.executions ∧ r a t

theorem Idle.map {x : PublishM α} {r : α → AppState → Prop} (hx : Idle x s r) {f : α → β}
    {r' : β → AppState → Prop} (hr : ∀ a t, r a t → r' (f a) t) : Idle (f <$> x) s r' := by
  obtain ⟨a, t, ht, hexecutions, ha⟩ := hx
  refine ⟨f a, t, ?_, hexecutions, hr a t ha⟩
  show (x >>= fun a => pure (f a)).run Script.noFaults s = _
  rw [Script.run_bind, bind_of_ok _ ht]
  rfl

theorem run_read_bind (label : PublishStep) (f : AppState → α) (k : α → PublishM β) :
    (PublishM.read label f >>= k).run Script.noFaults s = (k (f s)).run Script.noFaults s := rfl

theorem run_write_bind (label : PublishStep) (w : AppState → AppState) (k : Unit → PublishM β) :
    (PublishM.write label w >>= k).run Script.noFaults s = (k ()).run Script.noFaults (w s) := rfl

theorem idle_read_bind {label : PublishStep} {f : AppState → α} {k : α → PublishM β}
    {r : β → AppState → Prop} (h : Idle (k (f s)) s r) : Idle (PublishM.read label f >>= k) s r := h

theorem idle_pure {a : α} {r : α → AppState → Prop} (h : r a s) : Idle (pure a) s r := ⟨a, s, rfl, rfl, h⟩

theorem idle_answer (a : Answer) : Idle (answer a) s fun _ _ => True := ⟨_, _, rfl, rfl, trivial⟩

theorem idle_respond (response : Response) : Idle (respond req path response) s fun _ _ => True :=
  ⟨_, _, rfl, rfl, trivial⟩

theorem idle_notFound : Idle (notFound req path) s fun _ _ => True :=
  idle_read_bind (idle_respond _)

theorem idle_methodMiss : Idle (methodMiss req path) s fun _ _ => True := by
  refine idle_read_bind ?_
  split
  · exact idle_notFound
  · exact idle_respond _

theorem idle_optionsPreflight : Idle (optionsPreflight req path) s fun _ _ => True := by
  refine idle_read_bind ?_
  split
  · exact idle_notFound
  · exact idle_respond _

/-- A request is admitted and leaves no trace, or is answered. -/
structure Admits (s : AppState) (what : Option Admitted) (r : Except Response Admitted) (t : AppState) :
    Prop where
  found : ∀ adm, r = .ok adm ↔ what = some adm
  same : ∀ adm, what = some adm → t = s

theorem admits_error {response : Response} {t : AppState} : Admits s none (.error response) t :=
  ⟨fun _ => ⟨fun h => (by cases h), fun h => (by cases h)⟩, fun _ h => (by cases h)⟩

/-- The plan is loaded, or there is none. -/
theorem idle_plan (rc : RouteConfig) (inputs : Json)
    {k : Option (CompiledPlan × Nat) → PublishM (Except Response Admitted)}
    (hnone : k none =
      .error <$> respond req path (errorResponse 404 "plan not loaded for published graph"))
    (hsome : ∀ plan epoch, k (some (plan, epoch)) = pure (.ok ⟨rc, inputs, plan, epoch⟩)) :
    Idle (PublishM.read (.plan req.method rc.graphId)
        (fun s => (s.plans.get rc.graphId).map fun plan => (plan, s.refreshes)) >>= k) s
      (Admits s ((s.plans.get rc.graphId).map fun plan => ⟨rc, inputs, plan, s.refreshes⟩)) := by
  refine idle_read_bind ?_
  cases hplan : s.plans.get rc.graphId with
  | none =>
    rw [Option.map_none, hnone]
    exact (idle_respond _).map fun _ _ _ => admits_error
  | some plan =>
    rw [Option.map_some, hsome]
    refine idle_pure ⟨fun adm => ⟨fun h => ?_, fun h => ?_⟩, fun _ _ => rfl⟩
    · cases h
      rfl
    · cases h
      rfl

theorem idle_admitRoute (rc : RouteConfig) (inputs : Json) :
    Idle (admitRoute req path rc inputs) s (Admits s
      (if 0 < rc.cacheTtl ∧ (s.lookup req.method path inputs
          fun body => cacheResponse 200 body true).isSome then none
        else (s.plans.get rc.graphId).map fun plan => ⟨rc, inputs, plan, s.refreshes⟩)) := by
  rw [admitRoute]
  by_cases httl : 0 < rc.cacheTtl
  · rw [if_pos httl]
    refine idle_read_bind ?_
    cases ha : s.lookup req.method path inputs fun body => cacheResponse 200 body true with
    | none =>
      rw [if_neg fun h => by cases h.2]
      exact idle_plan rc inputs rfl fun _ _ => rfl
    | some a =>
      rw [if_pos ⟨httl, rfl⟩]
      exact (idle_answer a).map fun _ _ _ => admits_error
  · rw [if_neg httl, if_neg fun h => httl h.1]
    exact idle_plan rc inputs rfl fun _ _ => rfl

theorem idle_admission (req : Request) (s : AppState) :
    Idle (admission req (pathNoSlash req)) s (Admits s (admitted req s)) := by
  rw [admitted, admission]
  by_cases hoptions : req.method = ("OPTIONS" : Text)
  · rw [if_pos hoptions, if_pos hoptions]
    exact idle_optionsPreflight.map fun _ _ _ => admits_error
  rw [if_neg hoptions, if_neg hoptions]
  refine idle_read_bind ?_
  rw [← routeFor]
  cases hroute : routeFor req s with
  | none => exact idle_methodMiss.map fun _ _ _ => admits_error
  | some rc =>
    rw [Option.bind_some]
    cases hinputs : requestInputs req with
    | error response => exact (idle_respond response).map fun _ _ _ => admits_error
    | ok inputs => exact idle_admitRoute rc inputs

/-- What is admitted is executed once. -/
theorem run_runAdmitted (run : Runner) (adm : Admitted) : ∃ response t,
    (runAdmitted req path run adm).run Script.noFaults s = .ok response t ∧
      t.executions = ⟨req.method, path, adm.inputs, adm.plan, adm.timeout, adm.epoch,
        run adm.plan adm.inputs adm.timeout⟩ :: s.executions := by
  rw [runAdmitted]
  generalize he : (⟨req.method, path, adm.inputs, adm.plan, adm.timeout, adm.epoch,
    run adm.plan adm.inputs adm.timeout⟩ : Executed) = e
  have hnoted : (s.note (.executed e)).executions = e :: s.executions := rfl
  have hsilent : ∀ t : AppState, t.executions = e :: s.executions → ∀ response,
      ∃ r u, (respond req path response).run Script.noFaults t = .ok r u ∧ u.executions = e :: s.executions := by
    intro t ht response
    exact ⟨_, _, rfl, ht⟩
  dsimp only
  rw [run_write_bind]
  cases hresult : e.result with
  | error message => exact hsilent _ hnoted _
  | ok r =>
    cases r with
    | error message => exact hsilent _ hnoted _
    | ok outcome =>
      dsimp only
      by_cases hstored : 0 < adm.rc.cacheTtl ∧ outcomeStatus outcome = 200
      · rw [if_pos hstored, run_write_bind]
        exact hsilent _ rfl _
      · rw [if_neg hstored]
        exact hsilent _ hnoted _

theorem executions_publish (run : Runner) (req : Request) (s : AppState) :
    (finalState ((publish run req).run Script.noFaults s)).executions =
      ((admitted req s).toList.map fun adm => ⟨req.method, pathNoSlash req, adm.inputs, adm.plan, adm.timeout,
        adm.epoch, run adm.plan adm.inputs adm.timeout⟩) ++ s.executions := by
  obtain ⟨r, t, ht, hexecutions, hadmits⟩ := idle_admission req s
  rw [publish, Script.run_bind, bind_of_ok _ ht]
  cases r with
  | error response =>
    have hnone : admitted req s = none := by
      cases hfound : admitted req s with
      | none => rfl
      | some adm => cases (hadmits.found adm).2 hfound
    rw [hnone]
    exact hexecutions
  | ok adm =>
    have hsome := (hadmits.found adm).1 rfl
    obtain ⟨response, u, hu, hran⟩ := @run_runAdmitted t req (pathNoSlash req) run adm
    dsimp only
    rw [hu, hsome]
    rw [hadmits.same adm hsome] at hran
    exact hran

/-- A request that is the same up to its headers. -/
structure Request.SameBut (req req' : Request) : Prop where
  method : req'.method = req.method
  path : req'.path = req.path
  query : req'.query = req.query
  body : req'.body = req.body

theorem Request.SameBut.admitted {req' : Request} (h : req.SameBut req') (s : AppState) :
    Tinypipe.admitted req' s = Tinypipe.admitted req s := by
  obtain ⟨method, path, query, headers, body⟩ := req
  obtain ⟨method', path', query', headers', body'⟩ := req'
  obtain ⟨rfl, rfl, rfl, rfl⟩ := h
  rfl

def Admitted.given (os : Dict Text Text) (adm : Admitted) : Given :=
  ⟨applyTimeout adm.plan adm.timeout, ctxFromInputs adm.inputs, buildEnv os⟩

/-- The graph is executed for the request. -/
structure Executes (p : Process) (req : Request) (s : AppState) : Prop where
  admitted : (admitted req s).isSome
  audited : p.saveRunning = .ok ()

/-- What is launched is what is admitted, in the environment of the process. -/
theorem mem_launches {tools : Env → Registry} {p : Process}
    {x : Given × Except ExecutionError ExecutionOutcome} : x ∈ launches tools p req s ↔
      p.saveRunning = .ok () ∧ ∃ adm, admitted req s = some adm ∧
        x = (adm.given p.os, (adm.given p.os).outcome tools) := by
  rw [launches]
  cases hsave : p.saveRunning with
  | error e => exact iff_of_false List.not_mem_nil fun h => by cases h.1
  | ok u =>
    dsimp only
    rw [executions_publish]
    change x ∈ List.map _ ((admitted req s).toList.map _ ++ []) ↔ _
    rw [List.append_nil, List.map_map, List.mem_map]
    constructor
    · rintro ⟨adm, hadm, rfl⟩
      exact ⟨rfl, adm, Option.mem_toList.1 hadm, rfl⟩
    · rintro ⟨-, adm, hadm, rfl⟩
      exact ⟨adm, Option.mem_toList.2 hadm, rfl⟩

theorem launches_eq_nil {tools : Env → Registry} {p : Process} :
    launches tools p req s = [] ↔ ¬Executes p req s := by
  rw [List.eq_nil_iff_forall_not_mem]
  constructor
  · intro h hexecutes
    obtain ⟨adm, hadm⟩ := Option.isSome_iff_exists.1 hexecutes.admitted
    exact h _ (mem_launches.2 ⟨hexecutes.audited, adm, hadm, rfl⟩)
  · intro h x hx
    obtain ⟨haudited, adm, hadm, -⟩ := mem_launches.1 hx
    exact h ⟨by rw [hadm]; rfl, haudited⟩

theorem buildEnv_inj {os os' : Dict Text Text} : buildEnv os = buildEnv os' ↔ os = os' := by
  constructor
  · intro h
    rw [buildEnv, buildEnv, Env.mk.injEq, List.cons.injEq, List.cons.injEq, EnvProvider.os.injEq] at h
    exact h.1.2.1
  · exact congrArg buildEnv

/-- Two requests that differ in their headers get the same execution exactly when their processes
have the same variables, and a route is closed to those without a token exactly when it executes
nothing for them anyway. -/
theorem publish_isolated_iff (tools : Env → Registry) (s : AppState) {req req' : Request}
    (hsame : req.SameBut req') (p p' : Process) :
    ((∀ x ∈ launches tools p req s, ∀ x' ∈ launches tools p' req' s, x = x') ↔
      (Executes p req s → Executes p' req' s → p.os = p'.os)) ∧
    ((∀ rc, routeFor req s = some rc → rc.isPublic = false → requireToken s.token req.headers = false →
        launches tools p req s = []) ↔
      (Executes p req s → ∀ rc, routeFor req s = some rc →
        rc.isPublic = true ∨ requireToken s.token req.headers = true)) := by
  constructor
  · constructor
    · intro h hexecutes hexecutes'
      obtain ⟨adm, hadm⟩ := Option.isSome_iff_exists.1 hexecutes.admitted
      have hadm' : admitted req' s = some adm := (hsame.admitted s).trans hadm
      have heq := h _ (mem_launches.2 ⟨hexecutes.audited, adm, hadm, rfl⟩) _
        (mem_launches.2 ⟨hexecutes'.audited, adm, hadm', rfl⟩)
      exact buildEnv_inj.1 (congrArg (fun x => x.1.env) heq)
    · intro h x hx x' hx'
      obtain ⟨haudited, adm, hadm, rfl⟩ := mem_launches.1 hx
      obtain ⟨haudited', adm', hadm', rfl⟩ := mem_launches.1 hx'
      rw [hsame.admitted s, hadm] at hadm'
      cases hadm'
      have hos := h ⟨by rw [hadm]; rfl, haudited⟩ ⟨by rw [hsame.admitted s, hadm]; rfl, haudited'⟩
      rw [hos]
  · constructor
    · intro h hexecutes rc hrc
      by_contra hclosed
      rw [not_or, Bool.not_eq_true, Bool.not_eq_true] at hclosed
      exact launches_eq_nil.1 (h rc hrc hclosed.1 hclosed.2) hexecutes
    · intro h rc hrc hprivate htoken
      refine launches_eq_nil.2 fun hexecutes => ?_
      rcases h hexecutes rc hrc with hpublic | hvalid
      · rw [hprivate] at hpublic
        cases hpublic
      · rw [htoken] at hvalid
        cases hvalid

end Runs

/-! ### A route that reads the environment -/

/-- `env.get` reads the environment, every other tool answers with its name. -/
def envTools (env : Env) : Registry := { echo with
  dispatch := fun call _ =>
    match call.kwargs.get "key" with
    | some (.string key) => .ok (((env.lookup key).map Value.string).getD .null)
    | _ => .ok (.string call.name) }

/-- `return call("env.get", key="HOME")` -/
def homeModule : Ast.Module :=
  Build.graph [] [Build.ret (Build.call "env.get" [("key", Build.str "HOME")])]

/-- `GET /home`, which is not public. -/
def homeSite : AppState :=
  let plans := match compile 0 homeModule with
    | .ok o => Dict.ofList [("g", o.compiled)]
    | .error _ => Dict.empty
  .start plans (Dict.ofList [(routeKey "home" .get, ⟨"g", "home", .get, false, 0, 0⟩)]) (some "secret") 0

def getHome : Request := ⟨"GET", "/home", none, [], .ok []⟩

def processOf (home : Text) : Process := ⟨Dict.ofList [("HOME", home)], "id", 1, .ok (), .ok ()⟩

def launchOutput (x : Given × Except ExecutionError ExecutionOutcome) : Option Value :=
  match x.2 with
  | .ok (.completed result) => result.output
  | _ => none

/-- The graph is executed though nobody has shown a token, and tells the variables of the process. -/
theorem publish_leaks :
    (¬∀ (tools : Env → Registry) (s : AppState) (req req' : Request), req.SameBut req' → ∀ p p' : Process,
      ∀ x ∈ launches tools p req s, ∀ x' ∈ launches tools p' req' s, x = x') ∧
    ¬∀ (tools : Env → Registry) (s : AppState) (req : Request) (p : Process) (rc : RouteConfig),
      routeFor req s = some rc → rc.isPublic = false → requireToken s.token req.headers = false →
        launches tools p req s = [] := by
  have houtputs : ∀ home ∈ (["a", "b"] : List Text),
      (launches envTools (processOf home) getHome homeSite).map launchOutput = [some (.string home)] := by
    decide +kernel
  constructor
  · intro h
    have ha := houtputs "a" List.mem_cons_self
    have hb := houtputs "b" (List.mem_cons_of_mem _ List.mem_cons_self)
    obtain ⟨x, hx, hxa⟩ := List.mem_map.1 (ha ▸ List.mem_singleton_self (some (Value.string "a")))
    obtain ⟨y, hy, hyb⟩ := List.mem_map.1 (hb ▸ List.mem_singleton_self (some (Value.string "b")))
    have heq := h envTools homeSite getHome getHome ⟨rfl, rfl, rfl, rfl⟩ _ _ x hx y hy
    rw [heq, hyb] at hxa
    revert hxa
    decide
  · intro h
    have hnil := h envTools homeSite getHome (processOf "a") ⟨"g", "home", .get, false, 0, 0⟩ rfl rfl rfl
    have ha := houtputs "a" List.mem_cons_self
    rw [hnil] at ha
    cases ha

/-- A cookie in one of two requests changes nothing. -/
theorem publish_isolated_home : launches envTools (processOf "a") getHome homeSite =
    launches envTools (processOf "a") { getHome with headers := [("cookie", "c")] } homeSite := by
  have hone : (launches envTools (processOf "a") getHome homeSite).length = 1 ∧
      (launches envTools (processOf "a") { getHome with headers := [("cookie", "c")] } homeSite).length = 1 := by
    decide +kernel
  obtain ⟨x, hx⟩ := List.length_eq_one_iff.1 hone.1
  obtain ⟨y, hy⟩ := List.length_eq_one_iff.1 hone.2
  have heq := (@publish_isolated_iff envTools homeSite getHome
    { getHome with headers := [("cookie", "c")] } ⟨rfl, rfl, rfl, rfl⟩
    (processOf "a") (processOf "a")).1.2 fun _ _ => rfl
  rw [hx, hy] at heq ⊢
  rw [heq x List.mem_cons_self y List.mem_cons_self]

end Tinypipe
