import Tinypipe.Lib.Rely
import Tinypipe.Server.Http

/-! The handler of published routes and its response cache (`tinypipe-server/src/routes.rs`,
`state.rs`). It is cut where it awaits: between two statements other requests go on, and the
tables are refreshed. A client that disconnects drops its handler at any statement. -/

namespace Tinypipe

open Lib

structure Request where
  method : Text
  path : Text
  query : Option Text
  headers : List (Text × Text)
  body : Except Text (List UInt8)

structure Response where
  status : Nat
  headers : List (Text × Text)
  body : List UInt8

def Response.isHit (r : Response) : Prop := (("x-tinypipe-cache", "HIT") : Text × Text) ∈ r.headers

/-- What comes of `run_execution` on the blocking pool: the task may panic, the execution fail. -/
abbrev RunResult := Except Text (Except Text Json)

/-- `run_execution`, for the plan, the inputs and the time limit of a published route. -/
abbrev Runner := CompiledPlan → Json → Option Nat → RunResult

def fnv1a (bytes : List UInt8) : UInt64 :=
  bytes.foldl (fun hash b => (hash ^^^ b.toUInt64) * 0x100000001b3) 0xcbf29ce484222325

/-- The address of a response in the cache. -/
def cacheKey (path : Text) (inputs : Json) : UInt64 := fnv1a (Utf8.encode path ++ 0 :: inputs.toVec)

/-- An execution of a published route, with the number of refreshes that had completed when its
plan was fetched. -/
structure Executed where
  method : Text
  path : Text
  inputs : Json
  plan : CompiledPlan
  timeout : Option Nat
  epoch : Nat
  result : RunResult

/-- An answer to a request. The inputs, the epoch and the time are those of the lookup for an
answer from the cache. -/
structure Answer where
  method : Text
  path : Text
  inputs : Json
  response : Response
  epoch : Nat
  time : Nat

inductive PublishEvent where
  | executed (e : Executed)
  | stored (e : Executed) (time ttl : Nat)
  | answered (a : Answer)

structure AppState where
  plans : Dict Text CompiledPlan
  routes : Dict Text RouteConfig
  /-- When a response expires, and its body. -/
  respCache : Dict UInt64 (Nat × List UInt8)
  token : Option Text
  /-- `Instant::now()`, in nanoseconds. -/
  clock : Nat
  /-- History variables: the completed refreshes, and what has happened, the last first. -/
  refreshes : Nat
  history : List PublishEvent

namespace AppState

def start (plans : Dict Text CompiledPlan) (routes : Dict Text RouteConfig) (token : Option Text)
    (clock : Nat) : AppState :=
  ⟨plans, routes, Dict.empty, token, clock, 0, []⟩

def note (e : PublishEvent) (s : AppState) : AppState := { s with history := e :: s.history }

def store (e : Executed) (ttl : Nat) (body : List UInt8) (s : AppState) : AppState :=
  { s with
    respCache := s.respCache.set (cacheKey e.path e.inputs) (s.clock + ttl * 10 ^ 9, body)
    history := .stored e s.clock ttl :: s.history }

/-- The answer that the cache has for a request. -/
def lookup (method path : Text) (inputs : Json) (response : List UInt8 → Response) (s : AppState) :
    Option Answer :=
  match s.respCache.get (cacheKey path inputs) with
  | some (expires, body) =>
    if s.clock < expires then some ⟨method, path, inputs, response body, s.refreshes, s.clock⟩ else none
  | none => none

end AppState

/-- The statements, with what they are about. -/
inductive PublishStep where
  | routes (method path : Text)
  | lookup (method path : Text) (inputs : Json)
  | plan (method graphId : Text)
  | execute (e : Executed)
  | store (e : Executed) (ttl : Nat)
  | allow
  | published
  | answer (a : Answer)
  | refreshPlans | refreshRoutes | refreshCache
  | tick

abbrev PublishM := Script PublishStep Text AppState

namespace PublishM

def read {α : Type} (label : PublishStep) (f : AppState → α) : PublishM α :=
  .step label id (fun s => pure (f s)) .throw

def write (label : PublishStep) (f : AppState → AppState) : PublishM Unit :=
  .step label f (fun _ => pure ()) .throw

end PublishM

/-! ### Responses -/

def jsonResponse (status : Nat) (j : Json) : Response :=
  ⟨status, [("content-type", "application/json")], j.toVec⟩

def errorResponse (status : Nat) (message : Text) : Response :=
  jsonResponse status (.object [("error", .string message)])

def cacheResponse (status : Nat) (body : List UInt8) (hit : Bool) : Response where
  status := status
  headers := [("content-type", "application/json"),
    ("cache-control", if hit then "max-age=300" else "no-store"),
    ("x-tinypipe-cache", if hit then "HIT" else "MISS")]
  body := body

def reqMethod (m : Text) : Option RouteMethod :=
  if m = ("GET" : Text) then some .get
  else if m = ("POST" : Text) then some .post
  else if m = ("PUT" : Text) then some .put
  else if m = ("PATCH" : Text) then some .patch
  else if m = ("DELETE" : Text) then some .delete
  else if m = ("HEAD" : Text) then some .head
  else none

def RouteMethod.all : List RouteMethod := [.get, .post, .put, .patch, .delete, .head, .options]

def publishedMethods (path : Text) (routes : Dict Text RouteConfig) : List RouteMethod :=
  RouteMethod.all.filter fun m => routes.contains (routeKey path m)

def allowText (allow : List RouteMethod) : Text := Text.intercalate ", " (allow.map RouteMethod.asStr)

def publishedPaths (routes : Dict Text RouteConfig) : List Text :=
  ((routes.keys.map fun k => ((Text.splitOnce "\x01" k).map Prod.fst).getD k).insertionSort
    fun a b => a.map Char.toNat ≤ b.map Char.toNat).dedup

/-! ### The handler -/

section Handler

variable (req : Request) (path : Text)

/-- An answer that neither an execution nor the cache gives. -/
def respond (response : Response) : PublishM Response := do
  let a : Answer := ⟨req.method, path, .null, response, 0, 0⟩
  PublishM.write (.answer a) (AppState.note (.answered a))
  pure response

def answer (a : Answer) : PublishM Response := do
  PublishM.write (.answer a) (AppState.note (.answered a))
  pure a.response

def notFound : PublishM Response := do
  let published ← PublishM.read .published fun s => publishedPaths s.routes
  respond req path (jsonResponse 404 (.object [
    ("error", .string (("no published route for '" : Text) ++ path ++ ("'" : Text))),
    ("published", .array (published.map Json.string))]))

def methodMiss : PublishM Response := do
  let allow ← PublishM.read .allow fun s => publishedMethods path s.routes
  if allow = [] then notFound req path
  else
    let error := errorResponse 405 (("route '/" : Text) ++ path ++ ("' does not accept " : Text) ++
      req.method ++ ("; allowed: " : Text) ++ allowText allow)
    respond req path { error with headers := error.headers ++ [(("allow" : Text), allowText allow)] }

def optionsPreflight : PublishM Response := do
  let allow ← PublishM.read .allow fun s => publishedMethods path s.routes
  if allow = [] then notFound req path
  else respond req path ⟨204, [("allow", allowText allow), ("access-control-allow-origin", "*"),
    ("access-control-allow-methods", allowText allow), ("access-control-allow-headers", "Content-Type"),
    ("access-control-max-age", "86400")], []⟩

/-- Query parameters, or a JSON body. -/
def requestInputs : Except Response Json :=
  if req.method = ("GET" : Text) ∨ req.method = ("HEAD" : Text) ∨ req.method = ("DELETE" : Text) then
    .ok (parseQuery (req.query.getD []))
  else match req.body with
    | .ok [] => .ok (.object [])
    | .ok bytes => match Json.fromSlice bytes with
      | some v => .ok v
      | none => .error (errorResponse 400 "POST/PUT/PATCH body must be a JSON object")
    | .error e => .error (errorResponse 400 (("body read failed: " : Text) ++ e))

/-- What is to be executed: the plan was fetched after `epoch` refreshes. -/
structure Admitted where
  rc : RouteConfig
  inputs : Json
  plan : CompiledPlan
  epoch : Nat

def Admitted.timeout (adm : Admitted) : Option Nat :=
  if 0 < adm.rc.timeoutMs then some adm.rc.timeoutMs else none

/-- The cache, and the plan if it has nothing. -/
def admitRoute (rc : RouteConfig) (inputs : Json) : PublishM (Except Response Admitted) := do
  let hit ← if 0 < rc.cacheTtl then
      PublishM.read (.lookup req.method path inputs)
        (AppState.lookup req.method path inputs fun body => cacheResponse 200 body true)
    else pure none
  match hit with
  | some a => .error <$> answer a
  | none =>
    match ← PublishM.read (.plan req.method rc.graphId) fun s =>
        (s.plans.get rc.graphId).map fun plan => (plan, s.refreshes) with
    | none => .error <$> respond req path (errorResponse 404 "plan not loaded for published graph")
    | some (plan, epoch) => pure (.ok ⟨rc, inputs, plan, epoch⟩)

/-- Everything in front of the execution. -/
def admission : PublishM (Except Response Admitted) :=
  if req.method = ("OPTIONS" : Text) then .error <$> optionsPreflight req path
  else do
    match ← PublishM.read (.routes req.method path) fun s =>
        (reqMethod req.method).bind fun m => s.routes.get (routeKey path m) with
    | none => .error <$> methodMiss req path
    | some rc => match requestInputs req with
      | .error response => .error <$> respond req path response
      | .ok inputs => admitRoute req path rc inputs

def errorStatus (e : Text) : Nat :=
  if Text.contains "not found" e then 404
  else if ("missing environment variables" : Text).isPrefixOf e then 400
  else 500

def outcomeStatus (outcome : Json) : Nat :=
  match (outcome.get? "status").bind Json.asStr with
  | some status => if status = ("completed" : Text) then 200 else if status = ("paused" : Text) then 202 else 422
  | none => 422

/-- The execution, and the response to it. -/
def runAdmitted (run : Runner) (adm : Admitted) : PublishM Response := do
  let e : Executed := ⟨req.method, path, adm.inputs, adm.plan, adm.timeout, adm.epoch,
    run adm.plan adm.inputs adm.timeout⟩
  PublishM.write (.execute e) (AppState.note (.executed e))
  match e.result with
  | .error message => respond req path (errorResponse 500 (("task join: " : Text) ++ message))
  | .ok (.error message) => respond req path (errorResponse (errorStatus message) message)
  | .ok (.ok outcome) => do
    let status := outcomeStatus outcome
    let body := outcome.toVec
    if 0 < adm.rc.cacheTtl ∧ status = 200 then
      PublishM.write (.store e adm.rc.cacheTtl) (AppState.store e adm.rc.cacheTtl body)
    let response := cacheResponse status body false
    respond req path (if req.method = ("HEAD" : Text) then { response with body := [] } else response)

end Handler

def pathNoSlash (req : Request) : Text := (Text.stripPrefix "/" req.path).getD req.path

def publish (run : Runner) (req : Request) : PublishM Response := do
  match ← admission req (pathNoSlash req) with
  | .error response => pure response
  | .ok adm => runAdmitted req (pathNoSlash req) run adm

/-- The tables that `refresh_all` has made take the place of the old ones. -/
def refresh (plans : Dict Text CompiledPlan) (routes : Dict Text RouteConfig) : PublishM Unit := do
  PublishM.write .refreshPlans fun s => { s with plans := plans }
  PublishM.write .refreshRoutes fun s => { s with routes := routes }
  PublishM.write .refreshCache fun s => { s with respCache := Dict.empty, refreshes := s.refreshes + 1 }

inductive Job where
  | publish (run : Runner) (req : Request)
  | refresh (plans : Dict Text CompiledPlan) (routes : Dict Text RouteConfig)
  | tick (nanos : Nat)

def Job.script : Job → PublishM Unit
  | publish run req => do let _ ← Tinypipe.publish run req
  | refresh plans routes => Tinypipe.refresh plans routes
  | tick nanos => PublishM.write .tick fun s => { s with clock := s.clock + nanos }

/-! ### What the cache answers -/

/-- The response is one that an execution of the same route has produced for the same inputs, since
the last refresh and within its time to live. -/
def Answer.Justified (a : Answer) (earlier : List PublishEvent) : Prop :=
  ∃ e outcome time ttl, .executed e ∈ earlier ∧ .stored e time ttl ∈ earlier ∧
    e.path = a.path ∧ e.method = a.method ∧ e.inputs = a.inputs ∧
    e.result = .ok (.ok outcome) ∧ a.response.status = outcomeStatus outcome ∧
    a.response.body = outcome.toVec ∧ e.epoch = a.epoch ∧ a.time < time + ttl * 10 ^ 9

structure Answer.Sound (a : Answer) (earlier : List PublishEvent) : Prop where
  justified : a.response.isHit → a.Justified earlier
  cacheable : a.response.isHit →
    a.method = ("GET" : Text) ∨ a.method = ("HEAD" : Text) ∨ a.method = ("DELETE" : Text)
  head : a.method = ("HEAD" : Text) → a.response.body = []

/-- Every answer was sound when it was given. -/
def Sound : List PublishEvent → Prop
  | [] => True
  | .answered a :: earlier => a.Sound earlier ∧ Sound earlier
  | _ :: earlier => Sound earlier

/-- The state in which a statement is executed. -/
def PublishStep.Allowed : PublishStep → AppState → Prop
  | routes method path, s => method = ("HEAD" : Text) → (s.routes.get (routeKey path .head)).isSome
  | lookup method path inputs, s => ∀ expires body,
      s.respCache.get (cacheKey path inputs) = some (expires, body) → s.clock < expires →
      (method = ("GET" : Text) ∨ method = ("DELETE" : Text)) ∧
        ∀ e time ttl, .stored e time ttl ∈ s.history → e.epoch = s.refreshes →
          cacheKey e.path e.inputs = cacheKey path inputs →
            e.path = path ∧ e.method = method ∧ e.inputs = inputs
  | plan method graphId, s => method = ("HEAD" : Text) → (s.plans.get graphId).isSome
  | execute e, _ => e.method = ("HEAD" : Text) → ∃ outcome, e.result = .ok (.ok outcome)
  | store e _, s => e.epoch = s.refreshes
  | _, _ => True

/-- An entry of the cache is a response to an execution since the last refresh. -/
def Entry (s : AppState) (key : UInt64) (expires : Nat) (body : List UInt8) : Prop :=
  ∃ e outcome time ttl, .executed e ∈ s.history ∧ .stored e time ttl ∈ s.history ∧
    cacheKey e.path e.inputs = key ∧ e.result = .ok (.ok outcome) ∧ outcomeStatus outcome = 200 ∧
    body = outcome.toVec ∧ e.epoch = s.refreshes ∧ expires = time + ttl * 10 ^ 9

structure CacheInv (s : AppState) : Prop where
  entries : ∀ key expires body, s.respCache.get key = some (expires, body) → Entry s key expires body
  sound : Sound s.history

/-- The history only grows, and a move is one that is allowed. -/
def publishContract : Contract PublishStep AppState where
  inv := CacheInv
  rely s t := s.history <:+ t.history
  guar s t := s.history <:+ t.history
  allowed label fault s := fault = none → label.Allowed s
  refl s := List.suffix_refl s.history
  trans _ _ _ h h' := h.trans h'

section Safety

variable {α β : Type} {s : AppState} {req : Request} {path : Text}

/-- From `s` on, whatever the others do. -/
abbrev PublishM.Safe (x : PublishM α) (s : AppState) : Prop :=
  Script.Safe publishContract (fun _ _ => True) x s

theorem PublishM.Safe.bind {x : PublishM α} {f : α → PublishM β} (hx : x.Safe s)
    (hf : ∀ a t, (f a).Safe t) : (x >>= f).Safe s := by
  refine Script.Safe.bind (Script.Safe.mono hx fun r t _ => ?_)
  cases r with
  | ok a => exact hf a t
  | error e => exact fun _ _ => trivial

theorem PublishM.safe_pure (a : α) : (pure a : PublishM α).Safe s := fun _ _ => trivial

theorem PublishM.Safe.map {x : PublishM α} (hx : x.Safe s) (f : α → β) : (f <$> x).Safe s :=
  hx.bind fun _ _ => safe_pure _

theorem PublishM.safe_read_bind {label : PublishStep} {f : AppState → α} {k : α → PublishM β}
    (h : ∀ t, s.history <:+ t.history → CacheInv t → label.Allowed t → (k (f t)).Safe t) :
    (read label f >>= k).Safe s :=
  fun t ht hinv => ⟨fun hallowed => ⟨hinv, List.suffix_refl _, h t ht hinv (hallowed rfl)⟩,
    fun _ _ _ _ => trivial⟩

theorem PublishM.safe_write_bind {label : PublishStep} {w : AppState → AppState} {k : Unit → PublishM β}
    (h : ∀ t, s.history <:+ t.history → CacheInv t → label.Allowed t →
      CacheInv (w t) ∧ t.history <:+ (w t).history ∧ (k ()).Safe (w t)) :
    (write label w >>= k).Safe s :=
  fun t ht hinv => ⟨fun hallowed => h t ht hinv (hallowed rfl), fun _ _ _ _ => trivial⟩

theorem Entry.mono {t : AppState} {key : UInt64} {expires : Nat} {body : List UInt8}
    (h : Entry s key expires body) (hhistory : s.history ⊆ t.history) (hrefreshes : t.refreshes = s.refreshes) :
    Entry t key expires body := by
  obtain ⟨e, outcome, time, ttl, hran, hstored, hkey, hresult, hstatus, hbody, hepoch, hexpires⟩ := h
  exact ⟨e, outcome, time, ttl, hhistory hran, hhistory hstored, hkey, hresult, hstatus, hbody,
    hepoch.trans hrefreshes.symm, hexpires⟩

/-- An event that is sound is noted. -/
theorem CacheInv.note (h : CacheInv s) (event : PublishEvent) (hsound : Sound (event :: s.history)) :
    CacheInv (s.note event) :=
  ⟨fun key expires body hget => (h.entries key expires body hget).mono
    (fun _ hmem => List.mem_cons_of_mem _ hmem) rfl, hsound⟩

theorem safe_answered {a : Answer} {k : Unit → PublishM α} (ha : ∀ t : AppState, s.history <:+ t.history → a.Sound t.history)
    (hk : ∀ t, (k ()).Safe t) :
    (PublishM.write (.answer a) (AppState.note (.answered a)) >>= k).Safe s :=
  PublishM.safe_write_bind fun t ht hinv _ =>
    ⟨hinv.note _ ⟨ha t ht, hinv.sound⟩, List.suffix_cons _ _, hk _⟩

theorem Answer.Sound.mono {a : Answer} {earlier later : List PublishEvent} (h : a.Sound earlier)
    (hsub : earlier ⊆ later) : a.Sound later := by
  refine ⟨fun hhit => ?_, h.cacheable, h.head⟩
  obtain ⟨e, outcome, time, ttl, hran, hstored, hrest⟩ := h.justified hhit
  exact ⟨e, outcome, time, ttl, hsub hran, hsub hstored, hrest⟩

theorem safe_answer {a : Answer} (ha : a.Sound s.history) : (answer a).Safe s :=
  safe_answered (fun _ ht => ha.mono ht.subset) fun _ => PublishM.safe_pure _

theorem safe_respond {response : Response}
    (hhit : ∀ h ∈ response.headers, h ≠ (("x-tinypipe-cache", "HIT") : Text × Text))
    (hhead : req.method = ("HEAD" : Text) → response.body = []) : (respond req path response).Safe s := by
  refine safe_answered (fun t _ => ?_) fun _ => PublishM.safe_pure _
  have hno : ¬response.isHit := fun h => hhit _ h rfl
  exact ⟨fun h => absurd h hno, fun h => absurd h hno, hhead⟩

theorem jsonResponse_headers (status : Nat) (j : Json) :
    ∀ h ∈ (jsonResponse status j).headers, h ≠ (("x-tinypipe-cache", "HIT") : Text × Text) := by
  intro h hh
  rw [jsonResponse, List.mem_singleton] at hh
  rw [hh]
  decide

theorem safe_notFound (hhead : req.method ≠ ("HEAD" : Text)) : (notFound req path).Safe s :=
  PublishM.safe_read_bind fun _ _ _ _ =>
    safe_respond (jsonResponse_headers _ _) fun h => absurd h hhead

theorem ne_hit_of_name {name value : Text} (h : name ≠ ("x-tinypipe-cache" : Text)) :
    (name, value) ≠ (("x-tinypipe-cache", "HIT") : Text × Text) := fun heq => h (congrArg Prod.fst heq)

theorem safe_methodMiss (hhead : req.method ≠ ("HEAD" : Text)) : (methodMiss req path).Safe s := by
  refine PublishM.safe_read_bind fun t _ _ _ => ?_
  split
  · exact safe_notFound hhead
  · refine safe_respond (fun h hh => ?_) fun h => absurd h hhead
    rw [List.mem_append, List.mem_singleton] at hh
    rcases hh with hh | rfl
    · exact jsonResponse_headers _ _ h hh
    · exact ne_hit_of_name (by decide)

theorem safe_optionsPreflight (hhead : req.method ≠ ("HEAD" : Text)) : (optionsPreflight req path).Safe s := by
  refine PublishM.safe_read_bind fun t _ _ _ => ?_
  split
  · exact safe_notFound hhead
  · refine safe_respond (fun h hh => ?_) fun h => absurd h hhead
    simp only [List.mem_cons, List.not_mem_nil, or_false] at hh
    rcases hh with rfl | rfl | rfl | rfl | rfl <;> exact ne_hit_of_name (by decide)

/-- The cache answers soundly where the lookup is allowed. -/
theorem lookup_sound (hinv : CacheInv s) {inputs : Json}
    (hallowed : (PublishStep.lookup req.method path inputs).Allowed s) {a : Answer}
    (ha : s.lookup req.method path inputs (fun body => cacheResponse 200 body true) = some a) :
    a.Sound s.history := by
  rw [AppState.lookup] at ha
  cases hget : s.respCache.get (cacheKey path inputs) with
  | none =>
    rw [hget] at ha
    cases ha
  | some entry =>
    obtain ⟨expires, body⟩ := entry
    rw [hget] at ha
    dsimp only at ha
    split at ha
    case isFalse => cases ha
    case isTrue hlive =>
      cases ha
      obtain ⟨hmethod, hsame⟩ := hallowed expires body hget hlive
      obtain ⟨e, outcome, time, ttl, hran, hstored, hkey, hresult, hstatus, hbody, hepoch, hexpires⟩ :=
        hinv.entries _ _ _ hget
      obtain ⟨hpath, hmethod', hinputs⟩ := hsame e time ttl hstored hepoch hkey
      refine ⟨fun _ => ⟨e, outcome, time, ttl, hran, hstored, hpath, hmethod', hinputs, hresult,
        hstatus.symm, hbody, hepoch, hexpires ▸ hlive⟩, fun _ => ?_, fun hhead => ?_⟩
      · exact hmethod.imp_right Or.inr
      · dsimp only at hhead
        rw [hhead] at hmethod
        exact absurd hmethod (by decide)

theorem safe_admitRoute (rc : RouteConfig) (inputs : Json) : (admitRoute req path rc inputs).Safe s := by
  have hrest : ∀ t, (do
      match ← PublishM.read (.plan req.method rc.graphId) fun s =>
          (s.plans.get rc.graphId).map fun plan => (plan, s.refreshes) with
      | none => .error <$> respond req path (errorResponse 404 "plan not loaded for published graph")
      | some (plan, epoch) => pure (.ok ⟨rc, inputs, plan, epoch⟩) :
        PublishM (Except Response Admitted)).Safe t := by
    intro t
    refine PublishM.safe_read_bind fun u _ _ hallowed => ?_
    cases hplan : u.plans.get rc.graphId with
    | some plan => exact PublishM.safe_pure _
    | none =>
      refine PublishM.Safe.map (safe_respond (jsonResponse_headers _ _) fun hhead => ?_) _
      have hsome := hallowed hhead
      rw [hplan] at hsome
      cases hsome
  rw [admitRoute]
  by_cases httl : 0 < rc.cacheTtl
  · rw [if_pos httl]
    refine PublishM.safe_read_bind fun t _ hinv hallowed => ?_
    cases ha : t.lookup req.method path inputs fun body => cacheResponse 200 body true with
    | none => exact hrest t
    | some a => exact (safe_answer (lookup_sound hinv hallowed ha)).map _
  · rw [if_neg httl]
    exact hrest s

/-- Only a request with a body is refused for its inputs. -/
theorem requestInputs_error {response : Response} (h : requestInputs req = .error response) :
    req.method ≠ ("HEAD" : Text) ∧ ∃ message, response = errorResponse 400 message := by
  rw [requestInputs] at h
  split at h
  · cases h
  case isFalse hmethod =>
    refine ⟨fun hhead => hmethod (Or.inr (Or.inl hhead)), ?_⟩
    split at h
    · cases h
    · split at h
      · cases h
      · cases h
        exact ⟨_, rfl⟩
    · cases h
      exact ⟨_, rfl⟩

theorem safe_admission : (admission req path).Safe s := by
  rw [admission]
  by_cases hoptions : req.method = ("OPTIONS" : Text)
  · rw [if_pos hoptions]
    exact (safe_optionsPreflight (by rw [hoptions]; decide)).map _
  · rw [if_neg hoptions]
    refine PublishM.safe_read_bind fun t _ _ hallowed => ?_
    cases hroute : (reqMethod req.method).bind fun m => t.routes.get (routeKey path m) with
    | none =>
      refine (safe_methodMiss fun hhead => ?_).map _
      have hsome := hallowed hhead
      rw [hhead] at hroute
      rw [show reqMethod "HEAD" = some .head from rfl, Option.bind_some] at hroute
      rw [hroute] at hsome
      cases hsome
    | some rc =>
      cases hinputs : requestInputs req with
      | error response =>
        obtain ⟨hhead, message, rfl⟩ := requestInputs_error hinputs
        exact (safe_respond (jsonResponse_headers _ _) fun h => absurd h hhead).map _
      | ok inputs => exact safe_admitRoute rc inputs

theorem safe_answered_miss {status : Nat} {body : List UInt8} :
    (respond req path (if req.method = ("HEAD" : Text) then { cacheResponse status body false with body := [] }
      else cacheResponse status body false)).Safe s := by
  refine safe_respond (fun h hh => ?_) fun hhead => by rw [if_pos hhead]
  have hheaders : h ∈ (cacheResponse status body false).headers := by
    split at hh <;> exact hh
  simp only [cacheResponse, List.mem_cons, List.not_mem_nil, or_false] at hheaders
  rcases hheaders with rfl | rfl | rfl <;> decide

/-- A response is stored under the refresh that its plan is from. -/
theorem CacheInv.store (h : CacheInv s) {e : Executed} {outcome : Json} (ttl : Nat)
    (hran : .executed e ∈ s.history) (hresult : e.result = .ok (.ok outcome))
    (hstatus : outcomeStatus outcome = 200) (hepoch : e.epoch = s.refreshes) :
    CacheInv (s.store e ttl outcome.toVec) := by
  refine ⟨fun key expires body hget => ?_, h.sound⟩
  rw [AppState.store, Dict.get_set] at hget
  split at hget
  case isTrue hkey =>
    cases hget
    exact ⟨e, outcome, s.clock, ttl, List.mem_cons_of_mem _ hran, List.mem_cons_self, hkey, hresult, hstatus,
      rfl, hepoch, rfl⟩
  case isFalse => exact (h.entries key expires body hget).mono (fun _ hmem => List.mem_cons_of_mem _ hmem) rfl

theorem safe_runAdmitted (run : Runner) (adm : Admitted) : (runAdmitted req path run adm).Safe s := by
  rw [runAdmitted]
  generalize he : (⟨req.method, path, adm.inputs, adm.plan, adm.timeout, adm.epoch,
    run adm.plan adm.inputs adm.timeout⟩ : Executed) = e
  refine PublishM.safe_write_bind fun t _ hinv hallowed =>
    ⟨hinv.note _ hinv.sound, List.suffix_cons _ _, ?_⟩
  have hmethod : e.method = req.method := he ▸ rfl
  have hhead : (∀ outcome, e.result ≠ .ok (.ok outcome)) → req.method ≠ ("HEAD" : Text) := by
    intro hresult hhead
    obtain ⟨outcome, houtcome⟩ := hallowed (hmethod.trans hhead)
    exact hresult outcome houtcome
  cases hresult : e.result with
  | error message =>
    refine safe_respond (jsonResponse_headers _ _) fun h => absurd h (hhead fun _ heq => ?_)
    rw [hresult] at heq
    cases heq
  | ok r =>
    cases r with
    | error message =>
      refine safe_respond (jsonResponse_headers _ _) fun h => absurd h (hhead fun _ heq => ?_)
      rw [hresult] at heq
      cases heq
    | ok outcome =>
      dsimp only
      by_cases hstored : 0 < adm.rc.cacheTtl ∧ outcomeStatus outcome = 200
      · rw [if_pos hstored]
        refine PublishM.safe_write_bind fun u hu hinv hepoch => ⟨?_, List.suffix_cons _ _, safe_answered_miss⟩
        exact hinv.store _ (hu.subset List.mem_cons_self) hresult hstored.2 hepoch
      · rw [if_neg hstored]
        exact safe_answered_miss

theorem safe_publish (run : Runner) (req : Request) : (publish run req).Safe s := by
  refine safe_admission.bind fun r t => ?_
  cases r with
  | error response => exact PublishM.safe_pure _
  | ok adm => exact safe_runAdmitted run adm

theorem safe_refresh (plans : Dict Text CompiledPlan) (routes : Dict Text RouteConfig) :
    (refresh plans routes).Safe s := by
  refine PublishM.safe_write_bind fun t _ hinv _ => ⟨⟨hinv.entries, hinv.sound⟩, List.suffix_refl _, ?_⟩
  refine PublishM.safe_write_bind fun t _ hinv _ => ⟨⟨hinv.entries, hinv.sound⟩, List.suffix_refl _, ?_⟩
  refine fun t _ hinv => ⟨fun _ => ⟨⟨fun key expires body hget => ?_, hinv.sound⟩, List.suffix_refl _,
    fun _ _ => trivial⟩, fun _ _ _ _ => trivial⟩
  cases hget

theorem safe_job (job : Job) : job.script.Safe s := by
  cases job with
  | publish run req => exact (safe_publish run req).bind fun _ _ => PublishM.safe_pure _
  | refresh plans routes => exact safe_refresh plans routes
  | tick nanos =>
    exact fun t _ hinv => ⟨fun _ => ⟨⟨hinv.entries, hinv.sound⟩, List.suffix_refl _, fun _ _ => trivial⟩,
      fun _ _ _ _ => trivial⟩

end Safety

/-- Requests, refreshes and the clock at work on a server. -/
def serving (s : AppState) (jobs : Nat → Job) : Threads PublishStep Text AppState Unit :=
  ⟨s, fun i => (jobs i).script⟩

def itemsRoute (method : RouteMethod) : Text × RouteConfig :=
  (routeKey "items" method, ⟨method.asStr, "items", method, true, 0, 30⟩)

/-- `GET /items` and `DELETE /items`, each of its own graph. -/
def itemsSite : AppState :=
  let plan := CompiledPlan.fromExecutionPlan (ExecutionPlan.new [] []) []
  .start (Dict.ofList [("GET", plan), ("DELETE", plan)])
    (Dict.ofList [itemsRoute .get, itemsRoute .delete]) none 0

def completedRunner : Runner := fun _ _ _ => .ok (.ok (.object [("status", .string "completed")]))

def itemsJob (method : Text) : Job := .publish completedRunner ⟨method, "/items", none, [], .ok []⟩

def itemsJobs : Nat → Job
  | 0 => itemsJob "GET"
  | _ => itemsJob "DELETE"

/-- The read is answered and stored, then the deletion is answered. -/
def readThenDelete : List (Nat × Option Text) :=
  [(0, none), (0, none), (0, none), (0, none), (0, none), (0, none), (1, none), (1, none), (1, none)]

def PublishEvent.isDelete : PublishEvent → Bool
  | executed e => e.method = ("DELETE" : Text)
  | _ => false

def PublishEvent.answersDelete : PublishEvent → Bool
  | answered a => a.method = ("DELETE" : Text) ∧
      (("x-tinypipe-cache", "HIT") : Text × Text) ∈ a.response.headers
  | _ => false

/-- A deletion is answered from the cache, and none has been executed. -/
theorem not_sound_of_delete {history : List PublishEvent} (hlast : history.head?.any PublishEvent.answersDelete)
    (hnone : ¬history.any PublishEvent.isDelete) : ¬Sound history := by
  intro hsound
  cases history with
  | nil => cases hlast
  | cons event earlier =>
    rw [List.head?_cons, Option.any_some] at hlast
    cases event with
    | answered a =>
      obtain ⟨hdelete, hhit⟩ := of_decide_eq_true hlast
      obtain ⟨e, outcome, time, ttl, hran, -, -, hmethod, -⟩ := hsound.1.justified hhit
      exact hnone (List.any_eq_true.2 ⟨.executed e, List.mem_cons_of_mem _ hran,
        decide_eq_true (hmethod.trans hdelete)⟩)
    | executed e => cases hlast
    | stored e time ttl => cases hlast

/-- No live entry is looked up, and nothing is asked for without its body. -/
def PublishStep.plain : PublishStep → AppState → Bool
  | routes method _, _ | plan method _, _ => method ≠ ("HEAD" : Text)
  | lookup _ path inputs, s => (s.respCache.get (cacheKey path inputs)).isNone
  | execute e, _ => e.method ≠ ("HEAD" : Text)
  | store e _, s => e.epoch = s.refreshes
  | _, _ => true

theorem PublishStep.allowed_of_plain {label : PublishStep} {s : AppState} (h : label.plain s) :
    label.Allowed s := by
  cases label with
  | routes method path => exact fun hhead => absurd hhead (of_decide_eq_true h)
  | plan method graphId => exact fun hhead => absurd hhead (of_decide_eq_true h)
  | execute e => exact fun hhead => absurd hhead (of_decide_eq_true h)
  | store e ttl => exact (of_decide_eq_true h : e.epoch = s.refreshes)
  | lookup method path inputs =>
    intro expires body hget
    rw [plain, hget] at h
    cases h
  | _ => exact trivial

end Tinypipe
