import Tinypipe.Lib.Triples
import Tinypipe.Store.Plans

/-! How the HTTP server finds the plan it runs (`tinypipe-server/src/engine.rs`, `api.rs`,
`routes.rs`), and how the registry finds that of a subgraph
(`tinypipe-tools/src/registry.rs`). A request is one step, which reads the clock once. -/

namespace Tinypipe

open Lib Lib.Stateful

inductive RouteMethod where
  | get | post | put | patch | delete | head | options
deriving DecidableEq

def RouteMethod.asStr : RouteMethod → Text
  | .get => "GET"
  | .post => "POST"
  | .put => "PUT"
  | .patch => "PATCH"
  | .delete => "DELETE"
  | .head => "HEAD"
  | .options => "OPTIONS"

structure RouteConfig where
  graphId : Text
  path : Text
  method : RouteMethod
  /-- No token is needed. -/
  isPublic : Bool
  timeoutMs : Nat
  cacheTtl : Nat

def routeKey (path : Text) (method : RouteMethod) : Text := path ++ ("\x01" : Text) ++ method.asStr

/-- A toolchain and the reading of the `http_*` keys of META, of which nothing is assumed. -/
structure Site (Blob : Type) extends Toolchain Blob where
  parseRouteConfig : Text → Text → Except Text (Option RouteConfig)

inductive ServerError where
  | heal (e : HealError)
  | compile (e : BuildError)
  | route (message : Text)
  | duplicateRoute (path : Text) (method : RouteMethod) (existing name : Text)
  | conflict (path : Text) (method : RouteMethod) (existing : Text)
  | noVersions
  | notPublished
  | planNotLoaded

structure Server (Blob : Type) where
  tables : Tables Blob
  /-- The plans of the published routes, by graph. -/
  plans : Dict Text CompiledPlan
  routes : Dict Text RouteConfig
  /-- The registry's plans of subgraphs, each with its version. -/
  planCache : Dict Text (Nat × CompiledPlan)
  /-- A history variable: the code of the version of a graph that was deployed last, unless
  it has been rolled back since. -/
  deployed : Text → Option Text

abbrev ServerM (Blob : Type) := EStateM ServerError (Server Blob)

namespace Server

variable {Blob : Type}

def empty : Server Blob := ⟨Tables.empty, Dict.empty, Dict.empty, Dict.empty, fun _ => none⟩

def setTables (u : Tables Blob) (s : Server Blob) : Server Blob := { s with tables := u }

def noteDeploy (id : Text) (version : Nat) (s : Server Blob) : Server Blob :=
  let code := (s.tables.versions.get (id, version)).map VersionRow.code
  { s with deployed := Function.update s.deployed id code }

def noteRollback (id : Text) (s : Server Blob) : Server Blob :=
  { s with deployed := Function.update s.deployed id none }

def onTables {α : Type} (x : EStateM HealError (Tables Blob) α) : ServerM Blob α :=
  zoom tables setTables (EStateM.adaptExcept .heal x)

def onStorage {α : Type} (x : StorageM Blob α) : ServerM Blob α := onTables (EStateM.adaptExcept .storage x)

end Server

/-! ### Which graph a request means -/

/-- `resolve_graph` of the server: an id, or else a name. -/
def Storage.resolveGraph {Blob : Type} (idOrName : Text) : StorageM Blob GraphDefinition := do
  match ← attempt (Storage.loadGraph idOrName) with
  | .ok g => pure g
  | .error (.graphNotFound _) => Storage.findGraphByName idOrName
  | .error e => throw e

/-- `resolve_graph` of the registry: a name, or else an id. -/
def Storage.resolveSubgraph {Blob : Type} (input : Text) : StorageM Blob GraphDefinition := do
  match ← attempt (Storage.findGraphByName input) with
  | .ok g => pure g
  | .error (.graphNotFound _) => Storage.loadGraph input
  | .error e => throw e

/-- All graphs, the newest first. -/
def Storage.listAllGraphs {Blob : Type} : StorageM Blob (List GraphDefinition) := do
  let s ← get
  pure ((s.graphs.entries.map fun e => Tables.definition e.1 e.2).insertionSort
    fun a b => b.createdAt ≤ a.createdAt)

namespace Site

variable {Blob : Type} (site : Site Blob)

/-! ### Plans -/

/-- The plan of a subgraph's version, compiled when there is none. -/
def loadSubgraphPlan (now : Text) (time : Nat) (g : GraphDefinition) :
    EStateM HealError (Tables Blob) CompiledPlan := do
  match ← attempt (Storage.loadPlanVersion g.id g.version) with
  | .ok bytes => site.decode bytes
  | .error (.planMissing _) | .error (.planVersionMissing _ _) => do
    let plan ← site.rebuild time g.code
    EStateM.adaptExcept .storage (Storage.savePlan now g.id g.version plan)
    site.decode plan
  | .error e => throw (.storage e)

def cachedPlan (s : Server Blob) (g : GraphDefinition) : Option CompiledPlan :=
  (s.planCache.get g.id).bind fun e => if e.1 = g.version then some e.2 else none

def loadCachedPlan (now : Text) (time : Nat) (g : GraphDefinition) : ServerM Blob CompiledPlan := do
  let s ← get
  match cachedPlan s g with
  | some plan => pure plan
  | none => do
    let plan ← Server.onTables (site.loadSubgraphPlan now time g)
    modify fun s => { s with planCache := s.planCache.set g.id (g.version, plan) }
    pure plan

/-- The plan and the route of one graph. -/
def refreshGraph (now : Text) (time : Nat) (plans : Dict Text CompiledPlan)
    (routes : Dict Text RouteConfig) (g : GraphDefinition) :
    ServerM Blob (Dict Text CompiledPlan × Dict Text RouteConfig) := do
  let plan ← Server.onTables (site.loadPlanSelfHeal now time g)
  match site.parseRouteConfig plan.metadata.metaJson g.name with
  | .error e => throw (.route e)
  | .ok none => pure (plans.set g.id plan, routes)
  | .ok (some rc) =>
    match routes.get (routeKey rc.path rc.method) with
    | some existing => throw (.duplicateRoute rc.path rc.method existing.graphId g.name)
    | none => pure (plans.set g.id plan,
        routes.set (routeKey rc.path rc.method) { rc with graphId := g.id })

def refreshGraphs (now : Text) (time : Nat) : List GraphDefinition → Dict Text CompiledPlan →
    Dict Text RouteConfig → ServerM Blob (Dict Text CompiledPlan × Dict Text RouteConfig)
  | [], plans, routes => pure (plans, routes)
  | g :: rest, plans, routes => do
    let (plans, routes) ← site.refreshGraph now time plans routes g
    refreshGraphs now time rest plans routes

/-- Plans and routes from the storage, or none of them when a graph fails. -/
def refreshAll (now : Text) (time : Nat) : ServerM Blob Unit := do
  let graphs ← Server.onStorage Storage.listAllGraphs
  let (plans, routes) ← site.refreshGraphs now time graphs Dict.empty Dict.empty
  modify fun s => { s with plans := plans, routes := routes }

/-! ### Requests that change graphs -/

def checkRouteConflict (graphId metaJson : Text) : ServerM Blob Unit := do
  match site.parseRouteConfig metaJson "" with
  | .error e => throw (.route e)
  | .ok none => pure ()
  | .ok (some rc) => do
    let s ← get
    match s.routes.get (routeKey rc.path rc.method) with
    | some existing =>
      if existing.graphId ≠ graphId then throw (.conflict rc.path rc.method existing.graphId)
      else pure ()
    | none => pure ()

/-- The compiled form of a program, before it is encoded. -/
def compileText (time : Nat) (code : Text) : Except BuildError CompiledPlan :=
  match site.parse code with
  | .error message => .error (.parse message)
  | .ok m => match compile time m with
    | .error e => .error (.compile e)
    | .ok o => .ok o.compiled

def validateRouteConflict (time : Nat) (graphId code : Text) : ServerM Blob Unit := do
  match site.compileText time code with
  | .error e => throw (.compile e)
  | .ok compiled => site.checkRouteConflict graphId compiled.metadata.metaJson

def validateRouteConflictForPlan (graphId : Text) (bytes : Blob) : ServerM Blob Unit := do
  match CompiledPlan.fromFbBytes site.fb bytes with
  | .error e => throw (.heal (.decode e))
  | .ok plan => site.checkRouteConflict graphId plan.metadata.metaJson

def createGraph (now : Text) (time : Nat) (id name code : Text) : ServerM Blob Unit := do
  site.validateRouteConflict time "" code
  let plan ← Server.onTables (site.rebuild time code)
  Server.onStorage do
    let id ← Storage.createGraph id now name code
    Storage.savePlan now id 1 plan
  site.refreshAll now time

def updateGraph (now : Text) (time : Nat) (idOrName code : Text) : ServerM Blob Unit := do
  let g ← Server.onStorage (Storage.resolveGraph idOrName)
  site.validateRouteConflict time g.id code
  let plan ← Server.onTables (site.rebuild time code)
  Server.onStorage do
    let version ← Storage.updateGraph now g.id code
    Storage.savePlan now g.id version plan
  site.refreshAll now time

/-- The version a request to deploy means. -/
def targetVersion (id : Text) : Option Nat → ServerM Blob Nat
  | some version => pure version
  | none => do
    let versions ← Server.onStorage (Storage.listVersions id)
    match versions.getLast? with
    | some e => pure e.1
    | none => throw .noVersions

def deployGraph (now : Text) (time : Nat) (idOrName : Text) (version : Option Nat) :
    ServerM Blob Unit := do
  let g ← Server.onStorage (Storage.resolveGraph idOrName)
  let version ← targetVersion g.id version
  let bytes ← Server.onStorage (Storage.loadPlanVersion g.id version)
  site.validateRouteConflictForPlan g.id bytes
  Server.onStorage (Storage.deploy g.id version)
  site.refreshAll now time
  modify (Server.noteDeploy g.id version)

def rollbackGraph (now : Text) (time : Nat) (idOrName : Text) (version : Nat) : ServerM Blob Unit := do
  let g ← Server.onStorage (Storage.resolveGraph idOrName)
  let bytes ← Server.onStorage (Storage.loadPlanVersion g.id version)
  site.validateRouteConflictForPlan g.id bytes
  Server.onStorage (Storage.rollback now g.id version)
  modify (Server.noteRollback g.id)
  site.refreshAll now time

/-! ### Requests that run a graph -/

/-- `POST /api/graphs/{id}/execute` -/
def executeGraph (now : Text) (time : Nat) (idOrName : Text) : ServerM Blob (Text × CompiledPlan) := do
  let g ← Server.onStorage (Storage.resolveGraph idOrName)
  let plan ← Server.onTables (site.loadPlanSelfHeal now time g)
  pure (g.id, plan)

/-- A published route. -/
def publish (path : Text) (method : RouteMethod) : ServerM Blob (Text × CompiledPlan) := do
  let s ← get
  match s.routes.get (routeKey path method) with
  | none => throw .notPublished
  | some rc => match s.plans.get rc.graphId with
    | none => throw .planNotLoaded
    | some plan => pure (rc.graphId, plan)

/-- The call of a subgraph. -/
def runSubgraph (now : Text) (time : Nat) (name : Text) : ServerM Blob (Text × CompiledPlan) := do
  let g ← Server.onStorage (Storage.resolveSubgraph name)
  let plan ← site.loadCachedPlan now time g
  pure (g.id, plan)

end Site

end Tinypipe
