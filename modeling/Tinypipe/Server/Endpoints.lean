import Tinypipe.Lib.Rely
import Tinypipe.Server.Engine

/-! Requests that change the graphs of a server at the same time, and the routes that are published
of them. A call of the storage holds the lock of its connection; the tables of plans and routes
have locks of their own, and in between anything may happen. -/

namespace Tinypipe

open Lib Lib.Stateful

/-- The steps of a request. Those of a refresh know what they have read: the number of changes to
the storage before. -/
inductive EndpointStep (Blob : Type) where
  | query
  | check
  | store (op : StorageOp Blob)
  | list
  | load (epoch : Nat)
  | heal (epoch : Nat) (id : Text)
  | plans (epoch : Nat)
  | routes (epoch : Nat)

/-- The storage and the tables of a server, with history variables: the number of changes to the
storage, the numbers that the tables show, and the last change that a request has made. -/
structure Endpoints (Blob : Type) where
  tables : Tables Blob
  plans : Dict Text CompiledPlan
  routes : Dict Text RouteConfig
  epoch : Nat
  plansEpoch : Nat
  routesEpoch : Nat
  wrote : Nat → Option Nat

abbrev EndpointM (Blob : Type) := Script (EndpointStep Blob) ServerError (Endpoints Blob)

inductive EndpointRequest (Blob : Type) where
  | createGraph (now : Text) (time : Nat) (id name code : Text)
  | updateGraph (now : Text) (time : Nat) (idOrName code : Text)
  | deployGraph (now : Text) (time : Nat) (idOrName : Text) (version : Option Nat)
  | rollbackGraph (now : Text) (time : Nat) (idOrName : Text) (version : Nat)
  /-- `fork_graph` of the storage, which no handler is in front of. -/
  | forkGraph (childId now id forkNode code : Text) (label : Option Text)

namespace Endpoints

variable {Blob α : Type}

def start (u : Tables Blob) (plans : Dict Text CompiledPlan) (routes : Dict Text RouteConfig) :
    Endpoints Blob :=
  ⟨u, plans, routes, 0, 0, 0, fun _ => none⟩

/-- Request `i` has changed the storage, if the operation succeeds. -/
def changed (i : Nat) (op : StorageOp Blob) (t : Endpoints Blob) : Endpoints Blob :=
  match op.run t.tables with
  | .ok _ u => { t with
      tables := u, epoch := t.epoch + 1, wrote := Function.update t.wrote i (some (t.epoch + 1)) }
  | .error _ u => { t with tables := u }

def answer (x : StorageM Blob α) (t : Endpoints Blob) : EndpointM Blob α :=
  match x t.tables with
  | .ok a _ => pure a
  | .error e _ => .throw (.heal (.storage e))

def fault (message : Text) : EndpointM Blob α := .throw (.heal (.storage (.internal message)))

/-- A call that only reads. -/
def query (x : StorageM Blob α) : EndpointM Blob α := .step .query id (answer x) fault

/-- A call that writes, with its result. -/
def store (i : Nat) (op : StorageOp Blob) (x : StorageM Blob α) : EndpointM Blob α :=
  .step (.store op) (changed i op) (answer x) fault

end Endpoints

namespace Site

variable {Blob : Type} (site : Site Blob)

namespace Concurrent

open Endpoints

def checkRouteConflict (graphId metaJson : Text) : EndpointM Blob Unit :=
  match site.parseRouteConfig metaJson "" with
  | .error e => .throw (.route e)
  | .ok none => pure ()
  | .ok (some rc) => .step .check id (fun t => match t.routes.get (routeKey rc.path rc.method) with
      | some existing => if existing.graphId ≠ graphId then .throw (.conflict rc.path rc.method existing.graphId)
        else pure ()
      | none => pure ()) fault

def validateRouteConflict (time : Nat) (graphId code : Text) : EndpointM Blob Unit :=
  match site.compileText time code with
  | .error e => .throw (.compile e)
  | .ok compiled => checkRouteConflict site graphId compiled.metadata.metaJson

def validateRouteConflictForPlan (graphId : Text) (bytes : Blob) : EndpointM Blob Unit :=
  match CompiledPlan.fromFbBytes site.fb bytes with
  | .error e => .throw (.heal (.decode e))
  | .ok plan => checkRouteConflict site graphId plan.metadata.metaJson

def rebuild (time : Nat) (code : Text) : EndpointM Blob Blob :=
  match site.build time code with
  | .error e => .throw (.heal (.recompile e))
  | .ok plan => pure plan

/-! ### The refresh of the tables -/

/-- The plan of a graph that has none is made from the code that has been listed. -/
def healPlan (now : Text) (time epoch : Nat) (g : GraphDefinition) : EndpointM Blob Blob :=
  match site.build time g.code with
  | .error e => .throw (.heal (.recompile e))
  | .ok plan => .step (.heal epoch g.id)
      (fun t => { t with tables := (StorageOp.savePlan now g.id g.version plan).step t.tables })
      (fun _ => pure plan) fault

def loadPlanSelfHeal (now : Text) (time epoch : Nat) (g : GraphDefinition) : EndpointM Blob Blob :=
  .step (.load epoch) id (fun t => match Storage.loadPlan g.id t.tables with
    | .ok bytes _ => pure bytes
    | .error (.planMissing _) _ => healPlan site now time epoch g
    | .error e _ => .throw (.heal (.storage e))) fault

/-- The plan and the route of one graph, next to those of the graphs before it. -/
def register (plans : Dict Text CompiledPlan) (routes : Dict Text RouteConfig) (g : GraphDefinition)
    (bytes : Blob) : Except ServerError (Dict Text CompiledPlan × Dict Text RouteConfig) :=
  match CompiledPlan.fromFbBytes site.fb bytes with
  | .error e => .error (.heal (.decode e))
  | .ok plan => match site.parseRouteConfig plan.metadata.metaJson g.name with
    | .error e => .error (.route e)
    | .ok none => .ok (plans.set g.id plan, routes)
    | .ok (some rc) => match routes.get (routeKey rc.path rc.method) with
      | some existing => .error (.duplicateRoute rc.path rc.method existing.graphId g.name)
      | none => .ok (plans.set g.id plan, routes.set (routeKey rc.path rc.method) { rc with graphId := g.id })

def refreshGraphs (now : Text) (time epoch : Nat) : List GraphDefinition → Dict Text CompiledPlan →
    Dict Text RouteConfig → EndpointM Blob (Dict Text CompiledPlan × Dict Text RouteConfig)
  | [], plans, routes => pure (plans, routes)
  | g :: rest, plans, routes => do
    let bytes ← loadPlanSelfHeal site now time epoch g
    match register site plans routes g bytes with
    | .error e => .throw e
    | .ok r => refreshGraphs now time epoch rest r.1 r.2

/-- Two locks, one behind the other. -/
def install (epoch : Nat) (plans : Dict Text CompiledPlan) (routes : Dict Text RouteConfig) :
    EndpointM Blob Unit :=
  .step (.plans epoch) (fun t => { t with plans := plans, plansEpoch := epoch })
    (fun _ => .step (.routes epoch) (fun t => { t with routes := routes, routesEpoch := epoch })
      (fun _ => pure ()) fault) fault

def refreshAll (now : Text) (time : Nat) : EndpointM Blob Unit :=
  .step .list id (fun t => do
    let graphs ← answer Storage.listAllGraphs t
    let r ← refreshGraphs site now time t.epoch graphs Dict.empty Dict.empty
    install t.epoch r.1 r.2) fault

/-! ### The requests -/

/-- An id, or else a name. -/
def resolveGraph (idOrName : Text) : EndpointM Blob GraphDefinition :=
  .step .query id (fun t => match Storage.loadGraph idOrName t.tables with
    | .ok g _ => pure g
    | .error (.graphNotFound _) _ => query (Storage.findGraphByName idOrName)
    | .error e _ => .throw (.heal (.storage e))) fault

def createGraph (i : Nat) (now : Text) (time : Nat) (id name code : Text) : EndpointM Blob Unit := do
  validateRouteConflict site time "" code
  let plan ← rebuild site time code
  let id ← store i (.createGraph id now name code) (Storage.createGraph id now name code)
  store i (.savePlan now id 1 plan) (Storage.savePlan now id 1 plan)
  refreshAll site now time

def updateGraph (i : Nat) (now : Text) (time : Nat) (idOrName code : Text) : EndpointM Blob Unit := do
  let g ← resolveGraph idOrName
  validateRouteConflict site time g.id code
  let plan ← rebuild site time code
  let version ← store i (.updateGraph now g.id code) (Storage.updateGraph now g.id code)
  store i (.savePlan now g.id version plan) (Storage.savePlan now g.id version plan)
  refreshAll site now time

def targetVersion (id : Text) : Option Nat → EndpointM Blob Nat
  | some version => pure version
  | none => do
    let versions ← query (Storage.listVersions id)
    match versions.getLast? with
    | some e => pure e.1
    | none => .throw .noVersions

def deployGraph (i : Nat) (now : Text) (time : Nat) (idOrName : Text) (version : Option Nat) :
    EndpointM Blob Unit := do
  let g ← resolveGraph idOrName
  let version ← targetVersion g.id version
  let bytes ← query (Storage.loadPlanVersion g.id version)
  validateRouteConflictForPlan site g.id bytes
  store i (.deploy g.id version) (Storage.deploy g.id version)
  refreshAll site now time

def rollbackGraph (i : Nat) (now : Text) (time : Nat) (idOrName : Text) (version : Nat) :
    EndpointM Blob Unit := do
  let g ← resolveGraph idOrName
  let bytes ← query (Storage.loadPlanVersion g.id version)
  validateRouteConflictForPlan site g.id bytes
  store i (.rollback now g.id version) (Storage.rollback now g.id version)
  refreshAll site now time

def forkGraph (i : Nat) (childId now id forkNode code : Text) (label : Option Text) : EndpointM Blob Unit := do
  let parent ← query (Storage.loadGraph id)
  let _ ← store i (.createForkGraph childId now parent.name code id forkNode label)
    (Storage.createForkGraph childId now parent.name code id forkNode label)

def script (i : Nat) : EndpointRequest Blob → EndpointM Blob Unit
  | .createGraph now time id name code => createGraph site i now time id name code
  | .updateGraph now time idOrName code => updateGraph site i now time idOrName code
  | .deployGraph now time idOrName version => deployGraph site i now time idOrName version
  | .rollbackGraph now time idOrName version => rollbackGraph site i now time idOrName version
  | .forkGraph childId now id forkNode code label => forkGraph i childId now id forkNode code label

end Concurrent

/-! ### What is published -/

/-- A plan that the next refresh may load for a graph: the one it has, or one of its code. -/
def Loads (u : Tables Blob) (id name : Text) (bytes : Blob) : Prop :=
  ∃ row, u.graphs.get id = some row ∧ row.name = name ∧
    (row.executionPlan = some bytes ∨ row.executionPlan = none ∧ site.Made row.code bytes)

/-- The route of a plan. -/
def RouteOf (name : Text) (bytes : Blob) (rc : RouteConfig) : Prop :=
  ∃ plan, CompiledPlan.fromFbBytes site.fb bytes = .ok plan ∧
    site.parseRouteConfig plan.metadata.metaJson name = .ok (some rc)

def Publishes (u : Tables Blob) (id key : Text) : Prop :=
  ∃ name bytes rc, site.Loads u id name bytes ∧ site.RouteOf name bytes rc ∧ routeKey rc.path rc.method = key

/-- The tables hold the plans and the routes of some graphs, as they are in the storage. -/
structure Covers (u : Tables Blob) (done : Text → Prop) (plans : Dict Text CompiledPlan)
    (routes : Dict Text RouteConfig) : Prop where
  planned : ∀ id, done id → ∃ row bytes plan, u.graphs.get id = some row ∧ row.executionPlan = some bytes ∧
    CompiledPlan.fromFbBytes site.fb bytes = .ok plan ∧ plans.get id = some plan
  unplanned : ∀ id, ¬done id → plans.get id = none
  published : ∀ key rc, routes.get key = some rc ↔ done rc.graphId ∧ ∃ row bytes rc',
    u.graphs.get rc.graphId = some row ∧ row.executionPlan = some bytes ∧ site.RouteOf row.name bytes rc' ∧
    routeKey rc'.path rc'.method = key ∧ rc = { rc' with graphId := rc.graphId }

/-- So they do of all graphs. -/
def Shows (u : Tables Blob) (plans : Dict Text CompiledPlan) (routes : Dict Text RouteConfig) : Prop :=
  site.Covers u (fun id => (u.graphs.get id).isSome) plans routes

/-- The plan can be decoded, its META read, and no other graph publishes its route. -/
def RouteFree (u : Tables Blob) (id name : Text) (bytes : Blob) : Prop :=
  (∃ plan r, CompiledPlan.fromFbBytes site.fb bytes = .ok plan ∧
    site.parseRouteConfig plan.metadata.metaJson name = .ok r) ∧
  ∀ rc, site.RouteOf name bytes rc → ∀ other, other ≠ id → ¬site.Publishes u other (routeKey rc.path rc.method)

/-- So it is with every plan of the code, which compiles. -/
def CodeFree (u : Tables Blob) (id name code : Text) : Prop :=
  ∀ time, ∃ bytes, site.build time code = .ok bytes ∧ site.RouteFree u id name bytes

/-- A graph whose plan is loaded, or made, without a conflict. -/
def RowFree (u : Tables Blob) (id : Text) (row : GraphRow Blob) : Prop :=
  match row.executionPlan with
  | some bytes => site.RouteFree u id row.name bytes
  | none => site.CodeFree u id row.name row.code

/-- The next refresh finds no conflict. -/
def Refreshable (u : Tables Blob) : Prop := ∀ id row, u.graphs.get id = some row → site.RowFree u id row

end Site

/-- The check of the route is true of the storage itself when an operation changes it, also in
front of a fork. -/
def StorageOp.Unrivalled {Blob : Type} (site : Site Blob) (u : Tables Blob) : StorageOp Blob → Prop
  | createGraph id _ name code | createForkGraph id _ name code _ _ _ =>
    u.graphs.get id = none → site.CodeFree u id name code
  | updateGraph _ id code => ∀ row, u.graphs.get id = some row → row.executionPlan = none →
    site.CodeFree u id row.name code
  | rollback _ id version => ∀ row old, u.graphs.get id = some row →
    u.versions.get (id, version) = some old → match old.executionPlan with
      | some bytes => site.RouteFree u id row.name bytes
      | none => row.executionPlan = none → site.CodeFree u id row.name old.code
  | deploy _ _ => True
  | savePlan _ id _ bytes => ∀ row, u.graphs.get id = some row → site.RouteFree u id row.name bytes

/-- While a refresh reads, nothing changes but by refreshes that heal other graphs; the tables do not go back; and
no call fails. -/
def EndpointStep.Allowed {Blob : Type} (site : Site Blob) (label : EndpointStep Blob) (fault : Option Text)
    (t : Endpoints Blob) : Prop :=
  match label, fault with
  | _, some _ => False
  | .store op, none => op.Unrivalled site t.tables
  | .load epoch, none => epoch = t.epoch
  | .heal epoch id, none => epoch = t.epoch ∧ (t.tables.graphs.get id).any (·.executionPlan.isNone)
  | .plans epoch, none => t.plansEpoch ≤ epoch
  | .routes epoch, none => t.routesEpoch ≤ epoch
  | _, none => True

def EndpointRequest.refreshes {Blob : Type} : EndpointRequest Blob → Bool
  | forkGraph .. => false
  | _ => true

/-- Requests at work on one server. -/
def endpoints {Blob : Type} (site : Site Blob) (u : Tables Blob) (plans : Dict Text CompiledPlan)
    (routes : Dict Text RouteConfig) (requests : Nat → Option (EndpointRequest Blob)) :
    Threads (EndpointStep Blob) ServerError (Endpoints Blob) Unit where
  shared := .start u plans routes
  programs i := match requests i with
    | some r => Site.Concurrent.script site i r
    | none => pure ()

/-- No route is published twice. A request that has changed the storage does not fail any more,
so one that is rejected has changed nothing. Behind the refresh of the request that has changed
the storage last the tables are those of the storage. -/
def UniqueEndpoints {Blob : Type} (site : Site Blob) (requests : Nat → Option (EndpointRequest Blob))
    (t : Threads (EndpointStep Blob) ServerError (Endpoints Blob) Unit) : Prop :=
  (∀ id id' key, site.Publishes t.shared.tables id key → site.Publishes t.shared.tables id' key → id = id') ∧
  (∀ i e, t.programs i = .done (.error e) → t.shared.wrote i = none) ∧
  ∀ i r, requests i = some r → r.refreshes → t.programs i = .done (.ok ()) →
    t.shared.wrote i = some t.shared.epoch → site.Shows t.shared.tables t.shared.plans t.shared.routes

/-! ### Routes in the storage -/

namespace Site

section Routes

variable {Blob : Type} {site : Site Blob} {u u' : Tables Blob} {id name : Text} {bytes : Blob}

theorem RowFree.loads {row : GraphRow Blob} (h : site.RowFree u id row)
    (hl : row.executionPlan = some bytes ∨ row.executionPlan = none ∧ site.Made row.code bytes) :
    site.RouteFree u id row.name bytes := by
  unfold RowFree at h
  rcases hl with hplan | ⟨hplan, time, hbuild⟩
  · rw [hplan] at h
    exact h
  · rw [hplan] at h
    obtain ⟨bytes', hbuild', hfree⟩ := h time
    rw [hbuild] at hbuild'
    cases hbuild'
    exact hfree

theorem Refreshable.free (h : site.Refreshable u) (hl : site.Loads u id name bytes) :
    site.RouteFree u id name bytes := by
  obtain ⟨row, hrow, rfl, hl⟩ := hl
  exact (h id row hrow).loads hl

theorem Refreshable.unique (h : site.Refreshable u) {id' key : Text} (hp : site.Publishes u id key)
    (hp' : site.Publishes u id' key) : id = id' := by
  obtain ⟨name, bytes, rc, hl, hrc, rfl⟩ := hp
  by_contra hne
  exact (h.free hl).2 rc hrc id' (Ne.symm hne) hp'

/-- Of the other graphs the storage says what it has said. -/
theorem loads_setGraph_ne {row : GraphRow Blob} {other : Text} (hne : other ≠ id) :
    site.Loads (u.setGraph id row) other name bytes ↔ site.Loads u other name bytes := by
  rw [Loads, Loads, Tables.get_setGraph, if_neg hne.symm]

theorem publishes_setGraph_ne {row : GraphRow Blob} {other key : Text} (hne : other ≠ id) :
    site.Publishes (u.setGraph id row) other key ↔ site.Publishes u other key := by
  simp only [Publishes, loads_setGraph_ne hne]

theorem RouteFree.setGraph_self {row : GraphRow Blob} (h : site.RouteFree u id name bytes) :
    site.RouteFree (u.setGraph id row) id name bytes :=
  ⟨h.1, fun rc hrc other hne hp => h.2 rc hrc other hne ((publishes_setGraph_ne hne).1 hp)⟩

theorem RouteFree.setGraph_ne {row : GraphRow Blob} {other : Text} (hne : other ≠ id)
    (hrow : site.RowFree u id row) (hl : site.Loads u other name bytes) (h : site.RouteFree u other name bytes) :
    site.RouteFree (u.setGraph id row) other name bytes := by
  refine ⟨h.1, fun rc hrc third hthird hp => ?_⟩
  by_cases hid : third = id
  · subst hid
    obtain ⟨name', bytes', rc', ⟨row', hget, rfl, hl'⟩, hrc', hkey⟩ := hp
    rw [Tables.get_setGraph, if_pos rfl] at hget
    cases hget
    exact (hrow.loads hl').2 rc' hrc' other hne ⟨name, bytes, rc, hl, hrc, hkey.symm⟩
  · exact h.2 rc hrc third hthird ((publishes_setGraph_ne hid).1 hp)

/-- The header of one graph changes. -/
theorem Refreshable.setGraph (h : site.Refreshable u) {row : GraphRow Blob} (hrow : site.RowFree u id row) :
    site.Refreshable (u.setGraph id row) := by
  intro id' row' hget
  rw [Tables.get_setGraph] at hget
  split at hget
  case isTrue heq =>
    subst heq
    cases hget
    unfold RowFree at hrow ⊢
    cases hplan : row.executionPlan with
    | some bytes =>
      rw [hplan] at hrow
      exact hrow.setGraph_self
    | none =>
      rw [hplan] at hrow
      intro time
      obtain ⟨bytes, hbuild, hfree⟩ := hrow time
      exact ⟨bytes, hbuild, hfree.setGraph_self⟩
  case isFalse hne =>
    have hfree := h id' row' hget
    unfold RowFree at hfree ⊢
    cases hplan : row'.executionPlan with
    | some bytes =>
      rw [hplan] at hfree
      exact RouteFree.setGraph_ne (Ne.symm hne) hrow ⟨row', hget, rfl, Or.inl hplan⟩ hfree
    | none =>
      rw [hplan] at hfree
      intro time
      obtain ⟨bytes, hbuild, hfree⟩ := hfree time
      exact ⟨bytes, hbuild, RouteFree.setGraph_ne (Ne.symm hne) hrow
        ⟨row', hget, rfl, Or.inr ⟨hplan, time, hbuild⟩⟩ hfree⟩

theorem Refreshable.setVersion (h : site.Refreshable u) (v : Nat) (row : VersionRow Blob) :
    site.Refreshable (u.setVersion id v row) := h

/-- What is not read by a refresh changes. -/
theorem RowFree.of_same {row row' : GraphRow Blob} (h : site.RowFree u id row) (hname : row'.name = row.name)
    (hcode : row'.code = row.code) (hplan : row'.executionPlan = row.executionPlan) :
    site.RowFree u id row' := by
  unfold RowFree
  rw [hplan, hname, hcode]
  exact h

end Routes

end Site

section Operations

variable {Blob α : Type} {site : Site Blob} {u u' : Tables Blob} {h : Histories}

theorem discard_of_ok {x : StorageM Blob α} {a : α} (hx : x u = .ok a u') :
    (do let _ ← x : StorageM Blob Unit) u = .ok () u' := by
  rw [bind_of_ok _ hx]
  rfl

theorem discard_of_error {x : StorageM Blob α} {e : StorageError} (hx : x u = .error e u') :
    (do let _ ← x : StorageM Blob Unit) u = .error e u' := bind_of_error _ hx

theorem discard_unit (x : StorageM Blob Unit) (u : Tables Blob) : (do let _ ← x : StorageM Blob Unit) u = x u := by
  cases hx : x u with
  | ok _ u' => exact discard_of_ok hx
  | error e u' => exact discard_of_error hx

/-- An operation fails and changes nothing, or leaves a storage without a conflict. -/
theorem StorageOp.Unrivalled.run_cases {op : StorageOp Blob} (ho : op.Unrivalled site u) (hr : Refines u h)
    (hu : site.Refreshable u) :
    (∃ e, op.run u = .error e u) ∨ ∃ u', op.run u = .ok () u' ∧ site.Refreshable u' := by
  cases op with
  | createGraph id now name code =>
    cases hg : u.graphs.get id with
    | some g => exact Or.inl ⟨_, discard_of_error (Storage.createGraph_error hg now name code)⟩
    | none =>
      have hrow : site.RowFree u id ⟨name, 1, "draft", code, none, none, none, none, none, none, now, now⟩ := ho hg
      exact Or.inr ⟨_, discard_of_ok (Storage.createGraph_ok hg (hr.version_eq_none hg 1) now name code),
        (hu.setGraph hrow).setVersion _ _⟩
  | createForkGraph id now name code parentId forkNode forkLabel =>
    cases hg : u.graphs.get id with
    | some g =>
      exact Or.inl ⟨_, discard_of_error (Storage.createForkGraph_error hg now name code ..)⟩
    | none =>
      have hrow : site.RowFree u id ⟨name, 1, "draft", code, none, none, some parentId, some forkNode, forkLabel,
        none, now, now⟩ := ho hg
      exact Or.inr ⟨_, discard_of_ok (Storage.createForkGraph_ok hg (hr.version_eq_none hg 1) now name code ..),
        (hu.setGraph hrow).setVersion _ _⟩
  | updateGraph now id code =>
    cases hg : u.graphs.get id with
    | none => exact Or.inl ⟨_, discard_of_error (Storage.updateGraph_error hg now code)⟩
    | some g =>
      refine Or.inr ⟨_, discard_of_ok (Storage.updateGraph_ok hg (hr.update_free hg) now code),
        (hu.setGraph ?_).setVersion _ _⟩
      have hrow := hu id g hg
      unfold Site.RowFree at hrow ⊢
      cases hplan : g.executionPlan with
      | some bytes =>
        rw [hplan] at hrow
        exact hrow
      | none => exact ho g hg hplan
  | rollback now id version =>
    cases hv : u.versions.get (id, version) with
    | none => exact Or.inl ⟨_, Storage.rollback_error hv now⟩
    | some old =>
      obtain ⟨g, hg⟩ := hr.exists_graph (hr.ne_nil hv)
      refine Or.inr ⟨_, Storage.rollback_ok hg hv now, (hu.setGraph ?_).setVersion _ _⟩
      have hfree := ho g old hg hv
      have hrow := hu id g hg
      unfold Site.RowFree at hrow ⊢
      rw [Storage.rolledBack]
      dsimp only
      cases hold : old.executionPlan with
      | some bytes =>
        rw [hold] at hfree
        exact hfree
      | none =>
        rw [hold] at hfree
        cases hplan : g.executionPlan with
        | some bytes =>
          rw [hplan] at hrow
          exact hrow
        | none => exact hfree hplan
  | deploy id version =>
    cases hv : u.versions.get (id, version) with
    | none => exact Or.inl ⟨_, Storage.deploy_error hv⟩
    | some r =>
      obtain ⟨g, hg⟩ := hr.exists_graph (hr.ne_nil hv)
      exact Or.inr ⟨_, Storage.deploy_ok hg hv, hu.setGraph ((hu id g hg).of_same rfl rfl rfl)⟩
  | savePlan now id version bytes =>
    cases hg : u.graphs.get id with
    | none => exact Or.inr ⟨u, Storage.savePlan_none hg (hr.version_eq_none hg version) now bytes, hu⟩
    | some g =>
      have hrow : site.RowFree u id { g with executionPlan := some bytes, updatedAt := now } := ho g hg
      cases hv : u.versions.get (id, version) with
      | none => exact Or.inr ⟨_, Storage.savePlan_header hg hv now bytes, hu.setGraph hrow⟩
      | some r => exact Or.inr ⟨_, Storage.savePlan_ok hg hv now bytes, (hu.setGraph hrow).setVersion _ _⟩

theorem StorageOp.Unrivalled.step {op : StorageOp Blob} (ho : op.Unrivalled site u) (hr : Refines u h)
    (hu : site.Refreshable u) : site.Refreshable (op.step u) := by
  rcases ho.run_cases hr hu with ⟨e, he⟩ | ⟨u', hok, hfree⟩
  · rw [StorageOp.step, he]
    exact hu
  · rw [StorageOp.step, hok]
    exact hfree

end Operations

/-! ### What a refresh can rely on -/

/-- Graphs have got plans, and nothing else has changed. -/
structure Healed {Blob : Type} (u u' : Tables Blob) : Prop where
  rows : ∀ id row, u.graphs.get id = some row → ∃ row', u'.graphs.get id = some row' ∧
    row'.name = row.name ∧ row'.code = row.code ∧
    ∀ bytes, row.executionPlan = some bytes → row'.executionPlan = some bytes
  none : ∀ id, u.graphs.get id = none → u'.graphs.get id = none

section Refreshing

variable {Blob : Type} {site : Site Blob} {u u' : Tables Blob}

theorem Healed.refl (u : Tables Blob) : Healed u u :=
  ⟨fun _ row h => ⟨row, h, rfl, rfl, fun _ hb => hb⟩, fun _ h => h⟩

theorem Healed.trans {u'' : Tables Blob} (h : Healed u u') (h' : Healed u' u'') : Healed u u'' := by
  refine ⟨fun id row hrow => ?_, fun id hid => h'.none id (h.none id hid)⟩
  obtain ⟨row', hrow', hname, hcode, hplan⟩ := h.rows id row hrow
  obtain ⟨row'', hrow'', hname', hcode', hplan'⟩ := h'.rows id row' hrow'
  exact ⟨row'', hrow'', hname'.trans hname, hcode'.trans hcode, fun bytes hb => hplan' bytes (hplan bytes hb)⟩

/-- A graph that has no plan gets one. -/
theorem healed_savePlan {id : Text} {row : GraphRow Blob} (hrow : u.graphs.get id = some row)
    (hplan : row.executionPlan = none) (now : Text) (version : Nat) (bytes : Blob) :
    Healed u ((StorageOp.savePlan now id version bytes).step u) ∧
      ((StorageOp.savePlan now id version bytes).step u).graphs.get id =
        some { row with executionPlan := some bytes, updatedAt := now } := by
  have hgraphs : ((StorageOp.savePlan now id version bytes).step u).graphs =
      (u.setGraph id { row with executionPlan := some bytes, updatedAt := now }).graphs := by
    rw [StorageOp.step, StorageOp.run]
    cases hv : u.versions.get (id, version) with
    | none => rw [Storage.savePlan_header hrow hv, finalState]
    | some r => rw [Storage.savePlan_ok hrow hv, finalState, Tables.graphs_setVersion]
  refine ⟨⟨fun id' row' hrow' => ?_, fun id' hid' => ?_⟩, ?_⟩
  · rw [hgraphs, Tables.get_setGraph]
    split
    case isTrue heq =>
      subst heq
      rw [hrow] at hrow'
      cases hrow'
      exact ⟨_, rfl, rfl, rfl, fun b hb => by rw [hplan] at hb; cases hb⟩
    case isFalse => exact ⟨row', hrow', rfl, rfl, fun _ hb => hb⟩
  · rw [hgraphs, Tables.get_setGraph, if_neg]
    · exact hid'
    · rintro rfl
      rw [hrow] at hid'
      cases hid'
  · rw [hgraphs, Tables.get_setGraph, if_pos rfl]

variable {plans : Dict Text CompiledPlan} {routes : Dict Text RouteConfig} {done : Text → Prop}

theorem Site.Covers.healed (h : site.Covers u done plans routes) (hu : Healed u u') :
    site.Covers u' done plans routes := by
  refine ⟨fun id hid => ?_, h.unplanned, fun key rc => (h.published key rc).trans ?_⟩
  · obtain ⟨row, bytes, plan, hrow, hplan, hdecode, hget⟩ := h.planned id hid
    obtain ⟨row', hrow', -, -, hkept⟩ := hu.rows id row hrow
    exact ⟨row', bytes, plan, hrow', hkept bytes hplan, hdecode, hget⟩
  · refine and_congr_right fun hid => ?_
    obtain ⟨row, bytes, plan, hrow, hplan, -, -⟩ := h.planned _ hid
    obtain ⟨row', hrow', hname, -, hkept⟩ := hu.rows _ row hrow
    have hplan' := hkept bytes hplan
    refine ⟨fun hr => ?_, fun hr => ?_⟩
    · obtain ⟨x, b, rc', hx, hb, hroute⟩ := hr
      rw [hrow] at hx
      cases hx
      rw [hplan] at hb
      cases hb
      exact ⟨row', bytes, rc', hrow', hplan', hname ▸ hroute⟩
    · obtain ⟨x, b, rc', hx, hb, hroute⟩ := hr
      rw [hrow'] at hx
      cases hx
      rw [hplan'] at hb
      cases hb
      exact ⟨row, bytes, rc', hrow, hplan, hname ▸ hroute⟩

theorem Healed.isSome (h : Healed u u') (id : Text) : (u'.graphs.get id).isSome = (u.graphs.get id).isSome := by
  cases hg : u.graphs.get id with
  | none => rw [h.none id hg]
  | some row =>
    obtain ⟨row', hrow', -⟩ := h.rows id row hg
    rw [hrow']
    rfl

theorem Site.Shows.healed (h : site.Shows u plans routes) (hu : Healed u u') : site.Shows u' plans routes := by
  have hc := Site.Covers.healed h hu
  unfold Site.Shows
  simp only [hu.isSome]
  exact hc

/-- The plans are those of one table, the routes those of another. -/
theorem Site.Shows.both {plans' : Dict Text CompiledPlan} {routes' : Dict Text RouteConfig}
    (h : site.Shows u plans routes') (h' : site.Shows u plans' routes) : site.Shows u plans routes :=
  ⟨h.planned, h.unplanned, h'.published⟩

theorem Site.RouteOf.unique {name : Text} {bytes : Blob} {rc rc' : RouteConfig} (h : site.RouteOf name bytes rc)
    (h' : site.RouteOf name bytes rc') : rc = rc' := by
  obtain ⟨plan, hdecode, hparse⟩ := h
  obtain ⟨plan', hdecode', hparse'⟩ := h'
  rw [hdecode] at hdecode'
  cases hdecode'
  rw [hparse] at hparse'
  exact Option.some.inj (Except.ok.inj hparse')

variable {g : GraphDefinition} {row : GraphRow Blob} {bytes : Blob}

theorem Site.Covers.set_plans (h : site.Covers u done plans routes) (hrow : u.graphs.get g.id = some row)
    (hplan : row.executionPlan = some bytes) {plan : CompiledPlan}
    (hdecode : CompiledPlan.fromFbBytes site.fb bytes = .ok plan) :
    (∀ id, id = g.id ∨ done id → ∃ row bytes plan', u.graphs.get id = some row ∧ row.executionPlan = some bytes ∧
      CompiledPlan.fromFbBytes site.fb bytes = .ok plan' ∧ (plans.set g.id plan).get id = some plan') ∧
    ∀ id, ¬(id = g.id ∨ done id) → (plans.set g.id plan).get id = none := by
  refine ⟨fun id hid => ?_, fun id hid => ?_⟩
  · by_cases heq : id = g.id
    · exact ⟨row, bytes, plan, heq ▸ hrow, hplan, hdecode, by rw [heq, Dict.get_set, if_pos rfl]⟩
    · obtain ⟨row', bytes', plan', hrest⟩ := h.planned id (hid.resolve_left heq)
      exact ⟨row', bytes', plan', by rw [Dict.get_set_ne _ (Ne.symm heq)]; exact hrest⟩
  · rw [Dict.get_set_ne _ fun heq => hid (Or.inl heq.symm)]
    exact h.unplanned id fun hdone => hid (Or.inr hdone)

/-- The plan of the next graph, which publishes no route. -/
theorem Site.Covers.plan (h : site.Covers u done plans routes) (hrow : u.graphs.get g.id = some row)
    (hname : row.name = g.name) (hplan : row.executionPlan = some bytes) {plan : CompiledPlan}
    (hdecode : CompiledPlan.fromFbBytes site.fb bytes = .ok plan)
    (hparse : site.parseRouteConfig plan.metadata.metaJson g.name = .ok none) :
    site.Covers u (fun id => id = g.id ∨ done id) (plans.set g.id plan) routes := by
  refine ⟨(h.set_plans hrow hplan hdecode).1, (h.set_plans hrow hplan hdecode).2, fun key rc =>
    (h.published key rc).trans ?_⟩
  · refine and_congr_left fun hr => ⟨Or.inr, fun hid => hid.resolve_left fun heq => ?_⟩
    obtain ⟨row', bytes', rc', hrow', hplan', hroute, -⟩ := hr
    rw [heq, hrow] at hrow'
    cases hrow'
    rw [hplan] at hplan'
    cases hplan'
    obtain ⟨plan', hdecode', hparse'⟩ := hroute
    rw [hdecode] at hdecode'
    cases hdecode'
    rw [hname, hparse] at hparse'
    cases hparse'

/-- The next graph, which publishes a route that is not in the table. -/
theorem Site.Covers.route (h : site.Covers u done plans routes)
    (hrow : u.graphs.get g.id = some row) (hname : row.name = g.name) (hplan : row.executionPlan = some bytes)
    {plan : CompiledPlan} (hdecode : CompiledPlan.fromFbBytes site.fb bytes = .ok plan) {rc : RouteConfig}
    (hroute : site.RouteOf g.name bytes rc) (hfree : routes.get (routeKey rc.path rc.method) = none) :
    site.Covers u (fun id => id = g.id ∨ done id) (plans.set g.id plan)
      (routes.set (routeKey rc.path rc.method) { rc with graphId := g.id }) := by
  refine ⟨(h.set_plans hrow hplan hdecode).1, (h.set_plans hrow hplan hdecode).2, fun key rc₁ => ?_⟩
  · rw [Dict.get_set]
    constructor
    · intro hget
      split at hget
      case isTrue heq =>
        cases hget
        exact ⟨Or.inl rfl, row, bytes, rc, hrow, hplan, hname ▸ hroute, heq, rfl⟩
      case isFalse =>
        obtain ⟨hdone, hr⟩ := (h.published key rc₁).1 hget
        exact ⟨Or.inr hdone, hr⟩
    · intro hr
      obtain ⟨hor, row', bytes', rc', hrow', hplan', hroute', hkey, hrc⟩ := hr
      by_cases heq : rc₁.graphId = g.id
      · rw [heq, hrow] at hrow'
        cases hrow'
        rw [hplan] at hplan'
        cases hplan'
        obtain rfl := hroute.unique (hname ▸ hroute')
        rw [if_pos hkey, hrc, heq]
      · have hget := (h.published key rc₁).2
          ⟨hor.resolve_left heq, row', bytes', rc', hrow', hplan', hroute', hkey, hrc⟩
        rw [if_neg]
        · exact hget
        · rintro rfl
          rw [hfree] at hget
          cases hget

/-- A refresh without a conflict registers the next graph. -/
theorem Site.Covers.register (h : site.Covers u done plans routes) (hu : site.Refreshable u) (hid : ¬done g.id)
    (hrow : u.graphs.get g.id = some row) (hname : row.name = g.name) (hplan : row.executionPlan = some bytes) :
    ∃ r, Site.Concurrent.register site plans routes g bytes = .ok r ∧
      site.Covers u (fun id => id = g.id ∨ done id) r.1 r.2 := by
  obtain ⟨⟨plan, r, hdecode, hparse⟩, hfree⟩ := hu.free ⟨row, hrow, hname, Or.inl hplan⟩
  cases r with
  | none =>
    refine ⟨(plans.set g.id plan, routes), ?_, h.plan hrow hname hplan hdecode hparse⟩
    simp only [Site.Concurrent.register, hdecode, hparse]
  | some rc =>
    have hroute : site.RouteOf g.name bytes rc := ⟨plan, hdecode, hparse⟩
    have hnone : routes.get (routeKey rc.path rc.method) = none := by
      cases hget : routes.get (routeKey rc.path rc.method) with
      | none => rfl
      | some existing =>
        obtain ⟨hdone, row', bytes', rc', hrow', hplan', hroute', hkey, -⟩ := (h.published _ _).1 hget
        refine absurd ⟨row'.name, bytes', rc', ⟨row', hrow', rfl, Or.inl hplan'⟩, hroute', hkey⟩
          (hfree rc hroute existing.graphId ?_)
        intro heq
        exact hid (heq ▸ hdone)
    refine ⟨(plans.set g.id plan, routes.set (routeKey rc.path rc.method) { rc with graphId := g.id }), ?_,
      h.route hrow hname hplan hdecode hroute hnone⟩
    simp only [Site.Concurrent.register, hdecode, hparse, hnone]

end Refreshing

/-! ### The terms of a request -/

namespace Endpoints

section Terms

variable {Blob : Type} {site : Site Blob} {requests : Nat → Option (EndpointRequest Blob)} {i : Nat}
  {t u : Endpoints Blob}

/-- The next refresh finds no conflict, and tables that are up to date show the storage. -/
structure Inv (site : Site Blob) (t : Endpoints Blob) : Prop where
  refines : ∃ h, Refines t.tables h
  free : site.Refreshable t.tables
  plansEpoch : t.plansEpoch ≤ t.epoch
  routesEpoch : t.routesEpoch ≤ t.epoch
  wrote : ∀ i w, t.wrote i = some w → w ≤ t.epoch
  plans : t.plansEpoch = t.epoch → ∃ routes, site.Shows t.tables t.plans routes
  routes : t.routesEpoch = t.epoch → ∃ plans, site.Shows t.tables plans t.routes

/-- What the others may have done. -/
structure Behind (i : Nat) (t t' : Endpoints Blob) : Prop where
  epoch : t.epoch ≤ t'.epoch
  same : t'.epoch = t.epoch → Healed t.tables t'.tables
  wrote : t'.wrote i = t.wrote i
  plansEpoch : t.plansEpoch ≤ t'.plansEpoch
  routesEpoch : t.routesEpoch ≤ t'.routesEpoch

theorem Behind.refl (i : Nat) (t : Endpoints Blob) : Behind i t t :=
  ⟨Nat.le_refl _, fun _ => Healed.refl _, rfl, Nat.le_refl _, Nat.le_refl _⟩

theorem Behind.trans {t' t'' : Endpoints Blob} (h : Behind i t t') (h' : Behind i t' t'') : Behind i t t'' where
  epoch := h.epoch.trans h'.epoch
  same heq := by
    have := h.epoch
    have := h'.epoch
    exact (h.same (by omega)).trans (h'.same (by omega))
  wrote := h'.wrote.trans h.wrote
  plansEpoch := h.plansEpoch.trans h'.plansEpoch
  routesEpoch := h.routesEpoch.trans h'.routesEpoch

def contract (site : Site Blob) (i : Nat) : Contract (EndpointStep Blob) (Endpoints Blob) where
  inv := Inv site
  rely := Behind i
  guar t t' := ∀ j, j ≠ i → Behind j t t'
  allowed := EndpointStep.Allowed site
  refl := Behind.refl i
  trans _ _ _ h h' := h.trans h'

theorem contract_compatible (site : Site Blob) : Threads.Compatible (contract site) :=
  ⟨fun _ _ _ h => h, fun _ _ hne _ _ _ h => h _ (Ne.symm hne)⟩

/-- A request that ends in an error has changed nothing; the tables of one that succeeds are not
older than its changes. -/
def Ended (requests : Nat → Option (EndpointRequest Blob)) (i : Nat) (r : Except ServerError Unit)
    (t : Endpoints Blob) : Prop :=
  match r with
  | .error _ => t.wrote i = none
  | .ok () => ∀ q, requests i = some q → q.refreshes → ∀ w, t.wrote i = some w →
    w ≤ t.plansEpoch ∧ w ≤ t.routesEpoch

theorem Ended.behind {r : Except ServerError Unit} (h : Ended requests i r t) (hu : Behind i t u) :
    Ended requests i r u := by
  cases r with
  | error e => exact hu.wrote.trans h
  | ok _ =>
    intro q hq hrefreshes w hw
    have hle := h q hq hrefreshes w (hu.wrote.symm.trans hw)
    exact ⟨hle.1.trans hu.plansEpoch, hle.2.trans hu.routesEpoch⟩

def Safe (site : Site Blob) (requests : Nat → Option (EndpointRequest Blob)) (i : Nat) :
    EndpointM Blob Unit → Endpoints Blob → Prop :=
  Script.Safe (contract site i) (Ended requests i)

theorem safe_done {r : Except ServerError Unit} (h : Ended requests i r t) :
    Safe site requests i (.done r) t := fun _ hu => h.behind hu

theorem safe_step {label : EndpointStep Blob} {write : Endpoints Blob → Endpoints Blob}
    {next : Endpoints Blob → EndpointM Blob Unit} {failed : Text → EndpointM Blob Unit}
    (h : ∀ u, Behind i t u → Inv site u → label.Allowed site none u →
      Inv site (write u) ∧ (∀ j, j ≠ i → Behind j u (write u)) ∧ Safe site requests i (next u) (write u)) :
    Safe site requests i (.step label write next failed) t :=
  fun u hu hinv => ⟨h u hu hinv, fun _ he => he.elim⟩

theorem safe_read {label : EndpointStep Blob} {next : Endpoints Blob → EndpointM Blob Unit}
    {failed : Text → EndpointM Blob Unit}
    (h : ∀ u, Behind i t u → Inv site u → label.Allowed site none u → Safe site requests i (next u) u) :
    Safe site requests i (.step label id next failed) t :=
  safe_step fun u hu hinv hallowed => ⟨hinv, fun j _ => Behind.refl j u, h u hu hinv hallowed⟩

section Before

/-! ### In front of the first change -/

variable {α : Type} {k : α → EndpointM Blob Unit}

theorem safe_answer {x : StorageM Blob α} (hfresh : t.wrote i = none)
    (hk : ∀ a, Safe site requests i (k a) t) : Safe site requests i (answer x t >>= k) t := by
  rw [answer]
  cases x t.tables with
  | ok a _ => exact hk a
  | error e _ => exact safe_done hfresh

theorem safe_query {x : StorageM Blob α} (hfresh : t.wrote i = none)
    (hk : ∀ a u, u.wrote i = none → Safe site requests i (k a) u) :
    Safe site requests i (query x >>= k) t := by
  refine safe_read fun u hu _ _ => ?_
  have hfresh' := hu.wrote.trans hfresh
  exact safe_answer hfresh' fun a => hk a u hfresh'

theorem safe_checkRouteConflict {k : Unit → EndpointM Blob Unit} {graphId metaJson : Text}
    (hfresh : t.wrote i = none) (hk : ∀ u, u.wrote i = none → Safe site requests i (k ()) u) :
    Safe site requests i (Site.Concurrent.checkRouteConflict site graphId metaJson >>= k) t := by
  rw [Site.Concurrent.checkRouteConflict]
  cases site.parseRouteConfig metaJson "" with
  | error e => exact safe_done hfresh
  | ok rc =>
    cases rc with
    | none => exact hk t hfresh
    | some rc =>
      refine safe_read fun u hu _ _ => ?_
      have hfresh' := hu.wrote.trans hfresh
      dsimp only
      cases u.routes.get (routeKey rc.path rc.method) with
      | none => exact hk u hfresh'
      | some existing =>
        dsimp only
        by_cases hid : existing.graphId ≠ graphId
        · rw [if_pos hid]
          exact safe_done hfresh'
        · rw [if_neg hid]
          exact hk u hfresh'

theorem safe_validateRouteConflict {k : Unit → EndpointM Blob Unit} {time : Nat} {graphId code : Text}
    (hfresh : t.wrote i = none) (hk : ∀ u, u.wrote i = none → Safe site requests i (k ()) u) :
    Safe site requests i (Site.Concurrent.validateRouteConflict site time graphId code >>= k) t := by
  rw [Site.Concurrent.validateRouteConflict]
  cases site.compileText time code with
  | error e => exact safe_done hfresh
  | ok compiled => exact safe_checkRouteConflict hfresh hk

theorem safe_validateRouteConflictForPlan {k : Unit → EndpointM Blob Unit} {graphId : Text} {bytes : Blob}
    (hfresh : t.wrote i = none) (hk : ∀ u, u.wrote i = none → Safe site requests i (k ()) u) :
    Safe site requests i (Site.Concurrent.validateRouteConflictForPlan site graphId bytes >>= k) t := by
  rw [Site.Concurrent.validateRouteConflictForPlan]
  cases CompiledPlan.fromFbBytes site.fb bytes with
  | error e => exact safe_done hfresh
  | ok plan => exact safe_checkRouteConflict hfresh hk

theorem safe_rebuild {k : Blob → EndpointM Blob Unit} {time : Nat} {code : Text} (hfresh : t.wrote i = none)
    (hk : ∀ bytes, Safe site requests i (k bytes) t) :
    Safe site requests i (Site.Concurrent.rebuild site time code >>= k) t := by
  rw [Site.Concurrent.rebuild]
  cases site.build time code with
  | error e => exact safe_done hfresh
  | ok bytes => exact hk bytes

theorem safe_resolveGraph {k : GraphDefinition → EndpointM Blob Unit} {idOrName : Text}
    (hfresh : t.wrote i = none) (hk : ∀ g u, u.wrote i = none → Safe site requests i (k g) u) :
    Safe site requests i (Site.Concurrent.resolveGraph idOrName >>= k) t := by
  refine safe_read fun u hu _ _ => ?_
  have hfresh' := hu.wrote.trans hfresh
  dsimp only
  split
  · exact hk _ u hfresh'
  · exact safe_query hfresh' hk
  · exact safe_done hfresh'

theorem safe_targetVersion {k : Nat → EndpointM Blob Unit} {id : Text} {version : Option Nat}
    (hfresh : t.wrote i = none) (hk : ∀ v u, u.wrote i = none → Safe site requests i (k v) u) :
    Safe site requests i (Site.Concurrent.targetVersion id version >>= k) t := by
  cases version with
  | some v => exact hk v t hfresh
  | none =>
    rw [Site.Concurrent.targetVersion, Script.bind_assoc]
    refine safe_query hfresh fun versions u hfresh' => ?_
    cases versions.getLast? with
    | some e => exact hk e.1 u hfresh'
    | none => exact safe_done hfresh'

end Before

/-! ### Changes -/

theorem Inv.changed {op : StorageOp Blob} (h : Inv site t) {v : Tables Blob} (hv : op.step t.tables = v)
    (hfree : site.Refreshable v) : Inv site { t with
      tables := v, epoch := t.epoch + 1, wrote := Function.update t.wrote i (some (t.epoch + 1)) } := by
  obtain ⟨hist, hr⟩ := h.refines
  have hplans := h.plansEpoch
  have hroutes := h.routesEpoch
  refine ⟨⟨_, hv ▸ hr.step op⟩, hfree, Nat.le_succ_of_le hplans, Nat.le_succ_of_le hroutes, fun j w hw => ?_,
    fun heq => ?_, fun heq => ?_⟩
  · dsimp only at hw ⊢
    rw [Function.update_apply] at hw
    split at hw
    case isTrue => exact (Option.some.inj hw).ge
    case isFalse => exact Nat.le_succ_of_le (h.wrote j w hw)
  · dsimp only at heq
    omega
  · dsimp only at heq
    omega

/-- A call that changes the storage. It may fail as long as nothing has been changed. -/
theorem safe_store {α : Type} {op : StorageOp Blob} {x : StorageM Blob α} {k : α → EndpointM Blob Unit}
    (hop : ∀ u, op.run u = (do let _ ← x : StorageM Blob Unit) u)
    (hfresh : t.wrote i = none ∨ ∀ u, ∃ u', op.run u = .ok () u')
    (hk : ∀ a u, Safe site requests i (k a) u) : Safe site requests i (store i op x >>= k) t := by
  refine safe_step fun u hu hinv ho => ?_
  obtain ⟨hist, hr⟩ := hinv.refines
  have ho' : op.Unrivalled site u.tables := ho
  rcases ho'.run_cases hr hinv.free with ⟨e, he⟩ | ⟨v, hv, hfree⟩
  · have hx : ∃ v, x u.tables = .error e v := by
      rw [hop] at he
      cases hx : x u.tables with
      | error e' v =>
        rw [bind_of_error _ hx] at he
        cases he
        exact ⟨_, rfl⟩
      | ok a v =>
        rw [bind_of_ok _ hx] at he
        cases he
    obtain ⟨v, hx⟩ := hx
    rw [changed, he, answer, hx]
    refine ⟨hinv, fun j _ => Behind.refl j u, safe_done ?_⟩
    refine hu.wrote.trans (hfresh.resolve_right fun hok => ?_)
    obtain ⟨v, hv⟩ := hok u.tables
    rw [he] at hv
    cases hv
  · have hx : ∃ a, x u.tables = .ok a v := by
      rw [hop] at hv
      cases hx : x u.tables with
      | error e' v =>
        rw [bind_of_error _ hx] at hv
        cases hv
      | ok a v =>
        rw [bind_of_ok _ hx] at hv
        cases hv
        exact ⟨a, rfl⟩
    obtain ⟨a, hx⟩ := hx
    have hstep : op.step u.tables = v := by rw [StorageOp.step, hv, finalState]
    rw [changed, hv, answer, hx]
    refine ⟨hinv.changed hstep hfree, fun j hj => ?_, hk a _⟩
    refine ⟨Nat.le_succ _, fun heq => ?_, Function.update_of_ne hj .., Nat.le_refl _, Nat.le_refl _⟩
    exact absurd heq (Nat.succ_ne_self _)

/-! ### The refresh behind it -/

/-- A refresh that has read up to the graphs `gs`. As long as nothing is changed, its tables are those
of the other graphs. -/
structure Reading (site : Site Blob) (i epoch : Nat) (done : Text → Prop) (gs : List GraphDefinition)
    (plans : Dict Text CompiledPlan) (routes : Dict Text RouteConfig) (t : Endpoints Blob) : Prop where
  le : epoch ≤ t.epoch
  wrote : ∀ w, t.wrote i = some w → w ≤ epoch
  covers : t.epoch = epoch → site.Covers t.tables done plans routes
  listed : t.epoch = epoch → ∀ g ∈ gs, ∃ row, t.tables.graphs.get g.id = some row ∧ row.name = g.name ∧
    row.code = g.code
  all : t.epoch = epoch → ∀ id, (t.tables.graphs.get id).isSome ↔ done id ∨ ∃ g ∈ gs, g.id = id
  nodup : (gs.map GraphDefinition.id).Nodup
  fresh : ∀ g ∈ gs, ¬done g.id

variable {epoch : Nat} {done : Text → Prop} {gs : List GraphDefinition} {g : GraphDefinition}
  {plans : Dict Text CompiledPlan} {routes : Dict Text RouteConfig}

theorem Reading.behind (h : Reading site i epoch done gs plans routes t) (hu : Behind i t u) :
    Reading site i epoch done gs plans routes u := by
  have hle := h.le
  have hle' := hu.epoch
  have hback : u.epoch = epoch → t.epoch = epoch ∧ Healed t.tables u.tables := fun heq =>
    ⟨by omega, hu.same (by omega)⟩
  refine ⟨hle.trans hle', fun w hw => h.wrote w (hu.wrote.symm.trans hw), fun heq => ?_, fun heq g hg => ?_,
    fun heq id => ?_, h.nodup, h.fresh⟩
  · exact (h.covers (hback heq).1).healed (hback heq).2
  · obtain ⟨row, hrow, hname, hcode⟩ := h.listed (hback heq).1 g hg
    obtain ⟨row', hrow', hname', hcode', -⟩ := (hback heq).2.rows _ row hrow
    exact ⟨row', hrow', hname'.trans hname, hcode'.trans hcode⟩
  · rw [(hback heq).2.isSome]
    exact h.all (hback heq).1 id

/-- The next graph has its plan. -/
theorem Reading.register (h : Reading site i epoch done (g :: gs) plans routes t) (heq : t.epoch = epoch)
    (hfree : site.Refreshable t.tables) {row : GraphRow Blob} (hrow : t.tables.graphs.get g.id = some row)
    {bytes : Blob} (hplan : row.executionPlan = some bytes) :
    ∃ r, Site.Concurrent.register site plans routes g bytes = .ok r ∧
      Reading site i epoch (fun id => id = g.id ∨ done id) gs r.1 r.2 t := by
  obtain ⟨row', hrow', hname, -⟩ := h.listed heq g (List.mem_cons_self ..)
  rw [hrow] at hrow'
  cases hrow'
  obtain ⟨r, hr, hcovers⟩ := (h.covers heq).register hfree (h.fresh g (List.mem_cons_self ..)) hrow hname hplan
  have hnodup := h.nodup
  rw [List.map_cons, List.nodup_cons] at hnodup
  refine ⟨r, hr, h.le, h.wrote, fun _ => hcovers, fun _ g' hg' => h.listed heq g' (List.mem_cons_of_mem _ hg'),
    fun _ id => (h.all heq id).trans ?_, hnodup.2, fun g' hg' => ?_⟩
  · rw [List.exists_mem_cons_iff, or_assoc, or_left_comm, eq_comm]
  · rintro (hid | hdone)
    · exact hnodup.1 (hid ▸ List.mem_map_of_mem hg')
    · exact h.fresh g' (List.mem_cons_of_mem _ hg') hdone

/-- A refresh that has read all graphs. -/
theorem Reading.shows (h : Reading site i epoch done [] plans routes t) (heq : t.epoch = epoch) :
    site.Shows t.tables plans routes := by
  have hall : (fun id => ((t.tables.graphs.get id).isSome : Prop)) = done := by
    funext id
    rw [eq_iff_iff, h.all heq id]
    simp
  rw [Site.Shows, hall]
  exact h.covers heq

theorem install_safe (h : Reading site i epoch done [] plans routes t) :
    Safe site requests i (Site.Concurrent.install epoch plans routes) t := by
  refine safe_step fun u hu hinv hplans => ?_
  have hreading := h.behind hu
  have hnew : ∀ j, Behind j u { u with plans := plans, plansEpoch := epoch } := fun _ =>
    ⟨Nat.le_refl _, fun _ => Healed.refl _, rfl, hplans, Nat.le_refl _⟩
  refine ⟨⟨hinv.refines, hinv.free, hreading.le, hinv.routesEpoch, hinv.wrote,
    fun heq => ⟨routes, hreading.shows heq.symm⟩, hinv.routes⟩, fun j _ => hnew j, ?_⟩
  refine safe_step fun v hv hinv hroutes => ?_
  have hreading := hreading.behind ((hnew i).trans hv)
  refine ⟨⟨hinv.refines, hinv.free, hinv.plansEpoch, hreading.le, hinv.wrote, hinv.plans,
    fun heq => ⟨plans, hreading.shows heq.symm⟩⟩, fun _ _ =>
    ⟨Nat.le_refl _, fun _ => Healed.refl _, rfl, Nat.le_refl _, hroutes⟩, safe_done ?_⟩
  intro q _ _ w hw
  exact ⟨(hreading.wrote w hw).trans hv.plansEpoch, hreading.wrote w hw⟩

/-- A refresh that finds the storage as it was listed. -/
theorem refreshGraphs_safe {now : Text} {time : Nat} (h : Reading site i epoch done gs plans routes t) :
    Safe site requests i (Site.Concurrent.refreshGraphs site now time epoch gs plans routes >>= fun r =>
      Site.Concurrent.install epoch r.1 r.2) t := by
  induction gs generalizing done plans routes t with
  | nil => exact install_safe h
  | cons g gs ih =>
    rw [Site.Concurrent.refreshGraphs, Script.bind_assoc, Site.Concurrent.loadPlanSelfHeal, Script.step_bind]
    refine safe_read fun u hu hinv hload => ?_
    have hreading := h.behind hu
    obtain ⟨row, hrow, hname, hcode⟩ := hreading.listed hload.symm g (List.mem_cons_self ..)
    cases hplan : row.executionPlan with
    | some bytes =>
      have hok : Storage.loadPlan g.id u.tables = .ok bytes u.tables := by
        simp only [Storage.loadPlan, get_bind, hrow, hplan, pure_apply]
      obtain ⟨r, hr, hreading⟩ := hreading.register hload.symm hinv.free hrow hplan
      rw [hok]
      dsimp only
      rw [Script.pure_bind, hr]
      exact ih hreading
    | none =>
      have hmissing : Storage.loadPlan g.id u.tables = .error (.planMissing g.id) u.tables := by
        simp only [Storage.loadPlan, get_bind, hrow, hplan, throw_apply]
      have hfree := hinv.free g.id row hrow
      rw [Site.RowFree, hplan] at hfree
      obtain ⟨bytes, hbuild, -⟩ := hfree time
      rw [hmissing]
      dsimp only
      rw [Site.Concurrent.healPlan, ← hcode, hbuild]
      dsimp only
      rw [Script.step_bind]
      refine safe_step fun v hv hinv hheal => ?_
      have hreading := hreading.behind hv
      obtain ⟨row', hrow', hname', hcode'⟩ := hreading.listed hheal.1.symm g (List.mem_cons_self ..)
      have hnone : row'.executionPlan = none := by
        have hany := hheal.2
        rw [hrow', Option.any_some, Option.isNone_iff_eq_none] at hany
        exact hany
      have hmade : site.Made row'.code bytes := ⟨time, by rw [hcode', ← hcode]; exact hbuild⟩
      obtain ⟨hist, hr⟩ := hinv.refines
      obtain ⟨hhealed, hget⟩ := healed_savePlan hrow' hnone now g.version bytes
      have ho : (StorageOp.savePlan now g.id g.version bytes).Unrivalled site v.tables := by
        intro row hrow
        rw [hrow'] at hrow
        cases hrow
        exact (hinv.free g.id row' hrow').loads (Or.inr ⟨hnone, hmade⟩)
      have hnew : ∀ j, Behind j v
          { v with tables := (StorageOp.savePlan now g.id g.version bytes).step v.tables } := fun _ =>
        ⟨Nat.le_refl _, fun _ => hhealed, rfl, Nat.le_refl _, Nat.le_refl _⟩
      refine ⟨⟨⟨_, hr.step (.savePlan now g.id g.version bytes)⟩, ho.step hr hinv.free, hinv.plansEpoch, hinv.routesEpoch, hinv.wrote, fun heq => ?_,
        fun heq => ?_⟩, fun j _ => hnew j, ?_⟩
      · obtain ⟨routes, hshows⟩ := hinv.plans heq
        exact ⟨routes, hshows.healed hhealed⟩
      · obtain ⟨plans, hshows⟩ := hinv.routes heq
        exact ⟨plans, hshows.healed hhealed⟩
      · have hreading := hreading.behind (hnew i)
        obtain ⟨r, hr, hreading⟩ := hreading.register hheal.1.symm (ho.step hr hinv.free) hget rfl
        rw [Script.pure_bind, hr]
        exact ih hreading

theorem mem_listAllGraphs {v : Tables Blob} {g : GraphDefinition} {l : List GraphDefinition}
    (hl : Storage.listAllGraphs v = .ok l v) :
    g ∈ l ↔ ∃ row, v.graphs.get g.id = some row ∧ g = Tables.definition g.id row := by
  cases hl
  rw [List.mem_insertionSort, List.mem_map]
  constructor
  · rintro ⟨e, he, rfl⟩
    exact ⟨e.2, Dict.get_eq_some_iff.2 he, rfl⟩
  · rintro ⟨row, hrow, heq⟩
    exact ⟨(g.id, row), Dict.get_eq_some_iff.1 hrow, heq.symm⟩

theorem listAllGraphs_nodup {v : Tables Blob} {l : List GraphDefinition}
    (hl : Storage.listAllGraphs v = .ok l v) : (l.map GraphDefinition.id).Nodup := by
  cases hl
  rw [((List.perm_insertionSort _ _).map _).nodup_iff, List.map_map]
  exact v.graphs.nodup

/-- The storage is listed behind all changes of the request. -/
theorem Inv.reading (h : Inv site t) {l : List GraphDefinition}
    (hl : Storage.listAllGraphs t.tables = .ok l t.tables) :
    Reading site i t.epoch (fun _ => False) l Dict.empty Dict.empty t where
  le := Nat.le_refl _
  wrote := h.wrote i
  covers _ := by
    refine ⟨fun _ hid => False.elim hid, fun _ _ => rfl, fun key rc => ?_⟩
    exact iff_of_false (fun hget => by cases hget) fun hr => hr.1
  listed _ g hg := by
    obtain ⟨row, hrow, heq⟩ := (mem_listAllGraphs hl).1 hg
    exact ⟨row, hrow, by rw [heq]; rfl, by rw [heq]; rfl⟩
  all _ id := by
    rw [false_or, Option.isSome_iff_exists]
    constructor
    · rintro ⟨row, hrow⟩
      exact ⟨Tables.definition id row, (mem_listAllGraphs hl).2 ⟨row, hrow, rfl⟩, rfl⟩
    · rintro ⟨g, hg, rfl⟩
      obtain ⟨row, hrow, -⟩ := (mem_listAllGraphs hl).1 hg
      exact ⟨row, hrow⟩
  nodup := listAllGraphs_nodup hl
  fresh _ _ hid := hid

theorem refreshAll_safe {now : Text} {time : Nat} :
    Safe site requests i (Site.Concurrent.refreshAll site now time) t := by
  refine safe_read fun u _ hinv _ => ?_
  exact refreshGraphs_safe (hinv.reading rfl)

/-! ### The requests -/

theorem script_safe (r : EndpointRequest Blob) (hr : requests i = some r) (hfresh : t.wrote i = none) :
    Safe site requests i (Site.Concurrent.script site i r) t := by
  cases r with
  | createGraph now time id name code =>
    refine safe_validateRouteConflict hfresh fun u hu => ?_
    refine safe_rebuild hu fun bytes => ?_
    refine safe_store (fun _ => rfl) (Or.inl hu) fun id' u => ?_
    refine safe_store (fun _ => rfl) (Or.inr fun _ => ⟨_, rfl⟩) fun _ u => ?_
    exact refreshAll_safe
  | updateGraph now time idOrName code =>
    refine safe_resolveGraph hfresh fun g u hu => ?_
    refine safe_validateRouteConflict hu fun u hu => ?_
    refine safe_rebuild hu fun bytes => ?_
    refine safe_store (fun _ => rfl) (Or.inl hu) fun version u => ?_
    refine safe_store (fun _ => rfl) (Or.inr fun _ => ⟨_, rfl⟩) fun _ u => ?_
    exact refreshAll_safe
  | deployGraph now time idOrName version =>
    refine safe_resolveGraph hfresh fun g u hu => ?_
    refine safe_targetVersion hu fun v u hu => ?_
    refine safe_query hu fun bytes u hu => ?_
    refine safe_validateRouteConflictForPlan hu fun u hu => ?_
    refine safe_store (fun v => (discard_unit _ v).symm) (Or.inl hu) fun _ u => ?_
    exact refreshAll_safe
  | rollbackGraph now time idOrName version =>
    refine safe_resolveGraph hfresh fun g u hu => ?_
    refine safe_query hu fun bytes u hu => ?_
    refine safe_validateRouteConflictForPlan hu fun u hu => ?_
    refine safe_store (fun v => (discard_unit _ v).symm) (Or.inl hu) fun _ u => ?_
    exact refreshAll_safe
  | forkGraph childId now id forkNode code label =>
    refine safe_query hfresh fun parent u hu => ?_
    refine safe_store (fun _ => rfl) (Or.inl hu) fun _ u => safe_done fun q hq hrefreshes => ?_
    rw [hr] at hq
    cases hq
    cases hrefreshes

end Terms

end Endpoints

section Runs

variable {Blob : Type} {site : Site Blob}

theorem endpoints_bound {u : Tables Blob} {plans : Dict Text CompiledPlan} {routes : Dict Text RouteConfig}
    (hr : ∃ h, Refines u h) (hu : site.Refreshable u) (hs : site.Shows u plans routes)
    (requests : Nat → Option (EndpointRequest Blob)) :
    (endpoints site u plans routes requests).Bound (Endpoints.contract site) (Endpoints.Ended requests) := by
  refine ⟨fun _ => ⟨hr, hu, Nat.le_refl _, Nat.le_refl _, fun _ _ hw => (by cases hw), fun _ => ⟨routes, hs⟩,
    fun _ => ⟨plans, hs⟩⟩, fun i => ?_⟩
  rw [endpoints]
  dsimp only
  cases hrequest : requests i with
  | none =>
    refine Endpoints.safe_done fun q hq => ?_
    rw [hrequest] at hq
    cases hq
  | some r => exact Endpoints.script_safe r hrequest rfl

end Runs

/-- Every graph publishes `GET /x`. -/
def oneRoute : Site Fb.ExecutionPlan :=
  { shortAndLong with parseRouteConfig := fun _ _ => .ok (some ⟨"", "x", .get, false, 0, 0⟩) }

theorem oneRoute_free {u : Tables Fb.ExecutionPlan} {id : Text} (hu : ∀ other, other ≠ id → u.graphs.get other = none)
    (name : Text) {bytes : Fb.ExecutionPlan} {plan : CompiledPlan}
    (hdecode : CompiledPlan.fromFbBytes oneRoute.fb bytes = .ok plan) : oneRoute.RouteFree u id name bytes := by
  refine ⟨⟨plan, _, hdecode, rfl⟩, fun rc _ other hne hp => ?_⟩
  obtain ⟨_, _, _, ⟨row, hrow, -⟩, -⟩ := hp
  rw [hu other hne] at hrow
  cases hrow

theorem oneRoute_codeFree {u : Tables Fb.ExecutionPlan} {id : Text}
    (hu : ∀ other, other ≠ id → u.graphs.get other = none) (name : Text) :
    oneRoute.CodeFree u id name "short" :=
  fun _ => ⟨_, rfl, oneRoute_free hu name rfl⟩

/-- A graph that another one is created beside, and that is updated. -/
def createTwo : Nat → Option (EndpointRequest Fb.ExecutionPlan)
  | 0 => some (.createGraph "0" 0 "a" "f" "short")
  | 1 => some (.createGraph "1" 0 "b" "g" "short")
  | 2 => some (.updateGraph "2" 0 "f" "long")
  | _ => none

/-- What a program can decide of the terms, for one graph. -/
def EndpointStep.alone : EndpointStep Fb.ExecutionPlan → Option Text → Endpoints Fb.ExecutionPlan → Bool
  | _, some _, _ => false
  | .store (.createGraph id _ _ code), none, t =>
    t.tables.graphs.entries.all (·.1 = id) && code = ("short" : Text)
  | .store (.savePlan _ id _ bytes), none, t => t.tables.graphs.entries.all (·.1 = id) &&
    (CompiledPlan.fromFbBytes oneRoute.fb bytes).toOption.isSome
  | .store (.updateGraph _ id _), none, t => (t.tables.graphs.get id).all (·.executionPlan.isSome)
  | .store _, none, _ | .heal _ _, none, _ => false
  | .load epoch, none, t => epoch = t.epoch
  | .plans epoch, none, t => t.plansEpoch ≤ epoch
  | .routes epoch, none, t => t.routesEpoch ≤ epoch
  | .query, none, _ | .check, none, _ | .list, none, _ => true

theorem EndpointStep.allowed_of_alone {label : EndpointStep Fb.ExecutionPlan} {fault : Option Text}
    {t : Endpoints Fb.ExecutionPlan} (h : label.alone fault t) : label.Allowed oneRoute fault t := by
  have hothers : ∀ {id : Text}, t.tables.graphs.entries.all (·.1 = id) = true →
      ∀ other, other ≠ id → t.tables.graphs.get other = none := by
    intro id hall other hne
    cases hget : t.tables.graphs.get other with
    | none => rfl
    | some row => exact absurd (of_decide_eq_true (List.all_eq_true.1 hall _ (Dict.get_eq_some_iff.1 hget))) hne
  cases fault with
  | some e => simp [alone] at h
  | none =>
    cases label with
    | store op =>
      cases op with
      | createGraph id now name code =>
        obtain ⟨hall, hcode⟩ := Bool.and_eq_true_iff.1 h
        obtain rfl := of_decide_eq_true hcode
        exact fun _ => oneRoute_codeFree (hothers hall) name
      | savePlan now id version bytes =>
        obtain ⟨hall, hdecode⟩ := Bool.and_eq_true_iff.1 h
        obtain ⟨plan, hplan⟩ := Option.isSome_iff_exists.1 hdecode
        exact fun row _ => oneRoute_free (hothers hall) row.name (toOption_eq_some.1 hplan)
      | updateGraph now id code =>
        intro row hrow hnone
        rw [alone, hrow, Option.all_some, hnone] at h
        cases h
      | _ => cases h
    | heal epoch id => cases h
    | load epoch => exact (of_decide_eq_true h : epoch = t.epoch)
    | plans epoch => exact (of_decide_eq_true h : t.plansEpoch ≤ epoch)
    | routes epoch => exact (of_decide_eq_true h : t.routesEpoch ≤ epoch)
    | _ => exact trivial

theorem Site.refreshable_empty {Blob : Type} (site : Site Blob) : site.Refreshable Tables.empty :=
  fun _ _ hrow => by cases hrow

theorem Site.shows_empty {Blob : Type} (site : Site Blob) : site.Shows Tables.empty Dict.empty Dict.empty := by
  refine ⟨fun _ hid => (by cases hid), fun _ _ => rfl, fun key rc => iff_of_false (fun hget => by cases hget) ?_⟩
  exact fun hr => by cases hr.1

theorem oneRoute_publishes {u : Tables Fb.ExecutionPlan} {id : Text} (h : ((u.graphs.get id).bind fun row =>
    row.executionPlan.bind fun bytes => (CompiledPlan.fromFbBytes oneRoute.fb bytes).toOption).isSome) :
    oneRoute.Publishes u id (routeKey "x" .get) := by
  obtain ⟨plan, hplan⟩ := Option.isSome_iff_exists.1 h
  obtain ⟨row, hrow, hplan⟩ := Option.bind_eq_some_iff.1 hplan
  obtain ⟨bytes, hbytes, hplan⟩ := Option.bind_eq_some_iff.1 hplan
  exact ⟨row.name, bytes, _, ⟨row, hrow, rfl, Or.inl hbytes⟩, ⟨plan, toOption_eq_some.1 hplan, rfl⟩, rfl⟩

end Tinypipe
