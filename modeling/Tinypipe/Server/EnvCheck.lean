import Tinypipe.Env.Deps
import Tinypipe.Lib.DepthFirst
import Tinypipe.Server.Deploy

/-! The check before a run (`validate_env` of `tinypipe-tools/src/registry.rs`): a graph and all graphs
that are called from it are walked, and the variables that they need and that are not set are reported. -/

namespace Tinypipe

open Lib Lib.Stateful Lib.DepthFirst Environment Environment.Template

structure EnvDepReport where
  graphPath : Text
  missing : List Text
deriving DecidableEq

/-- The graphs that have been visited, and what has been found. -/
structure EnvScan where
  visited : List Text
  reports : List EnvDepReport

inductive EnvCheckError where
  /-- The recursion has no end. -/
  | tooDeep
  | server (e : ServerError)

section Check

variable {Blob : Type} {u : Casing}

def missingKeys (env : Environment.Env u) (plan : CompiledPlan) : List Text :=
  ((scanPlanEnvDeps plan).filter fun d => !d.optional && (env.get d.key).isNone).map EnvDep.key

namespace EnvScan

def visit (scan : EnvScan) (id path : Text) (missing : List Text) : EnvScan where
  visited := scan.visited ++ [id]
  reports := if missing = [] then scan.reports else scan.reports ++ [⟨path, missing⟩]

end EnvScan

namespace Site

variable (site : Site Blob)

def validateGraphEnv (now : Text) (time : Nat) (env : Environment.Env u) : Nat → Text → Text → EnvScan →
    EStateM EnvCheckError (Server Blob) EnvScan
  | 0, _, _, _ => throw .tooDeep
  | n + 1, path, name, scan => do
    let g ← EStateM.adaptExcept .server (Server.onStorage (Storage.resolveSubgraph name))
    if g.id ∈ scan.visited then pure scan
    else do
      let plan ← EStateM.adaptExcept .server (site.loadCachedPlan now time g)
      (subgraphTargets plan).foldlM (fun scan sub =>
        validateGraphEnv now time env n (path ++ g.name ++ (" → " : Text)) sub scan)
        (scan.visit g.id (path ++ g.name) (missingKeys env plan))

def validateEnv (now : Text) (time : Nat) (env : Environment.Env u) (fuel : Nat) (root : Text) :
    EStateM EnvCheckError (Server Blob) (List EnvDepReport) := do
  let scan ← site.validateGraphEnv now time env fuel [] root ⟨[], []⟩
  pure scan.reports

end Site

/-! ### What the walk reads -/

/-- A graph but for the time of its last change, which saving a plan sets. -/
def GraphDefinition.header (g : GraphDefinition) : GraphDefinition := { g with updatedAt := [] }

/-- The graph of a name, or else of an id. -/
def Tables.resolved (s : Tables Blob) (input : Text) : Except StorageError GraphDefinition :=
  match s.newest input with
  | some g => .ok g
  | none =>
    match s.graphs.get input with
    | some row => .ok (Tables.definition input row)
    | none => .error (.graphNotFound input)

theorem resolveSubgraph_apply (input : Text) (s : Tables Blob) : Storage.resolveSubgraph input s =
    match s.resolved input with
    | .ok g => .ok g s
    | .error e => .error e s := by
  rw [Storage.resolveSubgraph, Tables.resolved]
  cases hname : s.newest input with
  | some g =>
    have hfound : Storage.findGraphByName input s = .ok g s := by
      simp [Storage.findGraphByName, hname]
    rw [bind_of_ok _ (attempt_of_ok hfound)]
    rfl
  | none =>
    have hfound : Storage.findGraphByName input s = .error (.graphNotFound input) s := by
      simp [Storage.findGraphByName, hname]
    rw [bind_of_ok _ (attempt_of_error hfound)]
    cases hid : s.graphs.get input with
    | some row => simp [Storage.loadGraph, hid]
    | none => simp [Storage.loadGraph, hid]

/-- The headers of the graphs, in the order of their rows. -/
def Tables.headers (s : Tables Blob) : List GraphDefinition :=
  s.graphs.entries.map fun e => (Tables.definition e.1 e.2).header

/-- The step of the search for the graph that was created last. -/
def later (best : Option GraphDefinition) (g : GraphDefinition) : Option GraphDefinition :=
  match best with
  | some b => if b.createdAt < g.createdAt then some g else some b
  | none => some g

theorem map_header_foldl (l : List GraphDefinition) (best : Option GraphDefinition) :
    (l.foldl later best).map GraphDefinition.header =
    (l.map GraphDefinition.header).foldl later (best.map GraphDefinition.header) := by
  induction l generalizing best with
  | nil => rfl
  | cons g l ih =>
    rw [List.foldl_cons, ih, List.map_cons, List.foldl_cons]
    congr 1
    cases best with
    | none => rfl
    | some b => exact apply_ite (Option.map GraphDefinition.header) (b.createdAt < g.createdAt) (some g) (some b)

theorem newest_header (s : Tables Blob) (name : Text) :
    (s.newest name).map GraphDefinition.header = (s.headers.filter fun g => g.name = name).foldl later none := by
  have hfilter : s.headers.filter (fun g => g.name = name) =
      ((s.graphs.entries.filter fun e => e.2.name = name).map fun e => Tables.definition e.1 e.2).map
        GraphDefinition.header := by
    rw [Tables.headers, List.filter_map, List.map_map]
    rfl
  rw [hfilter]
  exact map_header_foldl _ none

theorem get_header (s : Tables Blob) (id : Text) :
    (s.graphs.get id).map (fun row => (Tables.definition id row).header) = s.headers.find? fun g => g.id = id := by
  rw [Dict.get, Tables.headers]
  induction s.graphs.entries with
  | nil => rfl
  | cons e es ih =>
    obtain ⟨k, row⟩ := e
    rw [Dict.find, List.map_cons, List.find?_cons]
    by_cases h : k = id
    · subst h
      simp [Tables.definition, GraphDefinition.header]
    · simp only [if_neg h, ih]
      simp [Tables.definition, GraphDefinition.header, h]

/-- The graph of a name or an id, as far as its header tells. -/
def Tables.callee (s : Tables Blob) (input : Text) : Except StorageError GraphDefinition :=
  (s.resolved input).map GraphDefinition.header

/-- What a name stands for depends on the headers. -/
theorem callee_congr {s t : Tables Blob} (h : t.headers = s.headers) (input : Text) :
    t.callee input = s.callee input := by
  have hnewest : (t.newest input).map GraphDefinition.header = (s.newest input).map GraphDefinition.header := by
    rw [newest_header, newest_header, h]
  have hget : (t.graphs.get input).map (fun row => (Tables.definition input row).header) =
      (s.graphs.get input).map fun row => (Tables.definition input row).header := by
    rw [get_header, get_header, h]
  rw [Tables.callee, Tables.callee, Tables.resolved, Tables.resolved]
  cases hs : s.newest input with
  | some g =>
    rw [hs] at hnewest
    obtain ⟨g', hg', heq⟩ := Option.map_eq_some_iff.1 hnewest
    rw [hg']
    exact congrArg Except.ok heq
  | none =>
    rw [hs, Option.map_none, Option.map_eq_none_iff] at hnewest
    rw [hnewest]
    cases hrow : s.graphs.get input with
    | some row =>
      rw [hrow] at hget
      obtain ⟨row', hrow', heq⟩ := Option.map_eq_some_iff.1 hget
      rw [hrow']
      exact congrArg Except.ok heq
    | none =>
      rw [hrow, Option.map_none, Option.map_eq_none_iff] at hget
      rw [hget]

/-- It is one of the graphs. -/
theorem callee_row {s : Tables Blob} {input : Text} {g : GraphDefinition} (h : s.callee input = .ok g) :
    ∃ row, s.graphs.get g.id = some row ∧ g = (Tables.definition g.id row).header := by
  rw [Tables.callee, Tables.resolved] at h
  cases hname : s.newest input with
  | some g' =>
    rw [hname] at h
    cases h
    obtain ⟨row, hrow, heq⟩ := newest_graph hname
    exact ⟨row, hrow, congrArg GraphDefinition.header heq⟩
  | none =>
    rw [hname] at h
    cases hrow : s.graphs.get input with
    | some row =>
      rw [hrow] at h
      cases h
      exact ⟨row, hrow, rfl⟩
    | none =>
      rw [hrow] at h
      cases h

/-! ### What a plan is loaded as -/

variable (site : Site Blob) (time : Nat)

def Toolchain.decoded (t : Toolchain Blob) (bytes : Blob) : Except HealError CompiledPlan :=
  match CompiledPlan.fromFbBytes t.fb bytes with
  | .error e => .error (.decode e)
  | .ok plan => .ok plan

/-- What loading the plan of a graph gives. -/
def Toolchain.storedPlan (t : Toolchain Blob) (time : Nat) (s : Tables Blob) (g : GraphDefinition) :
    Except HealError CompiledPlan :=
  match s.versions.get (g.id, g.version) with
  | none => .error (.storage (.versionNotFound g.version g.id))
  | some r =>
    match r.executionPlan with
    | some bytes => t.decoded bytes
    | none =>
      match t.build time g.code with
      | .error e => .error (.recompile e)
      | .ok bytes => t.decoded bytes

/-- The same, through the cache. -/
def Site.planOf (s : Server Blob) (g : GraphDefinition) : Except ServerError CompiledPlan :=
  match Site.cachedPlan s g with
  | some plan => .ok plan
  | none => (site.storedPlan time s.tables g).mapError .heal

/-- Only the plan of one version of one graph may have been saved. -/
structure SavesPlan (g : GraphDefinition) (s t : Tables Blob) : Prop where
  headers : t.headers = s.headers
  versions : ∀ k, k ≠ (g.id, g.version) → t.versions.get k = s.versions.get k

theorem SavesPlan.refl (g : GraphDefinition) (s : Tables Blob) : SavesPlan g s s := ⟨rfl, fun _ _ => rfl⟩

theorem updateRow_saves {f : GraphRow Blob → GraphRow Blob}
    (hf : ∀ id row, (Tables.definition id (f row)).header = (Tables.definition id row).header)
    (g : GraphDefinition) (s : Tables Blob) :
    ∃ t, Storage.updateRow g.id f s = .ok ⟨⟩ t ∧ SavesPlan g s t := by
  cases hrow : s.graphs.get g.id with
  | none => exact ⟨s, Storage.updateRow_none hrow f, .refl g s⟩
  | some row =>
    exact ⟨_, Storage.updateRow_ok hrow f, Dict.map_entries_set hrow (hf g.id row), fun _ _ => rfl⟩

theorem updateVersionRow_saves (f : VersionRow Blob → VersionRow Blob) (g : GraphDefinition) (s : Tables Blob) :
    ∃ t, Storage.updateVersionRow g.id g.version f s = .ok ⟨⟩ t ∧ SavesPlan g s t := by
  cases hv : s.versions.get (g.id, g.version) with
  | none => exact ⟨s, Storage.updateVersionRow_none hv f, .refl g s⟩
  | some r =>
    exact ⟨_, Storage.updateVersionRow_ok hv f, rfl, fun k hk => Dict.get_set_ne _ (Ne.symm hk) _⟩

theorem savePlan_saves (now : Text) (g : GraphDefinition) (bytes : Blob) (s : Tables Blob) :
    ∃ t, Storage.savePlan now g.id g.version bytes s = .ok ⟨⟩ t ∧ SavesPlan g s t := by
  obtain ⟨w, hrow, hw⟩ :=
    updateRow_saves (f := fun row => { row with executionPlan := some bytes, updatedAt := now })
      (fun _ _ => rfl) g s
  obtain ⟨t, hversion, ht⟩ := updateVersionRow_saves (fun r => { r with executionPlan := some bytes }) g w
  refine ⟨t, ?_, ht.headers.trans hw.headers, fun k hk => (ht.versions k hk).trans (hw.versions k hk)⟩
  rw [Storage.savePlan, bind_of_ok _ hrow, hversion]

theorem decode_apply (t : Toolchain Blob) (bytes : Blob) (s : Tables Blob) : t.decode bytes s =
    match t.decoded bytes with
    | .ok plan => .ok plan s
    | .error e => .error e s := by
  rw [Toolchain.decode, Toolchain.decoded]
  cases CompiledPlan.fromFbBytes t.fb bytes <;> rfl

theorem loadSubgraphPlan_apply (now : Text) (g : GraphDefinition) (s : Tables Blob) :
    ∃ t, SavesPlan g s t ∧ site.loadSubgraphPlan now time g s =
      match site.storedPlan time s g with
      | .ok plan => .ok plan t
      | .error e => .error e t := by
  rw [Site.loadSubgraphPlan, Toolchain.storedPlan]
  cases hr : s.versions.get (g.id, g.version) with
  | none =>
    have hload : Storage.loadPlanVersion g.id g.version s = .error (.versionNotFound g.version g.id) s := by
      simp [Storage.loadPlanVersion, hr]
    rw [bind_of_ok _ (attempt_of_error hload)]
    exact ⟨s, .refl g s, rfl⟩
  | some r =>
    cases hplan : r.executionPlan with
    | some bytes =>
      have hload : Storage.loadPlanVersion g.id g.version s = .ok bytes s := by
        simp [Storage.loadPlanVersion, hr, hplan]
      rw [bind_of_ok _ (attempt_of_ok hload)]
      simp only [hplan]
      exact ⟨s, .refl g s, decode_apply site.toToolchain bytes s⟩
    | none =>
      have hload : Storage.loadPlanVersion g.id g.version s = .error (.planVersionMissing g.version g.id) s := by
        simp [Storage.loadPlanVersion, hr, hplan]
      rw [bind_of_ok _ (attempt_of_error hload)]
      simp only [hplan]
      cases hbuild : site.build time g.code with
      | error e =>
        refine ⟨s, .refl g s, ?_⟩
        rw [Toolchain.rebuild, hbuild]
        rfl
      | ok bytes =>
        obtain ⟨t, ht, hsaves⟩ := savePlan_saves now g bytes s
        refine ⟨t, hsaves, ?_⟩
        have hrebuild : site.rebuild time g.code s = .ok bytes s := by
          rw [Toolchain.rebuild, hbuild]
          rfl
        have hsave : EStateM.adaptExcept HealError.storage (Storage.savePlan now g.id g.version bytes) s =
            .ok ⟨⟩ t := by
          rw [EStateM.adaptExcept, ht]
        rw [bind_of_ok _ hrebuild, bind_of_ok _ hsave]
        exact decode_apply site.toToolchain bytes t

variable {site time}

/-- What the walk leaves of the state it starts from: the headers, and what each plan is loaded as. -/
structure LoadsAlike (site : Site Blob) (time : Nat) (s t : Server Blob) : Prop where
  headers : t.tables.headers = s.tables.headers
  plans : ∀ input g, s.tables.callee input = .ok g → site.planOf time t g = site.planOf time s g
  cached : ∀ input g plan, s.tables.callee input = .ok g → Site.cachedPlan s g = some plan →
    Site.cachedPlan t g = some plan

theorem LoadsAlike.callee {s t : Server Blob} (h : LoadsAlike site time s t) (input : Text) :
    t.tables.callee input = s.tables.callee input :=
  callee_congr h.headers input

instance : Std.Refl (LoadsAlike site time) := ⟨fun _ => ⟨rfl, fun _ _ _ => rfl, fun _ _ _ _ h => h⟩⟩

instance : IsTrans (Server Blob) (LoadsAlike site time) := by
  refine ⟨fun s t w h h' => ⟨h'.headers.trans h.headers, fun input g hg => ?_, fun input g plan hg hplan => ?_⟩⟩
  · have hg' := (h.callee input).trans hg
    rw [h'.plans input g hg', h.plans input g hg]
  · exact h'.cached input g plan ((h.callee input).trans hg) (h.cached input g plan hg hplan)

/-- A graph is told by its id. -/
theorem callee_eq {s : Tables Blob} {input input' : Text} {g g' : GraphDefinition} (h : s.callee input = .ok g)
    (h' : s.callee input' = .ok g') (hid : g.id = g'.id) : g = g' := by
  obtain ⟨row, hrow, heq⟩ := callee_row h
  obtain ⟨row', hrow', heq'⟩ := callee_row h'
  rw [hid, hrow'] at hrow
  cases hrow
  rw [heq, heq', hid]

theorem cachedPlan_set_ne {s : Server Blob} {g g' : GraphDefinition} (hid : g'.id ≠ g.id) (tables : Tables Blob)
    (e : Nat × CompiledPlan) :
    Site.cachedPlan { s with tables := tables, planCache := s.planCache.set g.id e } g' = Site.cachedPlan s g' := by
  rw [Site.cachedPlan, Site.cachedPlan, Dict.get_set_ne _ (Ne.symm hid)]

/-- A plan that was not in the cache is put there. -/
theorem kept_cache {s : Server Blob} {input : Text} {g : GraphDefinition} (hg : s.tables.callee input = .ok g)
    (hnone : Site.cachedPlan s g = none) {plan : CompiledPlan} (hplan : site.planOf time s g = .ok plan)
    {tables : Tables Blob}
    (hsaves : SavesPlan g s.tables tables) :
    LoadsAlike site time s { s with tables := tables, planCache := s.planCache.set g.id (g.version, plan) } ∧
      Site.cachedPlan { s with tables := tables, planCache := s.planCache.set g.id (g.version, plan) } g =
        some plan := by
  have hcached : Site.cachedPlan { s with tables := tables, planCache := s.planCache.set g.id (g.version, plan) } g =
      some plan := by
    rw [Site.cachedPlan, Dict.get_set_self, Option.bind_some, if_pos rfl]
  refine ⟨⟨hsaves.headers, fun input' g' hg' => ?_, fun input' g' plan' hg' hplan' => ?_⟩, hcached⟩
  · by_cases hid : g'.id = g.id
    · rw [callee_eq hg' hg hid, hplan, Site.planOf, hcached]
    · have hstored : site.storedPlan time tables g' = site.storedPlan time s.tables g' := by
        rw [Toolchain.storedPlan, Toolchain.storedPlan, hsaves.versions (g'.id, g'.version) fun hk =>
          hid (Prod.mk.inj hk).1]
      rw [Site.planOf, Site.planOf, cachedPlan_set_ne hid, hstored]
  · by_cases hid : g'.id = g.id
    · rw [callee_eq hg' hg hid, hnone] at hplan'
      cases hplan'
    · rw [cachedPlan_set_ne hid, hplan']

/-- A plan is loaded as `planOf` says, and then it is in the cache. -/
theorem loadCachedPlan_apply (site : Site Blob) (time : Nat) (now : Text) {s : Server Blob} {input : Text}
    {g : GraphDefinition} (hg : s.tables.resolved input = .ok g) :
    ∃ t, match site.planOf time s g.header with
      | .ok plan => site.loadCachedPlan now time g s = .ok plan t ∧ LoadsAlike site time s t ∧
        Site.cachedPlan t g.header = some plan
      | .error e => site.loadCachedPlan now time g s = .error e t := by
  have hcallee : s.tables.callee input = .ok g.header := by
    rw [Tables.callee, hg]
    rfl
  have hplanOf : site.planOf time s g.header = match Site.cachedPlan s g with
      | some plan => .ok plan
      | none => (site.storedPlan time s.tables g).mapError .heal := rfl
  cases hcache : Site.cachedPlan s g with
  | some plan =>
    rw [hcache] at hplanOf
    have hload : site.loadCachedPlan now time g s = .ok plan s := by
      rw [Site.loadCachedPlan, get_bind, hcache]
      rfl
    rw [hplanOf]
    exact ⟨s, hload, refl_of (LoadsAlike site time) s, hcache⟩
  | none =>
    rw [hcache] at hplanOf
    obtain ⟨tables, hsaves, hload⟩ := loadSubgraphPlan_apply site time now g s.tables
    cases hstored : site.storedPlan time s.tables g with
    | error e =>
      rw [hstored] at hload hplanOf
      have hfail : Server.onTables (site.loadSubgraphPlan now time g) s =
          .error (.heal e) (Server.setTables tables s) := by
        rw [Server.onTables, zoom, EStateM.adaptExcept, hload]
      rw [hplanOf]
      refine ⟨Server.setTables tables s, ?_⟩
      rw [Except.mapError, Site.loadCachedPlan, get_bind, hcache]
      exact bind_of_error _ hfail
    | ok plan =>
      rw [hstored] at hload hplanOf
      have hok : Server.onTables (site.loadSubgraphPlan now time g) s = .ok plan (Server.setTables tables s) := by
        rw [Server.onTables, zoom, EStateM.adaptExcept, hload]
      obtain ⟨hkept, hcached⟩ := kept_cache hcallee hcache hplanOf ⟨hsaves.headers, hsaves.versions⟩
      rw [hplanOf]
      refine ⟨_, ?_, hkept, hcached⟩
      rw [Site.loadCachedPlan, get_bind, hcache]
      exact (bind_of_ok _ hok).trans rfl

/-! ### The walk over the calls -/

section Walk

variable (site time) (s : Server Blob) (env : Environment.Env u)

/-- The graphs and the calls between them, as the state stands. -/
def Site.callNet : Net Text GraphDefinition Text ServerError where
  resolve input := (s.tables.callee input).mapError fun e => .heal (.storage e)
  key := GraphDefinition.id
  children g := (site.planOf time s g).map subgraphTargets

def trailText (trail : List GraphDefinition) : Text := trail.flatMap fun g => g.name ++ (" → " : Text)

/-- The report on a graph that has been reached on a way. -/
def reportOf (v : Visit GraphDefinition) : Option EnvDepReport :=
  match site.planOf time s v.2 with
  | .error _ => none
  | .ok plan => if missingKeys env plan = [] then none else some ⟨trailText v.1 ++ v.2.name, missingKeys env plan⟩

def scanOf (done : List (Visit GraphDefinition)) : EnvScan where
  visited := (site.callNet time s).keys done
  reports := done.filterMap (reportOf site time s env)

/-- The plans of the graphs that have been visited are in the cache. -/
structure InCache (done : List (Visit GraphDefinition)) (t : Server Blob) : Prop where
  kept : LoadsAlike site time s t
  cached : ∀ v ∈ done, ∃ input plan, s.tables.callee input = .ok v.2 ∧ site.planOf time s v.2 = .ok plan ∧
    Site.cachedPlan t v.2 = some plan

/-- The walk of the source ends as the walk over the calls does. -/
def EndsLike (r : Option (Except ServerError (List (Visit GraphDefinition))))
    (x : EStateM.Result EnvCheckError (Server Blob) EnvScan) : Prop :=
  match r with
  | none => ∃ t, x = .error .tooDeep t
  | some (.error e) => ∃ t, x = .error (.server e) t
  | some (.ok done) => ∃ t, x = .ok (scanOf site time s env done) t ∧ InCache site time s done t

end Walk

variable {s : Server Blob} {env : Environment.Env u}

theorem callNet_resolve (input : Text) : (site.callNet time s).resolve input =
    (s.tables.callee input).mapError fun e => .heal (.storage e) := rfl

theorem callNet_children (g : GraphDefinition) :
    (site.callNet time s).children g = (site.planOf time s g).map subgraphTargets := rfl

theorem foldlM_endsLike {walk : Text → List (Visit GraphDefinition) →
    Option (Except ServerError (List (Visit GraphDefinition)))}
    {f : EnvScan → Text → EStateM EnvCheckError (Server Blob) EnvScan}
    (h : ∀ name done t, InCache site time s done t →
      EndsLike site time s env (walk name done) (f (scanOf site time s env done) name t))
    (names : List Text) {done : List (Visit GraphDefinition)} {t : Server Blob} (ht : InCache site time s done t) :
    EndsLike site time s env (eachOf walk names done) (names.foldlM f (scanOf site time s env done) t) := by
  induction names generalizing done t with
  | nil => exact ⟨t, rfl, ht⟩
  | cons name names ih =>
    have hname := h name done t ht
    rw [eachOf, List.foldlM_cons]
    cases hwalk : walk name done with
    | none =>
      rw [hwalk] at hname
      obtain ⟨t', ht'⟩ := hname
      exact ⟨t', bind_of_error _ ht'⟩
    | some r =>
      rw [hwalk] at hname
      cases r with
      | error e =>
        obtain ⟨t', ht'⟩ := hname
        exact ⟨t', bind_of_error _ ht'⟩
      | ok done' =>
        obtain ⟨t', ht', hincache⟩ := hname
        rw [bind_of_ok _ ht']
        exact ih hincache

theorem resolve_apply (name : Text) (t : Server Blob) :
    (EStateM.adaptExcept EnvCheckError.server (Server.onStorage (Storage.resolveSubgraph name)) :
      EStateM EnvCheckError (Server Blob) GraphDefinition) t =
    match t.tables.resolved name with
    | .ok g => .ok g t
    | .error e => .error (.server (.heal (.storage e))) t := by
  rw [EStateM.adaptExcept, Server.onStorage, Server.onTables, zoom, EStateM.adaptExcept, EStateM.adaptExcept,
    resolveSubgraph_apply]
  cases t.tables.resolved name <;> rfl

theorem scanOf_append (env : Environment.Env u) (done : List (Visit GraphDefinition)) (trail : List GraphDefinition)
    {g : GraphDefinition} {plan : CompiledPlan}
    (hplan : site.planOf time s g = .ok plan) :
    (scanOf site time s env done).visit g.id (trailText trail ++ g.name) (missingKeys env plan) =
      scanOf site time s env (done ++ [(trail, g)]) := by
  have hvisited : (site.callNet time s).keys (done ++ [(trail, g)]) = (site.callNet time s).keys done ++ [g.id] :=
    Net.keys_append _ done _
  rw [EnvScan.visit, scanOf, scanOf, hvisited, List.filterMap_append, EnvScan.mk.injEq]
  refine ⟨rfl, ?_⟩
  have hreport : reportOf site time s env (trail, g) = if missingKeys env plan = [] then none
      else some ⟨trailText trail ++ g.name, missingKeys env plan⟩ := by
    rw [reportOf, hplan]
  rw [List.filterMap_cons, hreport]
  split_ifs
  · exact (List.append_nil _).symm
  · rfl

theorem trailText_snoc (trail : List GraphDefinition) (g : GraphDefinition) :
    trailText (trail ++ [g]) = trailText trail ++ g.name ++ (" → " : Text) := by
  rw [trailText, trailText, List.flatMap_append, List.flatMap_singleton, List.append_assoc]

/-- The graph that is visited next is in the cache, and those before it stay there. -/
theorem InCache.snoc {done : List (Visit GraphDefinition)} {t w : Server Blob} (ht : InCache site time s done t)
    (trail : List GraphDefinition) (hkept : LoadsAlike site time t w) {name : Text} {g : GraphDefinition}
    {plan : CompiledPlan} (hg : s.tables.callee name = .ok g) (hplan : site.planOf time s g = .ok plan)
    (hcached : Site.cachedPlan w g = some plan) : InCache site time s (done ++ [(trail, g)]) w := by
  refine ⟨trans_of (LoadsAlike site time) ht.kept hkept, fun v hv => ?_⟩
  rcases List.mem_append.1 hv with hv | hv
  · obtain ⟨input, p, hinput, hp, hc⟩ := ht.cached v hv
    exact ⟨input, p, hinput, hp, hkept.cached input v.2 p ((ht.kept.callee input).trans hinput) hc⟩
  · obtain rfl := List.mem_singleton.1 hv
    exact ⟨name, plan, hg, hplan, hcached⟩

/-- The walk of the source is the walk over the calls. -/
theorem validateGraphEnv_visit (env : Environment.Env u) (now : Text) :
    ∀ (n : Nat) (trail : List GraphDefinition) (name : Text) (done : List (Visit GraphDefinition))
      (t : Server Blob), InCache site time s done t →
    EndsLike site time s env ((site.callNet time s).visit n trail name done)
      (site.validateGraphEnv now time env n (trailText trail) name (scanOf site time s env done) t)
  | 0, _, _, _, t, _ => ⟨t, rfl⟩
  | n + 1, trail, name, done, t, ht => by
    have hcallee := ht.kept.callee name
    rw [Net.visit, Site.validateGraphEnv]
    cases hname : t.tables.resolved name with
    | error e =>
      have hfail : (site.callNet time s).resolve name = .error (.heal (.storage e)) := by
        rw [callNet_resolve, ← hcallee, Tables.callee, hname]
        rfl
      have hrun := resolve_apply name t
      rw [hname] at hrun
      rw [hfail]
      exact ⟨t, bind_of_error _ hrun⟩
    | ok g =>
      have hg : s.tables.callee name = .ok g.header := by
        rw [← hcallee, Tables.callee, hname]
        rfl
      have hresolve : (site.callNet time s).resolve name = .ok g.header := by
        rw [callNet_resolve, hg]
        rfl
      have hrun := resolve_apply name t
      rw [hname] at hrun
      rw [hresolve, bind_of_ok _ hrun]
      dsimp only
      by_cases hseen : g.id ∈ (site.callNet time s).keys done
      · have hkey : (site.callNet time s).key g.header ∈ (site.callNet time s).keys done := hseen
        have hvisited : g.id ∈ (scanOf site time s env done).visited := hseen
        rw [if_pos hkey, if_pos hvisited]
        exact ⟨t, rfl, ht⟩
      · have hkey : (site.callNet time s).key g.header ∉ (site.callNet time s).keys done := hseen
        have hvisited : g.id ∉ (scanOf site time s env done).visited := hseen
        rw [if_neg hkey, if_neg hvisited]
        obtain ⟨w, hload⟩ := loadCachedPlan_apply site time now hname
        rw [ht.kept.plans name g.header hg] at hload
        cases hplan : site.planOf time s g.header with
        | error e =>
          rw [hplan] at hload
          have hfail : (site.callNet time s).children g.header = .error e := by
            rw [callNet_children, hplan]
            rfl
          rw [hfail]
          refine ⟨w, bind_of_error _ ?_⟩
          rw [EStateM.adaptExcept, hload]
        | ok plan =>
          rw [hplan] at hload
          obtain ⟨hok, hkept, hcached⟩ := hload
          have hchildren : (site.callNet time s).children g.header = .ok (subgraphTargets plan) := by
            rw [callNet_children, hplan]
            rfl
          have hrunload : (EStateM.adaptExcept EnvCheckError.server (site.loadCachedPlan now time g) :
              EStateM EnvCheckError (Server Blob) CompiledPlan) t = .ok plan w := by
            rw [EStateM.adaptExcept, hok]
          have hincache := ht.snoc trail hkept hg hplan hcached
          have htrail : trailText trail ++ g.name ++ (" → " : Text) = trailText (trail ++ [g.header]) :=
            (trailText_snoc trail g.header).symm
          rw [hchildren, bind_of_ok _ hrunload, htrail]
          have hscan := scanOf_append env done trail hplan
          rw [show (scanOf site time s env done).visit g.id (trailText trail ++ g.name) (missingKeys env plan) =
            _ from hscan]
          exact foldlM_endsLike (fun sub d w' hd =>
            validateGraphEnv_visit env now n (trail ++ [g.header]) sub d w' hd) _ hincache

theorem callee_of_resolve {input : Text} {g : GraphDefinition} (h : (site.callNet time s).resolve input = .ok g) :
    s.tables.callee input = .ok g := by
  rw [callNet_resolve] at h
  cases hcallee : s.tables.callee input with
  | error e =>
    rw [hcallee] at h
    cases h
  | ok g' =>
    rw [hcallee] at h
    cases h
    rfl

theorem callNet_keyed : (site.callNet time s).Keyed :=
  fun hg hg' hid => callee_eq (callee_of_resolve hg) (callee_of_resolve hg') hid

theorem validateEnv_visit (site : Site Blob) (time : Nat) (s : Server Blob) (env : Environment.Env u)
    (now : Text) (fuel : Nat) (root : Text) :
    match (site.callNet time s).visit fuel [] root [] with
    | none => ∃ t, site.validateEnv now time env fuel root s = .error .tooDeep t
    | some (.error e) => ∃ t, site.validateEnv now time env fuel root s = .error (.server e) t
    | some (.ok visits) => ∃ t, site.validateEnv now time env fuel root s =
      .ok (visits.filterMap (reportOf site time s env)) t ∧
        InCache site time s visits t := by
  have hstart : InCache site time s [] s := ⟨refl_of (LoadsAlike site time) s, fun _ hv => absurd hv List.not_mem_nil⟩
  have hwalk := validateGraphEnv_visit env now fuel [] root [] s hstart
  cases hvisit : (site.callNet time s).visit fuel [] root [] with
  | none =>
    rw [hvisit] at hwalk
    obtain ⟨t, ht⟩ := hwalk
    exact ⟨t, bind_of_error _ ht⟩
  | some r =>
    rw [hvisit] at hwalk
    cases r with
    | error e =>
      obtain ⟨t, ht⟩ := hwalk
      exact ⟨t, bind_of_error _ ht⟩
    | ok visits =>
      obtain ⟨t, ht, hincache⟩ := hwalk
      exact ⟨t, bind_of_ok _ ht, hincache⟩

/-- The reports are those on the visits of a walk over the calls, whose plans are in the cache after it. -/
theorem validateEnv_ok {now : Text} {fuel : Nat} {root : Text} {reports : List EnvDepReport} {t : Server Blob}
    (h : site.validateEnv now time env fuel root s = .ok reports t) :
    ∃ visits, (site.callNet time s).Covers root visits ∧
      reports = visits.filterMap (reportOf site time s env) ∧ InCache site time s visits t := by
  have hwalk := validateEnv_visit site time s env now fuel root
  rw [h] at hwalk
  cases hvisit : (site.callNet time s).visit fuel [] root [] with
  | none =>
    rw [hvisit] at hwalk
    obtain ⟨w, hw⟩ := hwalk
    cases hw
  | some r =>
    rw [hvisit] at hwalk
    cases r with
    | error e =>
      obtain ⟨w, hw⟩ := hwalk
      cases hw
    | ok visits =>
      obtain ⟨w, hw, hincache⟩ := hwalk
      cases hw
      exact ⟨visits, Net.visit_covers callNet_keyed hvisit, rfl, hincache⟩

/-- A check that fails has met a name that cannot be resolved, or a graph whose plan cannot be loaded. -/
theorem validateEnv_error {now : Text} {fuel : Nat} (hfuel : s.tables.graphs.entries.length < fuel) {root : Text}
    {e : EnvCheckError} {t : Server Blob} (h : site.validateEnv now time env fuel root s = .error e t) :
    ∃ input e', e = .server e' ∧ (site.callNet time s).Met root input ∧ (site.callNet time s).Fails input e' := by
  have hwalk := validateEnv_visit site time s env now fuel root
  rw [h] at hwalk
  cases hvisit : (site.callNet time s).visit fuel [] root [] with
  | none =>
    have hall : ∀ input g, (site.callNet time s).resolve input = .ok g →
        (site.callNet time s).key g ∈ s.tables.graphs.keys := by
      intro input g hg
      obtain ⟨row, hrow, -⟩ := callee_row (callee_of_resolve hg)
      exact Dict.mem_keys.2 ⟨row, Dict.get_eq_some_iff.1 hrow⟩
    have hfresh : (site.callNet time s).fresh s.tables.graphs.keys [] < fuel := by
      refine Nat.lt_of_le_of_lt (List.length_filter_le _ _) ?_
      rwa [Dict.keys, List.length_map]
    exact absurd hvisit (Net.visit_ne_none hall hfresh)
  | some r =>
    rw [hvisit] at hwalk
    cases r with
    | error e' =>
      obtain ⟨w, hw⟩ := hwalk
      cases hw
      obtain ⟨input, hmet, hfails⟩ := Net.visit_error hvisit .root
      exact ⟨input, e', rfl, hmet, hfails⟩
    | ok visits =>
      obtain ⟨w, hw, -⟩ := hwalk
      cases hw

/-- The check answers exactly if every graph that is called can be found and loaded, and fails with what one
of them fails with; and it reports, once and with a way to it, each of these graphs that needs a variable which
is not set, with all that it misses. -/
theorem validateEnv_exact (site : Site Blob) (now : Text) (time : Nat) (env : Environment.Env u) {fuel : Nat}
    (root : Text) {s : Server Blob} (hfuel : s.tables.graphs.entries.length < fuel) :
    ((∃ reports t, site.validateEnv now time env fuel root s = .ok reports t) ↔
      ∀ input, (site.callNet time s).Met root input → ∀ e, ¬(site.callNet time s).Fails input e) ∧
    (∀ e t, site.validateEnv now time env fuel root s = .error e t →
      ∃ input e', e = .server e' ∧ (site.callNet time s).Met root input ∧ (site.callNet time s).Fails input e') ∧
    ∀ reports t, site.validateEnv now time env fuel root s = .ok reports t →
      ∃ visits, (site.callNet time s).Covers root visits ∧ reports = visits.filterMap (reportOf site time s env) := by
  refine ⟨⟨?_, fun hloads => ?_⟩, fun e t h => validateEnv_error hfuel h, fun reports t h => ?_⟩
  · rintro ⟨reports, t, h⟩ input hmet e hfails
    obtain ⟨visits, hcovers, -, -⟩ := validateEnv_ok h
    obtain ⟨v, hv, hresolve⟩ := hcovers.met input hmet
    obtain ⟨names, hnames⟩ := hcovers.opened v hv
    rcases hfails with hfail | ⟨g, hg, hfail⟩
    · rw [hresolve] at hfail
      cases hfail
    · rw [hresolve] at hg
      cases hg
      rw [hnames] at hfail
      cases hfail
  · cases h : site.validateEnv now time env fuel root s with
    | ok reports t => exact ⟨reports, t, rfl⟩
    | error e t =>
      obtain ⟨input, e', -, hmet, hfails⟩ := validateEnv_error hfuel h
      exact absurd hfails (hloads input hmet e')
  · obtain ⟨visits, hcovers, hreports, -⟩ := validateEnv_ok h
    exact ⟨visits, hcovers, hreports⟩

/-! ### Two graphs that call each other -/

def asksFor (key callee : Text) : CompiledPlan where
  version := 4
  nodes :=
    [⟨0, "n0", .call, [⟨"target", quoted "env.get"⟩, ⟨"key", quoted key⟩], none, none, none⟩,
      ⟨1, "n1", .call, [⟨"target", quoted ("subgraph:" ++ callee)⟩], none, none, none⟩]
  edges := []
  metadata := Metadata.default
  idMap := none
  groups := []

def plainRow (name : Text) : GraphRow Fb.ExecutionPlan :=
  ⟨name, 1, "draft", "", none, none, none, none, none, none, "0", "0"⟩

/-- Their plans are in the cache. -/
def mutualCalls : Server Fb.ExecutionPlan where
  tables :=
    { Tables.empty with graphs := (Dict.empty.set ("a" : Text) (plainRow "main")).set ("b" : Text) (plainRow "side") }
  plans := Dict.empty
  routes := Dict.empty
  planCache := (Dict.empty.set ("a" : Text) (1, asksFor "TOKEN" "side")).set ("b" : Text) (1, asksFor "URL" "main")
  deployed _ := none

def envWith (vars : List (Text × Text)) : Environment.Env Casing.asciiOnly :=
  .new [.static (.new Casing.asciiOnly vars)]

def checkAnswer {ε σ α : Type} : EStateM.Result ε σ α → Option α
  | .ok a _ => some a
  | .error _ _ => none

theorem exists_of_checkAnswer {ε σ α : Type} {x : EStateM.Result ε σ α} {a : α} (h : checkAnswer x = some a) :
    ∃ t, x = .ok a t := by
  cases x with
  | ok b t =>
    cases h
    exact ⟨t, rfl⟩
  | error e t => cases h

/-- The variable of the graph that is called is not set. -/
theorem validateEnv_exact_mutualCalls : ∃ visits, (quietSite.callNet 0 mutualCalls).Covers "main" visits ∧
    [⟨"main → side", ["URL"]⟩] = visits.filterMap (reportOf quietSite 0 mutualCalls (envWith [("TOKEN", "t")])) := by
  have hrun : checkAnswer (quietSite.validateEnv "0" 0 (envWith [("TOKEN", "t")]) 3 "main" mutualCalls) =
      some [⟨"main → side", ["URL"]⟩] := by
    decide +kernel
  obtain ⟨t, ht⟩ := exists_of_checkAnswer hrun
  exact (validateEnv_exact quietSite "0" 0 (envWith [("TOKEN", "t")]) "main" (by decide)).2.2 _ t ht

/-! ### Runs after the check -/

/-- A run of the root, or of a graph that a run has called, in any segment, and the environment it gets. -/
inductive Invoked (site : Site Blob) (t : Server Blob) (env : Environment.Env u) (root : Text) :
    Environment.Env u → CompiledPlan → Prop
  | root {now : Text} {time : Nat} {id : Text} {plan : CompiledPlan} {t' : Server Blob}
      (hrun : site.runSubgraph now time root t = .ok (id, plan) t') : Invoked site t env root env plan
  | call {view : Environment.Env u} {ex : Executor} (h : Invoked site t env root view ex.plan) {inputs : Context}
      {policies : Nat → PausePolicy} {n : Nat} {name : Text} {input : Context}
      (hcall : .dispatch (.subgraph name input) ∈ (segment ex inputs policies n).log)
      {now : Text} {time : Nat} {id : Text} {plan : CompiledPlan} {t' : Server Blob}
      (hrun : site.runSubgraph now time name t = .ok (id, plan) t') :
      Invoked site t env root (view.scopedTo name) plan

/-- A plan that is in the cache is run as it is. -/
theorem runSubgraph_cached {t : Server Blob} {name : Text} {g : GraphDefinition} (hg : t.tables.callee name = .ok g)
    {plan : CompiledPlan} (hcached : Site.cachedPlan t g = some plan) (now : Text) (time : Nat) :
    site.runSubgraph now time name t = .ok (g.id, plan) t := by
  rw [Tables.callee] at hg
  cases hname : t.tables.resolved name with
  | error e =>
    rw [hname] at hg
    cases hg
  | ok g' =>
    rw [hname] at hg
    cases hg
    have hresolve : Server.onStorage (Storage.resolveSubgraph name) t = .ok g' t := by
      rw [Server.onStorage, Server.onTables, zoom, EStateM.adaptExcept, EStateM.adaptExcept, resolveSubgraph_apply,
        hname]
      rfl
    have hload : site.loadCachedPlan now time g' t = .ok plan t := by
      rw [Site.loadCachedPlan, get_bind, show Site.cachedPlan t g' = some plan from hcached]
      rfl
    rw [Site.runSubgraph, bind_of_ok _ hresolve, bind_of_ok _ hload]
    rfl

theorem runSubgraph_callee {t t' : Server Blob} {now name : Text} {time : Nat} {r : Text × CompiledPlan}
    (h : site.runSubgraph now time name t = .ok r t') : ∃ g, t.tables.callee name = .ok g := by
  rw [Tables.callee]
  cases hname : t.tables.resolved name with
  | ok g => exact ⟨g.header, rfl⟩
  | error e =>
    have hresolve : Server.onStorage (Storage.resolveSubgraph name) t = .error (.heal (.storage e)) t := by
      rw [Server.onStorage, Server.onTables, zoom, EStateM.adaptExcept, EStateM.adaptExcept, resolveSubgraph_apply,
        hname]
      rfl
    rw [Site.runSubgraph, bind_of_error _ hresolve] at h
    cases h

/-- What a check without reports says of a graph that is called. -/
theorem met_sets {visits : List (Visit GraphDefinition)} {root : Text} {t : Server Blob}
    (hcovers : (site.callNet time s).Covers root visits) (hreports : visits.filterMap (reportOf site time s env) = [])
    (hincache : InCache site time s visits t) {name : Text} (hmet : (site.callNet time s).Met root name) :
    ∃ g plan, (site.callNet time s).resolve name = .ok g ∧
      (site.callNet time s).children g = .ok (subgraphTargets plan) ∧
      Sets env (scanPlanEnvDeps plan) ∧ ∀ now time, site.runSubgraph now time name t = .ok (g.id, plan) t := by
  obtain ⟨v, hv, hresolve⟩ := hcovers.met name hmet
  obtain ⟨-, plan, -, hplan, hcached⟩ := hincache.cached v hv
  refine ⟨v.2, plan, hresolve, ?_, fun d hd hrequired => ?_, ?_⟩
  · rw [callNet_children, hplan]
    rfl
  · have hnone : reportOf site time s env v = none := List.filterMap_eq_nil_iff.1 hreports v hv
    rw [reportOf, hplan] at hnone
    dsimp only at hnone
    split at hnone
    case isFalse => cases hnone
    case isTrue hmissing =>
      by_contra hunset
      have hmem : d.key ∈ missingKeys env plan := by
        refine List.mem_map.2 ⟨d, List.mem_filter.2 ⟨hd, ?_⟩, rfl⟩
        rw [hrequired, Option.not_isSome_iff_eq_none.1 hunset]
        rfl
      rw [hmissing] at hmem
      cases hmem
  · exact runSubgraph_cached ((hincache.kept.callee name).trans (callee_of_resolve hresolve)) hcached

/-- A plan that the check has seen, and an environment that has all that the checked one has. -/
structure Checked (net : Net Text GraphDefinition Text ServerError) (env : Environment.Env u) (root : Text)
    (view : Environment.Env u) (plan : CompiledPlan) : Prop where
  met : ∃ name g, net.Met root name ∧ net.resolve name = .ok g ∧ net.children g = .ok (subgraphTargets plan)
  sets : Sets env (scanPlanEnvDeps plan)
  sees : ∀ key, (env.get key).isSome → (view.get key).isSome

theorem Checked.called {net : Net Text GraphDefinition Text ServerError} {root : Text}
    {view : Environment.Env u} {ex : Executor} (h : Checked net env root view ex.plan)
    (hread : ∀ nd ∈ ex.plan.nodes, nd.op = .call → nd.Readable) {inputs : Context}
    {policies : Nat → PausePolicy} {n : Nat} {name : Text} {input : Context}
    (hcall : .dispatch (.subgraph name input) ∈ (segment ex inputs policies n).log) : net.Met root name := by
  obtain ⟨caller, g, hmet, hg, hchildren⟩ := h.met
  obtain ⟨nd, hnd, hop, hfrom⟩ := segment_log ex inputs policies n _ hcall
  cases hfrom with
  | subgraph _ htarget => exact .step hmet hg hchildren ((hread nd hnd hop).subgraph hnd hop htarget)

theorem Invoked.checked {visits : List (Visit GraphDefinition)} {root : Text} {t : Server Blob}
    (hcovers : (site.callNet time s).Covers root visits) (hreports : visits.filterMap (reportOf site time s env) = [])
    (hincache : InCache site time s visits t)
    (hread : ∀ view plan, Invoked site t env root view plan → ∀ nd ∈ plan.nodes, nd.op = .call → nd.Readable)
    {view : Environment.Env u} {plan : CompiledPlan} (h : Invoked site t env root view plan) :
    Checked (site.callNet time s) env root view plan := by
  induction h with
  | @root now time' id plan t' hrun =>
    obtain ⟨g, plan', hg, hchildren, hsets, hload⟩ := met_sets hcovers hreports hincache .root
    rw [hload now time'] at hrun
    cases hrun
    exact ⟨⟨root, g, .root, hg, hchildren⟩, hsets, fun _ hkey => hkey⟩
  | @call view ex hinvoked inputs policies n name input hcall now time' id plan t' hrun ih =>
    have hmet := ih.called (hread view ex.plan hinvoked) hcall
    obtain ⟨g, plan', hg, hchildren, hsets, hload⟩ := met_sets hcovers hreports hincache hmet
    rw [hload now time'] at hrun
    cases hrun
    exact ⟨⟨name, g, hmet, hg, hchildren⟩, hsets, fun key hkey =>
      Environment.Env.isSome_get_scopedTo (ih.sees key hkey) name⟩

theorem cached_mutualCalls {name : Text} {g : GraphDefinition} (h : mutualCalls.tables.callee name = .ok g) :
    Site.cachedPlan mutualCalls g = some (asksFor "TOKEN" "side") ∨
      Site.cachedPlan mutualCalls g = some (asksFor "URL" "main") := by
  obtain ⟨row, hrow, heq⟩ := callee_row h
  have hentries : mutualCalls.tables.graphs.entries = [(("a" : Text), plainRow "main"), ("b", plainRow "side")] := rfl
  have hmem := Dict.get_eq_some_iff.1 hrow
  rw [hentries, List.mem_cons, List.mem_singleton, Prod.mk.injEq, Prod.mk.injEq] at hmem
  rcases hmem with ⟨hid, rfl⟩ | ⟨hid, rfl⟩
  · rw [hid] at heq
    rw [heq]
    exact Or.inl rfl
  · rw [hid] at heq
    rw [heq]
    exact Or.inr rfl

theorem readable_asksFor (key : Text) {callee : Text} (hverbatim : Verbatim ("subgraph:" ++ callee))
    (hname : Text.stripPrefix "subgraph:" callee = none) : ∀ nd ∈ (asksFor key callee).nodes, nd.Readable := by
  intro nd hnd
  rcases List.mem_cons.1 hnd with rfl | hnd
  · refine ⟨"env.get", rfl, by decide +kernel, fun name h => ?_⟩
    have hnone : Text.stripPrefix "subgraph:" "env.get" = none := by decide
    rw [hnone] at h
    cases h
  · obtain rfl := List.mem_singleton.1 hnd
    refine ⟨"subgraph:" ++ callee, rfl, hverbatim, fun name h => ?_⟩
    rw [Text.stripPrefix] at h
    split at h
    case isFalse => cases h
    case isTrue =>
      cases h
      exact hname

end Check

end Tinypipe
