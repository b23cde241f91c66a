import Tinypipe.Lib.Folds
import Tinypipe.Server.Engine

/-! Which version of a deployed graph is run. No load path looks at the active version: the
server, its routes and the calls of subgraphs run the plan of the current version. -/

namespace Tinypipe

open Lib Lib.Stateful

/-! ### Plans that stand for a code -/

namespace Toolchain

variable {Blob : Type} {t : Toolchain Blob}

/-- The decoded plan is what the compiler makes of the code. -/
def Runs (t : Toolchain Blob) (code : Text) (plan : CompiledPlan) : Prop :=
  ∃ bytes, t.Made code bytes ∧ CompiledPlan.fromFbBytes t.fb bytes = .ok plan

/-- Every plan of the second code is one of the first. -/
def Covers (t : Toolchain Blob) (code code' : Text) : Prop :=
  ∀ bytes, t.Made code' bytes → t.Made code bytes

theorem covers_self (t : Toolchain Blob) (code : Text) : t.Covers code code := fun _ hm => hm

theorem Covers.runs {code code' : Text} (hc : t.Covers code code') {plan : CompiledPlan}
    (hr : t.Runs code' plan) : t.Runs code plan := by
  obtain ⟨bytes, hmade, hdecode⟩ := hr
  exact ⟨bytes, hc bytes hmade, hdecode⟩

end Toolchain

/-- The tables hold the histories, and no plan stands next to a code it is not made from. -/
structure TablesOk {Blob : Type} (t : Toolchain Blob) (h : Histories) (s : Tables Blob) : Prop where
  refines : Refines s h
  fit : PlansFit t.Made s

/-- The header of a graph, as far as the histories tell. -/
structure Listed (h : Histories) (g : GraphDefinition) : Prop where
  version : g.version = (h g.id).length
  code : (h g.id).getLast? = some g.code

section Loads

variable {Blob : Type} {t : Toolchain Blob} {s : Tables Blob} {h : Histories}

theorem Refines.listed (hr : Refines s h) {id : Text} {row : GraphRow Blob}
    (hg : s.graphs.get id = some row) : Listed h (Tables.definition id row) :=
  ⟨(hr.version hg).1, (hr.version hg).2⟩

theorem Listed.code_version {g : GraphDefinition} (hg : Listed h g) :
    h.code g.id g.version = some g.code := by
  have hne : (h g.id).length ≠ 0 := fun hlen => by
    have hcode := hg.code
    rw [List.length_eq_zero_iff.1 hlen] at hcode
    cases hcode
  rw [Histories.code, hg.version, if_neg hne, ← List.getLast?_eq_getElem?, hg.code]

/-- The graph of a name is one of the graphs. -/
theorem newest_graph {name : Text} {g : GraphDefinition} (hg : s.newest name = some g) :
    ∃ row, s.graphs.get g.id = some row ∧ g = Tables.definition g.id row := by
  rw [Tables.newest] at hg
  refine (Folds.foldl_eq_or_mem (fun best g => ?_) _ none hg).elim (fun hnone => by cases hnone) fun hmem => ?_
  · cases best with
    | none => exact Or.inr rfl
    | some b => exact (ite_eq_or_eq _ (some g) (some b)).symm
  · obtain ⟨e, he, rfl⟩ := List.mem_map.1 hmem
    exact ⟨e.2, Dict.get_eq_some_iff.2 (List.mem_filter.1 he).1, rfl⟩

theorem loadGraph_listed (t : Toolchain Blob) (h : Histories) (id : Text) :
    Triple (TablesOk t h) (Storage.loadGraph id) (fun g s => Listed h g ∧ TablesOk t h s)
      fun _ s => TablesOk t h s := by
  refine Triple.get_bind fun s hs => ?_
  cases hg : s.graphs.get id with
  | none => exact Triple.throw fun _ hu => hu ▸ hs
  | some row => exact Triple.pure fun _ hu => hu ▸ ⟨hs.refines.listed hg, hs⟩

theorem findGraphByName_listed (t : Toolchain Blob) (h : Histories) (name : Text) :
    Triple (TablesOk t h) (Storage.findGraphByName name) (fun g s => Listed h g ∧ TablesOk t h s)
      fun _ s => TablesOk t h s := by
  refine Triple.get_bind fun s hs => ?_
  cases hg : s.newest name with
  | none => exact Triple.throw fun _ hu => hu ▸ hs
  | some g =>
    obtain ⟨row, hrow, heq⟩ := newest_graph hg
    refine Triple.pure fun _ hu => hu ▸ ⟨?_, hs⟩
    rw [heq]
    exact hs.refines.listed hrow

theorem resolveGraph_listed (t : Toolchain Blob) (h : Histories) (idOrName : Text) :
    Triple (TablesOk t h) (Storage.resolveGraph idOrName) (fun g s => Listed h g ∧ TablesOk t h s)
      fun _ s => TablesOk t h s := by
  refine (loadGraph_listed t h idOrName).attempt_ok.bind fun r => Triple.assume fun hr => ?_
  split
  · exact Triple.pure fun s hs => ⟨hr _ rfl, hs⟩
  · exact findGraphByName_listed t h idOrName
  · exact Triple.throw fun _ hs => hs

theorem resolveSubgraph_listed (t : Toolchain Blob) (h : Histories) (input : Text) :
    Triple (TablesOk t h) (Storage.resolveSubgraph input) (fun g s => Listed h g ∧ TablesOk t h s)
      fun _ s => TablesOk t h s := by
  refine (findGraphByName_listed t h input).attempt_ok.bind fun r => Triple.assume fun hr => ?_
  split
  · exact Triple.pure fun s hs => ⟨hr _ rfl, hs⟩
  · exact loadGraph_listed t h input
  · exact Triple.throw fun _ hs => hs

theorem listAllGraphs_listed (t : Toolchain Blob) (h : Histories) :
    Triple (TablesOk t h) Storage.listAllGraphs (fun l s => (∀ g ∈ l, Listed h g) ∧ TablesOk t h s)
      fun _ s => TablesOk t h s := by
  intro s hs
  refine ⟨fun g hg => ?_, hs⟩
  rw [List.mem_insertionSort, List.mem_map] at hg
  obtain ⟨e, he, rfl⟩ := hg
  exact hs.refines.listed (Dict.get_eq_some_iff.2 he)

/-! ### Self-heal -/

theorem rebuild_made (t : Toolchain Blob) (P : Tables Blob → Prop) (time : Nat) (code : Text) :
    Triple P (t.rebuild time code) (fun plan s => t.Made code plan ∧ P s) fun _ => P := by
  rw [Toolchain.rebuild]
  cases hb : t.build time code with
  | error e => exact Triple.throw fun _ hs => hs
  | ok plan => exact Triple.pure fun _ hs => ⟨⟨time, hb⟩, hs⟩

theorem decode_runs (t : Toolchain Blob) (P : Tables Blob → Prop) {code : Text} {bytes : Blob}
    (hm : t.Made code bytes) :
    Triple P (t.decode bytes) (fun plan s => t.Runs code plan ∧ P s) fun _ => P := by
  rw [Toolchain.decode]
  cases hd : CompiledPlan.fromFbBytes t.fb bytes with
  | error e => exact Triple.throw fun _ hs => hs
  | ok plan => exact Triple.pure fun _ hs => ⟨⟨bytes, hm, hd⟩, hs⟩

/-- A plan of the current code is saved for the current version. -/
theorem savePlan_ok_of_listed {g : GraphDefinition} (hg : Listed h g) {plan : Blob}
    (hm : t.Made g.code plan) (now : Text) :
    Triple (TablesOk t h) (Storage.savePlan now g.id g.version plan) (fun _ => TablesOk t h)
      fun _ => TablesOk t h := by
  have hstep : ∀ s, TablesOk t h s →
      TablesOk t h (StorageOp.step s (.savePlan now g.id g.version plan)) := by
    intro s hs
    refine ⟨hs.refines.step (.savePlan now g.id g.version plan), ?_⟩
    refine (StorageOp.plansFit_step_iff hs.refines hs.fit _).2 ⟨fun row hrow => ?_, fun r hr => ?_⟩
    · have hlast := (hs.refines.version hrow).2
      rw [hg.code] at hlast
      exact Option.some.inj hlast ▸ hm
    · have hcode := hs.refines.rows g.id g.version
      rw [hr, hg.code_version, Option.map_some] at hcode
      exact Option.some.inj hcode ▸ hm
  intro s hs
  have := hstep s hs
  rw [StorageOp.step, StorageOp.run] at this
  cases hx : Storage.savePlan now g.id g.version plan s with
  | ok a u => rwa [hx] at this
  | error e u => rwa [hx] at this

/-- A missing plan is made, saved and decoded. -/
theorem heal_runs {g : GraphDefinition} (hg : Listed h g) (now : Text) (time : Nat) :
    Triple (TablesOk t h) (do
      let plan ← t.rebuild time g.code
      EStateM.adaptExcept .storage (Storage.savePlan now g.id g.version plan)
      t.decode plan : EStateM HealError (Tables Blob) CompiledPlan)
      (fun plan s => t.Runs g.code plan ∧ TablesOk t h s) fun _ s => TablesOk t h s := by
  refine (rebuild_made t (TablesOk t h) time g.code).bind fun bytes => Triple.assume fun hm => ?_
  refine Triple.bind (R := fun _ => TablesOk t h) ?_ fun _ => decode_runs t _ hm
  exact (savePlan_ok_of_listed hg hm now).adaptExcept

theorem loadPlan_made {g : GraphDefinition} (hg : Listed h g) :
    Triple (TablesOk t h) (Storage.loadPlan g.id) (fun plan s => t.Made g.code plan ∧ TablesOk t h s)
      fun _ => TablesOk t h := by
  intro s hs
  cases hrow : s.graphs.get g.id with
  | none =>
    simp only [Storage.loadPlan, get_bind, hrow, throw_apply]
    exact hs
  | some row =>
    rw [loadPlan_eq hrow]
    cases hplan : row.executionPlan with
    | none => exact hs
    | some plan =>
      refine ⟨?_, hs⟩
      have hlast := (hs.refines.version hrow).2
      rw [hg.code] at hlast
      exact Option.some.inj hlast ▸ hs.fit.graphs g.id row hrow plan hplan

theorem loadPlanVersion_row (t : Toolchain Blob) (id : Text) (version : Nat) :
    Triple (TablesOk t h) (Storage.loadPlanVersion id version)
      (fun plan s => (∃ r, s.versions.get (id, version) = some r ∧ r.executionPlan = some plan) ∧
        TablesOk t h s) fun _ => TablesOk t h := by
  intro s hs
  cases hrow : s.versions.get (id, version) with
  | none =>
    simp only [Storage.loadPlanVersion, get_bind, hrow, throw_apply]
    exact hs
  | some row =>
    rw [loadPlanVersion_eq hrow]
    cases hplan : row.executionPlan with
    | none => exact hs
    | some plan => exact ⟨⟨row, hrow, hplan⟩, hs⟩

theorem loadPlanVersion_made {id : Text} {version : Nat} {code : Text}
    (hcode : h.code id version = some code) :
    Triple (TablesOk t h) (Storage.loadPlanVersion id version)
      (fun plan s => t.Made code plan ∧ TablesOk t h s) fun _ => TablesOk t h := by
  refine (loadPlanVersion_row t id version).conseq (fun _ hs => hs) ?_ fun _ _ hs => hs
  rintro plan s ⟨⟨row, hrow, hplan⟩, hs⟩
  refine ⟨?_, hs⟩
  have hrows := hs.refines.rows id version
  rw [hrow, hcode, Option.map_some] at hrows
  exact Option.some.inj hrows ▸ hs.fit.versions id version row hrow plan hplan

theorem loadPlanSelfHeal_runs {g : GraphDefinition} (hg : Listed h g) (now : Text) (time : Nat) :
    Triple (TablesOk t h) (t.loadPlanSelfHeal now time g)
      (fun plan s => t.Runs g.code plan ∧ TablesOk t h s) fun _ => TablesOk t h := by
  refine (loadPlan_made hg).attempt_ok.bind fun r => Triple.assume fun hr => ?_
  split
  · exact decode_runs t _ (hr _ rfl)
  · exact heal_runs hg now time
  · exact Triple.throw fun _ hs => hs

end Loads

/-! ### What the server holds -/

section Serves

variable {Blob : Type} {site : Site Blob} {s : Server Blob} {h : Histories} {d : Text → Option Text}

/-- The codes `d` of the deployed versions are those every plan stands for that the server runs. -/
structure Serves (site : Site Blob) (h : Histories) (d : Text → Option Text) (s : Server Blob) :
    Prop where
  tables : TablesOk site.toToolchain h s.tables
  noted : s.deployed = d
  deployed : ∀ id c, d id = some c → ∃ code, (h id).getLast? = some code ∧ site.Covers c code
  plans : ∀ id c plan, d id = some c → s.plans.get id = some plan → site.Runs c plan
  cache : ∀ id v plan, s.planCache.get id = some (v, plan) →
    ∃ code, h.code id v = some code ∧ site.Runs code plan

def Serving (site : Site Blob) (s : Server Blob) : Prop := ∃ h d, Serves site h d s

/-- The plans are those of the current versions. -/
def Current (site : Site Blob) (h : Histories) (plans : Dict Text CompiledPlan) : Prop :=
  ∀ id plan, plans.get id = some plan → ∃ code, (h id).getLast? = some code ∧ site.Runs code plan

theorem serves_empty (site : Site Blob) :
    Serves site (fun _ => []) (fun _ => none) Server.empty :=
  ⟨⟨refines_empty, plansFit_empty _⟩, rfl, fun _ _ hd => (by cases hd),
    fun _ _ _ hd => (by cases hd), fun _ _ _ hc => (by cases hc)⟩

theorem Serves.setTables (hs : Serves site h d s) {u : Tables Blob}
    (hu : TablesOk site.toToolchain h u) : Serves site h d (s.setTables u) :=
  ⟨hu, hs.noted, hs.deployed, hs.plans, hs.cache⟩

theorem Serves.noteRollback (hs : Serves site h d s) (id : Text) :
    Serves site h (Function.update d id none) (s.noteRollback id) := by
  have hold : ∀ id' c, Function.update d id none id' = some c → d id' = some c := by
    intro id' c hd
    rw [Function.update_apply] at hd
    split at hd
    · cases hd
    · exact hd
  exact ⟨hs.tables, by rw [Server.noteRollback, hs.noted], fun id' c hd => hs.deployed id' c (hold id' c hd),
    fun id' c plan hd => hs.plans id' c plan (hold id' c hd), hs.cache⟩

/-- A version is deployed whose code the current one stands for. -/
theorem Serves.noteDeploy (hs : Serves site h d s) {id : Text} {version : Nat}
    (hcover : ∀ c code, h.code id version = some c → (h id).getLast? = some code → site.Covers c code)
    (hplan : ∀ c plan, h.code id version = some c → s.plans.get id = some plan → site.Runs c plan) :
    Serves site h (Function.update d id (h.code id version)) (s.noteDeploy id version) := by
  have hnew : ∀ id' c, Function.update d id (h.code id version) id' = some c →
      (id' = id ∧ h.code id version = some c) ∨ d id' = some c := by
    intro id' c hd
    rw [Function.update_apply] at hd
    split at hd
    case isTrue hid => exact Or.inl ⟨hid, hd⟩
    case isFalse => exact Or.inr hd
  refine ⟨hs.tables, ?_, fun id' c hd => ?_, fun id' c plan hd hp => ?_, hs.cache⟩
  · rw [Server.noteDeploy, hs.tables.refines.rows, hs.noted]
  · rcases hnew id' c hd with ⟨rfl, hcode⟩ | hd
    · have hne : h id' ≠ [] := by
        intro hnil
        simp [Histories.code, hnil] at hcode
      have hlast := List.getLast?_eq_some_getLast hne
      exact ⟨_, hlast, hcover c _ hcode hlast⟩
    · exact hs.deployed id' c hd
  · rcases hnew id' c hd with ⟨rfl, hcode⟩ | hd
    · exact hplan c plan hcode hp
    · exact hs.plans id' c plan hd hp

theorem Serves.setPlans (hs : Serves site h d s) {plans : Dict Text CompiledPlan}
    (hp : Current site h plans) (routes : Dict Text RouteConfig) :
    Serves site h d { s with plans := plans, routes := routes } := by
  refine ⟨hs.tables, hs.noted, hs.deployed, fun id c plan hd hplan => ?_, hs.cache⟩
  obtain ⟨code, hlast, hcover⟩ := hs.deployed id c hd
  obtain ⟨code', hlast', hruns⟩ := hp id plan hplan
  rw [hlast] at hlast'
  cases hlast'
  exact hcover.runs hruns

/-! ### Requests -/

theorem onTables_serves {α : Type} {p : α → Tables Blob → Prop}
    {x : EStateM HealError (Tables Blob) α}
    (hx : Triple (TablesOk site.toToolchain h) x (fun a s => p a s ∧ TablesOk site.toToolchain h s)
      fun _ => TablesOk site.toToolchain h) :
    Triple (Serves site h d) (Server.onTables x) (fun a s => p a s.tables ∧ Serves site h d s)
      fun _ => Serves site h d := by
  refine Triple.zoom fun s hs => Triple.adaptExcept (hx.conseq ?_ ?_ ?_)
  · rintro _ rfl
    exact hs.tables
  · exact fun a u hu => ⟨hu.1, hs.setTables hu.2⟩
  · exact fun e u hu => hs.setTables hu

theorem onStorage_serves {α : Type} {p : α → Tables Blob → Prop} {x : StorageM Blob α}
    (hx : Triple (TablesOk site.toToolchain h) x (fun a s => p a s ∧ TablesOk site.toToolchain h s)
      fun _ => TablesOk site.toToolchain h) :
    Triple (Serves site h d) (Server.onStorage x) (fun a s => p a s.tables ∧ Serves site h d s)
      fun _ => Serves site h d :=
  onTables_serves (Triple.adaptExcept (E := fun _ => TablesOk site.toToolchain h) hx)

theorem refreshGraph_current {g : GraphDefinition} (hg : Listed h g) {plans : Dict Text CompiledPlan}
    (hp : Current site h plans) (now : Text) (time : Nat) (routes : Dict Text RouteConfig) :
    Triple (Serves site h d) (site.refreshGraph now time plans routes g)
      (fun r s => Current site h r.1 ∧ Serves site h d s) fun _ => Serves site h d := by
  refine (onTables_serves (loadPlanSelfHeal_runs hg now time)).bind fun plan =>
    Triple.assume fun hruns => ?_
  have hnew : Current site h (plans.set g.id plan) := by
    intro id plan' hplan
    rw [Dict.get_set] at hplan
    split at hplan
    case isTrue hid =>
      cases hplan
      exact ⟨g.code, hid ▸ hg.code, hruns⟩
    case isFalse => exact hp id plan' hplan
  split
  · exact Triple.throw fun _ hs => hs
  · exact Triple.pure fun _ hs => ⟨hnew, hs⟩
  · split
    · exact Triple.throw fun _ hs => hs
    · exact Triple.pure fun _ hs => ⟨hnew, hs⟩

theorem refreshGraphs_current (now : Text) (time : Nat) (l : List GraphDefinition)
    (hl : ∀ g ∈ l, Listed h g) {plans : Dict Text CompiledPlan} (hp : Current site h plans)
    (routes : Dict Text RouteConfig) :
    Triple (Serves site h d) (site.refreshGraphs now time l plans routes)
      (fun r s => Current site h r.1 ∧ Serves site h d s) fun _ => Serves site h d := by
  induction l generalizing plans routes with
  | nil => exact Triple.pure fun _ hs => ⟨hp, hs⟩
  | cons g l ih =>
    refine (refreshGraph_current (hl g List.mem_cons_self) hp now time routes).bind fun r =>
      Triple.assume fun hr => ?_
    exact ih (fun g' hg' => hl g' (List.mem_cons_of_mem _ hg')) hr r.2

theorem refreshAll_current (now : Text) (time : Nat) :
    Triple (Serves site h d) (site.refreshAll now time)
      (fun _ s => Current site h s.plans ∧ Serves site h d s) fun _ => Serves site h d := by
  refine (onStorage_serves (listAllGraphs_listed _ h)).bind fun l => Triple.assume fun hl => ?_
  refine (refreshGraphs_current now time l hl (fun _ _ hplan => by cases hplan) Dict.empty).bind
    fun r => Triple.assume fun hr => ?_
  exact Triple.modify fun s hs => ⟨hr, hs.setPlans hr r.2⟩

theorem checkRouteConflict_keeps (P : Server Blob → Prop) (graphId metaJson : Text) :
    Triple P (site.checkRouteConflict graphId metaJson) (fun _ => P) fun _ => P := by
  rw [Site.checkRouteConflict]
  cases site.parseRouteConfig metaJson "" with
  | error e => exact Triple.throw fun _ hs => hs
  | ok config =>
    cases config with
    | none => exact Triple.pure fun _ hs => hs
    | some rc =>
      refine Triple.get_bind fun s hs => ?_
      split
      · refine Triple.ite (fun _ => Triple.throw ?_) fun _ => Triple.pure ?_
        · rintro _ rfl
          exact hs
        · rintro _ rfl
          exact hs
      · refine Triple.pure ?_
        rintro _ rfl
        exact hs

theorem validateRouteConflict_keeps (P : Server Blob → Prop) (time : Nat) (graphId code : Text) :
    Triple P (site.validateRouteConflict time graphId code) (fun _ => P) fun _ => P := by
  rw [Site.validateRouteConflict]
  cases site.compileText time code with
  | error e => exact Triple.throw fun _ hs => hs
  | ok compiled => exact checkRouteConflict_keeps P graphId _

theorem validateRouteConflictForPlan_keeps (P : Server Blob → Prop) (graphId : Text) (bytes : Blob) :
    Triple P (site.validateRouteConflictForPlan graphId bytes) (fun _ => P) fun _ => P := by
  rw [Site.validateRouteConflictForPlan]
  cases CompiledPlan.fromFbBytes site.fb bytes with
  | error e => exact Triple.throw fun _ hs => hs
  | ok plan => exact checkRouteConflict_keeps P graphId _

/-- The last step of every request that changes a graph. -/
theorem refreshAll_serving (now : Text) (time : Nat) :
    Triple (Serving site) (site.refreshAll now time) (fun _ => Serving site) fun _ => Serving site :=
  Triple.of_exists fun _ => Triple.of_exists fun _ => (refreshAll_current now time).conseq
    (fun _ hs => hs) (fun _ _ hs => ⟨_, _, hs.2⟩) fun _ _ hs => ⟨_, _, hs⟩

/-- A new version whose plan is saved behind it. -/
theorem newVersion_tables {u : Tables Blob} (hu : TablesOk site.toToolchain h u) (id : Text) {v : Nat}
    (hv : v = (h id).length + 1) {g : GraphRow Blob} {r : VersionRow Blob} (hg : g.version = v)
    (hcode : r.code = g.code) {plan : Blob} (hm : site.Made g.code plan) (now : Text) :
    ∃ w, Storage.savePlan now id v plan ((u.setGraph id g).setVersion id v r) = .ok ⟨⟩ w ∧
      TablesOk site.toToolchain (h.append id g.code) w := by
  have hgraph : ((u.setGraph id g).setVersion id v r).graphs.get id = some g := by
    rw [Tables.graphs_setVersion, Tables.get_setGraph, if_pos rfl]
  have hrow : ((u.setGraph id g).setVersion id v r).versions.get (id, v) = some r := by
    rw [Tables.get_setVersion, if_pos rfl]
  refine ⟨_, Storage.savePlan_ok hgraph hrow now plan, ?_⟩
  rw [Tables.setGraph_setVersion u, Tables.setGraph_setGraph, ← Tables.setGraph_setVersion,
    Tables.setVersion_setVersion]
  refine ⟨?_, (hu.fit.set_iff id v _ _).2 ⟨?_, ?_⟩⟩
  · exact hu.refines.newVersion (g := { g with executionPlan := some plan, updatedAt := now })
      (r := { r with executionPlan := some plan }) hv hg hcode
  · exact fits_some.2 hm
  · refine fits_some.2 ?_
    rw [hcode]
    exact hm

/-- A new graph and its plan. -/
theorem create_tables {code : Text} {plan : Blob} (hm : site.Made code plan) (now id name : Text) :
    Triple (TablesOk site.toToolchain h) (do
      let id ← Storage.createGraph id now name code
      Storage.savePlan now id 1 plan : StorageM Blob Unit)
      (fun _ w => h id = [] ∧ TablesOk site.toToolchain (h.append id code) w)
      fun _ => TablesOk site.toToolchain h := by
  intro u hu
  by_cases hnil : h id = []
  · rw [bind_of_ok _ (Storage.createGraph_ok (hu.refines.graph_eq_none.2 hnil)
      (hu.refines.first_free hnil) now name code)]
    obtain ⟨w, hw, hok⟩ := newVersion_tables hu id (v := 1) (by rw [hnil]; rfl)
      (g := ⟨name, 1, "draft", code, none, none, none, none, none, none, now, now⟩)
      (r := ⟨code, none, now⟩) rfl rfl hm now
    rw [hw]
    exact ⟨hnil, hok⟩
  · obtain ⟨g, hg⟩ := hu.refines.exists_graph hnil
    rw [bind_of_error _ (Storage.createGraph_error hg now name code)]
    exact hu

/-- A new version and its plan. -/
theorem update_tables {code : Text} {plan : Blob} (hm : site.Made code plan) (now id : Text) :
    Triple (TablesOk site.toToolchain h) (do
      let version ← Storage.updateGraph now id code
      Storage.savePlan now id version plan : StorageM Blob Unit)
      (fun _ => TablesOk site.toToolchain (h.append id code)) fun _ => TablesOk site.toToolchain h := by
  intro u hu
  cases hg : u.graphs.get id with
  | none =>
    rw [bind_of_error _ (Storage.updateGraph_error hg now code)]
    exact hu
  | some g =>
    rw [bind_of_ok _ (Storage.updateGraph_ok hg (hu.refines.update_free hg) now code)]
    obtain ⟨w, hw, hok⟩ := newVersion_tables hu id (v := g.version + 1)
      (by rw [(hu.refines.version hg).1])
      (g := { g with code := code, version := g.version + 1, updatedAt := now })
      (r := ⟨code, none, now⟩) rfl rfl hm now
    rw [hw]
    exact hok

/-- The current code of a graph becomes another one. -/
theorem Serves.append (hs : Serves site h d s) {u : Tables Blob} {id code : Text}
    (hu : TablesOk site.toToolchain (h.append id code) u)
    (hcover : ∀ c, d id = some c → site.Covers c code) :
    Serves site (h.append id code) d (s.setTables u) := by
  refine ⟨hu, hs.noted, fun id' c hd => ?_, hs.plans, fun id' v plan hcache => ?_⟩
  · by_cases hid : id' = id
    · subst hid
      exact ⟨code, by rw [Histories.append_self, List.getLast?_concat], hcover c hd⟩
    · rw [Histories.append_of_ne h hid]
      exact hs.deployed id' c hd
  · obtain ⟨code', hcode, hruns⟩ := hs.cache id' v plan hcache
    exact ⟨code', Histories.code_of_prefix (h.prefix_append id code id') hcode, hruns⟩

/-- What is not there is not deployed. -/
theorem Serves.deployed_eq_none (hs : Serves site h d s) {id : Text} (hnil : h id = []) :
    d id = none := by
  cases hd : d id with
  | none => rfl
  | some c =>
    obtain ⟨code, hlast, -⟩ := hs.deployed id c hd
    rw [hnil] at hlast
    cases hlast

/-- A storage operation that changes the histories, or fails and does not. -/
theorem onStorage_changes {α : Type} {p q : Tables Blob → Prop} {R : α → Server Blob → Prop}
    {E : ServerError → Server Blob → Prop} {x : StorageM Blob α} (hs : Serves site h d s)
    (hx : Triple q x (fun _ => p) fun _ => TablesOk site.toToolchain h) (hq : q s.tables)
    (hok : ∀ a u, p u → R a (s.setTables u)) (herror : ∀ e t, Serves site h d t → E e t) :
    Triple (fun t => t = s) (Server.onStorage x) R E := by
  refine Triple.zoom fun t ht => Triple.adaptExcept (Triple.adaptExcept (hx.conseq ?_ ?_ ?_))
  · rintro _ rfl
    rw [ht]
    exact hq
  · intro a u hu
    rw [ht]
    exact hok a u hu
  · intro e u hu
    rw [ht]
    exact herror _ _ (hs.setTables hu)

/-- What keeps the histories may also fail. -/
theorem keeps_serving {α : Type} {R : α → Server Blob → Prop} {x : ServerM Blob α}
    (hx : Triple (Serves site h d) x R fun _ => Serves site h d) :
    Triple (Serves site h d) x R fun _ => Serving site :=
  hx.conseq (fun _ hs => hs) (fun _ _ hs => hs) fun _ _ hs => ⟨h, d, hs⟩

theorem createGraph_serving (now : Text) (time : Nat) (id name code : Text) :
    Triple (Serves site h d) (site.createGraph now time id name code) (fun _ => Serving site)
      fun _ => Serving site := by
  refine (keeps_serving (validateRouteConflict_keeps _ time "" code)).bind fun _ => ?_
  refine (keeps_serving (onTables_serves (rebuild_made site.toToolchain _ time code))).bind
    fun plan => Triple.assume fun hm => ?_
  refine Triple.bind (R := fun _ => Serving site) (fun s hs => ?_) fun _ => refreshAll_serving now time
  refine onStorage_changes hs (create_tables hm now id name) hs.tables ?_ (fun _ _ ht => (⟨h, d, ht⟩ : Serving site _)) s rfl
  intro _ u hu
  refine ⟨_, _, hs.append hu.2 fun c hd => ?_⟩
  rw [hs.deployed_eq_none hu.1] at hd
  cases hd

/-- The graph a request means. -/
def Means (s : Server Blob) (idOrName : Text) (g : GraphDefinition) : Prop :=
  ∃ u, Server.onStorage (Storage.resolveGraph idOrName) s = .ok g u

theorem updateGraph_serving (now : Text) (time : Nat) (idOrName code : Text) :
    Triple (fun s => Serves site h d s ∧ ∀ g, Means s idOrName g → ∀ c, d g.id = some c →
      site.Covers c code) (site.updateGraph now time idOrName code) (fun _ => Serving site)
      fun _ => Serving site := by
  refine Triple.bind_from ((keeps_serving (onStorage_serves (resolveGraph_listed _ h idOrName))).conseq
    (fun _ hs => hs.1) (fun _ _ hs => hs) fun _ _ hs => hs) fun s g t hs hg => Triple.assume fun _ => ?_
  have hcover := hs.2 g ⟨t, hg⟩
  refine (keeps_serving (validateRouteConflict_keeps _ time g.id code)).bind fun _ => ?_
  refine (keeps_serving (onTables_serves (rebuild_made site.toToolchain _ time code))).bind
    fun plan => Triple.assume fun hm => ?_
  refine Triple.bind (R := fun _ => Serving site) (fun s hs => ?_) fun _ => refreshAll_serving now time
  exact onStorage_changes hs (update_tables hm now g.id) hs.tables (fun _ u hu => ⟨_, _, hs.append hu hcover⟩)
    (fun _ _ ht => (⟨h, d, ht⟩ : Serving site _)) s rfl

/-- The last of the versions is the current one. -/
theorem listVersions_last (t : Toolchain Blob) (id : Text) :
    Triple (TablesOk t h) (Storage.listVersions id)
      (fun l s => (∀ e, l.getLast? = some e → e.1 = (h id).length) ∧ TablesOk t h s)
      fun _ => TablesOk t h := by
  intro s hs
  refine ⟨fun e he => ?_, hs⟩
  rw [List.getLast?_map] at he
  obtain ⟨e', he', rfl⟩ := Option.map_eq_some_iff.1 he
  have hnumbers := congrArg List.getLast? (hs.refines.versionsOf id)
  rw [List.getLast?_map, he', Option.map_some, List.getLast?_eq_getElem?, List.length_range'] at hnumbers
  obtain ⟨hlt, hnumber⟩ := List.getElem?_eq_some_iff.1 hnumbers.symm
  rw [List.length_range'] at hlt
  rw [List.getElem_range'] at hnumber
  dsimp only
  omega

/-- The version that is asked for, or the current one. -/
theorem targetVersion_last (id : Text) (version : Option Nat) :
    Triple (Serves site h d) (Site.targetVersion id version)
      (fun v s => (version = some v ∨ v = (h id).length) ∧ Serves site h d s) fun _ => Serves site h d := by
  cases version with
  | some v => exact Triple.pure fun _ hs => ⟨Or.inl rfl, hs⟩
  | none =>
    refine (onStorage_serves (listVersions_last _ id)).bind fun l => Triple.assume fun hl => ?_
    split
    case h_1 e he => exact Triple.pure fun _ hs => ⟨Or.inr (hl e he), hs⟩
    case h_2 => exact Triple.throw fun _ hs => hs

theorem deploy_tables (t : Toolchain Blob) (id : Text) (version : Nat) :
    Triple (TablesOk t h) (Storage.deploy id version)
      (fun _ s => (h.code id version).isSome ∧ TablesOk t h s) fun _ => TablesOk t h := by
  intro s hs
  have hstep : TablesOk t h (StorageOp.step s (.deploy id version)) :=
    ⟨hs.refines.step (.deploy id version),
      (StorageOp.plansFit_step_iff hs.refines hs.fit (.deploy id version)).2 trivial⟩
  cases hv : s.versions.get (id, version) with
  | none =>
    rw [Storage.deploy_error hv]
    exact hs
  | some r =>
    obtain ⟨g, hg⟩ := hs.refines.exists_graph (hs.refines.ne_nil hv)
    rw [StorageOp.step, StorageOp.run, Storage.deploy_ok hg hv] at hstep
    rw [Storage.deploy_ok hg hv]
    exact ⟨by rw [← hs.refines.rows, hv]; rfl, hstep⟩

theorem deployGraph_serving (now : Text) (time : Nat) (idOrName : Text) (version : Option Nat) :
    Triple (fun s => Serves site h d s ∧ ∀ g, Means s idOrName g → ∀ v, version = some v →
      ∀ c code, h.code g.id v = some c → (h g.id).getLast? = some code → site.Covers c code)
      (site.deployGraph now time idOrName version) (fun _ => Serving site) fun _ => Serving site := by
  refine Triple.bind_from ((keeps_serving (onStorage_serves (resolveGraph_listed _ h idOrName))).conseq
    (fun _ hs => hs.1) (fun _ _ hs => hs) fun _ _ hs => hs) fun s g t hs hg => Triple.assume fun hlisted => ?_
  refine (keeps_serving (targetVersion_last g.id version)).bind fun v => Triple.assume fun hv => ?_
  have hcover : ∀ c code, h.code g.id v = some c → (h g.id).getLast? = some code → site.Covers c code := by
    intro c code hcode hlast
    rcases hv with hv | rfl
    · exact hs.2 g ⟨t, hg⟩ v hv c code hcode hlast
    · rw [← hlisted.version, hlisted.code_version] at hcode
      rw [hlisted.code, hcode] at hlast
      cases hlast
      exact site.covers_self c
  refine (keeps_serving (onStorage_serves (loadPlanVersion_row _ g.id v))).bind fun bytes =>
    Triple.bind (R := fun _ => Serves site h d) ?_ fun _ => ?_
  · exact (validateRouteConflictForPlan_keeps (Serves site h d) g.id bytes).conseq
      (fun _ hs => hs.2) (fun _ _ hs => hs) fun _ s hs => (⟨h, d, hs⟩ : Serving site s)
  refine (keeps_serving (onStorage_serves (deploy_tables _ g.id v))).bind fun _ =>
    Triple.assume fun hsome => ?_
  refine (keeps_serving (refreshAll_current now time)).bind fun _ => Triple.modify fun s hs => ?_
  refine ⟨_, _, hs.2.noteDeploy hcover fun c plan hcode hplan => ?_⟩
  obtain ⟨code, hlast, hruns⟩ := hs.1 g.id plan hplan
  exact (hcover c code hcode hlast).runs hruns

theorem rollback_tables (t : Toolchain Blob) (now id : Text) (version : Nat) :
    Triple (fun s => (StorageOp.rollback now id version).Sound t.Made s ∧ TablesOk t h s)
      (Storage.rollback now id version)
      (fun _ s => ∃ code, TablesOk t (h.append id code) s) fun _ => TablesOk t h := by
  rintro s ⟨hsound, hs⟩
  cases hv : s.versions.get (id, version) with
  | none =>
    rw [Storage.rollback_error hv now]
    exact hs
  | some r =>
    obtain ⟨g, hg⟩ := hs.refines.exists_graph (hs.refines.ne_nil hv)
    have hrefines := hs.refines.step (.rollback now id version)
    have hfit := (StorageOp.plansFit_step_iff hs.refines hs.fit (.rollback now id version)).2 hsound
    rw [StorageOp.record, StorageOp.adds, ← hs.refines.rows, hv] at hrefines
    rw [StorageOp.step, StorageOp.run, Storage.rollback_ok hg hv] at hrefines hfit
    rw [Storage.rollback_ok hg hv]
    exact ⟨r.code, hrefines, hfit⟩

/-- The plan of the old version replaces the current one. -/
theorem rollback_sound {t : Tables Blob} {made : Text → Blob → Prop} {id : Text} {version : Nat}
    {r : VersionRow Blob} {plan : Blob} (hv : t.versions.get (id, version) = some r)
    (hplan : r.executionPlan = some plan) (now : Text) :
    (StorageOp.rollback now id version).Sound made t := by
  intro g old _ hold hnone
  rw [hv] at hold
  cases hold
  rw [hnone] at hplan
  cases hplan

theorem rollbackGraph_serving (now : Text) (time : Nat) (idOrName : Text) (version : Nat) :
    Triple (Serves site h d) (site.rollbackGraph now time idOrName version) (fun _ => Serving site)
      fun _ => Serving site := by
  refine (keeps_serving (onStorage_serves (resolveGraph_listed _ h idOrName))).bind fun g =>
    Triple.assume fun _ => ?_
  refine (keeps_serving (onStorage_serves (loadPlanVersion_row _ g.id version))).bind fun bytes =>
    Triple.bind (R := fun _ s => (StorageOp.rollback now g.id version).Sound site.Made s.tables ∧
      Serves site h d s) ?_ fun _ => ?_
  · refine (validateRouteConflictForPlan_keeps _ g.id bytes).conseq (fun s hs => ?_) (fun _ _ hs => hs)
      fun _ s hs => (⟨h, d, hs.2⟩ : Serving site s)
    obtain ⟨⟨r, hr, hplan⟩, hs⟩ := hs
    exact ⟨rollback_sound hr hplan now, hs⟩
  refine Triple.bind (R := fun _ s => Serving site (s.noteRollback g.id)) (fun s hs => ?_) fun _ => ?_
  · refine onStorage_changes hs.2 (rollback_tables _ now g.id version) ⟨hs.1, hs.2.tables⟩ ?_
      (fun _ _ ht => (⟨h, d, ht⟩ : Serving site _)) s rfl
    rintro _ u ⟨code, hu⟩
    refine ⟨h.append g.id code, _, (hs.2.noteRollback g.id).append hu fun c hd => ?_⟩
    rw [Function.update_self] at hd
    cases hd
  · exact Triple.bind (R := fun _ => Serving site) (Triple.modify fun s hs => hs) fun _ =>
      refreshAll_serving now time

/-! ### Runs of a graph -/

theorem loadSubgraphPlan_runs {g : GraphDefinition} (hg : Listed h g) (now : Text) (time : Nat) :
    Triple (TablesOk site.toToolchain h) (site.loadSubgraphPlan now time g)
      (fun plan s => site.Runs g.code plan ∧ TablesOk site.toToolchain h s)
      fun _ => TablesOk site.toToolchain h := by
  refine (loadPlanVersion_made hg.code_version).attempt_ok.bind fun r => Triple.assume fun hr => ?_
  split
  · exact decode_runs site.toToolchain _ (hr _ rfl)
  · exact heal_runs hg now time
  · exact heal_runs hg now time
  · exact Triple.throw fun _ hs => hs

theorem Serves.cachedPlan (hs : Serves site h d s) {g : GraphDefinition} (hg : Listed h g)
    {plan : CompiledPlan} (hplan : Site.cachedPlan s g = some plan) : site.Runs g.code plan := by
  obtain ⟨e, he, hversion⟩ := Option.bind_eq_some_iff.1 hplan
  split at hversion
  case isTrue hv =>
    cases hversion
    obtain ⟨code, hcode, hruns⟩ := hs.cache g.id e.1 e.2 he
    rw [hv, hg.code_version] at hcode
    cases hcode
    exact hruns
  case isFalse => cases hversion

theorem loadCachedPlan_runs {g : GraphDefinition} (hg : Listed h g) (now : Text) (time : Nat) :
    Triple (Serves site h d) (site.loadCachedPlan now time g)
      (fun plan s => site.Runs g.code plan ∧ Serves site h d s) fun _ => Serves site h d := by
  refine Triple.get_bind fun s hs => ?_
  split
  case h_1 plan hplan =>
    refine Triple.pure ?_
    rintro _ rfl
    exact ⟨hs.cachedPlan hg hplan, hs⟩
  case h_2 =>
    refine Triple.conseq (?_ : Triple (Serves site h d) _ _ _) ?_ (fun _ _ hs => hs) fun _ _ hs => hs
    · refine (onTables_serves (loadSubgraphPlan_runs hg now time)).bind fun plan =>
        Triple.assume fun hruns => ?_
      refine Triple.bind (R := fun _ => Serves site h d) (Triple.modify fun s hs => ?_)
        fun _ => Triple.pure fun s hs => ⟨hruns, hs⟩
      refine ⟨hs.tables, hs.noted, hs.deployed, hs.plans, fun id v plan' hcache => ?_⟩
      rw [Dict.get_set] at hcache
      split at hcache
      case isTrue hid =>
        cases hcache
        exact ⟨g.code, hid ▸ hg.code_version, hruns⟩
      case isFalse => exact hs.cache id v plan' hcache
    · rintro _ rfl
      exact hs

end Serves

/-- The ways to start a graph. -/
inductive Launch where
  | execute (now : Text) (time : Nat) (idOrName : Text)
  | publish (path : Text) (method : RouteMethod)
  | subgraph (now : Text) (time : Nat) (name : Text)

inductive ServerOp (Blob : Type) where
  | createGraph (now : Text) (time : Nat) (id name code : Text)
  | updateGraph (now : Text) (time : Nat) (idOrName code : Text)
  | deployGraph (now : Text) (time : Nat) (idOrName : Text) (version : Option Nat)
  | rollbackGraph (now : Text) (time : Nat) (idOrName : Text) (version : Nat)
  | launch (l : Launch)
  /-- Another process works on the same tables. -/
  | store (op : PlanOp Blob)

section Runs

variable {Blob : Type} (site : Site Blob)

def Launch.run : Launch → ServerM Blob (Text × CompiledPlan)
  | execute now time idOrName => site.executeGraph now time idOrName
  | publish path method => Site.publish path method
  | subgraph now time name => site.runSubgraph now time name

/-- What an operation on the tables means for the deployed versions. -/
def Server.note : PlanOp Blob → Server Blob → Server Blob
  | .storage (.deploy id version) => noteDeploy id version
  | .storage (.rollback _ id _) => noteRollback id
  | _ => id

namespace ServerOp

def run : ServerOp Blob → ServerM Blob Unit
  | createGraph now time id name code => site.createGraph now time id name code
  | updateGraph now time idOrName code => site.updateGraph now time idOrName code
  | deployGraph now time idOrName version => site.deployGraph now time idOrName version
  | rollbackGraph now time idOrName version => site.rollbackGraph now time idOrName version
  | launch l => do let _ ← l.run site
  | store op => do
    Server.onTables (op.run site.toToolchain)
    modify (Server.note op)

def step (s : Server Blob) (op : ServerOp Blob) : Server Blob := finalState (op.run site s)

/-- A version is deployed, and a graph updated behind a deploy, only so that the plans of the
current version are plans of the deployed one. -/
def Keeps (s : Server Blob) : ServerOp Blob → Prop
  | createGraph _ _ _ _ _ | rollbackGraph _ _ _ _ | launch _ => True
  | updateGraph _ _ idOrName code => ∀ g, Means s idOrName g → ∀ c, s.deployed g.id = some c →
    site.Covers c code
  | deployGraph _ _ idOrName version => ∀ g, Means s idOrName g → ∀ v, version = some v →
    ∀ r row, s.tables.versions.get (g.id, v) = some r → s.tables.graphs.get g.id = some row →
      site.Covers r.code row.code
  | store (.storage (.updateGraph now id code)) =>
    (StorageOp.updateGraph now id code).Sound site.Made s.tables ∧
      ∀ c, s.deployed id = some c → site.Covers c code
  | store (.storage (.deploy id version)) => ∀ r row, s.tables.versions.get (id, version) = some r →
    s.tables.graphs.get id = some row → site.Covers r.code row.code ∧
      ∀ plan, s.plans.get id = some plan → site.Runs r.code plan
  | store op => op.Sound site.toToolchain s.tables

end ServerOp

variable {site} {s : Server Blob} {h : Histories} {d : Text → Option Text}

/-- A plan of the current code is one of the deployed code. -/
theorem Serves.runs_deployed (hs : Serves site h d s) {g : GraphDefinition} (hg : Listed h g)
    {plan : CompiledPlan} (hruns : site.Runs g.code plan) {c : Text} (hd : d g.id = some c) :
    site.Runs c plan := by
  obtain ⟨code, hlast, hcover⟩ := hs.deployed g.id c hd
  rw [hg.code] at hlast
  cases hlast
  exact hcover.runs hruns

theorem launch_runs (l : Launch) :
    Triple (Serves site h d) (l.run site)
      (fun r s => (∀ c, d r.1 = some c → site.Runs c r.2) ∧ Serves site h d s)
      fun _ => Serves site h d := by
  cases l with
  | execute now time idOrName =>
    refine (onStorage_serves (resolveGraph_listed _ h idOrName)).bind fun g =>
      Triple.assume fun hg => ?_
    refine (onTables_serves (loadPlanSelfHeal_runs hg now time)).bind fun plan =>
      Triple.assume fun hruns => ?_
    exact Triple.pure fun s hs => ⟨fun c hd => hs.runs_deployed hg hruns hd, hs⟩
  | publish path method =>
    refine Triple.get_bind fun s hs => ?_
    split
    case h_1 =>
      refine Triple.throw ?_
      rintro _ rfl
      exact hs
    case h_2 rc hrc =>
      split
      case h_1 =>
        refine Triple.throw ?_
        rintro _ rfl
        exact hs
      case h_2 plan hplan =>
        refine Triple.pure ?_
        rintro _ rfl
        exact ⟨fun c hd => hs.plans rc.graphId c plan hd hplan, hs⟩
  | subgraph now time name =>
    refine (onStorage_serves (resolveSubgraph_listed _ h name)).bind fun g =>
      Triple.assume fun hg => ?_
    refine (loadCachedPlan_runs hg now time).bind fun plan => Triple.assume fun hruns => ?_
    exact Triple.pure fun s hs => ⟨fun c hd => hs.runs_deployed hg hruns hd, hs⟩

/-! ### Steps -/

/-- What an operation of another process leaves in the tables. -/
theorem store_tables {t : Toolchain Blob} {u : Tables Blob} (hu : TablesOk t h u) {op : PlanOp Blob}
    (hsound : op.Sound t u) :
    ∃ h', TablesOk t h' (op.step t u) ∧
      (h' = h ∨ ∃ o id code, op.effect t u = some o ∧ o.adds h = some (id, code) ∧
        h' = h.append id code) := by
  have hfit := (op.plansFit_step_iff hu.refines hu.fit).2 hsound
  rw [op.step_eq] at hfit ⊢
  cases ho : op.effect t u with
  | none => exact ⟨h, hu, Or.inl rfl⟩
  | some o =>
    rw [ho] at hfit
    refine ⟨o.record h, ⟨hu.refines.step o, hfit⟩, ?_⟩
    rw [StorageOp.record]
    cases hadds : o.adds h with
    | none => exact Or.inl rfl
    | some added => exact Or.inr ⟨o, added.1, added.2, rfl, hadds, rfl⟩

/-- Unless it deploys or rolls back. -/
theorem store_serving {op : PlanOp Blob} (hnote : Server.note op = id)
    (hadds : ∀ u o id code, op.effect site.toToolchain u = some o → o.adds h = some (id, code) →
      ∀ c, d id = some c → site.Covers c code) :
    Triple (fun s => op.Sound site.toToolchain s.tables ∧ Serves site h d s)
      ((ServerOp.store op).run site) (fun _ => Serving site) fun _ => Serving site := by
  have htables : Triple (fun s => op.Sound site.toToolchain s.tables ∧ Serves site h d s)
      (Server.onTables (op.run site.toToolchain)) (fun _ => Serving site) fun _ => Serving site := by
    refine Triple.zoom fun s hs => Triple.of_finalState ?_
    rintro _ rfl
    rw [finalState_adaptExcept]
    obtain ⟨h', hu, rfl | ⟨o, id, code, ho, hadd, rfl⟩⟩ := store_tables hs.2.tables hs.1
    · exact ⟨h', d, hs.2.setTables hu⟩
    · exact ⟨_, d, hs.2.append hu (hadds _ o id code ho hadd)⟩
  refine htables.bind fun _ => Triple.modify fun s hs => ?_
  rw [hnote]
  exact hs

theorem Refines.row_of_code {u : Tables Blob} (hr : Refines u h) {id : Text} {v : Nat} {c : Text}
    (hcode : h.code id v = some c) : ∃ r, u.versions.get (id, v) = some r ∧ r.code = c := by
  rw [← hr.rows] at hcode
  exact Option.map_eq_some_iff.1 hcode

theorem Refines.header_of_last {u : Tables Blob} (hr : Refines u h) {id code : Text}
    (hlast : (h id).getLast? = some code) : ∃ row, u.graphs.get id = some row ∧ row.code = code := by
  have hne : h id ≠ [] := by
    intro hnil
    rw [hnil] at hlast
    cases hlast
  obtain ⟨row, hrow⟩ := hr.exists_graph hne
  have hcode := (hr.version hrow).2
  rw [hlast] at hcode
  exact ⟨row, hrow, (Option.some.inj hcode).symm⟩

/-- The condition on a deploy, in terms of the tables and of the histories. -/
theorem Refines.covers_current {u : Tables Blob} (hr : Refines u h) {id : Text} {v : Nat}
    (hk : ∀ r row, u.versions.get (id, v) = some r → u.graphs.get id = some row →
      site.Covers r.code row.code) {c code : Text} (hcode : h.code id v = some c)
    (hlast : (h id).getLast? = some code) : site.Covers c code := by
  obtain ⟨r, hv, rfl⟩ := hr.row_of_code hcode
  obtain ⟨row, hrow, rfl⟩ := hr.header_of_last hlast
  exact hk r row hv hrow

theorem store_deploy_serving (hs : Serves site h d s) {id : Text} {version : Nat}
    (hk : (ServerOp.store (.storage (.deploy id version))).Keeps site s) :
    Serving site (ServerOp.step site s (.store (.storage (.deploy id version)))) := by
  have htriple : Triple (fun t => t = s) ((ServerOp.store (.storage (.deploy id version))).run site)
      (fun _ => Serving site) fun _ => Serving site := by
    refine Triple.bind (R := fun _ t => Serves site h d t ∧ t.plans = s.plans) ?_ fun _ =>
      Triple.modify fun t ht => ?_
    · refine onStorage_changes hs (deploy_tables site.toToolchain id version) hs.tables ?_
        fun _ t ht => ⟨h, d, ht⟩
      exact fun _ u hu => ⟨hs.setTables hu.2, rfl⟩
    · have hcover : ∀ c code, h.code id version = some c → (h id).getLast? = some code →
          site.Covers c code := fun c code hcode hlast =>
        hs.tables.refines.covers_current (fun r row hv hrow => (hk r row hv hrow).1) hcode hlast
      refine ⟨h, _, ht.1.noteDeploy hcover fun c plan hcode hplan => ?_⟩
      obtain ⟨r, hv, rfl⟩ := hs.tables.refines.row_of_code hcode
      obtain ⟨row, hrow⟩ := hs.tables.refines.exists_graph (hs.tables.refines.ne_nil hv)
      rw [ht.2] at hplan
      exact (hk r row hv hrow).2 plan hplan
  exact htriple.finalState rfl

theorem store_rollback_serving (hs : Serves site h d s) {now id : Text} {version : Nat}
    (hk : (ServerOp.store (.storage (.rollback now id version))).Keeps site s) :
    Serving site (ServerOp.step site s (.store (.storage (.rollback now id version)))) := by
  have htriple : Triple (fun t => t = s)
      ((ServerOp.store (.storage (.rollback now id version))).run site)
      (fun _ => Serving site) fun _ => Serving site := by
    refine Triple.bind (R := fun _ t => Serving site (t.noteRollback id)) ?_ fun _ =>
      Triple.modify fun t ht => ht
    refine onStorage_changes hs (rollback_tables site.toToolchain now id version) ⟨hk, hs.tables⟩ ?_
      fun _ t ht => ⟨h, d, ht⟩
    rintro _ u ⟨code, hu⟩
    refine ⟨h.append id code, _, (hs.noteRollback id).append hu fun c hd => ?_⟩
    rw [Function.update_self] at hd
    cases hd
  exact htriple.finalState rfl

theorem ServerOp.serving (hs : Serves site h d s) {op : ServerOp Blob} (hk : op.Keeps site s) :
    Serving site (op.step site s) := by
  obtain rfl := hs.noted
  cases op with
  | createGraph now time id name code =>
    exact (createGraph_serving now time id name code).finalState hs
  | updateGraph now time idOrName code =>
    exact (updateGraph_serving now time idOrName code).finalState ⟨hs, hk⟩
  | deployGraph now time idOrName version =>
    refine (deployGraph_serving now time idOrName version).finalState (s := s) ⟨hs, ?_⟩
    exact fun g hg v hv c code hcode hlast =>
      hs.tables.refines.covers_current (hk g hg v hv) hcode hlast
  | rollbackGraph now time idOrName version =>
    exact (rollbackGraph_serving now time idOrName version).finalState hs
  | launch l =>
    rw [step, run, finalState_discard]
    exact Triple.finalState (R := Serving site) ((launch_runs l).conseq (fun _ hs => hs)
      (fun _ _ hs => ⟨h, _, hs.2⟩) fun _ _ hs => ⟨h, _, hs⟩) hs
  | store op =>
    cases op with
    | selfHeal now time id =>
      refine (store_serving rfl fun u o id code ho hadd => ?_).finalState ⟨hk, hs⟩
      obtain ⟨g, plan, -, -, -, rfl⟩ := PlanOp.effect_selfHeal.1 ho
      cases hadd
    | selfHealVersion now time id version =>
      refine (store_serving rfl fun u o id code ho hadd => ?_).finalState ⟨hk, hs⟩
      obtain ⟨r, plan, -, -, -, rfl⟩ := PlanOp.effect_selfHealVersion.1 ho
      cases hadd
    | storage op =>
      cases op with
      | deploy id version => exact store_deploy_serving hs hk
      | rollback now id version => exact store_rollback_serving hs hk
      | updateGraph now id code =>
        refine (store_serving rfl fun u o id' code' ho hadd => ?_).finalState ⟨hk.1, hs⟩
        cases ho
        rw [StorageOp.adds] at hadd
        split at hadd
        · cases hadd
        · cases hadd
          exact hk.2
      | createGraph id now name code =>
        refine (store_serving rfl fun u o id' code' ho hadd => ?_).finalState ⟨hk, hs⟩
        cases ho
        rw [StorageOp.adds] at hadd
        split at hadd
        case isTrue hnil =>
          cases hadd
          intro c hd
          rw [hs.deployed_eq_none hnil] at hd
          cases hd
        case isFalse => cases hadd
      | createForkGraph id now name code parentId forkNode forkLabel =>
        refine (store_serving rfl fun u o id' code' ho hadd => ?_).finalState ⟨hk, hs⟩
        cases ho
        rw [StorageOp.adds] at hadd
        split at hadd
        case isTrue hnil =>
          cases hadd
          intro c hd
          rw [hs.deployed_eq_none hnil] at hd
          cases hd
        case isFalse => cases hadd
      | savePlan now id version plan =>
        refine (store_serving rfl fun u o id' code' ho hadd => ?_).finalState ⟨hk, hs⟩
        cases ho
        cases hadd

/-- Every step of the run keeps the deployed versions current. -/
def KeepsDeployed (site : Site Blob) : Server Blob → List (ServerOp Blob) → Prop
  | _, [] => True
  | s, op :: ops => op.Keeps site s ∧ KeepsDeployed site (op.step site s) ops

theorem serving_run (hs : Serving site s) {ops : List (ServerOp Blob)} (hk : KeepsDeployed site s ops) :
    Serving site (ops.foldl (ServerOp.step site) s) := by
  induction ops generalizing s with
  | nil => exact hs
  | cons op ops ih =>
    obtain ⟨h, d, hs⟩ := hs
    exact ih (ServerOp.serving hs hk.1) hk.2

theorem keepsDeployed_append {ops ops' : List (ServerOp Blob)} (hk : KeepsDeployed site s (ops ++ ops')) :
    KeepsDeployed site s ops := by
  induction ops generalizing s with
  | nil => exact trivial
  | cons op ops ih => exact ⟨hk.1, ih hk.2⟩

/-- Whatever is started of a deployed graph runs a plan of the deployed version, as long as its
plans are those of the current version. -/
theorem deployed_version_runs (site : Site Blob) (ops ops' : List (ServerOp Blob))
    (hk : KeepsDeployed site Server.empty (ops ++ ops')) (l : Launch) {id : Text} {plan : CompiledPlan}
    {u : Server Blob}
    (hl : l.run site (ops.foldl (ServerOp.step site) Server.empty) = .ok (id, plan) u) {code : Text}
    (hd : (ops.foldl (ServerOp.step site) Server.empty).deployed id = some code) :
    site.Runs code plan := by
  obtain ⟨h, d, hs⟩ : Serving site (ops.foldl (ServerOp.step site) Server.empty) :=
    serving_run ⟨_, _, serves_empty site⟩ (keepsDeployed_append hk)
  obtain rfl := hs.noted
  exact ((launch_runs l).ok hs hl).1 code hd

end Runs

/-! ### The current version runs -/

theorem CompiledPlan.ofFb_nodes {t : Fb.ExecutionPlan} {p : CompiledPlan}
    (hp : CompiledPlan.ofFb t = .ok p) :
    p.nodes = (t.nodes.map fun ns => ns.map CompiledNode.ofFb).getD [] := by
  rw [CompiledPlan.ofFb] at hp
  cases hm : t.metadata with
  | none =>
    rw [hm] at hp
    cases hp
  | some m =>
    rw [hm] at hp
    cases hp
    rfl

/-- The nodes of a plan of a code, as they are compiled at any time. -/
theorem Toolchain.Runs.nodes {t : Toolchain Fb.ExecutionPlan} (ht : t.fb = FlatBuffers.tables)
    {code : Text} {plan : CompiledPlan} (hr : t.Runs code plan) : ∃ bytes, t.build 0 code = .ok bytes ∧
      plan.nodes = (bytes.nodes.map fun ns => ns.map CompiledNode.ofFb).getD [] := by
  obtain ⟨bytes, ⟨time, hbuild⟩, hdecode⟩ := hr
  obtain ⟨bytes', hbuild', hnodes⟩ := Toolchain.build_nodes ht hbuild 0
  rw [ht] at hdecode
  exact ⟨bytes', hbuild', hnodes ▸ CompiledPlan.ofFb_nodes hdecode⟩

def quietSite : Site Fb.ExecutionPlan := { shortAndLong with parseRouteConfig := fun _ _ => .ok none }

/-- Version 1 is deployed when version 2 is there: what is started runs the plan of version 2. -/
theorem deployed_version_ignored :
    let s := ([.createGraph "0" 0 "a" "g" "short", .updateGraph "1" 0 "a" "long",
      .deployGraph "2" 0 "a" (some 1)] : List (ServerOp Fb.ExecutionPlan)).foldl
        (ServerOp.step quietSite) Server.empty
    s.deployed "a" = some "short" ∧
      ∃ plan u, (Launch.execute "3" 0 "a").run quietSite s = .ok ("a", plan) u ∧
        ¬quietSite.Runs "short" plan := by
  intro s
  refine ⟨by decide +kernel, ?_⟩
  have hrun : (match (Launch.execute "3" 0 "a").run quietSite s with
      | .ok r _ => some (r.1, r.2.nodes.length)
      | .error _ _ => none) = some (("a" : Text), 4) := by
    decide +kernel
  cases hl : (Launch.execute "3" 0 "a").run quietSite s with
  | error e u =>
    rw [hl] at hrun
    cases hrun
  | ok r u =>
    rw [hl] at hrun
    obtain ⟨id, plan⟩ := r
    obtain ⟨rfl, hlength⟩ := Prod.mk.inj (Option.some.inj hrun)
    refine ⟨plan, u, rfl, fun hruns => ?_⟩
    obtain ⟨bytes, hbuild, hnodes⟩ := hruns.nodes rfl
    have htwo : (quietSite.build 0 "short").toOption.map (fun p =>
        ((p.nodes.map fun ns => ns.map CompiledNode.ofFb).getD []).length) = some 2 := by
      decide +kernel
    rw [hbuild, Except.toOption, Option.map_some, ← hnodes, hlength] at htwo
    cases htwo

def createAndDeploy : List (ServerOp Fb.ExecutionPlan) :=
  [.createGraph "0" 0 "a" "g" "short", .createGraph "1" 0 "b" "h" "short", .deployGraph "2" 0 "a" none]

theorem keepsDeployed_createAndDeploy : KeepsDeployed quietSite Server.empty (createAndDeploy ++ []) := by
  refine ⟨trivial, trivial, fun g _ v hv => ?_, trivial⟩
  cases hv

/-- The current version is deployed. -/
theorem deployed_version_runs_current : ∃ plan u,
    (Launch.subgraph "3" 0 "g").run quietSite
      (createAndDeploy.foldl (ServerOp.step quietSite) Server.empty) = .ok ("a", plan) u ∧
      quietSite.Runs "short" plan := by
  obtain ⟨s, hs⟩ : ∃ s, s = createAndDeploy.foldl (ServerOp.step quietSite) Server.empty := ⟨_, rfl⟩
  rw [← hs]
  have hrun : (match (Launch.subgraph "3" 0 "g").run quietSite s with
      | .ok r _ => some r.1
      | .error _ _ => none) = some ("a" : Text) := by
    rw [hs]
    decide +kernel
  have hdeployed : s.deployed "a" = some ("short" : Text) := by
    rw [hs]
    decide +kernel
  cases hl : (Launch.subgraph "3" 0 "g").run quietSite s with
  | error e u =>
    rw [hl] at hrun
    cases hrun
  | ok r u =>
    rw [hl] at hrun
    obtain ⟨id, plan⟩ := r
    obtain rfl : id = ("a" : Text) := Option.some.inj hrun
    refine ⟨plan, u, rfl, ?_⟩
    rw [hs] at hl hdeployed
    exact deployed_version_runs quietSite createAndDeploy [] keepsDeployed_createAndDeploy _ hl hdeployed

end Tinypipe
