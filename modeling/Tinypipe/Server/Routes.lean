import Tinypipe.Server.Meta

/-! The table of routes over every run of the server (`refresh_all` in `tinypipe-server/src/engine.rs`,
`routes.rs`): it is the table of what the loaded plans declare. -/

namespace Tinypipe

open Lib Lib.Stateful

/-! ### The table -/

/-- A server that reads META so. -/
def Toolchain.site {Blob : Type} (t : Toolchain Blob) (reader : MetaReader) : Site Blob where
  toToolchain := t
  parseRouteConfig := reader.parseRouteConfig

section Table

variable {reader : MetaReader} {plans : Dict Text CompiledPlan} {routes : Dict Text RouteConfig}

/-- The plan of the graph declares the route. -/
def Declares (reader : MetaReader) (plans : Dict Text CompiledPlan) (id : Text) (rc : RouteConfig) : Prop :=
  ∃ plan, plans.get id = some plan ∧ reader.declared plan.metadata.metaJson = .ok (some rc)

theorem Declares.valid {id : Text} {rc : RouteConfig} (h : Declares reader plans id rc) :
    rc.Valid ∧ rc.graphId = [] := by
  obtain ⟨plan, -, hdeclared⟩ := h
  exact MetaReader.declared_valid hdeclared

theorem declares_set {id : Text} (hnew : plans.get id = none) (plan : CompiledPlan) (id' : Text) (rc : RouteConfig) :
    Declares reader (plans.set id plan) id' rc ↔
      id' = id ∧ reader.declared plan.metadata.metaJson = .ok (some rc) ∨ Declares reader plans id' rc := by
  unfold Declares
  by_cases hid : id = id'
  · subst hid
    simp only [Dict.get_set, if_true, hnew, Option.some.injEq, exists_eq_left', true_and, reduceCtorEq, false_and,
      exists_false, or_false]
  · have hne : ¬id' = id := fun h => hid h.symm
    simp only [Dict.get_set, if_neg hid, hne, false_and, false_or]

/-- The routes are those that the plans declare, each under its own key. -/
def Tabled (reader : MetaReader) (plans : Dict Text CompiledPlan) (routes : Dict Text RouteConfig) : Prop :=
  ∀ key rc, routes.get key = some rc ↔
    key = routeKey rc.path rc.method ∧ Declares reader plans rc.graphId { rc with graphId := [] }

theorem tabled_empty (reader : MetaReader) : Tabled reader Dict.empty Dict.empty := by
  intro key rc
  refine iff_of_false (fun h => by cases h) ?_
  rintro ⟨-, plan, hplan, -⟩
  cases hplan

/-- A plan without a route. -/
theorem Tabled.plain (h : Tabled reader plans routes) {id : Text} (hnew : plans.get id = none) {plan : CompiledPlan}
    (hdeclared : reader.declared plan.metadata.metaJson = .ok none) : Tabled reader (plans.set id plan) routes := by
  intro key rc
  rw [h key rc, declares_set hnew, hdeclared]
  simp

/-- A plan with a route that no other one has. -/
theorem Tabled.route (h : Tabled reader plans routes) {id : Text} (hnew : plans.get id = none) {plan : CompiledPlan}
    {rc : RouteConfig} (hdeclared : reader.declared plan.metadata.metaJson = .ok (some rc))
    (hfree : routes.get (routeKey rc.path rc.method) = none) :
    Tabled reader (plans.set id plan) (routes.set (routeKey rc.path rc.method) { rc with graphId := id }) := by
  have hid : rc.graphId = [] := (MetaReader.declared_valid hdeclared).2
  have hrc : ({ rc with graphId := [] } : RouteConfig) = rc := by rw [← hid]
  intro key rc'
  rw [Dict.get_set, declares_set hnew, hdeclared]
  split
  case isTrue hkey =>
    constructor
    · intro heq
      cases heq
      exact ⟨hkey.symm, Or.inl ⟨rfl, by rw [hrc]⟩⟩
    · rintro ⟨hown, ⟨rfl, heq⟩ | hdeclares⟩
      · cases heq
        rfl
      · have hget := (h key rc').2 ⟨hown, hdeclares⟩
        rw [← hkey, hfree] at hget
        cases hget
  case isFalse hkey =>
    rw [h key rc']
    refine and_congr_right fun hown => ⟨Or.inr, fun hdeclares => ?_⟩
    rcases hdeclares with ⟨-, heq⟩ | hdeclares
    · cases heq
      exact absurd hown.symm hkey
    · exact hdeclares

end Table

/-! ### Requests -/

section Requests

variable {Blob : Type} {reader : MetaReader} {t : Toolchain Blob}

/-- The routes of the server are those that its plans declare. -/
def Server.Tabled (reader : MetaReader) (s : Server Blob) : Prop := Tinypipe.Tabled reader s.plans s.routes

theorem onTables_tabled {α : Type} {p : α → Prop} {x : EStateM HealError (Tables Blob) α}
    (hx : ∀ u a u', x u = .ok a u' → p a) :
    Triple (Server.Tabled reader) (Server.onTables x) (fun a s => p a ∧ s.Tabled reader)
      fun _ => Server.Tabled reader := by
  refine Triple.zoom fun s hs => Triple.adaptExcept fun u _ => ?_
  cases h : x u with
  | ok a u' => exact ⟨hx u a u' h, hs⟩
  | error e u' => exact hs

theorem onStorage_tabled {α : Type} {p : α → Prop} {x : StorageM Blob α} (hx : ∀ u a u', x u = .ok a u' → p a) :
    Triple (Server.Tabled reader) (Server.onStorage x) (fun a s => p a ∧ s.Tabled reader)
      fun _ => Server.Tabled reader := by
  refine onTables_tabled fun u a u' h => ?_
  rw [EStateM.adaptExcept] at h
  cases hxu : x u with
  | ok b w =>
    rw [hxu] at h
    cases h
    exact hx u _ _ hxu
  | error e w =>
    rw [hxu] at h
    cases h

/-- What only works on the tables. -/
theorem onTables_keeps {α : Type} (x : EStateM HealError (Tables Blob) α) :
    Triple (Server.Tabled reader) (Server.onTables x) (fun _ => Server.Tabled reader) fun _ => Server.Tabled reader :=
  (onTables_tabled (p := fun _ => True) fun _ _ _ _ => trivial).conseq (fun _ hs => hs) (fun _ _ hs => hs.2)
    fun _ _ hs => hs

theorem onStorage_keeps {α : Type} (x : StorageM Blob α) :
    Triple (Server.Tabled reader) (Server.onStorage x) (fun _ => Server.Tabled reader) fun _ => Server.Tabled reader :=
  onTables_keeps _

theorem refreshGraph_tabled {plans : Dict Text CompiledPlan} {routes : Dict Text RouteConfig}
    (h : Tabled reader plans routes) {g : GraphDefinition} (hnew : plans.get g.id = none) (now : Text) (time : Nat) :
    Triple (Server.Tabled reader) ((t.site reader).refreshGraph now time plans routes g)
      (fun r s => ((∃ plan, r.1 = plans.set g.id plan) ∧ Tabled reader r.1 r.2) ∧ s.Tabled reader)
      fun _ => Server.Tabled reader := by
  refine (onTables_keeps _).bind fun plan => ?_
  split
  · exact Triple.throw fun _ hs => hs
  case h_2 hnone =>
    exact Triple.pure fun _ hs => ⟨⟨⟨plan, rfl⟩, h.plain hnew (MetaReader.parseRouteConfig_ok.1 hnone)⟩, hs⟩
  case h_3 rc hsome =>
    split
    · exact Triple.throw fun _ hs => hs
    case h_2 hfree =>
      exact Triple.pure fun _ hs =>
        ⟨⟨⟨plan, rfl⟩, h.route hnew (MetaReader.parseRouteConfig_ok.1 hsome) hfree⟩, hs⟩

theorem refreshGraphs_tabled (now : Text) (time : Nat) {l : List GraphDefinition} (hl : (l.map (·.id)).Nodup)
    {plans : Dict Text CompiledPlan} {routes : Dict Text RouteConfig} (h : Tabled reader plans routes)
    (hnew : ∀ g ∈ l, plans.get g.id = none) :
    Triple (Server.Tabled reader) ((t.site reader).refreshGraphs now time l plans routes)
      (fun r s => Tabled reader r.1 r.2 ∧ s.Tabled reader) fun _ => Server.Tabled reader := by
  induction l generalizing plans routes with
  | nil => exact Triple.pure fun _ hs => ⟨h, hs⟩
  | cons g l ih =>
    rw [List.map_cons, List.nodup_cons] at hl
    refine (refreshGraph_tabled h (hnew g List.mem_cons_self) now time).bind fun r => Triple.assume fun hr => ?_
    obtain ⟨⟨plan, hplans⟩, hr⟩ := hr
    refine ih hl.2 hr fun g' hg' => ?_
    have hne : g.id ≠ g'.id := fun heq => hl.1 (heq ▸ List.mem_map_of_mem hg')
    rw [hplans, Dict.get_set, if_neg hne]
    exact hnew g' (List.mem_cons_of_mem _ hg')

/-- No graph is listed twice. -/
theorem listAllGraphs_nodup {u u' : Tables Blob} {l : List GraphDefinition}
    (h : Storage.listAllGraphs u = .ok l u') : (l.map (·.id)).Nodup := by
  rw [Storage.listAllGraphs, get_bind] at h
  cases h
  rw [((List.perm_insertionSort _ _).map _).nodup_iff, List.map_map]
  exact u.graphs.nodup

theorem refreshAll_tabled (now : Text) (time : Nat) :
    Triple (Server.Tabled reader) ((t.site reader).refreshAll now time) (fun _ => Server.Tabled reader)
      fun _ => Server.Tabled reader := by
  refine (onStorage_tabled fun _ _ _ h => listAllGraphs_nodup h).bind fun l => Triple.assume fun hl => ?_
  refine (refreshGraphs_tabled now time hl (tabled_empty reader) fun _ _ => rfl).bind fun r =>
    Triple.assume fun hr => ?_
  exact Triple.modify fun _ _ => hr

theorem createGraph_tabled (now : Text) (time : Nat) (id name code : Text) :
    Triple (Server.Tabled reader) ((t.site reader).createGraph now time id name code)
      (fun _ => Server.Tabled reader) fun _ => Server.Tabled reader := by
  refine (validateRouteConflict_keeps _ time "" code).bind fun _ => ?_
  refine (onTables_keeps _).bind fun plan => ?_
  exact (onStorage_keeps _).bind fun _ => refreshAll_tabled now time

theorem updateGraph_tabled (now : Text) (time : Nat) (idOrName code : Text) :
    Triple (Server.Tabled reader) ((t.site reader).updateGraph now time idOrName code)
      (fun _ => Server.Tabled reader) fun _ => Server.Tabled reader := by
  refine (onStorage_keeps _).bind fun g => ?_
  refine (validateRouteConflict_keeps _ time g.id code).bind fun _ => ?_
  refine (onTables_keeps _).bind fun plan => ?_
  exact (onStorage_keeps _).bind fun _ => refreshAll_tabled now time

theorem targetVersion_tabled (id : Text) (version : Option Nat) :
    Triple (Server.Tabled reader) (Site.targetVersion id version : ServerM Blob Nat)
      (fun _ => Server.Tabled reader) fun _ => Server.Tabled reader := by
  cases version with
  | some v => exact Triple.pure fun _ hs => hs
  | none =>
    refine (onStorage_keeps _).bind fun l => ?_
    split
    · exact Triple.pure fun _ hs => hs
    · exact Triple.throw fun _ hs => hs

theorem deployGraph_tabled (now : Text) (time : Nat) (idOrName : Text) (version : Option Nat) :
    Triple (Server.Tabled reader) ((t.site reader).deployGraph now time idOrName version)
      (fun _ => Server.Tabled reader) fun _ => Server.Tabled reader := by
  refine (onStorage_keeps _).bind fun g => ?_
  refine (targetVersion_tabled g.id version).bind fun v => ?_
  refine (onStorage_keeps _).bind fun bytes => ?_
  refine (validateRouteConflictForPlan_keeps _ g.id bytes).bind fun _ => ?_
  refine (onStorage_keeps _).bind fun _ => ?_
  exact (refreshAll_tabled now time).bind fun _ => Triple.modify fun _ hs => hs

theorem rollbackGraph_tabled (now : Text) (time : Nat) (idOrName : Text) (version : Nat) :
    Triple (Server.Tabled reader) ((t.site reader).rollbackGraph now time idOrName version)
      (fun _ => Server.Tabled reader) fun _ => Server.Tabled reader := by
  refine (onStorage_keeps _).bind fun g => ?_
  refine (onStorage_keeps _).bind fun bytes => ?_
  refine (validateRouteConflictForPlan_keeps _ g.id bytes).bind fun _ => ?_
  refine (onStorage_keeps _).bind fun _ => ?_
  exact Triple.bind (R := fun _ => Server.Tabled reader) (Triple.modify fun _ hs => hs) fun _ =>
    refreshAll_tabled now time

theorem launch_tabled (site : Site Blob) (l : Launch) :
    Triple (Server.Tabled reader) (l.run site) (fun _ => Server.Tabled reader) fun _ => Server.Tabled reader := by
  cases l with
  | execute now time idOrName =>
    refine (onStorage_keeps _).bind fun g => ?_
    exact (onTables_keeps _).bind fun plan => Triple.pure fun _ hs => hs
  | publish path method =>
    refine Triple.get_bind fun s hs => ?_
    split
    · exact Triple.throw fun _ hu => hu ▸ hs
    · split
      · exact Triple.throw fun _ hu => hu ▸ hs
      · exact Triple.pure fun _ hu => hu ▸ hs
  | subgraph now time name =>
    refine (onStorage_keeps _).bind fun g => ?_
    refine Triple.bind (R := fun _ => Server.Tabled reader) (Triple.get_bind fun s hs => ?_) fun plan =>
      Triple.pure fun _ hs => hs
    split
    · exact Triple.pure fun _ hu => hu ▸ hs
    · refine Triple.bind (R := fun _ => Server.Tabled reader)
        ((onTables_keeps _).conseq (fun _ hu => hu ▸ hs) (fun _ _ hs => hs) fun _ _ hs => hs) fun plan => ?_
      exact Triple.bind (R := fun _ => Server.Tabled reader) (Triple.modify fun _ hs => hs) fun _ =>
        Triple.pure fun _ hs => hs

theorem note_tabled (op : PlanOp Blob) {s : Server Blob} (hs : s.Tabled reader) :
    (Server.note op s).Tabled reader := by
  unfold Server.note
  split <;> exact hs

theorem serverOp_tabled (op : ServerOp Blob) :
    Triple (Server.Tabled reader) (op.run (t.site reader)) (fun _ => Server.Tabled reader)
      fun _ => Server.Tabled reader := by
  cases op with
  | createGraph now time id name code => exact createGraph_tabled now time id name code
  | updateGraph now time idOrName code => exact updateGraph_tabled now time idOrName code
  | deployGraph now time idOrName version => exact deployGraph_tabled now time idOrName version
  | rollbackGraph now time idOrName version => exact rollbackGraph_tabled now time idOrName version
  | launch l => exact (launch_tabled _ l).bind fun _ => Triple.pure fun _ hs => hs
  | store op => exact (onTables_keeps _).bind fun _ => Triple.modify fun _ hs => note_tabled op hs

theorem tabled_run (ops : List (ServerOp Blob)) {s : Server Blob} (hs : s.Tabled reader) :
    (ops.foldl (ServerOp.step (t.site reader)) s).Tabled reader := by
  induction ops generalizing s with
  | nil => exact hs
  | cons op ops ih => exact ih ((serverOp_tabled op).finalState hs)

end Requests

/-! ### What is served -/

section Served

variable {Blob : Type} {reader : MetaReader} {s : Server Blob}

/-- The route of a request is in the table as the graph that declares it has it. -/
theorem get_route_iff (hs : s.Tabled reader) {path : Text} {method : RouteMethod} {rc : RouteConfig} :
    s.routes.get (routeKey path method) = some rc ↔
      rc.path = path ∧ rc.method = method ∧ Declares reader s.plans rc.graphId { rc with graphId := [] } := by
  rw [hs]
  constructor
  · rintro ⟨hkey, hdeclares⟩
    obtain ⟨hpath, hmethod⟩ := routeKey_inj hkey
    exact ⟨hpath.symm, hmethod.symm, hdeclares⟩
  · rintro ⟨hpath, hmethod, hdeclares⟩
    exact ⟨by rw [hpath, hmethod], hdeclares⟩

theorem Declares.route {id : Text} {rc : RouteConfig} (h : Declares reader s.plans id rc) (hs : s.Tabled reader) :
    s.routes.get (routeKey rc.path rc.method) = some { rc with graphId := id } := by
  refine (get_route_iff hs).2 ⟨rfl, rfl, ?_⟩
  rwa [← h.valid.2]

/-- One graph declares a path with a method. -/
theorem Declares.unique {id id' : Text} {rc rc' : RouteConfig} (h : Declares reader s.plans id rc)
    (h' : Declares reader s.plans id' rc') (hs : s.Tabled reader) (hpath : rc'.path = rc.path)
    (hmethod : rc'.method = rc.method) : id' = id := by
  have hroute := h'.route hs
  rw [hpath, hmethod, h.route hs] at hroute
  exact (congrArg RouteConfig.graphId (Option.some.inj hroute)).symm

theorem isSome_route_iff (hs : s.Tabled reader) (path : Text) (method : RouteMethod) :
    (s.routes.get (routeKey path method)).isSome ↔
      ∃ id rc, Declares reader s.plans id rc ∧ rc.path = path ∧ rc.method = method := by
  rw [Option.isSome_iff_exists]
  constructor
  · rintro ⟨rc, hrc⟩
    obtain ⟨hpath, hmethod, hdeclares⟩ := (get_route_iff hs).1 hrc
    exact ⟨rc.graphId, _, hdeclares, hpath, hmethod⟩
  · rintro ⟨id, rc, hdeclares, hpath, hmethod⟩
    rw [← hpath, ← hmethod]
    exact ⟨_, hdeclares.route hs⟩

theorem mem_publishedMethods_iff (hs : s.Tabled reader) (path : Text) (method : RouteMethod) :
    method ∈ publishedMethods path s.routes ↔
      ∃ id rc, Declares reader s.plans id rc ∧ rc.path = path ∧ rc.method = method := by
  rw [publishedMethods, List.mem_filter, ← isSome_route_iff hs]
  refine and_iff_right ?_
  cases method <;> decide

/-- No separator is in a path. -/
theorem RouteConfig.Valid.path_routeKey {rc : RouteConfig} (h : rc.Valid) :
    ((Text.splitOnce "\x01" (routeKey rc.path rc.method)).map Prod.fst).getD (routeKey rc.path rc.method) =
      rc.path := by
  have hsep : '\x01' ∉ rc.path := fun hmem => by
    have := h.chars _ hmem
    revert this
    decide
  have hkey : routeKey rc.path rc.method = rc.path ++ '\x01' :: rc.method.asStr := by
    rw [routeKey, List.append_assoc]
    rfl
  have hcut := Text.splitOnce_append rc.method.asStr hsep
  rw [← hkey] at hcut
  rw [show ("\x01" : Text) = ['\x01'] from rfl, hcut]
  rfl

theorem mem_publishedPaths_iff (hs : s.Tabled reader) (path : Text) :
    path ∈ publishedPaths s.routes ↔ ∃ id rc, Declares reader s.plans id rc ∧ rc.path = path := by
  have hpath : ∀ {key : Text} {rc : RouteConfig}, s.routes.get key = some rc →
      ((Text.splitOnce "\x01" key).map Prod.fst).getD key = rc.path := by
    intro key rc hrc
    obtain ⟨rfl, hdeclares⟩ := (hs key rc).1 hrc
    have hvalid : ({ rc with graphId := [] } : RouteConfig).Valid := hdeclares.valid.1
    exact hvalid.path_routeKey
  rw [publishedPaths, List.mem_dedup, List.mem_insertionSort, List.mem_map]
  constructor
  · rintro ⟨key, hkey, heq⟩
    obtain ⟨rc, hmem⟩ := Dict.mem_keys.1 hkey
    have hrc := Dict.get_eq_some_iff.2 hmem
    exact ⟨rc.graphId, _, ((hs key rc).1 hrc).2, (hpath hrc).symm.trans heq⟩
  · rintro ⟨id, rc, hdeclares, heq⟩
    have hrc := hdeclares.route hs
    exact ⟨_, Dict.mem_keys.2 ⟨_, Dict.get_eq_some_iff.1 hrc⟩, (hpath hrc).trans heq⟩

/-- A request runs the plan that declares its route, and is refused when there is none. -/
theorem publish_eq (hs : s.Tabled reader) (path : Text) (method : RouteMethod) :
    (∃ id rc plan, rc.path = path ∧ rc.method = method ∧ s.plans.get id = some plan ∧
      reader.declared plan.metadata.metaJson = .ok (some rc) ∧ Site.publish path method s = .ok (id, plan) s) ∨
    (¬∃ id rc, Declares reader s.plans id rc ∧ rc.path = path ∧ rc.method = method) ∧
      Site.publish path method s = .error .notPublished s := by
  rw [← isSome_route_iff hs]
  cases hroute : s.routes.get (routeKey path method) with
  | none =>
    refine Or.inr ⟨by simp, ?_⟩
    rw [Site.publish, get_bind, hroute]
    rfl
  | some rc =>
    obtain ⟨hpath, hmethod, plan, hplan, hdeclared⟩ := (get_route_iff hs).1 hroute
    refine Or.inl ⟨rc.graphId, { rc with graphId := [] }, plan, hpath, hmethod, hplan, hdeclared, ?_⟩
    simp only [Site.publish, get_bind, hroute, hplan]
    rfl

end Served

theorem server_tabled {Blob : Type} (t : Toolchain Blob) (reader : MetaReader) (ops : List (ServerOp Blob)) :
    (ops.foldl (ServerOp.step (t.site reader)) Server.empty).Tabled reader :=
  tabled_run ops (tabled_empty reader)

/-- What the answers to other requests list (the methods of a path in a 405 and in a preflight, the paths in a
404) is what the loaded plans declare. -/
theorem published_lists {Blob : Type} (t : Toolchain Blob) (reader : MetaReader) (ops : List (ServerOp Blob))
    (path : Text) :
    let s := ops.foldl (ServerOp.step (t.site reader)) Server.empty
    (∀ method, method ∈ publishedMethods path s.routes ↔
      ∃ id rc, Declares reader s.plans id rc ∧ rc.path = path ∧ rc.method = method) ∧
    RouteMethod.options ∉ publishedMethods path s.routes ∧
    (path ∈ publishedPaths s.routes ↔ ∃ id rc, Declares reader s.plans id rc ∧ rc.path = path) ∧
    (path ∈ publishedPaths s.routes ↔ publishedMethods path s.routes ≠ []) := by
  intro s
  have hs : s.Tabled reader := server_tabled t reader ops
  have hmethods := mem_publishedMethods_iff hs path
  have hpaths := mem_publishedPaths_iff hs path
  refine ⟨hmethods, fun hmem => ?_, hpaths, hpaths.trans ⟨?_, fun hne => ?_⟩⟩
  · obtain ⟨id, rc, hdeclares, -, hmethod⟩ := (hmethods _).1 hmem
    exact hdeclares.valid.1.method hmethod
  · rintro ⟨id, rc, hdeclares, hpath⟩ hnil
    have hmem := (hmethods rc.method).2 ⟨id, rc, hdeclares, hpath, rfl⟩
    rw [hnil] at hmem
    cases hmem
  · obtain ⟨method, hmem⟩ := List.exists_mem_of_ne_nil _ hne
    obtain ⟨id, rc, hdeclares, hpath, -⟩ := (hmethods method).1 hmem
    exact ⟨id, rc, hdeclares, hpath⟩

end Tinypipe
