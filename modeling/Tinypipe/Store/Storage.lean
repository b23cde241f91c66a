import Tinypipe.Api.Types
import Tinypipe.Lib.Stateful

/-! The SQLite storage (`tinypipe-storage/src/lib.rs`). A table is a map from its primary
key; an operation is the sequence of its SQL statements, and what a failed operation has
written stays. The clock and the fresh ids are arguments. Numbers of versions are unbounded. -/

namespace Tinypipe

open Lib Lib.Stateful

inductive StorageError where
  | graphNotFound (id : Text)
  | versionNotFound (version : Nat) (id : Text)
  | planMissing (id : Text)
  | planVersionMissing (version : Nat) (id : Text)
  | executionNotFound (id : Text)
  | internal (message : Text)
deriving DecidableEq

/-- A row of `graphs`, but for its id. -/
structure GraphRow (Blob : Type) where
  name : Text
  version : Nat
  status : Text
  code : Text
  executionPlan : Option Blob
  activeVersion : Option Nat
  parentId : Option Text
  forkNode : Option Text
  forkLabel : Option Text
  lastEvent : Option Text
  createdAt : Text
  updatedAt : Text

/-- A row of `graph_versions`, but for its graph and its number. -/
structure VersionRow (Blob : Type) where
  code : Text
  executionPlan : Option Blob
  createdAt : Text

inductive ExecutionStatus where
  | running | paused | completed | failed
deriving DecidableEq

/-- An execution record, as it is saved and loaded. -/
structure Execution where
  graphId : Text
  graphVersion : Nat
  input : Context
  output : Option Value
  status : ExecutionStatus
  error : Option Text
  startedAt : Text
  completedAt : Option Text
  durationUs : Option Nat
  context : Option Context

/-- A row of `executions`, but for its id. -/
structure ExecutionRow (Blob : Type) where
  execution : Execution
  checkpoint : Option Blob

structure Tables (Blob : Type) where
  graphs : Dict Text (GraphRow Blob)
  versions : Dict (Text × Nat) (VersionRow Blob)
  executions : Dict Text (ExecutionRow Blob)

/-- A graph as it is loaded: its plan is loaded separately. -/
structure GraphDefinition where
  id : Text
  name : Text
  version : Nat
  status : Text
  code : Text
  activeVersion : Option Nat
  parentId : Option Text
  forkNode : Option Text
  forkLabel : Option Text
  lastEvent : Option Text
  createdAt : Text
  updatedAt : Text

namespace Tables

variable {Blob : Type}

def empty : Tables Blob := ⟨Dict.empty, Dict.empty, Dict.empty⟩

/-- The rows of `graph_versions` of a graph, by number. -/
def versionsOf (s : Tables Blob) (id : Text) : List (Nat × VersionRow Blob) :=
  ((s.versions.entries.filter fun e => e.1.1 = id).map fun e => (e.1.2, e.2)).insertionSort
    fun a b => a.1 ≤ b.1

/-- `COALESCE(MAX(version), 0)` -/
def maxVersion (s : Tables Blob) (id : Text) : Nat := (((s.versionsOf id).map Prod.fst).max?).getD 0

def definition (id : Text) (g : GraphRow Blob) : GraphDefinition :=
  ⟨id, g.name, g.version, g.status, g.code, g.activeVersion, g.parentId, g.forkNode, g.forkLabel,
    g.lastEvent, g.createdAt, g.updatedAt⟩

/-- The graph with a name that was created last. -/
def newest (s : Tables Blob) (name : Text) : Option GraphDefinition :=
  ((s.graphs.entries.filter fun e => e.2.name = name).map fun e => definition e.1 e.2).foldl
    (fun best g => match best with
      | some b => if b.createdAt < g.createdAt then some g else some b
      | none => some g) none

end Tables

abbrev StorageM (Blob : Type) := EStateM StorageError (Tables Blob)

namespace Storage

variable {Blob : Type}

/-! ### Statements -/

def insertGraph (what : Text) (id : Text) (row : GraphRow Blob) : StorageM Blob Unit := do
  let s ← get
  match s.graphs.get id with
  | some _ => throw (.internal (what ++ ("UNIQUE constraint failed: graphs.id" : Text)))
  | none => set { s with graphs := s.graphs.set id row }

def insertVersion (what : Text) (id : Text) (version : Nat) (row : VersionRow Blob) :
    StorageM Blob Unit := do
  let s ← get
  match s.versions.get (id, version) with
  | some _ => throw (.internal (what ++
      ("UNIQUE constraint failed: graph_versions.graph_id, graph_versions.version" : Text)))
  | none => set { s with versions := s.versions.set (id, version) row }

/-- `UPDATE graphs .. WHERE id = ..`, which may match no row. -/
def updateRow (id : Text) (f : GraphRow Blob → GraphRow Blob) : StorageM Blob Unit :=
  modify fun s => match s.graphs.get id with
    | some g => { s with graphs := s.graphs.set id (f g) }
    | none => s

def updateVersionRow (id : Text) (version : Nat) (f : VersionRow Blob → VersionRow Blob) :
    StorageM Blob Unit :=
  modify fun s => match s.versions.get (id, version) with
    | some r => { s with versions := s.versions.set (id, version) (f r) }
    | none => s

/-! ### Graphs and their versions -/

def createGraph (id now name code : Text) : StorageM Blob Text := do
  insertGraph "create_graph failed: " id
    ⟨name, 1, "draft", code, none, none, none, none, none, none, now, now⟩
  insertVersion "create_graph version failed: " id 1 ⟨code, none, now⟩
  pure id

def createForkGraph (id now name code parentId forkNode : Text) (forkLabel : Option Text) :
    StorageM Blob Text := do
  insertGraph "create_fork_graph failed: " id
    ⟨name, 1, "draft", code, none, none, some parentId, some forkNode, forkLabel, none, now, now⟩
  insertVersion "create_fork_graph version failed: " id 1 ⟨code, none, now⟩
  pure id

def updateGraph (now id code : Text) : StorageM Blob Nat := do
  let s ← get
  match s.graphs.get id with
  | none => throw (.graphNotFound id)
  | some g => do
    let newVersion := g.version + 1
    updateRow id fun g => { g with code := code, version := newVersion, updatedAt := now }
    insertVersion "update_graph version failed: " id newVersion ⟨code, none, now⟩
    pure newVersion

def deploy (id : Text) (version : Nat) : StorageM Blob Unit := do
  let s ← get
  match s.versions.get (id, version) with
  | none => throw (.versionNotFound version id)
  | some _ => updateRow id fun g => { g with
      activeVersion := some version
      status := "deployed"
      lastEvent := some (("deploy: v" : Text) ++ Text.ofNat version) }

def listVersions (id : Text) : StorageM Blob (List (Nat × Text × Text)) := do
  let s ← get
  pure ((s.versionsOf id).map fun e => (e.1, e.2.code, e.2.createdAt))

/-- The plan of the old version becomes the current one, if it has one. -/
def restorePlan (id : Text) (plan : Option Blob) : StorageM Blob Unit :=
  match plan with
  | some plan => updateRow id fun g => { g with executionPlan := some plan }
  | none => pure ()

/-- The code of an old version, as a new one. -/
def rollback (now id : Text) (version : Nat) : StorageM Blob Unit := do
  let s ← get
  match s.versions.get (id, version) with
  | none => throw (.versionNotFound version id)
  | some old => do
    let newVersion := s.maxVersion id + 1
    updateRow id fun g => { g with code := old.code, version := newVersion, updatedAt := now }
    insertVersion "rollback version insert failed: " id newVersion ⟨old.code, old.executionPlan, now⟩
    restorePlan id old.executionPlan
    updateRow id fun g => if g.status = ("deployed" : Text) then
      { g with activeVersion := some newVersion } else g
    updateRow id fun g => { g with lastEvent := some (("rollback: v" : Text) ++ Text.ofNat version) }

def loadGraph (id : Text) : StorageM Blob GraphDefinition := do
  let s ← get
  match s.graphs.get id with
  | some g => pure (Tables.definition id g)
  | none => throw (.graphNotFound id)

def findGraphByName (name : Text) : StorageM Blob GraphDefinition := do
  let s ← get
  match s.newest name with
  | some g => pure g
  | none => throw (.graphNotFound name)

def forkGraph (childId now id forkNode code : Text) (label : Option Text) : StorageM Blob Text := do
  let parent ← loadGraph id
  createForkGraph childId now parent.name code id forkNode label

/-! ### Plans -/

def loadPlan (id : Text) : StorageM Blob Blob := do
  let s ← get
  match s.graphs.get id with
  | none => throw (.graphNotFound id)
  | some g => match g.executionPlan with
    | some plan => pure plan
    | none => throw (.planMissing id)

def loadPlanVersion (id : Text) (version : Nat) : StorageM Blob Blob := do
  let s ← get
  match s.versions.get (id, version) with
  | none => throw (.versionNotFound version id)
  | some r => match r.executionPlan with
    | some plan => pure plan
    | none => throw (.planVersionMissing version id)

def savePlan (now id : Text) (version : Nat) (plan : Blob) : StorageM Blob Unit := do
  updateRow id fun g => { g with executionPlan := some plan, updatedAt := now }
  updateVersionRow id version fun r => { r with executionPlan := some plan }

/-! ### Executions -/

/-- `INSERT OR REPLACE`: a row that is there goes, with its checkpoint. -/
def saveExecution (id : Text) (e : Execution) : StorageM Blob Unit :=
  modify fun s => { s with executions := (s.executions.erase id).set id ⟨e, none⟩ }

def loadExecution (id : Text) : StorageM Blob Execution := do
  let s ← get
  match s.executions.get id with
  | some r => pure r.execution
  | none => throw (.executionNotFound id)

def listPausedExecutions : StorageM Blob (List (Text × Execution)) := do
  let s ← get
  pure ((s.executions.entries.filter fun e => e.2.execution.status = .paused).map
    fun e => (e.1, e.2.execution))

def saveCheckpoint (id : Text) (blob : Blob) : StorageM Blob Unit :=
  modify fun s => match s.executions.get id with
    | some r => { s with executions := s.executions.set id { r with checkpoint := some blob } }
    | none => s

/-- `none` is the empty blob of a row without a checkpoint. -/
def loadCheckpoint (id : Text) : StorageM Blob (Option Blob) := do
  let s ← get
  match s.executions.get id with
  | some r => pure r.checkpoint
  | none => throw (.executionNotFound id)

end Storage

/-! ### What the operations do -/

section Effects

variable {Blob : Type} {s : Tables Blob} {id : Text}

theorem mem_versionsOf {v : Nat} {r : VersionRow Blob} :
    (v, r) ∈ s.versionsOf id ↔ s.versions.get (id, v) = some r := by
  rw [Tables.versionsOf, List.mem_insertionSort, List.mem_map, Dict.get_eq_some_iff]
  constructor
  · rintro ⟨e, he, heq⟩
    obtain ⟨hmem, hid⟩ := List.mem_filter.1 he
    obtain ⟨rfl, rfl⟩ := Prod.mk.inj heq
    rw [← of_decide_eq_true hid]
    exact hmem
  · intro hmem
    exact ⟨((id, v), r), List.mem_filter.2 ⟨hmem, decide_eq_true rfl⟩, rfl⟩

theorem mem_versionsOf_fst (s : Tables Blob) (id : Text) (v : Nat) :
    v ∈ (s.versionsOf id).map Prod.fst ↔ (s.versions.get (id, v)).isSome := by
  rw [Option.isSome_iff_exists, List.mem_map]
  constructor
  · rintro ⟨e, he, rfl⟩
    exact ⟨e.2, mem_versionsOf.1 he⟩
  · rintro ⟨r, hr⟩
    exact ⟨(v, r), mem_versionsOf.2 hr, rfl⟩

/-- The first row with a number is the row of that number. -/
theorem find_versionsOf (s : Tables Blob) (id : Text) (v : Nat) :
    (s.versionsOf id).find? (fun e => e.1 = v) = (s.versions.get (id, v)).map fun r => (v, r) := by
  cases hv : s.versions.get (id, v) with
  | some r =>
    cases hfind : (s.versionsOf id).find? (fun e => e.1 = v) with
    | none => exact absurd (List.find?_eq_none.1 hfind (v, r) (mem_versionsOf.2 hv)) (by simp)
    | some e =>
      obtain rfl : e.1 = v := of_decide_eq_true (List.find?_some hfind :)
      have hmem := mem_versionsOf.1 (List.mem_of_find?_eq_some hfind)
      rw [hv] at hmem
      rw [Option.some.inj hmem, Option.map_some]
  | none =>
    refine List.find?_eq_none.2 fun e he hev => ?_
    obtain rfl : e.1 = v := of_decide_eq_true hev
    rw [mem_versionsOf.1 he] at hv
    cases hv

theorem versionsOf_nodup (s : Tables Blob) (id : Text) : ((s.versionsOf id).map Prod.fst).Nodup := by
  have hperm : ((s.versionsOf id).map Prod.fst).Perm
      ((s.versions.entries.filter fun e => e.1.1 = id).map fun e => e.1.2) := by
    have hp := (List.perm_insertionSort (fun a b : Nat × VersionRow Blob => a.1 ≤ b.1)
      ((s.versions.entries.filter fun e => e.1.1 = id).map fun e => (e.1.2, e.2))).map Prod.fst
    rwa [List.map_map] at hp
  rw [hperm.nodup_iff]
  refine List.Nodup.map_on ?_ ((List.Nodup.of_map _ s.versions.nodup).filter _)
  rintro ⟨⟨a, v⟩, r⟩ he ⟨⟨b, w⟩, r'⟩ he' hvw
  obtain ⟨hmem, ha⟩ := List.mem_filter.1 he
  obtain ⟨hmem', hb⟩ := List.mem_filter.1 he'
  obtain rfl : a = id := of_decide_eq_true ha
  obtain rfl : b = a := of_decide_eq_true hb
  obtain rfl : v = w := hvw
  have hr := (Dict.get_eq_some_iff.2 hmem).symm.trans (Dict.get_eq_some_iff.2 hmem')
  rw [Option.some.inj hr]

theorem versionsOf_sorted (s : Tables Blob) (id : Text) :
    ((s.versionsOf id).map Prod.fst).Pairwise (· < ·) := by
  have hle : ((s.versionsOf id).map Prod.fst).Pairwise (· ≤ ·) := by
    rw [List.pairwise_map]
    exact List.pairwise_insertionSort (fun a b : Nat × VersionRow Blob => a.1 ≤ b.1) _
  exact hle.imp₂ (fun a b hab hne => lt_of_le_of_ne hab hne) (versionsOf_nodup s id)

theorem le_maxVersion {v : Nat} (hv : (s.versions.get (id, v)).isSome) : v ≤ s.maxVersion id := by
  have hmem := (mem_versionsOf_fst s id v).2 hv
  rw [Tables.maxVersion]
  cases hmax : ((s.versionsOf id).map Prod.fst).max? with
  | none =>
    rw [List.max?_eq_none_iff] at hmax
    rw [hmax] at hmem
    cases hmem
  | some m => exact (List.max?_eq_some_iff.1 hmax).2 v hmem

theorem next_free (s : Tables Blob) (id : Text) : s.versions.get (id, s.maxVersion id + 1) = none := by
  rw [← Option.not_isSome_iff_eq_none]
  exact fun hv => Nat.not_succ_le_self _ (le_maxVersion hv)

namespace Tables

/-- The store with another header of a graph. -/
def setGraph (s : Tables Blob) (id : Text) (g : GraphRow Blob) : Tables Blob :=
  { s with graphs := s.graphs.set id g }

def setVersion (s : Tables Blob) (id : Text) (v : Nat) (r : VersionRow Blob) : Tables Blob :=
  { s with versions := s.versions.set (id, v) r }

@[simp] theorem graphs_setVersion (s : Tables Blob) (id : Text) (v : Nat) (r : VersionRow Blob) :
    (s.setVersion id v r).graphs = s.graphs := rfl

@[simp] theorem versions_setGraph (s : Tables Blob) (id : Text) (g : GraphRow Blob) :
    (s.setGraph id g).versions = s.versions := rfl

theorem get_setGraph (s : Tables Blob) (id id' : Text) (g : GraphRow Blob) :
    (s.setGraph id g).graphs.get id' = if id = id' then some g else s.graphs.get id' := Dict.get_set ..

theorem get_setVersion (s : Tables Blob) (id : Text) (v : Nat) (k : Text × Nat) (r : VersionRow Blob) :
    (s.setVersion id v r).versions.get k = if (id, v) = k then some r else s.versions.get k :=
  Dict.get_set ..

theorem setGraph_setVersion (s : Tables Blob) (id : Text) (v : Nat) (g : GraphRow Blob)
    (r : VersionRow Blob) : (s.setGraph id g).setVersion id v r = (s.setVersion id v r).setGraph id g := rfl

@[simp] theorem setGraph_setGraph (s : Tables Blob) (id : Text) (g g' : GraphRow Blob) :
    (s.setGraph id g).setGraph id g' = s.setGraph id g' := by
  simp [setGraph]

@[simp] theorem setVersion_setVersion (s : Tables Blob) (id : Text) (v : Nat) (r r' : VersionRow Blob) :
    (s.setVersion id v r).setVersion id v r' = s.setVersion id v r' := by
  simp [setVersion]

end Tables

namespace Storage

theorem insertGraph_ok (hg : s.graphs.get id = none) (what : Text) (g : GraphRow Blob) :
    insertGraph what id g s = .ok ⟨⟩ (s.setGraph id g) := by
  simp only [insertGraph, get_bind, hg, set_apply, Tables.setGraph]

theorem insertGraph_error {g' : GraphRow Blob} (hg : s.graphs.get id = some g') (what : Text)
    (g : GraphRow Blob) : insertGraph what id g s =
      .error (.internal (what ++ ("UNIQUE constraint failed: graphs.id" : Text))) s := by
  simp only [insertGraph, get_bind, hg, throw_apply]

theorem insertVersion_ok {v : Nat} (hv : s.versions.get (id, v) = none) (what : Text)
    (r : VersionRow Blob) : insertVersion what id v r s = .ok ⟨⟩ (s.setVersion id v r) := by
  simp only [insertVersion, get_bind, hv, set_apply, Tables.setVersion]

theorem insertVersion_error {v : Nat} {r' : VersionRow Blob} (hv : s.versions.get (id, v) = some r')
    (what : Text) (r : VersionRow Blob) : insertVersion what id v r s = .error (.internal (what ++
      ("UNIQUE constraint failed: graph_versions.graph_id, graph_versions.version" : Text))) s := by
  simp only [insertVersion, get_bind, hv, throw_apply]

theorem updateRow_ok {g : GraphRow Blob} (hg : s.graphs.get id = some g)
    (f : GraphRow Blob → GraphRow Blob) : updateRow id f s = .ok ⟨⟩ (s.setGraph id (f g)) := by
  simp only [updateRow, modify_apply, hg, Tables.setGraph]

theorem updateRow_setGraph (s : Tables Blob) (id : Text) (g : GraphRow Blob)
    (f : GraphRow Blob → GraphRow Blob) :
    updateRow id f (s.setGraph id g) = .ok ⟨⟩ (s.setGraph id (f g)) := by
  rw [updateRow_ok (by rw [Tables.get_setGraph, if_pos rfl]), Tables.setGraph_setGraph]

theorem restorePlan_setGraph (s : Tables Blob) (id : Text) (g : GraphRow Blob) (plan : Option Blob) :
    restorePlan id plan (s.setGraph id g) =
      .ok ⟨⟩ (s.setGraph id { g with executionPlan := plan.or g.executionPlan }) := by
  cases plan with
  | none => rfl
  | some plan => exact updateRow_setGraph s id g _

theorem updateVersionRow_ok {v : Nat} {r : VersionRow Blob} (hv : s.versions.get (id, v) = some r)
    (f : VersionRow Blob → VersionRow Blob) :
    updateVersionRow id v f s = .ok ⟨⟩ (s.setVersion id v (f r)) := by
  simp only [updateVersionRow, modify_apply, hv, Tables.setVersion]

theorem updateVersionRow_none {v : Nat} (hv : s.versions.get (id, v) = none)
    (f : VersionRow Blob → VersionRow Blob) : updateVersionRow id v f s = .ok ⟨⟩ s := by
  simp only [updateVersionRow, modify_apply, hv]

theorem createGraph_ok (hg : s.graphs.get id = none) (hv : s.versions.get (id, 1) = none)
    (now name code : Text) : createGraph id now name code s = .ok id
      ((s.setGraph id ⟨name, 1, "draft", code, none, none, none, none, none, none, now, now⟩).setVersion
        id 1 ⟨code, none, now⟩) := by
  rw [createGraph, bind_of_ok _ (insertGraph_ok hg _ _),
    bind_of_ok _ (insertVersion_ok (s := s.setGraph id _) hv _ _)]
  rfl

theorem createForkGraph_ok (hg : s.graphs.get id = none) (hv : s.versions.get (id, 1) = none)
    (now name code parentId forkNode : Text) (forkLabel : Option Text) :
    createForkGraph id now name code parentId forkNode forkLabel s = .ok id
      ((s.setGraph id ⟨name, 1, "draft", code, none, none, some parentId, some forkNode, forkLabel, none,
        now, now⟩).setVersion id 1 ⟨code, none, now⟩) := by
  rw [createForkGraph, bind_of_ok _ (insertGraph_ok hg _ _),
    bind_of_ok _ (insertVersion_ok (s := s.setGraph id _) hv _ _)]
  rfl

theorem createGraph_error {g : GraphRow Blob} (hg : s.graphs.get id = some g) (now name code : Text) :
    createGraph id now name code s = .error (.internal (("create_graph failed: " : Text) ++
      ("UNIQUE constraint failed: graphs.id" : Text))) s := by
  rw [createGraph, bind_of_error _ (insertGraph_error hg _ _)]

theorem createForkGraph_error {g : GraphRow Blob} (hg : s.graphs.get id = some g)
    (now name code parentId forkNode : Text) (forkLabel : Option Text) :
    createForkGraph id now name code parentId forkNode forkLabel s =
      .error (.internal (("create_fork_graph failed: " : Text) ++
        ("UNIQUE constraint failed: graphs.id" : Text))) s := by
  rw [createForkGraph, bind_of_error _ (insertGraph_error hg _ _)]

theorem updateGraph_error (hg : s.graphs.get id = none) (now code : Text) :
    updateGraph now id code s = .error (.graphNotFound id) s := by
  simp only [updateGraph, get_bind, hg, throw_apply]

theorem updateGraph_ok {g : GraphRow Blob} (hg : s.graphs.get id = some g)
    (hv : s.versions.get (id, g.version + 1) = none) (now code : Text) :
    updateGraph now id code s = .ok (g.version + 1)
      ((s.setGraph id { g with code := code, version := g.version + 1, updatedAt := now }).setVersion id
        (g.version + 1) ⟨code, none, now⟩) := by
  rw [updateGraph, get_bind, hg]
  dsimp only
  rw [bind_of_ok _ (updateRow_ok hg _), bind_of_ok _ (insertVersion_ok (s := s.setGraph id _) hv _ _)]
  rfl

theorem deploy_ok {v : Nat} {g : GraphRow Blob} {r : VersionRow Blob} (hg : s.graphs.get id = some g)
    (hv : s.versions.get (id, v) = some r) : deploy id v s = .ok ⟨⟩ (s.setGraph id { g with
      activeVersion := some v
      status := "deployed"
      lastEvent := some (("deploy: v" : Text) ++ Text.ofNat v) }) := by
  rw [deploy, get_bind, hv]
  exact updateRow_ok hg _

theorem rollback_error {v : Nat} (hv : s.versions.get (id, v) = none) (now : Text) :
    rollback now id v s = .error (.versionNotFound v id) s := by
  simp only [rollback, get_bind, hv, throw_apply]

theorem deploy_error {v : Nat} (hv : s.versions.get (id, v) = none) :
    deploy id v s = .error (.versionNotFound v id) s := by
  simp only [deploy, get_bind, hv, throw_apply]

/-- The header behind a rollback. -/
def rolledBack (now : Text) (newVersion version : Nat) (old : VersionRow Blob) (g : GraphRow Blob) :
    GraphRow Blob :=
  { g with
    code := old.code
    version := newVersion
    updatedAt := now
    executionPlan := old.executionPlan.or g.executionPlan
    activeVersion := if g.status = ("deployed" : Text) then some newVersion else g.activeVersion
    lastEvent := some (("rollback: v" : Text) ++ Text.ofNat version) }

theorem rollback_ok {v : Nat} {g : GraphRow Blob} {old : VersionRow Blob}
    (hg : s.graphs.get id = some g) (hv : s.versions.get (id, v) = some old) (now : Text) :
    rollback now id v s = .ok ⟨⟩
      ((s.setGraph id (rolledBack now (s.maxVersion id + 1) v old g)).setVersion id
        (s.maxVersion id + 1) ⟨old.code, old.executionPlan, now⟩) := by
  rw [rollback, get_bind, hv]
  dsimp only
  rw [bind_of_ok _ (updateRow_ok hg _),
    bind_of_ok _ (insertVersion_ok (s := s.setGraph id _) (next_free s id) _ _),
    Tables.setGraph_setVersion, bind_of_ok _ (restorePlan_setGraph _ _ _ _),
    bind_of_ok _ (updateRow_setGraph _ _ _ _), updateRow_setGraph, Tables.setGraph_setVersion, rolledBack]
  congr 2
  split <;> rfl

theorem updateRow_none (hg : s.graphs.get id = none) (f : GraphRow Blob → GraphRow Blob) :
    updateRow id f s = .ok ⟨⟩ s := by
  simp only [updateRow, modify_apply, hg]

theorem savePlan_ok {v : Nat} {g : GraphRow Blob} {r : VersionRow Blob} (hg : s.graphs.get id = some g)
    (hv : s.versions.get (id, v) = some r) (now : Text) (plan : Blob) :
    savePlan now id v plan s = .ok ⟨⟩
      ((s.setGraph id { g with executionPlan := some plan, updatedAt := now }).setVersion id v
        { r with executionPlan := some plan }) := by
  rw [savePlan, bind_of_ok _ (updateRow_ok hg _)]
  exact updateVersionRow_ok (s := s.setGraph id _) hv _

/-- The row of the version may not be there. -/
theorem savePlan_header {v : Nat} {g : GraphRow Blob} (hg : s.graphs.get id = some g)
    (hv : s.versions.get (id, v) = none) (now : Text) (plan : Blob) :
    savePlan now id v plan s =
      .ok ⟨⟩ (s.setGraph id { g with executionPlan := some plan, updatedAt := now }) := by
  rw [savePlan, bind_of_ok _ (updateRow_ok hg _)]
  exact updateVersionRow_none (s := s.setGraph id _) hv _

theorem savePlan_none {v : Nat} (hg : s.graphs.get id = none) (hv : s.versions.get (id, v) = none)
    (now : Text) (plan : Blob) : savePlan now id v plan s = .ok ⟨⟩ s := by
  rw [savePlan, bind_of_ok _ (updateRow_none hg _), updateVersionRow_none hv]

end Storage

end Effects

end Tinypipe
