import Tinypipe.Lib.Script
import Tinypipe.Store.History

/-! The operations of the storage that write graphs, statement by statement. Every statement may
fail and then changes nothing; no transaction is around them. -/

namespace Tinypipe

open Lib Lib.Stateful

/-- The statements, by operation. -/
inductive SqlStatement where
  | createGraph | createGraphVersion
  | createFork | createForkVersion
  | updateSelect | updateGraph | updateGraphVersion
  | rollbackSelect | rollbackMax | rollbackUpdate | rollbackVersion | rollbackPlan | rollbackDeployed
  | rollbackActive | rollbackEvent
  | deploySelect | deploy
  | savePlanGraph | savePlanVersion
  | loadPlanVersion
deriving DecidableEq

abbrev SqlM (Blob : Type) := Script SqlStatement StorageError (Tables Blob)

namespace Sql

variable {Blob : Type}

/-- A statement that writes, unless a constraint forbids it. -/
def execute (label : SqlStatement) (what : Text) (stmt : Tables Blob → Except Text (Tables Blob)) :
    SqlM Blob Unit :=
  .step label (fun s => (stmt s).toOption.getD s)
    (fun s => match stmt s with
      | .ok _ => pure ()
      | .error e => .throw (.internal (what ++ e)))
    fun e => .throw (.internal (what ++ e))

/-- A query, with what stands for its answer if it fails. -/
def query {α : Type} (label : SqlStatement) (read : Tables Blob → α) (default : α) : SqlM Blob α :=
  .step label id (fun s => pure (read s)) fun _ => pure default

def insertGraph (id : Text) (row : GraphRow Blob) (s : Tables Blob) : Except Text (Tables Blob) :=
  match s.graphs.get id with
  | some _ => .error "UNIQUE constraint failed: graphs.id"
  | none => .ok (s.setGraph id row)

def insertVersion (id : Text) (version : Nat) (row : VersionRow Blob) (s : Tables Blob) :
    Except Text (Tables Blob) :=
  match s.versions.get (id, version) with
  | some _ => .error "UNIQUE constraint failed: graph_versions.graph_id, graph_versions.version"
  | none => .ok (s.setVersion id version row)

def updateRow (id : Text) (f : GraphRow Blob → GraphRow Blob) (s : Tables Blob) : Except Text (Tables Blob) :=
  match s.graphs.get id with
  | some g => .ok (s.setGraph id (f g))
  | none => .ok s

def updateVersionRow (id : Text) (version : Nat) (f : VersionRow Blob → VersionRow Blob) (s : Tables Blob) :
    Except Text (Tables Blob) :=
  match s.versions.get (id, version) with
  | some r => .ok (s.setVersion id version (f r))
  | none => .ok s

def createGraph (id now name code : Text) : SqlM Blob Text := do
  execute .createGraph "create_graph failed: " (insertGraph id
    ⟨name, 1, "draft", code, none, none, none, none, none, none, now, now⟩)
  execute .createGraphVersion "create_graph version failed: " (insertVersion id 1 ⟨code, none, now⟩)
  pure id

def createForkGraph (id now name code parentId forkNode : Text) (forkLabel : Option Text) : SqlM Blob Text := do
  execute .createFork "create_fork_graph failed: " (insertGraph id
    ⟨name, 1, "draft", code, none, none, some parentId, some forkNode, forkLabel, none, now, now⟩)
  execute .createForkVersion "create_fork_graph version failed: " (insertVersion id 1 ⟨code, none, now⟩)
  pure id

def updateGraph (now id code : Text) : SqlM Blob Nat := do
  match ← query .updateSelect (fun s => (s.graphs.get id).map GraphRow.version) none with
  | none => .throw (.graphNotFound id)
  | some current =>
    execute .updateGraph "update_graph failed: " (updateRow id fun g =>
      { g with code := code, version := current + 1, updatedAt := now })
    execute .updateGraphVersion "update_graph version failed: "
      (insertVersion id (current + 1) ⟨code, none, now⟩)
    pure (current + 1)

def deploy (id : Text) (version : Nat) : SqlM Blob Unit := do
  match ← query .deploySelect (fun s => (s.versions.get (id, version)).isSome) false with
  | false => .throw (.versionNotFound version id)
  | true => execute .deploy "deploy failed: " (updateRow id fun g => { g with
      activeVersion := some version
      status := "deployed"
      lastEvent := some (("deploy: v" : Text) ++ Text.ofNat version) })

/-- The plan of the old version becomes the current one, if it has one. -/
def restorePlan (id : Text) (plan : Option Blob) : SqlM Blob Unit :=
  match plan with
  | some plan => execute .rollbackPlan "rollback plan restore failed: " (updateRow id fun g =>
      { g with executionPlan := some plan })
  | none => pure ()

/-- A graph that is deployed is deployed with the new version. -/
def activate (id : Text) (newVersion : Nat) : SqlM Blob Unit := do
  match ← query .rollbackDeployed (fun s => (s.graphs.get id).any (·.status = ("deployed" : Text))) false with
  | true => execute .rollbackActive "rollback active_version failed: " (updateRow id fun g =>
      { g with activeVersion := some newVersion })
  | false => pure ()

def rollback (now id : Text) (version : Nat) : SqlM Blob Unit := do
  match ← query .rollbackSelect (fun s => s.versions.get (id, version)) none with
  | none => .throw (.versionNotFound version id)
  | some old =>
    let maxVer ← query .rollbackMax (fun s => s.maxVersion id) 0
    execute .rollbackUpdate "rollback update failed: " (updateRow id fun g =>
      { g with code := old.code, version := maxVer + 1, updatedAt := now })
    execute .rollbackVersion "rollback version insert failed: "
      (insertVersion id (maxVer + 1) ⟨old.code, old.executionPlan, now⟩)
    restorePlan id old.executionPlan
    activate id (maxVer + 1)
    execute .rollbackEvent "rollback last_event failed: " (updateRow id fun g =>
      { g with lastEvent := some (("rollback: v" : Text) ++ Text.ofNat version) })

def loadPlanVersion (id : Text) (version : Nat) : SqlM Blob Blob := do
  match ← query .loadPlanVersion (fun s => s.versions.get (id, version)) none with
  | none => .throw (.versionNotFound version id)
  | some row => match row.executionPlan with
    | none => .throw (.planVersionMissing version id)
    | some plan => pure plan

def savePlan (now id : Text) (version : Nat) (plan : Blob) : SqlM Blob Unit := do
  execute .savePlanGraph "save_plan (graphs) failed: " (updateRow id fun g =>
    { g with executionPlan := some plan, updatedAt := now })
  execute .savePlanVersion "save_plan (version) failed: " (updateVersionRow id version fun r =>
    { r with executionPlan := some plan })

end Sql

/-- An operation as a script. -/
def StorageOp.script {Blob : Type} : StorageOp Blob → SqlM Blob Unit
  | createGraph id now name code => do let _ ← Sql.createGraph id now name code
  | createForkGraph id now name code parentId forkNode forkLabel => do
    let _ ← Sql.createForkGraph id now name code parentId forkNode forkLabel
  | updateGraph now id code => do let _ ← Sql.updateGraph now id code
  | rollback now id version => Sql.rollback now id version
  | deploy id version => Sql.deploy id version
  | savePlan now id version plan => Sql.savePlan now id version plan

/-! ### Nothing fails -/

namespace Sql

variable {Blob : Type}

theorem run_query {α : Type} (label : SqlStatement) (read : Tables Blob → α) (default : α) :
    (query label read default).run Script.noFaults = (do let s ← get; pure (read s)) := rfl

theorem run_insertGraph (label : SqlStatement) (what id : Text) (row : GraphRow Blob) :
    (execute label what (insertGraph id row)).run Script.noFaults = Storage.insertGraph what id row := by
  funext s
  rw [execute, Script.run_step_of_none _ rfl, Storage.insertGraph, get_bind, insertGraph]
  cases s.graphs.get id <;> rfl

theorem run_insertVersion (label : SqlStatement) (what id : Text) (version : Nat) (row : VersionRow Blob) :
    (execute label what (insertVersion id version row)).run Script.noFaults =
      Storage.insertVersion what id version row := by
  funext s
  rw [execute, Script.run_step_of_none _ rfl, Storage.insertVersion, get_bind, insertVersion]
  cases s.versions.get (id, version) <;> rfl

theorem run_updateRow (label : SqlStatement) (what id : Text) (f : GraphRow Blob → GraphRow Blob) :
    (execute label what (updateRow id f)).run Script.noFaults = Storage.updateRow id f := by
  funext s
  rw [execute, Script.run_step_of_none _ rfl, Storage.updateRow, modify_apply, updateRow]
  cases s.graphs.get id <;> rfl

theorem run_updateVersionRow (label : SqlStatement) (what id : Text) (version : Nat)
    (f : VersionRow Blob → VersionRow Blob) :
    (execute label what (updateVersionRow id version f)).run Script.noFaults =
      Storage.updateVersionRow id version f := by
  funext s
  rw [execute, Script.run_step_of_none _ rfl, Storage.updateVersionRow, modify_apply, updateVersionRow]
  cases s.versions.get (id, version) <;> rfl

theorem run_createGraph (id now name code : Text) :
    (createGraph id now name code : SqlM Blob Text).run Script.noFaults =
      Storage.createGraph id now name code := by
  rw [createGraph, Script.run_bind, run_insertGraph]
  simp only [Script.run_bind, run_insertVersion]
  rfl

theorem run_createForkGraph (id now name code parentId forkNode : Text) (forkLabel : Option Text) :
    (createForkGraph id now name code parentId forkNode forkLabel : SqlM Blob Text).run Script.noFaults =
      Storage.createForkGraph id now name code parentId forkNode forkLabel := by
  rw [createForkGraph, Script.run_bind, run_insertGraph]
  simp only [Script.run_bind, run_insertVersion]
  rfl

theorem run_updateGraph (now id code : Text) :
    (updateGraph now id code : SqlM Blob Nat).run Script.noFaults = Storage.updateGraph now id code := by
  funext s
  rw [updateGraph, Script.run_bind, run_query, bind_apply, Storage.updateGraph, get_bind, get_bind]
  dsimp only [pure_apply]
  cases s.graphs.get id with
  | none => rfl
  | some g =>
    dsimp only [Option.map_some]
    rw [Script.run_bind, run_updateRow]
    simp only [Script.run_bind, run_insertVersion]
    rfl

theorem run_deploy (id : Text) (version : Nat) :
    (deploy id version : SqlM Blob Unit).run Script.noFaults = Storage.deploy id version := by
  funext s
  rw [deploy, Script.run_bind, run_query, bind_apply, Storage.deploy, get_bind, get_bind]
  dsimp only [pure_apply]
  cases s.versions.get (id, version) with
  | none => rfl
  | some r =>
    dsimp only [Option.isSome_some]
    rw [run_updateRow]

theorem run_restorePlan (id : Text) (plan : Option Blob) :
    (restorePlan id plan).run Script.noFaults = Storage.restorePlan id plan := by
  cases plan with
  | none => rfl
  | some plan => exact run_updateRow ..

/-- Asking first and writing then is one write. -/
theorem run_activate (id : Text) (newVersion : Nat) :
    (activate id newVersion : SqlM Blob Unit).run Script.noFaults = Storage.updateRow id fun g =>
      if g.status = ("deployed" : Text) then { g with activeVersion := some newVersion } else g := by
  funext s
  rw [activate, Script.run_bind, run_query, bind_apply, get_bind]
  dsimp only [pure_apply]
  cases hg : s.graphs.get id with
  | none =>
    rw [Storage.updateRow_none hg]
    rfl
  | some g =>
    rw [Storage.updateRow_ok hg, Option.any_some]
    by_cases hstatus : g.status = ("deployed" : Text)
    · rw [if_pos hstatus, decide_eq_true hstatus]
      dsimp only
      rw [run_updateRow, Storage.updateRow_ok hg]
    · rw [if_neg hstatus, decide_eq_false hstatus]
      dsimp only
      rw [Script.run_pure, Tables.setGraph, Dict.set_of_get hg]

theorem run_rollback (now id : Text) (version : Nat) :
    (rollback now id version : SqlM Blob Unit).run Script.noFaults = Storage.rollback now id version := by
  funext s
  rw [rollback, Script.run_bind, run_query, bind_apply, Storage.rollback, get_bind, get_bind]
  dsimp only [pure_apply]
  cases s.versions.get (id, version) with
  | none => rfl
  | some old =>
    dsimp only
    rw [Script.run_bind, run_query, bind_apply, get_bind]
    dsimp only [pure_apply]
    simp only [Script.run_bind, run_updateRow, run_insertVersion, run_restorePlan, run_activate]

theorem run_savePlan (now id : Text) (version : Nat) (plan : Blob) :
    (savePlan now id version plan).run Script.noFaults = Storage.savePlan now id version plan := by
  rw [savePlan, Script.run_bind, run_updateRow]
  simp only [run_updateVersionRow]
  rfl

end Sql

/-- A script none of whose statements fails is the operation. -/
theorem StorageOp.run_script {Blob : Type} (op : StorageOp Blob) :
    op.script.run Script.noFaults = op.run := by
  cases op with
  | createGraph id now name code =>
    rw [script, Script.run_bind, Sql.run_createGraph]
    rfl
  | createForkGraph id now name code parentId forkNode forkLabel =>
    rw [script, Script.run_bind, Sql.run_createForkGraph]
    rfl
  | updateGraph now id code =>
    rw [script, Script.run_bind, Sql.run_updateGraph]
    rfl
  | rollback now id version => exact Sql.run_rollback now id version
  | deploy id version => exact Sql.run_deploy id version
  | savePlan now id version plan => exact Sql.run_savePlan now id version plan

/-! ### A statement fails -/

section Faults

variable {Blob α : Type} {faults : SqlStatement → Option Text} {s t : Tables Blob}

/-- Every header has a row of its version, with its code. -/
def HeaderMatched (s : Tables Blob) : Prop :=
  ∀ id g, s.graphs.get id = some g → ∃ r, s.versions.get (id, g.version) = some r ∧ r.code = g.code

/-- An operation that fails has changed nothing, and however it ends the headers still match. -/
def LeavesNoTrace (s : Tables Blob) (r : EStateM.Result StorageError (Tables Blob) α) : Prop :=
  (∀ e t, r = .error e t → t = s) ∧ (HeaderMatched s → HeaderMatched (finalState r))

theorem leavesNoTrace_error {r : EStateM.Result StorageError (Tables Blob) α} {e : StorageError}
    (h : r = .error e t) : LeavesNoTrace s r ↔ t = s := by
  subst h
  refine ⟨fun h => h.1 e t rfl, fun h => ⟨fun e' t' heq => ?_, fun hm => ?_⟩⟩
  · cases heq
    exact h
  · rw [finalState, h]
    exact hm

theorem leavesNoTrace_ok {r : EStateM.Result StorageError (Tables Blob) α} {a : α} (h : r = .ok a t)
    (hm : HeaderMatched s → HeaderMatched t) : LeavesNoTrace s r := by
  subst h
  exact ⟨fun e t' heq => (by cases heq), hm⟩

theorem HeaderMatched.newVersion (hm : HeaderMatched s) {id : Text} {v : Nat} {g : GraphRow Blob}
    {r : VersionRow Blob} (hg : g.version = v) (hcode : r.code = g.code) :
    HeaderMatched ((s.setGraph id g).setVersion id v r) := by
  intro id' g' hg'
  rw [Tables.graphs_setVersion, Tables.get_setGraph] at hg'
  rw [Tables.get_setVersion, Tables.versions_setGraph]
  split at hg'
  case isTrue hid =>
    cases hg'
    rw [if_pos (by rw [hid, hg])]
    exact ⟨r, rfl, hcode⟩
  case isFalse hid =>
    rw [if_neg fun heq => hid (congrArg Prod.fst heq)]
    exact hm id' g' hg'

/-- Headers with the numbers, codes and states they had, and the same versions of graphs. -/
structure SameHeads (s t : Tables Blob) : Prop where
  versions : t.versions = s.versions
  heads : ∀ id, (t.graphs.get id).map (fun g => (g.version, g.code, g.status)) =
    (s.graphs.get id).map fun g => (g.version, g.code, g.status)

theorem SameHeads.refl (s : Tables Blob) : SameHeads s s := ⟨rfl, fun _ => rfl⟩

theorem SameHeads.trans {u : Tables Blob} (h : SameHeads s t) (h' : SameHeads t u) : SameHeads s u :=
  ⟨h'.versions.trans h.versions, fun id => (h'.heads id).trans (h.heads id)⟩

theorem SameHeads.matched (h : SameHeads s t) (hm : HeaderMatched s) : HeaderMatched t := by
  intro id g hg
  have hhead := h.heads id
  rw [hg, Option.map_some] at hhead
  obtain ⟨g', hg', heq⟩ := Option.map_eq_some_iff.1 hhead.symm
  obtain ⟨r, hr, hcode⟩ := hm id g' hg'
  simp only [Prod.mk.injEq] at heq
  rw [h.versions, ← heq.1, ← heq.2.1]
  exact ⟨r, hr, hcode⟩

/-- `status = 'deployed'` -/
def Tables.deployed (s : Tables Blob) (id : Text) : Bool :=
  (s.graphs.get id).any (·.status = ("deployed" : Text))

theorem SameHeads.deployed (h : SameHeads s t) (id : Text) : t.deployed id = s.deployed id := by
  have hhead := congrArg (·.any fun x => decide (x.2.2 = ("deployed" : Text))) (h.heads id)
  simpa only [Option.any_map, Tables.deployed] using hhead

theorem sameHeads_setGraph {id : Text} {g : GraphRow Blob} (hg : s.graphs.get id = some g)
    {f : GraphRow Blob → GraphRow Blob}
    (hf : ∀ g, (f g).version = g.version ∧ (f g).code = g.code ∧ (f g).status = g.status) :
    SameHeads s (s.setGraph id (f g)) := by
  refine ⟨rfl, fun id' => ?_⟩
  rw [Tables.get_setGraph]
  split
  case isTrue hid =>
    obtain ⟨hv, hc, hs⟩ := hf g
    rw [← hid, hg, Option.map_some, Option.map_some, hv, hc, hs]
  case isFalse => rfl

theorem run_execute_of_some {label : SqlStatement} {e : Text} (h : faults label = some e) (what : Text)
    (stmt : Tables Blob → Except Text (Tables Blob)) :
    (Sql.execute label what stmt).run faults s = .error (.internal (what ++ e)) s := by
  rw [Sql.execute, Script.run_step_of_some _ h]
  rfl

theorem run_execute_of_ok {label : SqlStatement} (h : faults label = none) (what : Text)
    {stmt : Tables Blob → Except Text (Tables Blob)} (hs : stmt s = .ok t) :
    (Sql.execute label what stmt).run faults s = .ok () t := by
  rw [Sql.execute, Script.run_step_of_none _ h, hs]
  rfl

theorem run_execute_of_error {label : SqlStatement} (h : faults label = none) (what : Text) {e : Text}
    {stmt : Tables Blob → Except Text (Tables Blob)} (hs : stmt s = .error e) :
    (Sql.execute label what stmt).run faults s = .error (.internal (what ++ e)) s := by
  rw [Sql.execute, Script.run_step_of_none _ h, hs]
  rfl

theorem run_query_bind {β : Type} (label : SqlStatement) (read : Tables Blob → β) (default : β)
    (f : β → SqlM Blob α) : (Sql.query label read default >>= f).run faults s =
      (f (if (faults label).isSome then default else read s)).run faults s := by
  cases h : faults label with
  | some e =>
    rw [Sql.query, Script.step_bind, Script.run_step_of_some _ h]
    rfl
  | none =>
    rw [Sql.query, Script.step_bind, Script.run_step_of_none _ h]
    rfl

/-- A change of the other columns fails with its statement only. -/
theorem run_updateRow_cases (label : SqlStatement) (what id : Text) {f : GraphRow Blob → GraphRow Blob}
    (hf : ∀ g, (f g).version = g.version ∧ (f g).code = g.code ∧ (f g).status = g.status) (s : Tables Blob) :
    (faults label = none ∧ ∃ t, (Sql.execute label what (Sql.updateRow id f)).run faults s = .ok () t ∧
      SameHeads s t) ∨
    faults label ≠ none ∧ ∃ e, (Sql.execute label what (Sql.updateRow id f)).run faults s = .error e s := by
  cases h : faults label with
  | some e => exact Or.inr ⟨Option.some_ne_none e, _, run_execute_of_some h what _⟩
  | none =>
    refine Or.inl ⟨rfl, ?_⟩
    cases hg : s.graphs.get id with
    | some g => exact ⟨_, run_execute_of_ok h what (by rw [Sql.updateRow, hg]), sameHeads_setGraph hg hf⟩
    | none => exact ⟨s, run_execute_of_ok h what (by rw [Sql.updateRow, hg]), SameHeads.refl s⟩

/-! ### What a rollback does behind the new version -/

/-- No statement of it fails. -/
def TailRuns (faults : SqlStatement → Option Text) (plan : Option Blob) (deployed : Bool) : Prop :=
  (plan.isSome → faults .rollbackPlan = none) ∧
    (deployed = true → faults .rollbackDeployed = none → faults .rollbackActive = none) ∧
    faults .rollbackEvent = none

def rollbackTail (id : Text) (version newVersion : Nat) (plan : Option Blob) : SqlM Blob Unit := do
  Sql.restorePlan id plan
  Sql.activate id newVersion
  Sql.execute .rollbackEvent "rollback last_event failed: " (Sql.updateRow id fun g =>
    { g with lastEvent := some (("rollback: v" : Text) ++ Text.ofNat version) })

theorem restorePlan_cases (id : Text) (plan : Option Blob) (s : Tables Blob) :
    ((plan.isSome → faults .rollbackPlan = none) ∧ ∃ t, (Sql.restorePlan id plan).run faults s = .ok () t ∧
      SameHeads s t) ∨
    ¬(plan.isSome → faults .rollbackPlan = none) ∧
      ∃ e, (Sql.restorePlan id plan).run faults s = .error e s := by
  cases plan with
  | none => exact Or.inl ⟨fun h => (by cases h), s, rfl, SameHeads.refl s⟩
  | some plan =>
    have hcases := @run_updateRow_cases Blob faults .rollbackPlan "rollback plan restore failed: " id
      (fun g => { g with executionPlan := some plan }) (fun _ => ⟨rfl, rfl, rfl⟩) s
    exact hcases.imp (fun h => ⟨fun _ => h.1, h.2⟩) fun h => ⟨fun hp => h.1 (hp rfl), h.2⟩

theorem activate_cases (id : Text) (newVersion : Nat) (s : Tables Blob) :
    ((s.deployed id = true → faults .rollbackDeployed = none → faults .rollbackActive = none) ∧
      ∃ t, (Sql.activate id newVersion).run faults s = .ok () t ∧ SameHeads s t) ∨
    ¬(s.deployed id = true → faults .rollbackDeployed = none → faults .rollbackActive = none) ∧
      ∃ e, (Sql.activate id newVersion).run faults s = .error e s := by
  rw [Sql.activate, run_query_bind]
  by_cases hask : s.deployed id = true ∧ faults .rollbackDeployed = none
  · have hread : (if (faults .rollbackDeployed).isSome then false else
        (s.graphs.get id).any (·.status = ("deployed" : Text))) = true := by
      rw [hask.2]
      exact hask.1
    rw [hread]
    have hcases := @run_updateRow_cases Blob faults .rollbackActive "rollback active_version failed: " id
      (fun g => { g with activeVersion := some newVersion }) (fun _ => ⟨rfl, rfl, rfl⟩) s
    exact hcases.imp (fun h => ⟨fun _ _ => h.1, h.2⟩) fun h => ⟨fun hp => h.1 (hp hask.1 hask.2), h.2⟩
  · have hread : (if (faults .rollbackDeployed).isSome then false else
        (s.graphs.get id).any (·.status = ("deployed" : Text))) = false := by
      cases hf : faults .rollbackDeployed with
      | some e => rfl
      | none => exact Bool.eq_false_iff.2 fun hd => hask ⟨hd, hf⟩
    rw [hread]
    exact Or.inl ⟨fun hd hf => absurd ⟨hd, hf⟩ hask, s, rfl, SameHeads.refl s⟩

theorem rollbackTail_cases (id : Text) (version newVersion : Nat) (plan : Option Blob) (s : Tables Blob) :
    (TailRuns faults plan (s.deployed id) ∧
      ∃ t, (rollbackTail id version newVersion plan).run faults s = .ok () t ∧ SameHeads s t) ∨
    ¬TailRuns faults plan (s.deployed id) ∧
      ∃ e t, (rollbackTail id version newVersion plan).run faults s = .error e t ∧ t.versions = s.versions := by
  rw [rollbackTail, Script.run_bind, bind_apply]
  rcases restorePlan_cases id plan s with ⟨hplan, t, ht, hst⟩ | ⟨hplan, e, ht⟩
  · rw [ht, ← hst.deployed id]
    dsimp only
    rw [Script.run_bind, bind_apply]
    rcases activate_cases id newVersion t with ⟨hactive, u, hu, htu⟩ | ⟨hactive, e, hu⟩
    · rw [hu]
      rcases @run_updateRow_cases Blob faults .rollbackEvent "rollback last_event failed: " id
        (fun g => { g with lastEvent := some (("rollback: v" : Text) ++ Text.ofNat version) })
        (fun _ => ⟨rfl, rfl, rfl⟩) u with ⟨hevent, w, hw, huw⟩ | ⟨hevent, e, hw⟩
      · exact Or.inl ⟨⟨hplan, hactive, hevent⟩, w, hw, (hst.trans htu).trans huw⟩
      · exact Or.inr ⟨fun h => hevent h.2.2, e, u, hw, (hst.trans htu).versions⟩
    · rw [hu]
      exact Or.inr ⟨fun h => hactive h.2.1, e, t, rfl, hst.versions⟩
  · rw [ht]
    exact Or.inr ⟨fun h => hplan h.1, e, s, rfl, rfl⟩

/-! ### Atomicity -/

/-- No statement fails behind one that has changed something. -/
def StorageOp.Untorn (faults : SqlStatement → Option Text) (s : Tables Blob) : StorageOp Blob → Prop
  | createGraph id _ _ _ => s.graphs.get id = none → faults .createGraph = none →
      faults .createGraphVersion = none ∧ s.versions.get (id, 1) = none
  | createForkGraph id _ _ _ _ _ _ => s.graphs.get id = none → faults .createFork = none →
      faults .createForkVersion = none ∧ s.versions.get (id, 1) = none
  | updateGraph _ id _ => ∀ g, s.graphs.get id = some g → faults .updateSelect = none →
      faults .updateGraph = none → faults .updateGraphVersion = none ∧ s.versions.get (id, g.version + 1) = none
  | rollback now id version => ∀ old, s.versions.get (id, version) = some old →
      faults .rollbackSelect = none → faults .rollbackUpdate = none →
      let newVersion := (if (faults .rollbackMax).isSome then 0 else s.maxVersion id) + 1
      if faults .rollbackVersion = none ∧ s.versions.get (id, newVersion) = none then
        TailRuns faults old.executionPlan (s.deployed id)
      else ∀ g, s.graphs.get id = some g →
        { g with code := old.code, version := newVersion, updatedAt := now } = g
  | deploy _ _ => True
  | savePlan now id _ plan => faults .savePlanGraph = none → faults .savePlanVersion ≠ none →
      ∀ g, s.graphs.get id = some g → { g with executionPlan := some plan, updatedAt := now } = g

theorem insertGraph_eq_ok {id : Text} (hg : s.graphs.get id = none) (g : GraphRow Blob) :
    Sql.insertGraph id g s = .ok (s.setGraph id g) := by
  rw [Sql.insertGraph, hg]

theorem insertVersion_eq_ok {id : Text} {v : Nat} (hv : s.versions.get (id, v) = none) (r : VersionRow Blob) :
    Sql.insertVersion id v r s = .ok (s.setVersion id v r) := by
  rw [Sql.insertVersion, hv]

theorem updateRow_eq_ok {id : Text} {g : GraphRow Blob} (hg : s.graphs.get id = some g)
    (f : GraphRow Blob → GraphRow Blob) : Sql.updateRow id f s = .ok (s.setGraph id (f g)) := by
  rw [Sql.updateRow, hg]

theorem setGraph_eq_iff {id : Text} {g g' : GraphRow Blob} (hg : s.graphs.get id = some g) :
    s.setGraph id g' = s ↔ g' = g := by
  constructor
  · intro h
    have hget : (s.setGraph id g').graphs.get id = some g' := by rw [Tables.get_setGraph, if_pos rfl]
    rw [h, hg] at hget
    exact (Option.some.inj hget).symm
  · intro h
    rw [h, Tables.setGraph, Dict.set_of_get hg]

theorem setGraph_ne {id : Text} {g : GraphRow Blob} (hg : s.graphs.get id = none) : s.setGraph id g ≠ s := by
  intro h
  have hget : (s.setGraph id g).graphs.get id = some g := by rw [Tables.get_setGraph, if_pos rfl]
  rw [h, hg] at hget
  cases hget

/-- Behind a header, the row of its version: what becomes of an insertion of both. -/
theorem insert_leavesNoTrace {id : Text} {v : Nat} {g : GraphRow Blob} {r : VersionRow Blob}
    {label : SqlStatement} {what : Text} (hne : s.setGraph id g ≠ s) (hg : g.version = v)
    (hcode : r.code = g.code) (a : α) :
    LeavesNoTrace s ((Sql.execute label what (Sql.insertVersion id v r) >>= fun _ => pure a :
      SqlM Blob α).run faults (s.setGraph id g)) ↔ faults label = none ∧ s.versions.get (id, v) = none := by
  rw [Script.run_bind, bind_apply]
  cases hf : faults label with
  | some e =>
    rw [run_execute_of_some hf, leavesNoTrace_error rfl]
    exact iff_of_false hne fun h => Option.some_ne_none e h.1
  | none =>
    cases hrow : s.versions.get (id, v) with
    | some old =>
      rw [run_execute_of_error hf what (by rw [Sql.insertVersion, Tables.versions_setGraph, hrow]),
        leavesNoTrace_error rfl]
      exact iff_of_false hne fun h => Option.some_ne_none old h.2
    | none =>
      rw [run_execute_of_ok hf what (insertVersion_eq_ok (by rw [Tables.versions_setGraph, hrow]) r)]
      exact iff_of_true (leavesNoTrace_ok rfl fun hm => hm.newVersion hg hcode) ⟨rfl, rfl⟩

theorem leavesNoTrace_map {β : Type} {x : SqlM Blob α} (b : β) {t : Tables Blob} :
    LeavesNoTrace s ((x >>= fun _ => pure b : SqlM Blob β).run faults t) ↔ LeavesNoTrace s (x.run faults t) := by
  rw [Script.run_bind, bind_apply]
  cases x.run faults t with
  | ok a u => exact ⟨fun h => leavesNoTrace_ok rfl h.2, fun h => leavesNoTrace_ok rfl h.2⟩
  | error e u => rw [leavesNoTrace_error rfl, leavesNoTrace_error rfl]

/-- A new header, and the row of its version. -/
theorem insertBoth_leavesNoTrace {label label' : SqlStatement} {what what' id : Text} {v : Nat}
    {g : GraphRow Blob} {r : VersionRow Blob} (hg : g.version = v) (hcode : r.code = g.code) (a : α) :
    LeavesNoTrace s ((do
      Sql.execute label what (Sql.insertGraph id g)
      Sql.execute label' what' (Sql.insertVersion id v r)
      pure a : SqlM Blob α).run faults s) ↔
    (s.graphs.get id = none → faults label = none →
      faults label' = none ∧ s.versions.get (id, v) = none) := by
  rw [Script.run_bind, bind_apply]
  cases hf : faults label with
  | some e =>
    rw [run_execute_of_some hf, leavesNoTrace_error rfl]
    exact iff_of_true rfl fun _ h => by cases h
  | none =>
    cases hrow : s.graphs.get id with
    | some g' =>
      rw [run_execute_of_error hf what (by rw [Sql.insertGraph, hrow]), leavesNoTrace_error rfl]
      exact iff_of_true rfl fun h => by cases h
    | none =>
      rw [run_execute_of_ok hf what (insertGraph_eq_ok hrow g)]
      dsimp only
      rw [insert_leavesNoTrace (setGraph_ne hrow) hg hcode a]
      exact ⟨fun h _ _ => h, fun h => h rfl rfl⟩

theorem updateGraph_leavesNoTrace (now id code : Text) :
    LeavesNoTrace s ((Sql.updateGraph now id code).run faults s) ↔
      StorageOp.Untorn faults s (.updateGraph now id code) := by
  rw [Sql.updateGraph, run_query_bind]
  cases hselect : faults .updateSelect with
  | some e => exact iff_of_true ((leavesNoTrace_error rfl).2 rfl) fun _ _ h => by rw [hselect] at h; cases h
  | none =>
    rw [if_neg (by simp)]
    cases hg : s.graphs.get id with
    | none => exact iff_of_true ((leavesNoTrace_error rfl).2 rfl) fun _ h => by rw [hg] at h; cases h
    | some g =>
      dsimp only [Option.map_some]
      rw [Script.run_bind, bind_apply]
      cases hupdate : faults .updateGraph with
      | some e =>
        rw [run_execute_of_some hupdate, leavesNoTrace_error rfl]
        exact iff_of_true rfl fun _ _ _ h => by rw [hupdate] at h; cases h
      | none =>
        rw [run_execute_of_ok hupdate _ (updateRow_eq_ok hg _)]
        dsimp only
        rw [insert_leavesNoTrace ?changes ?number ?same]
        case changes =>
          rw [Ne, setGraph_eq_iff hg]
          exact fun h => Nat.succ_ne_self g.version (congrArg GraphRow.version h)
        case number => rfl
        case same => rfl
        constructor
        · intro h g' hg' _ _
          cases hg.symm.trans hg'
          exact h
        · exact fun h => h g hg hselect hupdate

theorem savePlan_leavesNoTrace (now id : Text) (version : Nat) (plan : Blob) :
    LeavesNoTrace s ((Sql.savePlan now id version plan).run faults s) ↔
      StorageOp.Untorn faults s (.savePlan now id version plan) := by
  have matched : ∀ {t : Tables Blob}, SameHeads s t → ∀ r, t.versions.get (id, version) = some r →
      HeaderMatched s → HeaderMatched (t.setVersion id version { r with executionPlan := some plan }) := by
    intro t hst r hr hm id' g hg
    obtain ⟨r', hr', hcode⟩ := hst.matched hm id' g hg
    rw [Tables.get_setVersion]
    split
    case isTrue heq =>
      rw [← heq, hr] at hr'
      cases hr'
      exact ⟨_, rfl, hcode⟩
    case isFalse => exact ⟨r', hr', hcode⟩
  rw [Sql.savePlan, Script.run_bind, bind_apply]
  rcases @run_updateRow_cases Blob faults .savePlanGraph "save_plan (graphs) failed: " id
    (fun g => { g with executionPlan := some plan, updatedAt := now }) (fun _ => ⟨rfl, rfl, rfl⟩) s with
    ⟨hgraph, t, ht, hst⟩ | ⟨hgraph, e, ht⟩
  · rw [ht]
    dsimp only
    cases hversion : faults .savePlanVersion with
    | none =>
      refine iff_of_true ?_ fun _ h => absurd hversion h
      cases hr : t.versions.get (id, version) with
      | none =>
        exact leavesNoTrace_ok (run_execute_of_ok hversion _ (by rw [Sql.updateVersionRow, hr])) hst.matched
      | some r =>
        exact leavesNoTrace_ok (run_execute_of_ok hversion _ (by rw [Sql.updateVersionRow, hr]))
          (matched hst r hr)
    | some e =>
      rw [run_execute_of_some hversion, leavesNoTrace_error rfl]
      cases hg : s.graphs.get id with
      | none =>
        have hsame : t = s := by
          rw [run_execute_of_ok hgraph _ (by rw [Sql.updateRow, hg])] at ht
          cases ht
          rfl
        exact iff_of_true hsame fun _ _ g hg' => by rw [hg] at hg'; cases hg'
      | some g =>
        rw [run_execute_of_ok hgraph _ (updateRow_eq_ok hg _)] at ht
        cases ht
        rw [setGraph_eq_iff hg]
        constructor
        · intro h _ _ g' hg'
          cases hg.symm.trans hg'
          exact h
        · exact fun h => h hgraph (by rw [hversion]; exact Option.some_ne_none e) g hg
  · rw [ht, leavesNoTrace_error rfl]
    exact iff_of_true rfl fun h => absurd h hgraph

/-- The header of a rollback, before the row of its version. -/
theorem rollbackUpdate_ok (now id code : Text) (v : Nat) (s : Tables Blob) :
    ∃ t, Sql.updateRow id (fun g => { g with code := code, version := v, updatedAt := now }) s = .ok t ∧
      t.versions = s.versions ∧ t.deployed id = s.deployed id ∧
      (t = s ↔ ∀ g, s.graphs.get id = some g →
        { g with code := code, version := v, updatedAt := now } = g) ∧
      ∀ r : VersionRow Blob, r.code = code → s.versions.get (id, v) = none → HeaderMatched s →
        HeaderMatched (t.setVersion id v r) := by
  cases hg : s.graphs.get id with
  | some g =>
    refine ⟨_, updateRow_eq_ok hg _, rfl, ?_, ?_, fun r hr _ hm => hm.newVersion rfl hr⟩
    · rw [Tables.deployed, Tables.deployed, Tables.get_setGraph, if_pos rfl, hg]
      rfl
    · rw [setGraph_eq_iff hg]
      exact ⟨fun h g' hg' => by cases hg'; exact h, fun h => h g rfl⟩
  | none =>
    refine ⟨s, by rw [Sql.updateRow, hg], rfl, rfl, iff_of_true rfl fun g hg' => (by cases hg'), ?_⟩
    intro r hr hfree hm id' g' hg'
    obtain ⟨r', hr', hcode⟩ := hm id' g' hg'
    refine ⟨r', ?_, hcode⟩
    rw [Tables.get_setVersion, if_neg fun heq => ?_]
    · exact hr'
    · rw [← heq, hfree] at hr'
      cases hr'

theorem rollback_leavesNoTrace (now id : Text) (version : Nat) :
    LeavesNoTrace s ((Sql.rollback now id version).run faults s) ↔
      StorageOp.Untorn faults s (.rollback now id version) := by
  rw [Sql.rollback, run_query_bind]
  cases hselect : faults .rollbackSelect with
  | some e => exact iff_of_true ((leavesNoTrace_error rfl).2 rfl) fun _ _ h => by rw [hselect] at h; cases h
  | none =>
    rw [if_neg (by simp)]
    cases hold : s.versions.get (id, version) with
    | none => exact iff_of_true ((leavesNoTrace_error rfl).2 rfl) fun _ h => by rw [hold] at h; cases h
    | some old =>
      dsimp only
      rw [run_query_bind, Script.run_bind, bind_apply]
      generalize hnew : (if (faults .rollbackMax).isSome = true then 0 else s.maxVersion id) + 1 = newVersion
      have hiff : StorageOp.Untorn faults s (.rollback now id version) ↔ (faults .rollbackUpdate = none →
          if faults .rollbackVersion = none ∧ s.versions.get (id, newVersion) = none then
            TailRuns faults old.executionPlan (s.deployed id)
          else ∀ g, s.graphs.get id = some g →
            { g with code := old.code, version := newVersion, updatedAt := now } = g) := by
        rw [← hnew]
        constructor
        · exact fun h hupdate => h old hold hselect hupdate
        · intro h old' hold' _ hupdate
          cases hold.symm.trans hold'
          exact h hupdate
      rw [hiff]
      cases hupdate : faults .rollbackUpdate with
      | some e =>
        rw [run_execute_of_some hupdate, leavesNoTrace_error rfl]
        exact iff_of_true rfl fun h => by cases h
      | none =>
        obtain ⟨t, ht, hversions, hdeployed, hsame, hmatched⟩ := rollbackUpdate_ok now id old.code newVersion s
        rw [run_execute_of_ok hupdate _ ht]
        dsimp only
        rw [Script.run_bind, bind_apply, imp_iff_right rfl]
        by_cases hinsert : faults .rollbackVersion = none ∧ s.versions.get (id, newVersion) = none
        · rw [if_pos hinsert, run_execute_of_ok hinsert.1 _
            (insertVersion_eq_ok (by rw [hversions]; exact hinsert.2) _)]
          have hdeployed' : (t.setVersion id newVersion ⟨old.code, old.executionPlan, now⟩).deployed id =
              s.deployed id := hdeployed
          rcases @rollbackTail_cases Blob faults id version newVersion old.executionPlan
            (t.setVersion id newVersion ⟨old.code, old.executionPlan, now⟩) with ⟨htail, u, hu, htu⟩ | ⟨htail, e, u, hu, htu⟩
          · rw [hdeployed'] at htail
            exact iff_of_true (leavesNoTrace_ok hu fun hm => htu.matched (hmatched _ rfl hinsert.2 hm)) htail
          · rw [hdeployed'] at htail
            refine iff_of_false (fun h => ?_) htail
            have heq := (leavesNoTrace_error hu).1 h
            rw [← heq, htu, Tables.get_setVersion, if_pos rfl] at hinsert
            cases hinsert.2
        · rw [if_neg hinsert]
          have herror : ∃ e, (Sql.execute .rollbackVersion "rollback version insert failed: "
              (Sql.insertVersion id newVersion ⟨old.code, old.executionPlan, now⟩)).run faults t =
                .error e t := by
            cases hf : faults .rollbackVersion with
            | some e => exact ⟨_, run_execute_of_some hf _ _⟩
            | none =>
              cases hrow : s.versions.get (id, newVersion) with
              | none => exact absurd ⟨hf, hrow⟩ hinsert
              | some r => exact ⟨_, run_execute_of_error hf _ (by rw [Sql.insertVersion, hversions, hrow])⟩
          obtain ⟨e, he⟩ := herror
          rw [he, leavesNoTrace_error rfl, hsame]

theorem deploy_leavesNoTrace (id : Text) (version : Nat) :
    LeavesNoTrace s ((Sql.deploy id version).run faults s) := by
  rw [Sql.deploy, run_query_bind]
  split
  · exact (leavesNoTrace_error rfl).2 rfl
  · cases hf : faults .deploy with
    | some e => exact (leavesNoTrace_error (run_execute_of_some hf _ _)).2 rfl
    | none =>
      cases hg : s.graphs.get id with
      | none => exact leavesNoTrace_ok (run_execute_of_ok hf _ (by rw [Sql.updateRow, hg])) fun hm => hm
      | some g =>
        refine leavesNoTrace_ok (run_execute_of_ok hf _ (updateRow_eq_ok hg _)) fun hm id' g' hg' => ?_
        rw [Tables.get_setGraph] at hg'
        split at hg'
        case isTrue hid =>
          cases hg'
          exact hid ▸ hm id g hg
        case isFalse => exact hm id' g' hg'

/-- An operation leaves no trace of a failure, and the headers their rows, exactly when no statement
fails behind one that has changed something. -/
theorem leavesNoTrace_iff (op : StorageOp Blob) (faults : SqlStatement → Option Text) (s : Tables Blob) :
    LeavesNoTrace s (op.script.run faults s) ↔ op.Untorn faults s := by
  cases op with
  | createGraph id now name code =>
    rw [StorageOp.script, leavesNoTrace_map]
    exact insertBoth_leavesNoTrace rfl rfl id
  | createForkGraph id now name code parentId forkNode forkLabel =>
    rw [StorageOp.script, leavesNoTrace_map]
    exact insertBoth_leavesNoTrace rfl rfl id
  | updateGraph now id code =>
    rw [StorageOp.script, leavesNoTrace_map]
    exact updateGraph_leavesNoTrace now id code
  | rollback now id version => exact rollback_leavesNoTrace now id version
  | deploy id version => exact iff_of_true (deploy_leavesNoTrace id version) trivial
  | savePlan now id version plan => exact savePlan_leavesNoTrace now id version plan

/-- One graph, just created. -/
def justCreated : Tables Unit :=
  ((Tables.empty.setGraph "g" ⟨"n", 1, "draft", "x", none, none, none, none, none, none, "0", "0"⟩).setVersion
    "g" 1 ⟨"x", none, "0"⟩)

/-- The row of the new version cannot be inserted, the header has been written. -/
theorem update_torn : ¬∀ (op : StorageOp Unit) (faults : SqlStatement → Option Text) (s : Tables Unit),
    LeavesNoTrace s (op.script.run faults s) := by
  intro h
  have htorn := (h (.updateGraph "1" "g" "y")
    (fun label => if label = .updateGraphVersion then some "disk I/O error" else none) justCreated).1 _ _ rfl
  have hversion := congrArg (fun t => (t.graphs.get "g").map GraphRow.version) htorn
  revert hversion
  decide +kernel

end Faults

end Tinypipe
