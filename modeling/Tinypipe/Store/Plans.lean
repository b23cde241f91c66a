import Tinypipe.Programs
import Tinypipe.Ir.FlatBuffers
import Tinypipe.Store.History

/-! The stored plans. A graph has the plan of its current version in its header and a plan in
the row of each version; a plan that is missing is compiled when it is loaded
(`load_plan_self_heal` of `tinypipe-server/src/engine.rs`, `load_plan_version_self_heal` of
`tinypipe-cli/src/main.rs`). -/

namespace Tinypipe

open Lib Lib.Stateful

/-- The parser and the encoding of the plans. -/
structure Toolchain (Blob : Type) where
  parse : Text → Except Text Ast.Module
  fb : FlatBuffers Blob

inductive BuildError where
  | parse (message : Text)
  | compile (e : CompileError)

inductive HealError where
  | storage (e : StorageError)
  | recompile (e : BuildError)
  | decode (message : Text)
  | noVersion (version : Nat)

namespace Toolchain

variable {Blob : Type} (t : Toolchain Blob)

/-- From the text of a program to the bytes of its plan. -/
def build (time : Nat) (code : Text) : Except BuildError Blob :=
  match t.parse code with
  | .error message => .error (.parse message)
  | .ok m => match compile time m with
    | .error e => .error (.compile e)
    | .ok o => .ok (o.compiled.toFbBytes t.fb)

/-- The plan is what the compiler makes of the code, at some time. -/
def Made (code : Text) (plan : Blob) : Prop := ∃ time, t.build time code = .ok plan

def rebuild (time : Nat) (code : Text) : EStateM HealError (Tables Blob) Blob :=
  match t.build time code with
  | .error e => throw (.recompile e)
  | .ok plan => pure plan

def decode (bytes : Blob) : EStateM HealError (Tables Blob) CompiledPlan :=
  match CompiledPlan.fromFbBytes t.fb bytes with
  | .error e => throw (.decode e)
  | .ok plan => pure plan

def loadPlanSelfHeal (now : Text) (time : Nat) (g : GraphDefinition) :
    EStateM HealError (Tables Blob) CompiledPlan := do
  match ← attempt (Storage.loadPlan g.id) with
  | .ok bytes => t.decode bytes
  | .error (.planMissing _) => do
    let plan ← t.rebuild time g.code
    EStateM.adaptExcept .storage (Storage.savePlan now g.id g.version plan)
    t.decode plan
  | .error e => throw (.storage e)

def loadPlanVersionSelfHeal (now : Text) (time : Nat) (id : Text) (version : Nat) :
    EStateM HealError (Tables Blob) Blob := do
  match ← attempt (Storage.loadPlanVersion id version) with
  | .ok bytes => pure bytes
  | .error (.planVersionMissing _ _) => do
    let versions ← EStateM.adaptExcept .storage (Storage.listVersions id)
    match versions.find? fun e => e.1 = version with
    | none => throw (.noVersion version)
    | some e => do
      let plan ← t.rebuild time e.2.1
      EStateM.adaptExcept .storage (Storage.savePlan now id version plan)
      pure plan
  | .error e => throw (.storage e)

end Toolchain

inductive PlanOp (Blob : Type) where
  | storage (op : StorageOp Blob)
  | selfHeal (now : Text) (time : Nat) (id : Text)
  | selfHealVersion (now : Text) (time : Nat) (id : Text) (version : Nat)

section Plans

variable {Blob : Type} (t : Toolchain Blob)

namespace PlanOp

def run : PlanOp Blob → EStateM HealError (Tables Blob) Unit
  | storage op => EStateM.adaptExcept .storage op.run
  | selfHeal now time id => do
    let g ← EStateM.adaptExcept .storage (Storage.loadGraph id)
    let _ ← t.loadPlanSelfHeal now time g
  | selfHealVersion now time id version => do
    let _ ← t.loadPlanVersionSelfHeal now time id version

def step (s : Tables Blob) (op : PlanOp Blob) : Tables Blob := finalState (op.run t s)

/-- What an operation does to the storage. -/
def effect (s : Tables Blob) : PlanOp Blob → Option (StorageOp Blob)
  | storage op => some op
  | selfHeal now time id => do
    let g ← s.graphs.get id
    if g.executionPlan.isSome then none
    else (t.build time g.code).toOption.map fun plan => .savePlan now id g.version plan
  | selfHealVersion now time id version => do
    let r ← s.versions.get (id, version)
    if r.executionPlan.isSome then none
    else (t.build time r.code).toOption.map fun plan => .savePlan now id version plan

end PlanOp

variable {t} {s : Tables Blob} {h : Histories}

theorem finalState_discard {ε σ α : Type} (x : EStateM ε σ α) (s : σ) :
    finalState ((do let _ ← x : EStateM ε σ Unit) s) = finalState (x s) := by
  rw [bind_apply]
  cases x s <;> rfl

theorem finalState_decode (t : Toolchain Blob) (bytes : Blob) (s : Tables Blob) :
    finalState (t.decode bytes s) = s := by
  rw [Toolchain.decode]
  cases CompiledPlan.fromFbBytes t.fb bytes <;> rfl

/-- A plan is saved, whatever follows that writes nothing. -/
theorem finalState_save {α : Type} (now id : Text) (version : Nat) (plan : Blob)
    {rest : EStateM HealError (Tables Blob) α} (hrest : ∀ s, finalState (rest s) = s)
    (s : Tables Blob) :
    finalState ((do
      EStateM.adaptExcept HealError.storage (Storage.savePlan now id version plan)
      rest : EStateM HealError (Tables Blob) α) s) =
      StorageOp.step s (.savePlan now id version plan) := by
  rw [StorageOp.step, StorageOp.run, ← finalState_adaptExcept HealError.storage, bind_apply]
  cases EStateM.adaptExcept HealError.storage (Storage.savePlan now id version plan) s with
  | ok a u => exact hrest u
  | error e u => rfl

/-- A plan is built and saved, or the computation stops before it has written. -/
theorem finalState_rebuild {α : Type} (time : Nat) (code : Text)
    {rest : Blob → EStateM HealError (Tables Blob) α} {op : Blob → StorageOp Blob}
    (hrest : ∀ plan s, finalState (rest plan s) = (op plan).step s) (s : Tables Blob) :
    finalState ((t.rebuild time code >>= rest) s) =
      (((t.build time code).toOption.map op).map (StorageOp.step s)).getD s := by
  rw [Toolchain.rebuild]
  cases t.build time code with
  | error e => rfl
  | ok plan => exact hrest plan s

theorem loadPlan_eq {id : Text} {g : GraphRow Blob} (hg : s.graphs.get id = some g) :
    Storage.loadPlan id s = match g.executionPlan with
      | some plan => .ok plan s
      | none => .error (.planMissing id) s := by
  simp only [Storage.loadPlan, get_bind, hg]
  cases g.executionPlan <;> rfl

theorem loadPlanVersion_eq {id : Text} {v : Nat} {r : VersionRow Blob}
    (hv : s.versions.get (id, v) = some r) :
    Storage.loadPlanVersion id v s = match r.executionPlan with
      | some plan => .ok plan s
      | none => .error (.planVersionMissing v id) s := by
  simp only [Storage.loadPlanVersion, get_bind, hv]
  cases r.executionPlan <;> rfl

/-- The current plan is loaded, or that of the header's code is saved. -/
theorem finalState_loadPlanSelfHeal (now : Text) (time : Nat) {id : Text} {g : GraphRow Blob}
    (hg : s.graphs.get id = some g) :
    finalState (t.loadPlanSelfHeal now time (Tables.definition id g) s) =
      (((PlanOp.selfHeal now time id).effect t s).map (StorageOp.step s)).getD s := by
  have hload : Storage.loadPlan (Tables.definition id g).id s = _ := loadPlan_eq hg
  rw [PlanOp.effect, hg, Option.bind_eq_bind, Option.bind_some, Toolchain.loadPlanSelfHeal]
  cases hplan : g.executionPlan with
  | some plan =>
    rw [hplan] at hload
    rw [bind_of_ok _ (attempt_of_ok hload)]
    exact finalState_decode t plan s
  | none =>
    rw [hplan] at hload
    rw [bind_of_ok _ (attempt_of_error hload)]
    exact finalState_rebuild time g.code
      (fun plan s => finalState_save now id g.version plan (finalState_decode t plan) s) s

/-- The plan of a version is loaded, or that of its code is saved. -/
theorem finalState_loadPlanVersionSelfHeal (now : Text) (time : Nat) {id : Text} {version : Nat}
    {r : VersionRow Blob} (hv : s.versions.get (id, version) = some r) :
    finalState (t.loadPlanVersionSelfHeal now time id version s) =
      (((PlanOp.selfHealVersion now time id version).effect t s).map (StorageOp.step s)).getD s := by
  have hload := loadPlanVersion_eq hv
  rw [PlanOp.effect, hv, Option.bind_eq_bind, Option.bind_some, Toolchain.loadPlanVersionSelfHeal]
  cases hplan : r.executionPlan with
  | some plan =>
    rw [hplan] at hload
    rw [bind_of_ok _ (attempt_of_ok hload)]
    rfl
  | none =>
    rw [hplan] at hload
    rw [bind_of_ok _ (attempt_of_error hload)]
    have hlist : EStateM.adaptExcept HealError.storage (Storage.listVersions id) s =
        .ok ((s.versionsOf id).map fun e => (e.1, e.2.code, e.2.createdAt)) s := rfl
    dsimp only
    rw [bind_of_ok _ hlist, List.find?_map]
    have hfind := find_versionsOf s id version
    rw [hv] at hfind
    simp only [Function.comp_def, hfind, Option.map_some]
    exact finalState_rebuild time r.code
      (fun plan s => finalState_save now id version plan (fun _ => rfl) s) s

/-- A self-heal saves the plan of the code it finds, or writes nothing. -/
theorem PlanOp.step_eq (t : Toolchain Blob) (s : Tables Blob) (op : PlanOp Blob) :
    op.step t s = ((op.effect t s).map (StorageOp.step s)).getD s := by
  cases op with
  | storage op => exact finalState_adaptExcept _ _ _
  | selfHeal now time id =>
    rw [step, run]
    cases hg : s.graphs.get id with
    | none =>
      have hload : EStateM.adaptExcept HealError.storage (Storage.loadGraph id) s =
          .error (.storage (.graphNotFound id)) s := by
        simp only [Storage.loadGraph, EStateM.adaptExcept, get_bind, hg, throw_apply]
      rw [bind_of_error _ hload, effect, hg]
      rfl
    | some g =>
      have hload : EStateM.adaptExcept HealError.storage (Storage.loadGraph id) s =
          .ok (Tables.definition id g) s := by
        simp only [Storage.loadGraph, EStateM.adaptExcept, get_bind, hg, pure_apply]
      rw [bind_of_ok _ hload, finalState_discard, finalState_loadPlanSelfHeal now time hg]
  | selfHealVersion now time id version =>
    rw [step, run, finalState_discard]
    cases hv : s.versions.get (id, version) with
    | none =>
      have hload : Storage.loadPlanVersion id version s = .error (.versionNotFound version id) s := by
        simp only [Storage.loadPlanVersion, get_bind, hv, throw_apply]
      rw [Toolchain.loadPlanVersionSelfHeal, bind_of_ok _ (attempt_of_error hload), effect, hv]
      rfl
    | some r => exact finalState_loadPlanVersionSelfHeal now time hv

/-! ### Plans and their code -/

section Fits

variable {made : Text → Blob → Prop}

/-- A plan that is there is made from the code. -/
def Fits (made : Text → Blob → Prop) (code : Text) (plan : Option Blob) : Prop :=
  ∀ p, plan = some p → made code p

theorem fits_none (made : Text → Blob → Prop) (code : Text) : Fits made code none := fun p hp => by
  cases hp

theorem fits_some {code : Text} {p : Blob} : Fits made code (some p) ↔ made code p := by
  simp [Fits]

/-- Every stored plan is made from the code it stands next to. -/
structure PlansFit (made : Text → Blob → Prop) (s : Tables Blob) : Prop where
  graphs : ∀ id g, s.graphs.get id = some g → Fits made g.code g.executionPlan
  versions : ∀ id v r, s.versions.get (id, v) = some r → Fits made r.code r.executionPlan

/-- Every plan that can be loaded is made from the code of its version. -/
structure LoadsCurrent (made : Text → Blob → Prop) (s : Tables Blob) : Prop where
  current : ∀ id plan u, Storage.loadPlan id s = .ok plan u → ∃ g r,
    s.graphs.get id = some g ∧ s.versions.get (id, g.version) = some r ∧ made r.code plan
  version : ∀ id v plan u, Storage.loadPlanVersion id v s = .ok plan u → ∃ r,
    s.versions.get (id, v) = some r ∧ made r.code plan

theorem plansFit_empty (made : Text → Blob → Prop) : PlansFit made (Tables.empty : Tables Blob) :=
  ⟨fun _ _ hg => (by cases hg), fun _ _ _ hv => (by cases hv)⟩

theorem PlansFit.setGraph_iff (hf : PlansFit made s) (id : Text) (g : GraphRow Blob) :
    PlansFit made (s.setGraph id g) ↔ Fits made g.code g.executionPlan := by
  constructor
  · intro h'
    exact h'.graphs id g (by rw [Tables.get_setGraph, if_pos rfl])
  · intro hg
    refine ⟨fun id' g' hg' => ?_, hf.versions⟩
    rw [Tables.get_setGraph] at hg'
    split at hg'
    · cases hg'
      exact hg
    · exact hf.graphs id' g' hg'

theorem PlansFit.set_iff (hf : PlansFit made s) (id : Text) (v : Nat) (g : GraphRow Blob)
    (r : VersionRow Blob) : PlansFit made ((s.setGraph id g).setVersion id v r) ↔
      Fits made g.code g.executionPlan ∧ Fits made r.code r.executionPlan := by
  constructor
  · intro h'
    refine ⟨h'.graphs id g ?_, h'.versions id v r ?_⟩
    · rw [Tables.graphs_setVersion, Tables.get_setGraph, if_pos rfl]
    · rw [Tables.get_setVersion, if_pos rfl]
  · rintro ⟨hg, hv⟩
    refine ⟨((hf.setGraph_iff id g).2 hg).graphs, fun id' v' r' hr' => ?_⟩
    rw [Tables.get_setVersion, Tables.versions_setGraph] at hr'
    split at hr'
    · cases hr'
      exact hv
    · exact hf.versions id' v' r' hr'

/-- The row of the version in a header holds the header's code. -/
theorem Refines.version_row (hr : Refines s h) {id : Text} {g : GraphRow Blob}
    (hg : s.graphs.get id = some g) : ∃ r, s.versions.get (id, g.version) = some r ∧ r.code = g.code := by
  have hcode := hr.code_version hg
  rw [← hr.rows] at hcode
  exact Option.map_eq_some_iff.1 hcode

theorem Refines.loadsCurrent_iff (hr : Refines s h) : LoadsCurrent made s ↔ PlansFit made s := by
  constructor
  · intro hl
    refine ⟨fun id g hg plan hplan => ?_, fun id v r hv plan hplan => ?_⟩
    · have hload := loadPlan_eq hg
      rw [hplan] at hload
      obtain ⟨g', r, hg', hrow, hmade⟩ := hl.current id plan s hload
      obtain ⟨r', hrow', hcode⟩ := hr.version_row hg
      rw [hg] at hg'
      cases hg'
      rw [hrow] at hrow'
      cases hrow'
      rwa [hcode] at hmade
    · have hload := loadPlanVersion_eq hv
      rw [hplan] at hload
      obtain ⟨r', hv', hmade⟩ := hl.version id v plan s hload
      rw [hv] at hv'
      cases hv'
      exact hmade
  · intro hf
    refine ⟨fun id plan u hload => ?_, fun id v plan u hload => ?_⟩
    · cases hg : s.graphs.get id with
      | none => simp [Storage.loadPlan, hg] at hload
      | some g =>
        rw [loadPlan_eq hg] at hload
        obtain ⟨r, hrow, hcode⟩ := hr.version_row hg
        split at hload
        case h_1 plan' hplan =>
          cases hload
          exact ⟨g, r, rfl, hrow, hcode ▸ hf.graphs id g hg plan hplan⟩
        case h_2 => cases hload
    · cases hv : s.versions.get (id, v) with
      | none => simp [Storage.loadPlanVersion, hv] at hload
      | some r =>
        rw [loadPlanVersion_eq hv] at hload
        split at hload
        case h_1 plan' hplan =>
          cases hload
          exact ⟨r, rfl, hf.versions id v r hv plan hplan⟩
        case h_2 => cases hload

/-! ### Sound operations -/

/-- No plan gets next to a code that it is not made from. -/
def StorageOp.Sound (made : Text → Blob → Prop) (s : Tables Blob) : StorageOp Blob → Prop
  | createGraph _ _ _ _ | createForkGraph _ _ _ _ _ _ _ | deploy _ _ => True
  | updateGraph _ id code => ∀ g, s.graphs.get id = some g → Fits made code g.executionPlan
  | rollback _ id version => ∀ g old, s.graphs.get id = some g →
    s.versions.get (id, version) = some old → old.executionPlan = none →
      Fits made old.code g.executionPlan
  | savePlan _ id version plan => (∀ g, s.graphs.get id = some g → made g.code plan) ∧
    ∀ r, s.versions.get (id, version) = some r → made r.code plan

theorem StorageOp.plansFit_step_iff (hr : Refines s h) (hf : PlansFit made s) (op : StorageOp Blob) :
    PlansFit made (op.step s) ↔ op.Sound made s := by
  cases op with
  | createGraph id now name code =>
    rw [StorageOp.step, StorageOp.run, finalState_discard]
    by_cases hnil : h id = []
    · rw [Storage.createGraph_ok (hr.graph_eq_none.2 hnil) (hr.first_free hnil) now name code]
      refine (hf.set_iff ..).trans (iff_of_true ⟨?_, ?_⟩ trivial)
      · exact fits_none made code
      · exact fits_none made code
    · obtain ⟨g, hg⟩ := hr.exists_graph hnil
      rw [Storage.createGraph_error hg now name code]
      exact iff_of_true hf trivial
  | createForkGraph id now name code parentId forkNode forkLabel =>
    rw [StorageOp.step, StorageOp.run, finalState_discard]
    by_cases hnil : h id = []
    · rw [Storage.createForkGraph_ok (hr.graph_eq_none.2 hnil) (hr.first_free hnil) now name code]
      refine (hf.set_iff ..).trans (iff_of_true ⟨?_, ?_⟩ trivial)
      · exact fits_none made code
      · exact fits_none made code
    · obtain ⟨g, hg⟩ := hr.exists_graph hnil
      rw [Storage.createForkGraph_error hg now name code]
      exact iff_of_true hf trivial
  | updateGraph now id code =>
    rw [StorageOp.step, StorageOp.run, finalState_discard, StorageOp.Sound]
    cases hg : s.graphs.get id with
    | none =>
      rw [Storage.updateGraph_error hg now code]
      exact iff_of_true hf fun g hg' => by cases hg'
    | some g =>
      rw [Storage.updateGraph_ok hg (hr.update_free hg) now code]
      refine (hf.set_iff ..).trans ?_
      simp [fits_none]
  | rollback now id version =>
    rw [StorageOp.step, StorageOp.run, StorageOp.Sound]
    cases hold : s.versions.get (id, version) with
    | none =>
      rw [Storage.rollback_error hold now]
      exact iff_of_true hf fun g old _ hold' => by cases hold'
    | some old =>
      obtain ⟨g, hg⟩ := hr.exists_graph (hr.ne_nil hold)
      rw [Storage.rollback_ok hg hold now]
      refine (hf.set_iff ..).trans ?_
      have hfit := hf.versions id version old hold
      simp only [hg, Storage.rolledBack]
      cases hplan : old.executionPlan with
      | none => simp [fits_none, hplan]
      | some plan =>
        rw [hplan] at hfit
        simp [hfit, hplan]
  | deploy id version =>
    rw [StorageOp.step, StorageOp.run]
    cases hv : s.versions.get (id, version) with
    | none =>
      rw [Storage.deploy_error hv]
      exact iff_of_true hf trivial
    | some r =>
      obtain ⟨g, hg⟩ := hr.exists_graph (hr.ne_nil hv)
      rw [Storage.deploy_ok hg hv]
      exact (hf.setGraph_iff ..).trans (iff_of_true (hf.graphs id g hg) trivial)
  | savePlan now id version plan =>
    rw [StorageOp.step, StorageOp.run, StorageOp.Sound]
    cases hg : s.graphs.get id with
    | none =>
      have hv : s.versions.get (id, version) = none := hr.version_eq_none hg version
      rw [Storage.savePlan_none hg hv, hv]
      exact iff_of_true hf ⟨fun g hg' => (by cases hg'), fun r hr' => by cases hr'⟩
    | some g =>
      cases hv : s.versions.get (id, version) with
      | none =>
        rw [Storage.savePlan_header hg hv]
        refine (hf.setGraph_iff ..).trans ?_
        simp [fits_some]
      | some r =>
        rw [Storage.savePlan_ok hg hv]
        refine (hf.set_iff ..).trans ?_
        simp [fits_some]

end Fits

/-! ### Runs -/

/-- As `StorageOp.Sound`; a version that has no plan is healed only where its code gives the
plan of the current code. -/
def PlanOp.Sound (t : Toolchain Blob) (s : Tables Blob) : PlanOp Blob → Prop
  | .storage op => op.Sound t.Made s
  | .selfHeal _ _ _ => True
  | .selfHealVersion _ time id version => ∀ r g plan, s.versions.get (id, version) = some r →
    r.executionPlan = none → t.build time r.code = .ok plan → s.graphs.get id = some g →
      t.Made g.code plan

theorem toOption_eq_some {ε α : Type} {x : Except ε α} {a : α} :
    x.toOption = some a ↔ x = .ok a := by
  cases x with
  | error e => simp [Except.toOption]
  | ok b => simp [Except.toOption]

theorem PlanOp.effect_selfHeal {now id : Text} {time : Nat} {o : StorageOp Blob} :
    (selfHeal now time id).effect t s = some o ↔ ∃ g plan, s.graphs.get id = some g ∧
      g.executionPlan = none ∧ t.build time g.code = .ok plan ∧ .savePlan now id g.version plan = o := by
  rw [effect, Option.bind_eq_bind, Option.bind_eq_some_iff]
  refine exists_congr fun g => ?_
  cases hplan : g.executionPlan with
  | some plan => simp
  | none => simp [toOption_eq_some]

theorem PlanOp.effect_selfHealVersion {now id : Text} {time version : Nat} {o : StorageOp Blob} :
    (selfHealVersion now time id version).effect t s = some o ↔ ∃ r plan,
      s.versions.get (id, version) = some r ∧ r.executionPlan = none ∧
        t.build time r.code = .ok plan ∧ .savePlan now id version plan = o := by
  rw [effect, Option.bind_eq_bind, Option.bind_eq_some_iff]
  refine exists_congr fun r => ?_
  cases hplan : r.executionPlan with
  | some plan => simp
  | none => simp [toOption_eq_some]

/-- An operation is sound when what it does to the storage is. -/
theorem PlanOp.sound_iff (hr : Refines s h) (op : PlanOp Blob) :
    op.Sound t s ↔ ∀ o, op.effect t s = some o → o.Sound t.Made s := by
  cases op with
  | storage op => simp [Sound, effect]
  | selfHeal now time id =>
    refine iff_of_true trivial fun o ho => ?_
    obtain ⟨g, plan, hg, -, hbuild, rfl⟩ := effect_selfHeal.1 ho
    refine ⟨fun g' hg' => ?_, fun r hv => ?_⟩
    · rw [hg] at hg'
      cases hg'
      exact ⟨time, hbuild⟩
    · obtain ⟨r', hv', hcode⟩ := hr.version_row hg
      rw [hv] at hv'
      cases hv'
      exact ⟨time, hcode ▸ hbuild⟩
  | selfHealVersion now time id version =>
    constructor
    · intro hs o ho
      obtain ⟨r, plan, hv, hplan, hbuild, rfl⟩ := effect_selfHealVersion.1 ho
      refine ⟨fun g hg => hs r g plan hv hplan hbuild hg, fun r' hv' => ?_⟩
      rw [hv] at hv'
      cases hv'
      exact ⟨time, hbuild⟩
    · intro hs r g plan hv hplan hbuild hg
      exact (hs _ (effect_selfHealVersion.2 ⟨r, plan, hv, hplan, hbuild, rfl⟩)).1 g hg

theorem PlanOp.plansFit_step_iff (hr : Refines s h) (hf : PlansFit t.Made s) (op : PlanOp Blob) :
    PlansFit t.Made (op.step t s) ↔ op.Sound t s := by
  rw [op.step_eq, op.sound_iff hr]
  cases op.effect t s with
  | none => exact iff_of_true hf fun o ho => by cases ho
  | some o => simpa using o.plansFit_step_iff hr hf

theorem Refines.planStep (hr : Refines s h) (t : Toolchain Blob) (op : PlanOp Blob) :
    ∃ h', Refines (op.step t s) h' := by
  rw [op.step_eq]
  cases op.effect t s with
  | none => exact ⟨h, hr⟩
  | some o => exact ⟨o.record h, hr.step o⟩

theorem Refines.planRun (hr : Refines s h) (t : Toolchain Blob) (ops : List (PlanOp Blob)) :
    ∃ h', Refines (ops.foldl (PlanOp.step t) s) h' := by
  induction ops generalizing s h with
  | nil => exact ⟨h, hr⟩
  | cons op ops ih =>
    obtain ⟨h', hr'⟩ := hr.planStep t op
    exact ih hr'

def SoundAll (t : Toolchain Blob) : Tables Blob → List (PlanOp Blob) → Prop
  | _, [] => True
  | s, op :: ops => op.Sound t s ∧ SoundAll t (op.step t s) ops

theorem plansFit_run_iff (hr : Refines s h) (hf : PlansFit t.Made s) (ops : List (PlanOp Blob)) :
    (∀ before, before <+: ops → PlansFit t.Made (before.foldl (PlanOp.step t) s)) ↔
      SoundAll t s ops := by
  induction ops generalizing s h with
  | nil =>
    refine iff_of_true (fun before hb => ?_) trivial
    rw [List.prefix_nil.1 hb]
    exact hf
  | cons op ops ih =>
    obtain ⟨h', hr'⟩ := hr.planStep t op
    constructor
    · intro hall
      have hstep : PlansFit t.Made (op.step t s) :=
        hall [op] (List.cons_prefix_cons.2 ⟨rfl, List.nil_prefix⟩)
      refine ⟨(op.plansFit_step_iff hr hf).1 hstep, (ih hr' hstep).1 fun before hb => ?_⟩
      exact hall (op :: before) (List.cons_prefix_cons.2 ⟨rfl, hb⟩)
    · rintro ⟨hs, hrest⟩ before hb
      have hstep := (op.plansFit_step_iff hr hf).2 hs
      rcases List.prefix_cons_iff.1 hb with rfl | ⟨before', rfl, hb'⟩
      · exact hf
      · exact (ih hr' hstep).2 hrest before' hb'

/-- Every plan that can be loaded is made from the code of its version, at every point of a run,
exactly when every step is sound. -/
theorem plans_current_iff (t : Toolchain Blob) (ops : List (PlanOp Blob)) :
    (∀ before, before <+: ops →
      LoadsCurrent t.Made (before.foldl (PlanOp.step t) Tables.empty)) ↔
      SoundAll t Tables.empty ops := by
  rw [← plansFit_run_iff refines_empty (plansFit_empty t.Made)]
  refine forall_congr' fun before => imp_congr_right fun _ => ?_
  obtain ⟨h, hr⟩ := refines_empty.planRun t before
  exact hr.loadsCurrent_iff

/-! ### A plan that stays behind -/

theorem compile_nodes {time : Nat} {m : Ast.Module} {o : CodegenOutput} (ho : compile time m = .ok o)
    (time' : Nat) : ∃ o', compile time' m = .ok o' ∧ o'.compiled.nodes = o.compiled.nodes := by
  unfold compile at ho ⊢
  cases hp : transform m with
  | error errors => simp [hp] at ho
  | ok p =>
    cases hv : validate p with
    | error errors => simp [hp, hv] at ho
    | ok u =>
      simp only [hp, hv, codegen, codegenWithSchemaHashes] at ho ⊢
      cases horder : (Optimize.optimizeAll p).1.topologicalOrder with
      | error e => simp [horder, Except.mapError] at ho
      | ok order =>
        simp only [horder, Except.mapError, Except.ok.injEq] at ho ⊢
        subst ho
        exact ⟨_, rfl, rfl⟩

/-- The nodes of a plan do not depend on the time of the compilation. -/
theorem Toolchain.build_nodes {t : Toolchain Fb.ExecutionPlan} (ht : t.fb = FlatBuffers.tables)
    {time : Nat} {code : Text} {plan : Fb.ExecutionPlan} (hb : t.build time code = .ok plan)
    (time' : Nat) : ∃ plan', t.build time' code = .ok plan' ∧ plan'.nodes = plan.nodes := by
  rw [build] at hb ⊢
  cases hm : t.parse code with
  | error message => simp [hm] at hb
  | ok m =>
    cases ho : compile time m with
    | error e => simp [hm, ho] at hb
    | ok o =>
      obtain ⟨o', ho', hnodes⟩ := compile_nodes ho time'
      simp only [hm, ho, Except.ok.injEq] at hb
      subst hb
      refine ⟨o'.compiled.toFbBytes t.fb, by simp only [ho'], ?_⟩
      rw [ht]
      exact congrArg (fun nodes => some (nodes.map CompiledNode.toFb)) hnodes

end Plans

/-- Two programs: one returns a constant, the other what a tool has returned. -/
def shortAndLong : Toolchain Fb.ExecutionPlan where
  parse := fun code =>
    if code = ("short" : Text) then .ok (Build.graph [] [Build.ret (Build.int 1)])
    else .ok (Build.graph [] [Build.assign "x" (Build.call "t" []), Build.ret (Build.name "x")])
  fb := FlatBuffers.tables

/-- The current plan is that of version 1 when the current version is 2. -/
theorem stale_plan : ¬LoadsCurrent shortAndLong.Made
    (([.storage (.createGraph "a" "0" "g" "short"), .selfHeal "1" 0 "a",
      .storage (.updateGraph "2" "a" "long")] : List (PlanOp Fb.ExecutionPlan)).foldl
        (PlanOp.step shortAndLong) Tables.empty) := by
  generalize hs : List.foldl (PlanOp.step shortAndLong) Tables.empty _ = s
  intro hl
  have hrows : (s.graphs.get "a").map (fun g => (g.version, g.executionPlan.map fun p =>
      p.nodes.map List.length)) = some (2, some (some 2)) ∧
      (s.versions.get ("a", 2)).map VersionRow.code = some ("long" : Text) := by
    subst hs
    decide +kernel
  obtain ⟨g, hg, hrow⟩ := Option.map_eq_some_iff.1 hrows.1
  obtain ⟨hversion, hnodes⟩ := Prod.mk.inj hrow
  obtain ⟨plan, hplan, hlength⟩ := Option.map_eq_some_iff.1 hnodes
  have hload := loadPlan_eq hg
  rw [hplan] at hload
  obtain ⟨g', r, hg', hv, time, hbuild⟩ := hl.current "a" plan s hload
  rw [hg] at hg'
  cases hg'
  rw [hversion] at hv
  rw [hv, Option.map_some, Option.some.injEq] at hrows
  rw [hrows.2] at hbuild
  -- a plan of the longer program has four nodes
  obtain ⟨plan', hbuild', hnodes'⟩ := Toolchain.build_nodes rfl hbuild 0
  have hfour : (shortAndLong.build 0 "long").toOption.map (fun p => p.nodes.map List.length) =
      some (some 4) := by
    decide +kernel
  rw [hbuild', Except.toOption, Option.map_some, hnodes', hlength] at hfour
  cases hfour

/-- The first plan of a graph is made when it is loaded, that of another one after an update. -/
theorem plans_current_healed :
    let ops : List (PlanOp Fb.ExecutionPlan) := [.storage (.createGraph "a" "0" "g" "short"),
      .selfHeal "1" 0 "a", .storage (.createGraph "b" "2" "h" "short"),
      .storage (.updateGraph "3" "b" "long"), .selfHeal "4" 0 "b", .storage (.deploy "b" 1)]
    LoadsCurrent shortAndLong.Made (ops.foldl (PlanOp.step shortAndLong) Tables.empty) := by
  intro ops
  have hsound : SoundAll shortAndLong Tables.empty ops := by
    refine ⟨trivial, trivial, trivial, fun g hg => ?_, trivial, trivial, trivial⟩
    have hnone : ((ops.take 3).foldl (PlanOp.step shortAndLong) Tables.empty |>.graphs.get "b").map
        (fun g => g.executionPlan.isNone) = some true := by
      decide +kernel
    have hg' : (((ops.take 3).foldl (PlanOp.step shortAndLong) Tables.empty).graphs.get "b") = some g := hg
    rw [hg', Option.map_some, Option.some.injEq, Option.isNone_iff_eq_none] at hnone
    rw [hnone]
    exact fits_none _ _
  exact (plans_current_iff shortAndLong ops).2 hsound ops (List.prefix_refl ops)

end Tinypipe
