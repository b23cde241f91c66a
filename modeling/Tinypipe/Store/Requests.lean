import Tinypipe.Lib.Rely
import Tinypipe.Store.Sql

/-! Requests that update a graph and roll it back at the same time. Each is the statements of its
storage calls, and the statements of several requests interleave. -/

namespace Tinypipe

open Lib

inductive GraphRequest (Blob : Type) where
  /-- `update_graph` of the server: the code and its plan, which has been compiled before. -/
  | update (now code : Text) (plan : Blob)
  /-- `rollback_graph` of the server. -/
  | rollback (now : Text) (version : Nat)

def GraphRequest.script {Blob : Type} (id : Text) : GraphRequest Blob → SqlM Blob Unit
  | update now code plan => do
    let version ← Sql.updateGraph now id code
    Sql.savePlan now id version plan
  | rollback now version => do
    let _ ← Sql.loadPlanVersion id version
    Sql.rollback now id version

/-- The row holds what the request stands for. -/
def GraphRequest.Holds {Blob : Type} (id : Text) (u : Tables Blob) (v : Nat) : GraphRequest Blob → Prop
  | update _ code plan => ∃ row, u.versions.get (id, v) = some row ∧ row.code = code ∧
      row.executionPlan = some plan
  | rollback _ version => ∃ row old plan, u.versions.get (id, v) = some row ∧
      u.versions.get (id, version) = some old ∧ row.code = old.code ∧
      old.executionPlan = some plan ∧ row.executionPlan = some plan

/-- The header of a graph is that of its highest version. -/
def Settled {Blob : Type} (id : Text) (u : Tables Blob) : Prop :=
  ∃ g row, u.graphs.get id = some g ∧ u.versions.get (id, g.version) = some row ∧
    row.code = g.code ∧ row.executionPlan = g.executionPlan ∧
    ∀ v, (u.versions.get (id, v)).isSome → v ≤ g.version

/-- Tables, and history variables: the last version number that a request has read, the request
that has written a version into the header, and the requests that have written their plan
into it. -/
structure Ledger (Blob : Type) where
  tables : Tables Blob
  seen : Nat → Nat
  owner : Nat → Option Nat
  planned : Nat → Bool

namespace Ledger

variable {Blob : Type}

def start (u : Tables Blob) : Ledger Blob := ⟨u, fun _ => 0, fun _ => none, fun _ => false⟩

def version (id : Text) (u : Tables Blob) : Nat := ((u.graphs.get id).map GraphRow.version).getD 0

/-- A statement of request `i` has left the tables `u`. -/
def record (id : Text) (i : Nat) (label : SqlStatement) (u : Tables Blob) (t : Ledger Blob) : Ledger Blob :=
  match label with
  | .updateSelect => { t with tables := u, seen := Function.update t.seen i (version id u) }
  | .rollbackMax => { t with tables := u, seen := Function.update t.seen i (u.maxVersion id) }
  | .updateGraph | .rollbackUpdate =>
    { t with tables := u, owner := Function.update t.owner (version id u) (some i) }
  | .savePlanGraph | .rollbackPlan => { t with tables := u, planned := Function.update t.planned i true }
  | _ => { t with tables := u }

end Ledger

/-- Requests at work on one graph. -/
def working {Blob : Type} (id : Text) (u : Tables Blob) (requests : Nat → Option (GraphRequest Blob)) :
    Threads SqlStatement StorageError (Ledger Blob) Unit where
  shared := .start u
  programs i := match requests i with
    | some r => (r.script id).zoom Ledger.tables (Ledger.record id i)
    | none => .throw (.graphNotFound id)

/-- Every request that has succeeded has a version of its own, which holds its code and its plan, and
when all have ended the header is that of the highest version. -/
def NoLostUpdate {Blob : Type} (id : Text) (requests : Nat → Option (GraphRequest Blob))
    (t : Threads SqlStatement StorageError (Ledger Blob) Unit) : Prop :=
  (∃ version : Nat → Nat,
    (∀ i r, requests i = some r → t.programs i = .done (.ok ()) → r.Holds id t.shared.tables (version i)) ∧
    ∀ i j, t.programs i = .done (.ok ()) → t.programs j = .done (.ok ()) → version i = version j → i = j) ∧
  ((∀ i, ∃ r, t.programs i = .done r) → Settled id t.shared.tables)

/-- A new version takes the place of the one that has been read; a plan goes into the header while
its version is the request's own, or another's who has still to write its plan. Nothing fails
between the new version in the header and its row and plan. -/
def SqlStatement.Allowed {Blob : Type} (id : Text) (i : Nat) (label : SqlStatement) (fault : Option Text)
    (t : Ledger Blob) : Prop :=
  match label, fault with
  | .updateGraph, none | .rollbackUpdate, none => t.seen i = Ledger.version id t.tables
  | .savePlanGraph, none | .rollbackPlan, none =>
    ∃ j, t.owner (Ledger.version id t.tables) = some j ∧ (j = i ∨ t.planned j = false)
  | .rollbackMax, some _ | .updateGraphVersion, some _ | .rollbackVersion, some _ | .savePlanGraph, some _
  | .savePlanVersion, some _ | .rollbackPlan, some _ => False
  | _, _ => True

instance decidableOwner {owner : Option Nat} {p : Nat → Prop} [DecidablePred p] :
    Decidable (∃ j, owner = some j ∧ p j) :=
  inferInstanceAs (Decidable (∃ j ∈ owner, p j))

instance decidableAdmitted {Blob : Type} (id : Text) (i : Nat) (label : SqlStatement) (fault : Option Text)
    (t : Ledger Blob) : Decidable (label.Allowed id i fault t) :=
  match fault with
  | none => by cases label <;> (dsimp only [SqlStatement.Allowed]; infer_instance)
  | some _ => by cases label <;> (dsimp only [SqlStatement.Allowed]; infer_instance)

section Contracts

variable {Blob : Type} {id : Text} {requests : Nat → Option (GraphRequest Blob)} {t t' : Ledger Blob}

/-- What request `j` puts into the store. -/
def Content (id : Text) (requests : Nat → Option (GraphRequest Blob)) (t : Ledger Blob) (j : Nat)
    (code : Text) (plan : Blob) : Prop :=
  match requests j with
  | some (.update _ code' plan') => code' = code ∧ plan' = plan
  | some (.rollback _ version) => ∃ old, t.tables.versions.get (id, version) = some old ∧
      old.code = code ∧ old.executionPlan = some plan
  | none => False

/-- The header, next to the rows. -/
structure HeaderInv (id : Text) (requests : Nat → Option (GraphRequest Blob)) (t : Ledger Blob)
    (g : GraphRow Blob) : Prop where
  rows : ∀ v, (t.tables.versions.get (id, v)).isSome → v ≤ g.version
  owned : ∀ v i, t.owner v = some i → v ≤ g.version
  once : ∀ v w i, t.owner v = some i → t.owner w = some i → v = w
  current : (t.owner g.version = none ∧ ∃ row, t.tables.versions.get (id, g.version) = some row ∧
      row.code = g.code ∧ row.executionPlan = g.executionPlan) ∨
    ∃ j plan, t.owner g.version = some j ∧ Content id requests t j g.code plan ∧
      (t.planned j = true → g.executionPlan = some plan)

def LedgerInv (id : Text) (requests : Nat → Option (GraphRequest Blob)) (t : Ledger Blob) : Prop :=
  ∃ g, t.tables.graphs.get id = some g ∧ HeaderInv id requests t g

/-- Rows keep their codes, and their plans once they have one. -/
def RowsKept (id : Text) (t t' : Ledger Blob) : Prop :=
  ∀ v row, t.tables.versions.get (id, v) = some row → ∃ row', t'.tables.versions.get (id, v) = some row' ∧
    row'.code = row.code ∧ ∀ plan, row.executionPlan = some plan → row'.executionPlan = some plan

/-- What request `i` has done is not touched. -/
structure Untouched (id : Text) (i : Nat) (t t' : Ledger Blob) : Prop where
  kept : RowsKept id t t'
  owner : ∀ v, t'.owner v = some i ↔ t.owner v = some i
  rows : ∀ v, t.owner v = some i → t'.tables.versions.get (id, v) = t.tables.versions.get (id, v)
  seen : t'.seen i = t.seen i
  planned : t'.planned i = t.planned i

theorem RowsKept.refl (t : Ledger Blob) : RowsKept id t t := fun _ row h => ⟨row, h, rfl, fun _ hp => hp⟩

theorem RowsKept.trans {t'' : Ledger Blob} (h : RowsKept id t t') (h' : RowsKept id t' t'') :
    RowsKept id t t'' := by
  intro v row hrow
  obtain ⟨row', hrow', hcode, hplan⟩ := h v row hrow
  obtain ⟨row'', hrow'', hcode', hplan'⟩ := h' v row' hrow'
  exact ⟨row'', hrow'', hcode'.trans hcode, fun plan hp => hplan' plan (hplan plan hp)⟩

theorem Untouched.trans {i : Nat} {t'' : Ledger Blob} (h : Untouched id i t t') (h' : Untouched id i t' t'') :
    Untouched id i t t'' where
  kept := h.kept.trans h'.kept
  owner v := (h'.owner v).trans (h.owner v)
  rows v hv := (h'.rows v ((h.owner v).2 hv)).trans (h.rows v hv)
  seen := h'.seen.trans h.seen
  planned := h'.planned.trans h.planned

/-- A request leaves alone what the others have done. -/
def requestContract (id : Text) (requests : Nat → Option (GraphRequest Blob)) (i : Nat) :
    Contract SqlStatement (Ledger Blob) where
  inv := LedgerInv id requests
  rely := Untouched id i
  guar t t' := ∀ j, j ≠ i → Untouched id j t t'
  allowed := SqlStatement.Allowed id i
  refl t := ⟨RowsKept.refl t, fun _ => Iff.rfl, fun _ _ => rfl, rfl, rfl⟩
  trans _ _ _ h h' := h.trans h'

theorem requestContract_compatible (id : Text) (requests : Nat → Option (GraphRequest Blob)) :
    Threads.Compatible (requestContract id requests) :=
  ⟨fun _ _ _ h => h, fun _ _ hne _ _ _ h => h _ (Ne.symm hne)⟩

theorem Content.kept {j : Nat} {code : Text} {plan : Blob} (h : Content id requests t j code plan)
    (hk : RowsKept id t t') : Content id requests t' j code plan := by
  unfold Content at h ⊢
  split at h
  case h_1 => exact h
  case h_2 =>
    obtain ⟨old, hold, hcode, hplan⟩ := h
    obtain ⟨old', hold', hcode', hplan'⟩ := hk _ old hold
    exact ⟨old', hold', hcode'.trans hcode, hplan' _ hplan⟩
  case h_3 => exact h

/-! ### What one statement does -/

section Statements

variable {i : Nat} {g : GraphRow Blob}

/-- The header has changed, the versions have not. -/
theorem rowsKept_of_versions (h : t'.tables.versions = t.tables.versions) : RowsKept id t t' :=
  fun _ row hrow => ⟨row, by rw [h]; exact hrow, rfl, fun _ hp => hp⟩

theorem version_of_get {u : Tables Blob} (hg : u.graphs.get id = some g) : Ledger.version id u = g.version := by
  rw [Ledger.version, hg, Option.map_some, Option.getD_some]

/-- A request takes the next version for the header. -/
theorem claim_inv (h : HeaderInv id requests t g) (hnone : ∀ v, t.owner v ≠ some i)
    (hplanned : t.planned i = false) {code : Text} {plan : Blob} (hc : Content id requests t i code plan)
    {g' : GraphRow Blob} (hversion : g'.version = g.version + 1) (hcode : g'.code = code)
    (ht : t' = { t with
      tables := t.tables.setGraph id g', owner := Function.update t.owner (g.version + 1) (some i) }) :
    LedgerInv id requests t' ∧ ∀ j, j ≠ i → Untouched id j t t' := by
  subst ht
  have hkept : RowsKept id t { t with
      tables := t.tables.setGraph id g', owner := Function.update t.owner (g.version + 1) (some i) } :=
    rowsKept_of_versions rfl
  have hfree : t.owner (g.version + 1) = none := by
    cases ho : t.owner (g.version + 1) with
    | none => rfl
    | some j => exact absurd (h.owned _ j ho) (by omega)
  have howner : ∀ v j, Function.update t.owner (g.version + 1) (some i) v = some j →
      (v = g.version + 1 ∧ j = i) ∨ t.owner v = some j := by
    intro v j hv
    rw [Function.update_apply] at hv
    split at hv
    case isTrue heq => exact Or.inl ⟨heq, (Option.some.inj hv).symm⟩
    case isFalse => exact Or.inr hv
  refine ⟨⟨g', by rw [Tables.get_setGraph, if_pos rfl], ?_, ?_, ?_, ?_⟩, fun j hj => ?_⟩
  · intro v hv
    have := h.rows v hv
    omega
  · intro v j hv
    rcases howner v j hv with ⟨rfl, -⟩ | hv
    · omega
    · have := h.owned v j hv
      omega
  · intro v w j hv hw
    rcases howner v j hv with ⟨rfl, rfl⟩ | hv
    · rcases howner w j hw with ⟨rfl, -⟩ | hw
      · rfl
      · exact absurd hw (hnone w)
    · rcases howner w j hw with ⟨-, rfl⟩ | hw
      · exact (hnone v ‹t.owner v = some j›).elim
      · exact h.once v w j hv hw
  · refine Or.inr ⟨i, plan, ?_, ?_, fun hp => ?_⟩
    · rw [hversion]
      exact Function.update_self ..
    · rw [hcode]
      exact hc.kept hkept
    · dsimp only at hp
      rw [hplanned] at hp
      cases hp
  · refine ⟨hkept, fun v => ?_, fun _ _ => rfl, rfl, rfl⟩
    dsimp only
    by_cases hv : v = g.version + 1
    · rw [hv, Function.update_self, hfree]
      exact iff_of_false (fun heq => hj (Option.some.inj heq).symm) (by simp)
    · rw [Function.update_of_ne hv]

theorem get_setVersion_self (u : Tables Blob) (id : Text) (v w : Nat) (row : VersionRow Blob) :
    (u.setVersion id v row).versions.get (id, w) = if v = w then some row else u.versions.get (id, w) := by
  rw [Tables.get_setVersion]
  by_cases hw : v = w
  · rw [if_pos (by rw [hw]), if_pos hw]
  · rw [if_neg fun heq => hw (Prod.mk.inj heq).2, if_neg hw]

/-- A row is new, or gets its plan. -/
theorem rowsKept_setVersion {v : Nat} (row : VersionRow Blob)
    (hold : ∀ old, t.tables.versions.get (id, v) = some old → row.code = old.code ∧ old.executionPlan = none) :
    RowsKept id t { t with tables := t.tables.setVersion id v row } := by
  intro w old hw
  dsimp only
  rw [get_setVersion_self]
  split
  case isTrue heq =>
    subst heq
    obtain ⟨hcode, hplan⟩ := hold old hw
    exact ⟨row, rfl, hcode, fun plan hp => by rw [hplan] at hp; cases hp⟩
  case isFalse => exact ⟨old, hw, rfl, fun _ hp => hp⟩

/-- A request writes the row of its version. -/
theorem row_inv (h : HeaderInv id requests t g) (hg : t.tables.graphs.get id = some g) {v : Nat}
    (hv : t.owner v = some i) (row : VersionRow Blob)
    (hold : ∀ old, t.tables.versions.get (id, v) = some old → row.code = old.code ∧ old.executionPlan = none)
    (ht : t' = { t with tables := t.tables.setVersion id v row }) :
    LedgerInv id requests t' ∧ ∀ j, j ≠ i → Untouched id j t t' := by
  subst ht
  have hkept := rowsKept_setVersion row hold
  refine ⟨⟨g, hg, ?_, h.owned, h.once, ?_⟩, fun j hj => ⟨hkept, fun _ => Iff.rfl, fun w hw => ?_, rfl, rfl⟩⟩
  · intro w hw
    dsimp only at hw
    rw [get_setVersion_self] at hw
    split at hw
    case isTrue heq => exact heq ▸ h.owned v i hv
    case isFalse => exact h.rows w hw
  · rcases h.current with ⟨hnone, old, hrow, hcode, hplan⟩ | ⟨j, plan, hj, hc, hp⟩
    · refine Or.inl ⟨hnone, old, ?_, hcode, hplan⟩
      dsimp only
      rw [get_setVersion_self, if_neg]
      · exact hrow
      · rintro rfl
        rw [hv] at hnone
        cases hnone
    · exact Or.inr ⟨j, plan, hj, hc.kept hkept, hp⟩
  · dsimp only
    rw [get_setVersion_self, if_neg]
    rintro rfl
    rw [hv] at hw
    exact hj (Option.some.inj hw).symm

/-- A request writes its plan into the header. -/
theorem plan_inv (h : HeaderInv id requests t g) {plan : Blob} (hc : ∀ code plan', Content id requests t i code plan' →
      plan' = plan) {j : Nat} (hj : t.owner g.version = some j) (hturn : j = i ∨ t.planned j = false)
    {g' : GraphRow Blob} (hversion : g'.version = g.version) (hcode : g'.code = g.code)
    (hplan : g'.executionPlan = some plan)
    (ht : t' = { t with tables := t.tables.setGraph id g', planned := Function.update t.planned i true }) :
    LedgerInv id requests t' ∧ ∀ j, j ≠ i → Untouched id j t t' := by
  subst ht
  have hkept : RowsKept id t { t with
      tables := t.tables.setGraph id g', planned := Function.update t.planned i true } :=
    rowsKept_of_versions rfl
  refine ⟨⟨g', by rw [Tables.get_setGraph, if_pos rfl], ?_, ?_, h.once, ?_⟩, fun k hk =>
    ⟨hkept, fun _ => Iff.rfl, fun _ _ => rfl, rfl, Function.update_of_ne hk ..⟩⟩
  · rw [hversion]
    exact h.rows
  · rw [hversion]
    exact h.owned
  · rcases h.current with ⟨hnone, -⟩ | ⟨k, plan', hk, hck, hp⟩
    · rw [hnone] at hj
      cases hj
    · rw [hj] at hk
      cases hk
      refine Or.inr ⟨j, plan', by rw [hversion]; exact hj, by rw [hcode]; exact hck.kept hkept, fun hplanned => ?_⟩
      by_cases hi : j = i
      · subst hi
        rw [hplan, hc _ _ hck]
      · dsimp only at hplanned
        rw [Function.update_of_ne hi, hturn.resolve_left hi] at hplanned
        cases hplanned

/-- Something else in the header changes. -/
theorem header_inv (h : HeaderInv id requests t g) {g' : GraphRow Blob} (hversion : g'.version = g.version)
    (hcode : g'.code = g.code) (hplan : g'.executionPlan = g.executionPlan)
    (ht : t' = { t with tables := t.tables.setGraph id g' }) :
    LedgerInv id requests t' ∧ ∀ j, j ≠ i → Untouched id j t t' := by
  subst ht
  have hkept : RowsKept id t { t with tables := t.tables.setGraph id g' } := rowsKept_of_versions rfl
  refine ⟨⟨g', by rw [Tables.get_setGraph, if_pos rfl], ?_, ?_, h.once, ?_⟩, fun j _ =>
    ⟨hkept, fun _ => Iff.rfl, fun _ _ => rfl, rfl, rfl⟩⟩
  · rw [hversion]
    exact h.rows
  · rw [hversion]
    exact h.owned
  · rw [hversion, hcode, hplan]
    exact h.current.imp_right fun ⟨j, plan, hj, hc, hp⟩ => ⟨j, plan, hj, hc.kept hkept, hp⟩

/-- A request reads. -/
structure SameStore (i : Nat) (t t' : Ledger Blob) : Prop where
  tables : t'.tables = t.tables
  owner : t'.owner = t.owner
  planned : t'.planned = t.planned
  seen : ∀ j, j ≠ i → t'.seen j = t.seen j

theorem read_inv (h : LedgerInv id requests t) (hsame : SameStore i t t') :
    LedgerInv id requests t' ∧ ∀ j, j ≠ i → Untouched id j t t' := by
  obtain ⟨tables, seen, owner, planned⟩ := t'
  obtain ⟨rfl, rfl, rfl, hseen⟩ := hsame
  obtain ⟨g, hg, hrows, howned, honce, hcurrent⟩ := h
  exact ⟨⟨g, hg, hrows, howned, honce, hcurrent⟩, fun j hj => ⟨RowsKept.refl t, fun _ => Iff.rfl, fun _ _ => rfl, hseen j hj, rfl⟩⟩

end Statements

/-! ### Requests -/

section Scripts

variable {i : Nat}

/-- The versions of request `i` have their rows and their plan. -/
structure Finished (id : Text) (requests : Nat → Option (GraphRequest Blob)) (i : Nat)
    (r : Except StorageError Unit) (t : Ledger Blob) : Prop where
  rows : ∀ v, t.owner v = some i → t.planned i = true ∧ ∃ row plan,
    t.tables.versions.get (id, v) = some row ∧ Content id requests t i row.code plan ∧
      row.executionPlan = some plan
  owns : r = .ok () → ∃ v, t.owner v = some i

theorem Finished.untouched {r : Except StorageError Unit} (h : Finished id requests i r t)
    (hu : Untouched id i t t') : Finished id requests i r t' := by
  refine ⟨fun v hv => ?_, fun hr => ?_⟩
  · have hv' := (hu.owner v).1 hv
    obtain ⟨hplanned, row, plan, hrow, hc, hplan⟩ := h.rows v hv'
    exact ⟨hu.planned.trans hplanned, row, plan, (hu.rows v hv').trans hrow, hc.kept hu.kept, hplan⟩
  · obtain ⟨v, hv⟩ := h.owns hr
    exact ⟨v, (hu.owner v).2 hv⟩

abbrev SqlM.Safe (id : Text) (requests : Nat → Option (GraphRequest Blob)) (i : Nat) (x : SqlM Blob Unit)
    (t : Ledger Blob) : Prop :=
  (x.zoom Ledger.tables (Ledger.record id i)).Safe (requestContract id requests i) (Finished id requests i) t

theorem safe_done {r : Except StorageError Unit} (h : Finished id requests i r t) :
    SqlM.Safe id requests i (.done r) t := fun _ hu => h.untouched hu

theorem safe_query {α : Type} {label : SqlStatement} {read : Tables Blob → α} {default : α}
    {k : α → SqlM Blob Unit}
    (hlabel : ∀ u : Ledger Blob, SameStore i u (u.record id i label u.tables))
    (hok : ∀ u, Untouched id i t u → LedgerInv id requests u →
      SqlM.Safe id requests i (k (read u.tables)) (u.record id i label u.tables))
    (hfault : ∀ u e, Untouched id i t u → label.Allowed id i (some e) u → SqlM.Safe id requests i (k default) u) :
    SqlM.Safe id requests i (Sql.query label read default >>= k) t := by
  refine fun u hu hinv => ⟨fun _ => ?_, fun e he => hfault u e hu he⟩
  obtain ⟨hinv', hguar⟩ := read_inv hinv (hlabel u)
  exact ⟨hinv', hguar, hok u hu hinv⟩

theorem safe_execute {label : SqlStatement} {what : Text} {stmt : Tables Blob → Except Text (Tables Blob)}
    {k : Unit → SqlM Blob Unit}
    (hok : ∀ u, Untouched id i t u → LedgerInv id requests u → label.Allowed id i none u →
      ∃ w, stmt u.tables = .ok w ∧
        (LedgerInv id requests (u.record id i label w) ∧ ∀ j, j ≠ i → Untouched id j u (u.record id i label w)) ∧
        SqlM.Safe id requests i (k ()) (u.record id i label w))
    (hfault : ∀ u e, Untouched id i t u → label.Allowed id i (some e) u →
      Finished id requests i (.error (.internal (what ++ e))) u) :
    SqlM.Safe id requests i (Sql.execute label what stmt >>= k) t := by
  refine fun u hu hinv => ⟨fun hallowed => ?_, fun e he v hv => (hfault u e hu he).untouched hv⟩
  obtain ⟨w, hw, ⟨hinv', hguar⟩, hsafe⟩ := hok u hu hinv hallowed
  have hwrite : (stmt u.tables).toOption.getD u.tables = w := by rw [hw]; rfl
  dsimp only
  rw [hwrite]
  refine ⟨hinv', hguar, ?_⟩
  rw [hw]
  exact hsafe

/-- Request `i` has not taken a version yet. -/
structure Fresh (i : Nat) (t : Ledger Blob) : Prop where
  owner : ∀ v, t.owner v ≠ some i
  planned : t.planned i = false

theorem Fresh.untouched (h : Fresh i t) (hu : Untouched id i t t') : Fresh i t' :=
  ⟨fun v hv => h.owner v ((hu.owner v).1 hv), hu.planned.trans h.planned⟩

theorem Fresh.finished (h : Fresh i t) {e : StorageError} : Finished id requests i (.error e) t :=
  ⟨fun v hv => absurd hv (h.owner v), fun hr => by cases hr⟩

/-- Request `i` has taken version `v`, whose row is `row`. -/
structure Taken (id : Text) (i v : Nat) (row : Option (VersionRow Blob)) (t : Ledger Blob) : Prop where
  owner : t.owner v = some i
  only : ∀ w, t.owner w = some i → w = v
  row : t.tables.versions.get (id, v) = row

theorem Taken.untouched {v : Nat} {row : Option (VersionRow Blob)} (h : Taken id i v row t)
    (hu : Untouched id i t t') : Taken id i v row t' :=
  ⟨(hu.owner v).2 h.owner, fun w hw => h.only w ((hu.owner w).1 hw), (hu.rows v h.owner).trans h.row⟩

theorem Taken.finished {v : Nat} {row : VersionRow Blob} (h : Taken id i v (some row) t) {plan : Blob}
    (hplanned : t.planned i = true) (hc : Content id requests t i row.code plan)
    (hplan : row.executionPlan = some plan) {r : Except StorageError Unit} : Finished id requests i r t :=
  ⟨fun w hw => by rw [h.only w hw]; exact ⟨hplanned, row, plan, h.row, hc, hplan⟩, fun _ => ⟨v, h.owner⟩⟩

/-- A statement that sets the version of the header. -/
theorem safe_claim {label : SqlStatement} (hlabel : label = .updateGraph ∨ label = .rollbackUpdate) {what : Text}
    (hfresh : Fresh i t) {n : Nat} (hseen : t.seen i = n) {now code : Text} {plan : Blob}
    (hc : Content id requests t i code plan) {k : Unit → SqlM Blob Unit}
    (hk : ∀ u, RowsKept id t u → Taken id i (n + 1) none u → u.planned i = false → SqlM.Safe id requests i (k ()) u) :
    SqlM.Safe id requests i (Sql.execute label what (Sql.updateRow id fun g =>
      { g with code := code, version := n + 1, updatedAt := now }) >>= k) t := by
  refine safe_execute (fun u hu hex hallowed => ?_) fun u e hu _ => (hfresh.untouched hu).finished
  obtain ⟨g, hg, h⟩ := hex
  have hversion : g.version = n := by
    have hseen' : u.seen i = Ledger.version id u.tables := by
      rcases hlabel with rfl | rfl <;> exact hallowed
    rw [hu.seen, hseen, version_of_get hg] at hseen'
    exact hseen'.symm
  subst hversion
  have hfresh' := hfresh.untouched hu
  have hrecord : u.record id i label (u.tables.setGraph id { g with code := code, version := g.version + 1, updatedAt := now }) =
      { u with
        tables := u.tables.setGraph id { g with code := code, version := g.version + 1, updatedAt := now }
        owner := Function.update u.owner (g.version + 1) (some i) } := by
    rcases hlabel with rfl | rfl <;>
      rw [Ledger.record, version_of_get (by rw [Tables.get_setGraph, if_pos rfl])]
  refine ⟨_, updateRow_eq_ok hg _, ?_, ?_⟩
  · rw [hrecord]
    exact claim_inv h hfresh'.owner hfresh'.planned (hc.kept hu.kept) rfl rfl rfl
  · rw [hrecord]
    refine hk _ (hu.kept.trans (rowsKept_of_versions rfl)) ⟨Function.update_self .., fun w hw => ?_, ?_⟩
      hfresh'.planned
    · dsimp only at hw
      by_contra hne
      rw [Function.update_of_ne hne] at hw
      exact hfresh'.owner w hw
    · cases hrow : u.tables.versions.get (id, g.version + 1) with
      | none => exact hrow
      | some row =>
        have := h.rows (g.version + 1) (by rw [hrow]; rfl)
        omega

/-- The statement that inserts the row of the new version. -/
theorem safe_insert {label : SqlStatement} (hlabel : label = .updateGraphVersion ∨ label = .rollbackVersion)
    {what : Text} {v : Nat} (htaken : Taken id i v none t) (row : VersionRow Blob) {k : Unit → SqlM Blob Unit}
    (hk : ∀ u, RowsKept id t u → u.planned i = t.planned i → Taken id i v (some row) u →
      SqlM.Safe id requests i (k ()) u) :
    SqlM.Safe id requests i (Sql.execute label what (Sql.insertVersion id v row) >>= k) t := by
  refine safe_execute (fun u hu hex _ => ?_) fun u e hu hf => ?_
  · obtain ⟨g, hg, h⟩ := hex
    have htaken' := htaken.untouched hu
    have hrecord : u.record id i label (u.tables.setVersion id v row) =
        { u with tables := u.tables.setVersion id v row } := by
      rcases hlabel with rfl | rfl <;> rfl
    have hget : (u.tables.setVersion id v row).versions.get (id, v) = some row := by
      rw [Tables.get_setVersion, if_pos rfl]
    have hfree : ∀ old, u.tables.versions.get (id, v) = some old →
        row.code = old.code ∧ old.executionPlan = none := by
      intro old hold
      rw [htaken'.row] at hold
      cases hold
    refine ⟨_, insertVersion_eq_ok htaken'.row row, ?_, ?_⟩
    · rw [hrecord]
      exact row_inv h hg htaken'.owner _ hfree rfl
    · rw [hrecord]
      exact hk _ (hu.kept.trans (rowsKept_setVersion _ hfree)) hu.planned ⟨htaken'.owner, htaken'.only, hget⟩
  · rcases hlabel with rfl | rfl <;> exact hf.elim

/-- A statement that writes the plan into the header. -/
theorem safe_plan {label : SqlStatement} (hlabel : label = .savePlanGraph ∨ label = .rollbackPlan) {what : Text}
    {plan : Blob} (hc : ∀ u code plan', RowsKept id t u → Content id requests u i code plan' → plan' = plan)
    {v : Nat} {row : Option (VersionRow Blob)} (htaken : Taken id i v row t)
    {f : GraphRow Blob → GraphRow Blob}
    (hf : ∀ g, (f g).version = g.version ∧ (f g).code = g.code ∧ (f g).executionPlan = some plan)
    {k : Unit → SqlM Blob Unit}
    (hk : ∀ u, RowsKept id t u → u.planned i = true → Taken id i v row u → SqlM.Safe id requests i (k ()) u) :
    SqlM.Safe id requests i (Sql.execute label what (Sql.updateRow id f) >>= k) t := by
  refine safe_execute (fun u hu hex hallowed => ?_) fun u e hu hfault => ?_
  · obtain ⟨g, hg, h⟩ := hex
    have htaken' := htaken.untouched hu
    have hrecord : u.record id i label (u.tables.setGraph id (f g)) =
        { u with tables := u.tables.setGraph id (f g), planned := Function.update u.planned i true } := by
      rcases hlabel with rfl | rfl <;> rfl
    obtain ⟨j, hj, hturn⟩ : ∃ j, u.owner g.version = some j ∧ (j = i ∨ u.planned j = false) := by
      rw [← version_of_get hg]
      rcases hlabel with rfl | rfl <;> exact hallowed
    obtain ⟨hversion, hcode, hplan⟩ := hf g
    refine ⟨_, updateRow_eq_ok hg _, ?_, ?_⟩
    · rw [hrecord]
      exact plan_inv h (fun code plan' hc' => hc u code plan' hu.kept hc') hj hturn hversion hcode hplan rfl
    · rw [hrecord]
      exact hk _ (hu.kept.trans (rowsKept_of_versions rfl)) (Function.update_self ..)
        ⟨htaken'.owner, htaken'.only, htaken'.row⟩
  · rcases hlabel with rfl | rfl <;> exact hfault.elim

/-- A statement that writes something else into the header. -/
theorem safe_header {label : SqlStatement} (hlabel : label = .rollbackActive ∨ label = .rollbackEvent)
    {what : Text} (hfinished : ∀ r, Finished id requests i r t) {f : GraphRow Blob → GraphRow Blob}
    (hf : ∀ g, (f g).version = g.version ∧ (f g).code = g.code ∧ (f g).executionPlan = g.executionPlan)
    {k : Unit → SqlM Blob Unit}
    (hk : ∀ u, (∀ r, Finished id requests i r u) → SqlM.Safe id requests i (k ()) u) :
    SqlM.Safe id requests i (Sql.execute label what (Sql.updateRow id f) >>= k) t := by
  refine safe_execute (fun u hu hex _ => ?_) fun u e hu _ => (hfinished _).untouched hu
  obtain ⟨g, hg, h⟩ := hex
  have hrecord : u.record id i label (u.tables.setGraph id (f g)) =
      { u with tables := u.tables.setGraph id (f g) } := by
    rcases hlabel with rfl | rfl <;> rfl
  obtain ⟨hversion, hcode, hplan⟩ := hf g
  refine ⟨_, updateRow_eq_ok hg _, ?_, ?_⟩
  · rw [hrecord]
    exact header_inv h hversion hcode hplan rfl
  · rw [hrecord]
    refine hk _ fun r => ?_
    have hfinished' := (hfinished r).untouched hu
    refine ⟨fun v hv => ?_, hfinished'.owns⟩
    obtain ⟨hplanned, row, plan, hrow, hc, hp⟩ := hfinished'.rows v hv
    exact ⟨hplanned, row, plan, hrow, hc.kept (rowsKept_of_versions rfl), hp⟩

/-- The statement that writes the plan into the row of the new version. -/
theorem safe_planVersion {v : Nat} {row : VersionRow Blob} (htaken : Taken id i v (some row) t)
    (hnone : row.executionPlan = none) (hplanned : t.planned i = true) {plan : Blob} {what : Text}
    (hc : Content id requests t i row.code plan) :
    SqlM.Safe id requests i (Sql.execute .savePlanVersion what (Sql.updateVersionRow id v fun r =>
      { r with executionPlan := some plan })) t := by
  rw [← Script.bind_pure (Sql.execute ..)]
  refine safe_execute (fun u hu hex _ => ?_) fun u e _ hf => False.elim hf
  obtain ⟨g, hg, h⟩ := hex
  have htaken' := htaken.untouched hu
  have hold : ∀ old, u.tables.versions.get (id, v) = some old →
      row.code = old.code ∧ old.executionPlan = none := by
    intro old hold
    rw [htaken'.row] at hold
    cases hold
    exact ⟨rfl, hnone⟩
  have hget : (u.tables.setVersion id v { row with executionPlan := some plan }).versions.get (id, v) =
      some { row with executionPlan := some plan } := by
    rw [Tables.get_setVersion, if_pos rfl]
  refine ⟨u.tables.setVersion id v { row with executionPlan := some plan },
    by rw [Sql.updateVersionRow, htaken'.row], ?_, safe_done ?_⟩
  · exact row_inv h hg htaken'.owner { row with executionPlan := some plan } hold rfl
  · have htaken'' : Taken id i v (some { row with executionPlan := some plan })
        (u.record id i .savePlanVersion (u.tables.setVersion id v { row with executionPlan := some plan })) :=
      ⟨htaken'.owner, htaken'.only, hget⟩
    refine htaken''.finished (hu.planned.trans hplanned) (hc.kept (hu.kept.trans ?_)) rfl
    exact rowsKept_setVersion { row with executionPlan := some plan } hold

theorem sameStore_of_query {label : SqlStatement} (hlabel : label = .updateSelect ∨ label = .rollbackSelect ∨
    label = .rollbackMax ∨ label = .rollbackDeployed ∨ label = .loadPlanVersion) (u : Ledger Blob) :
    SameStore i u (u.record id i label u.tables) := by
  rcases hlabel with rfl | rfl | rfl | rfl | rfl
  · exact ⟨rfl, rfl, rfl, fun j hj => Function.update_of_ne hj ..⟩
  · exact ⟨rfl, rfl, rfl, fun j hj => rfl⟩
  · exact ⟨rfl, rfl, rfl, fun j hj => Function.update_of_ne hj ..⟩
  · exact ⟨rfl, rfl, rfl, fun j hj => rfl⟩
  · exact ⟨rfl, rfl, rfl, fun j hj => rfl⟩

/-- A query in front of the new version. -/
theorem safe_fresh {α : Type} {label : SqlStatement} (hlabel : label = .updateSelect ∨ label = .rollbackSelect ∨
    label = .rollbackMax ∨ label = .rollbackDeployed ∨ label = .loadPlanVersion) {read : Tables Blob → α}
    {default : α} {k : α → SqlM Blob Unit} (hfresh : Fresh i t)
    (hok : ∀ u, RowsKept id t u → LedgerInv id requests u → Fresh i u →
      u.seen i = (u.record id i label u.tables).seen i → SqlM.Safe id requests i (k (read u.tables)) u)
    (hfault : ∀ u e, Fresh i u → label.Allowed id i (some e) u → SqlM.Safe id requests i (k default) u) :
    SqlM.Safe id requests i (Sql.query label read default >>= k) t := by
  refine safe_query (sameStore_of_query hlabel) (fun u hu hinv => ?_) fun u e hu he =>
    hfault u e (hfresh.untouched hu) he
  have hsame : SameStore i u (u.record id i label u.tables) := sameStore_of_query hlabel u
  have hfresh' := hfresh.untouched hu
  have hread : read u.tables = read (u.record id i label u.tables).tables := by rw [hsame.tables]
  rw [hread]
  refine hok _ (hu.kept.trans (rowsKept_of_versions (congrArg Tables.versions hsame.tables)))
    (read_inv hinv hsame).1 ⟨fun v => ?_, ?_⟩ ?_
  · rw [hsame.owner]
    exact hfresh'.owner v
  · rw [hsame.planned]
    exact hfresh'.planned
  · rcases hlabel with rfl | rfl | rfl | rfl | rfl
    · simp [Ledger.record]
    · rfl
    · simp [Ledger.record]
    · rfl
    · rfl

theorem update_safe {now code : Text} {plan : Blob} (hrequest : requests i = some (.update now code plan))
    (hfresh : Fresh i t) : SqlM.Safe id requests i (GraphRequest.script id (.update now code plan)) t := by
  have hc : ∀ u, Content id requests u i code plan := by
    intro u
    rw [Content, hrequest]
    exact ⟨rfl, rfl⟩
  rw [GraphRequest.script, Sql.updateGraph, Script.bind_assoc]
  refine safe_fresh (by simp) hfresh (fun u _ hex hfresh hseen => ?_) fun u e hfresh _ =>
    safe_done hfresh.finished
  obtain ⟨g, hg, h⟩ := hex
  rw [hg, Option.map_some]
  dsimp only
  rw [Script.bind_assoc]
  have hversion : u.seen i = g.version := by
    rw [hseen, Ledger.record, version_of_get hg]
    exact Function.update_self ..
  refine safe_claim (Or.inl rfl) hfresh hversion (hc _) fun u _ htaken _ => ?_
  rw [Script.bind_assoc]
  refine safe_insert (Or.inl rfl) htaken _ fun u _ _ htaken => ?_
  rw [Script.pure_bind, Sql.savePlan]
  refine @safe_plan Blob id requests _ i .savePlanGraph (Or.inl rfl) _ plan ?own _ _ htaken
    (fun g => { g with executionPlan := some plan, updatedAt := now }) (fun _ => ⟨rfl, rfl, rfl⟩) _
    fun u _ hplanned htaken => ?_
  case own =>
    intro u code' plan' _ hc'
    rw [Content, hrequest] at hc'
    exact hc'.2.symm
  exact safe_planVersion htaken rfl hplanned (hc u)

/-- The version that is rolled back to keeps its plan. -/
theorem rollback_content {version : Nat} {now : Text} (hrequest : requests i = some (.rollback now version))
    {old : VersionRow Blob} {plan : Blob} (hold : t.tables.versions.get (id, version) = some old)
    (hplan : old.executionPlan = some plan) : Content id requests t i old.code plan := by
  rw [Content, hrequest]
  exact ⟨old, hold, rfl, hplan⟩

/-- Behind its plan a rollback does not touch the version, the code and the plan any more. -/
theorem activate_safe {newVersion : Nat} {event : Text} (hfinished : ∀ r, Finished id requests i r t) :
    SqlM.Safe id requests i (Sql.activate id newVersion >>= fun _ =>
      Sql.execute .rollbackEvent "rollback last_event failed: " (Sql.updateRow id fun g =>
        { g with lastEvent := some event })) t := by
  have hevent : ∀ u, (∀ r, Finished id requests i r u) → SqlM.Safe id requests i
      (Sql.execute .rollbackEvent "rollback last_event failed: " (Sql.updateRow id fun g =>
        { g with lastEvent := some event })) u := by
    intro u hu
    rw [← Script.bind_pure (Sql.execute ..)]
    refine safe_header (Or.inr rfl) hu ?fields fun w hw => ?_
    case fields => exact fun _ => ⟨rfl, rfl, rfl⟩
    exact safe_done (hw (.ok ()))
  rw [Sql.activate, Script.bind_assoc]
  refine safe_query (sameStore_of_query (by simp)) (fun u hu _ => ?_) fun u _ hu _ => ?_
  · have hfinished' : ∀ r, Finished id requests i r u := fun r => (hfinished r).untouched hu
    cases (u.tables.graphs.get id).any (·.status = ("deployed" : Text)) with
    | true =>
      refine safe_header (Or.inl rfl) hfinished' ?fields fun w hw => ?_
      case fields => exact fun _ => ⟨rfl, rfl, rfl⟩
      exact hevent w hw
    | false => exact hevent u hfinished'
  · exact hevent u fun r => (hfinished r).untouched hu

theorem rollback_safe {now : Text} {version : Nat} (hrequest : requests i = some (.rollback now version))
    (hfresh : Fresh i t) : SqlM.Safe id requests i (GraphRequest.script id (.rollback now version)) t := by
  rw [GraphRequest.script, Sql.loadPlanVersion, Script.bind_assoc]
  refine safe_fresh (by simp) hfresh (fun u _ _ hfresh _ => ?_) fun u e hfresh _ => safe_done hfresh.finished
  cases hrow : u.tables.versions.get (id, version) with
  | none => exact safe_done hfresh.finished
  | some row =>
    dsimp only
    cases hplan : row.executionPlan with
    | none => exact safe_done hfresh.finished
    | some plan =>
      rw [Script.pure_bind, Sql.rollback]
      refine safe_fresh (by simp) hfresh (fun w hw _ hfresh _ => ?_) fun u e hfresh _ =>
        safe_done hfresh.finished
      obtain ⟨old, hold, -, hkept⟩ := hw version row hrow
      have hold_plan := hkept plan hplan
      have hc := rollback_content hrequest hold hold_plan
      rw [hold]
      dsimp only
      refine safe_fresh (by simp) hfresh (fun x hx _ hfresh hseen => ?_) fun u e _ hf => False.elim hf
      have hmax : x.seen i = x.tables.maxVersion id := hseen.trans (Function.update_self ..)
      refine safe_claim (Or.inr rfl) hfresh hmax (hc.kept hx) fun y hy htaken _ => ?_
      refine safe_insert (Or.inr rfl) htaken _ fun z hz _ htaken => ?_
      have hcz := ((hc.kept hx).kept hy).kept hz
      rw [hold_plan, Sql.restorePlan]
      refine @safe_plan Blob id requests _ i .rollbackPlan (Or.inr rfl) _ plan ?own _ _ htaken
        (fun g => { g with executionPlan := some plan }) (fun _ => ⟨rfl, rfl, rfl⟩) _
        fun u hu hplanned htaken => ?_
      case own =>
        intro u code plan' hu hc'
        rw [Content, hrequest] at hc'
        obtain ⟨row', hrow', -, hplan'⟩ := hc'
        obtain ⟨row'', hrow'', -, hkept⟩ := ((hx.trans hy).trans hz).trans hu version old hold
        rw [hrow'] at hrow''
        cases hrow''
        have := hkept plan hold_plan
        rw [hplan'] at this
        exact Option.some.inj this
      have hfinished : ∀ r, Finished id requests i r u := fun r => htaken.finished hplanned (hcz.kept hu) hold_plan
      exact activate_safe hfinished

end Scripts

theorem Content.holds {i v : Nat} {r : GraphRequest Blob} (hr : requests i = some r) {row : VersionRow Blob}
    {plan : Blob} (hrow : t.tables.versions.get (id, v) = some row) (hc : Content id requests t i row.code plan)
    (hplan : row.executionPlan = some plan) : r.Holds id t.tables v := by
  rw [Content, hr] at hc
  cases r with
  | update now code plan' =>
    obtain ⟨hcode, rfl⟩ := hc
    exact ⟨row, hrow, hcode.symm, hplan⟩
  | rollback now version =>
    obtain ⟨old, hold, hcode, hold_plan⟩ := hc
    exact ⟨row, old, plan, hrow, hold, hcode.symm, hold_plan, hplan⟩

theorem start_inv {u : Tables Blob} (hu : Settled id u) : LedgerInv id requests (.start u) := by
  obtain ⟨g, row, hg, hrow, hcode, hplan, hrows⟩ := hu
  exact ⟨g, hg, hrows, fun _ _ h => (by cases h), fun _ _ _ h => (by cases h),
    Or.inl ⟨rfl, row, hrow, hcode, hplan⟩⟩

theorem working_bound (requests : Nat → Option (GraphRequest Blob)) {u : Tables Blob} (hu : Settled id u) :
    (working id u requests).Bound (requestContract id requests) (Finished id requests) := by
  refine ⟨fun _ => start_inv hu, fun i => ?_⟩
  have hfresh : Fresh i (Ledger.start u) := ⟨fun _ h => (by cases h), rfl⟩
  rw [working]
  dsimp only
  cases hr : requests i with
  | none => exact safe_done hfresh.finished
  | some r =>
    cases r with
    | update now code plan => exact update_safe hr hfresh
    | rollback now version => exact rollback_safe hr hfresh

theorem Content.unique {j : Nat} {code code' : Text} {plan plan' : Blob} (h : Content id requests t j code plan)
    (h' : Content id requests t j code' plan') : code = code' ∧ plan = plan' := by
  unfold Content at h h'
  cases hr : requests j with
  | none =>
    rw [hr] at h
    exact h.elim
  | some r =>
    rw [hr] at h h'
    cases r with
    | update now code'' plan'' => exact ⟨h.1.symm.trans h'.1, h.2.symm.trans h'.2⟩
    | rollback now version =>
      obtain ⟨old, hold, hcode, hplan⟩ := h
      obtain ⟨old', hold', hcode', hplan'⟩ := h'
      rw [hold] at hold'
      cases hold'
      rw [hplan] at hplan'
      exact ⟨hcode.symm.trans hcode', Option.some.inj hplan'⟩

/-- The header of a store in which all requests have ended. -/
theorem settled_of_finished (h : LedgerInv id requests t)
    (hf : ∀ i, ∃ r, Finished id requests i r t) : Settled id t.tables := by
  obtain ⟨g, hg, hrows, -, -, hcurrent⟩ := h
  rcases hcurrent with ⟨-, row, hrow, hcode, hplan⟩ | ⟨j, plan, hj, hc, hp⟩
  · exact ⟨g, row, hg, hrow, hcode, hplan, hrows⟩
  · obtain ⟨r, hfinished⟩ := hf j
    obtain ⟨hplanned, row, plan', hrow, hc', hplan'⟩ := hfinished.rows g.version hj
    have hsame := hc'.unique hc
    refine ⟨g, row, hg, hrow, hsame.1, ?_, hrows⟩
    rw [hplan', hsame.2, hp hplanned]

end Contracts

/-- In every run of requests whose steps are allowed no update is lost. -/
theorem requests_settled {Blob : Type} (id : Text) (u : Tables Blob) (hu : Settled id u)
    (requests : Nat → Option (GraphRequest Blob)) (moves : List (Nat × Option Text))
    (halong : (working id u requests).Along (SqlStatement.Allowed id) moves) :
    NoLostUpdate id requests ((working id u requests).runs moves) := by
  have hbound := (working_bound requests hu).runs (requestContract_compatible id requests) halong
  generalize (working id u requests).runs moves = t at hbound
  have howns : ∀ i, ∃ v, t.programs i = .done (.ok ()) → t.shared.owner v = some i := by
    intro i
    by_cases hi : t.programs i = .done (.ok ())
    · obtain ⟨v, hv⟩ := (hbound.ended hi).owns rfl
      exact ⟨v, fun _ => hv⟩
    · exact ⟨0, fun h => absurd h hi⟩
  choose version hversion using howns
  refine ⟨⟨version, fun i r hr hi => ?_, fun i j hi hj heq => ?_⟩, fun hall => ?_⟩
  · obtain ⟨-, row, plan, hrow, hc, hplan⟩ := (hbound.ended hi).rows _ (hversion i hi)
    exact hc.holds hr hrow hplan
  · have hsame := (hversion i hi).symm.trans (heq ▸ hversion j hj)
    exact Option.some.inj hsame
  · refine settled_of_finished (hbound.inv 0) fun i => ?_
    obtain ⟨r, hr⟩ := hall i
    exact ⟨r, hbound.ended hr⟩

/-- One graph with its plan, just created. -/
def oneGraph : Tables Text :=
  ((Tables.empty.setGraph "g" ⟨"n", 1, "draft", "x", some ("X" : Text), none, none, none, none, none, "0", "0"⟩).setVersion
    "g" 1 ⟨"x", some ("X" : Text), "0"⟩)

theorem oneGraph_settled : Settled "g" oneGraph := by
  refine ⟨_, _, rfl, rfl, rfl, rfl, fun v hv => ?_⟩
  rw [oneGraph, Tables.get_setVersion] at hv
  split at hv
  case isTrue heq => exact (Prod.mk.inj heq).2 ▸ Nat.le_refl 1
  case isFalse => cases hv

/-- Two updates, and perhaps a rollback to the first version. -/
def twoUpdates (rollback : Option (GraphRequest Text)) : Nat → Option (GraphRequest Text)
  | 0 => some (.update "1" "a" "A")
  | 1 => some (.update "2" "b" "B")
  | 2 => rollback
  | _ => none

/-- One request behind the other. -/
theorem requests_settled_sequence : NoLostUpdate "g" (twoUpdates (some (.rollback "3" 1)))
    ((working "g" oneGraph (twoUpdates (some (.rollback "3" 1)))).runs
      (List.replicate 5 (0, none) ++ List.replicate 5 (1, none) ++ List.replicate 9 (2, none))) := by
  refine requests_settled "g" oneGraph oneGraph_settled _ _ ?_
  decide +kernel

/-- Both updates are in the header, and the later one has saved its plan first. -/
def plansCrossed : List (Nat × Option Text) :=
  List.replicate 3 (0, none) ++ List.replicate 3 (1, none) ++ List.replicate 2 (1, none) ++
    List.replicate 2 (0, none)

/-- Version 3 of the header has the plan of version 2. -/
theorem plan_overwritten : ¬∀ (u : Tables Text), Settled "g" u →
    ∀ (requests : Nat → Option (GraphRequest Text)) (moves : List (Nat × Option Text)),
    NoLostUpdate "g" requests ((working "g" u requests).runs moves) := by
  intro h
  have hended : ∀ i, ∃ r, ((working "g" oneGraph (twoUpdates none)).runs plansCrossed).programs i = .done r := by
    intro i
    match i with
    | 0 => exact ⟨.ok (), rfl⟩
    | 1 => exact ⟨.ok (), rfl⟩
    | i + 2 =>
      rw [Threads.runs_other]
      · exact ⟨.error (.graphNotFound "g"), by cases i <;> rfl⟩
      · simp [plansCrossed]
  obtain ⟨g, row, hg, hrow, -, hplan, -⟩ :=
    (h oneGraph oneGraph_settled (twoUpdates none) plansCrossed).2 hended
  generalize hu : ((working "g" oneGraph (twoUpdates none)).runs plansCrossed).shared.tables = u at hg hrow
  have hversion : (u.graphs.get "g").map GraphRow.version = some 3 := by
    rw [← hu]
    decide +kernel
  have hplans : (u.graphs.get "g").map GraphRow.executionPlan ≠
      (u.versions.get ("g", 3)).map VersionRow.executionPlan := by
    rw [← hu]
    decide +kernel
  rw [hg, Option.map_some] at hversion
  rw [Option.some.inj hversion] at hrow
  rw [hg, hrow, Option.map_some, Option.map_some, hplan] at hplans
  exact hplans rfl

end Tinypipe
