import Tinypipe.Store.Storage

/-! The version history of the graphs. What the storage is for: every graph has the list of
the codes it has had, to which an update and a rollback add one. The tables refine these
lists, whatever operations are run. -/

namespace Tinypipe

open Lib Lib.Stateful

/-- The codes of each graph, the oldest first. -/
abbrev Histories := Text → List Text

namespace Histories

def append (h : Histories) (id code : Text) : Histories := Function.update h id (h id ++ [code])

/-- The code of a version; versions are numbered from 1. -/
def code (h : Histories) (id : Text) (version : Nat) : Option Text :=
  if version = 0 then none else (h id)[version - 1]?

theorem append_self (h : Histories) (id code : Text) : h.append id code id = h id ++ [code] :=
  Function.update_self ..

theorem append_of_ne (h : Histories) {id id' : Text} (hne : id' ≠ id) (code : Text) :
    h.append id code id' = h id' := Function.update_of_ne hne ..

theorem prefix_append (h : Histories) (id code id' : Text) : h id' <+: h.append id code id' := by
  by_cases hid : id' = id
  · subst hid
    rw [append_self]
    exact List.prefix_append _ _
  · rw [append_of_ne h hid]

theorem code_append (h : Histories) (id code id' : Text) (v : Nat) :
    (h.append id code).code id' v =
      if id' = id ∧ v = (h id).length + 1 then some code else h.code id' v := by
  by_cases hid : id' = id
  · subst hid
    cases v with
    | zero => simp [Histories.code]
    | succ v =>
      simp only [Histories.code, append_self, Nat.succ_ne_zero, if_false, Nat.add_sub_cancel, true_and,
        Nat.add_right_cancel_iff]
      split
      case isTrue h' => rw [h', List.getElem?_concat_length]
      case isFalse h' =>
        rcases Nat.lt_or_gt_of_ne h' with h' | h'
        · rw [List.getElem?_append_left h']
        · rw [List.getElem?_eq_none (by simp; omega), List.getElem?_eq_none (by omega)]
  · simp only [Histories.code, append_of_ne h hid, hid, false_and, if_false]

theorem code_isSome (h : Histories) (id : Text) (v : Nat) :
    (h.code id v).isSome ↔ 1 ≤ v ∧ v ≤ (h id).length := by
  cases v with
  | zero => simp [Histories.code]
  | succ v => simp [Histories.code]

end Histories

/-- The tables hold the histories: a row for each code, and the last one in the header. -/
structure Refines {Blob : Type} (s : Tables Blob) (h : Histories) : Prop where
  rows : ∀ id v, (s.versions.get (id, v)).map VersionRow.code = h.code id v
  header : ∀ id, (s.graphs.get id).map (fun g => (g.version, g.code)) =
    (h id).getLast?.map fun c => ((h id).length, c)

/-! ### The numbers of the versions -/

section Refines

variable {Blob : Type} {s : Tables Blob} {h : Histories}

theorem refines_empty : Refines (Tables.empty : Tables Blob) fun _ => [] :=
  ⟨fun _ v => by simp [Tables.empty, Histories.code], fun _ => rfl⟩

/-- The rows of a graph are numbered without gap or repetition. -/
theorem Refines.versionsOf (hr : Refines s h) (id : Text) :
    (s.versionsOf id).map Prod.fst = List.range' 1 (h id).length := by
  refine List.Perm.eq_of_pairwise (fun a b _ _ hab hba => absurd hab (Nat.lt_asymm hba))
    (versionsOf_sorted s id) List.pairwise_lt_range' ?_
  refine (List.perm_ext_iff_of_nodup (versionsOf_nodup s id) List.nodup_range').2 fun v => ?_
  rw [mem_versionsOf_fst, ← Option.isSome_map (f := VersionRow.code), hr.rows, Histories.code_isSome,
    List.mem_range'_1]
  omega

theorem Refines.maxVersion (hr : Refines s h) (id : Text) : s.maxVersion id = (h id).length := by
  rw [Tables.maxVersion, hr.versionsOf]
  generalize (h id).length = n
  cases n with
  | zero => rfl
  | succ n =>
    have hmax : (List.range' 1 (n + 1)).max? = some (n + 1) := by
      rw [List.max?_eq_some_iff]
      refine ⟨List.mem_range'_1.2 (by omega), fun v hv => ?_⟩
      have := List.mem_range'_1.1 hv
      omega
    rw [hmax]
    rfl

theorem Refines.graph_eq_none (hr : Refines s h) {id : Text} : s.graphs.get id = none ↔ h id = [] := by
  have := hr.header id
  rw [← Option.map_eq_none_iff (f := fun g : GraphRow Blob => (g.version, g.code)), this,
    Option.map_eq_none_iff, List.getLast?_eq_none_iff]

theorem Refines.ne_nil (hr : Refines s h) {id : Text} {v : Nat} {r : VersionRow Blob}
    (hv : s.versions.get (id, v) = some r) : h id ≠ [] := by
  intro hnil
  have hcode := hr.rows id v
  rw [hv] at hcode
  simp [Histories.code, hnil] at hcode

theorem Refines.version (hr : Refines s h) {id : Text} {g : GraphRow Blob}
    (hg : s.graphs.get id = some g) : g.version = (h id).length ∧ (h id).getLast? = some g.code := by
  have := hr.header id
  rw [hg, Option.map_some] at this
  obtain ⟨c, hc, heq⟩ := Option.map_eq_some_iff.1 this.symm
  obtain ⟨hv, rfl⟩ := Prod.mk.inj heq
  exact ⟨hv.symm, hc⟩

/-- The code in the header is that of its version. -/
theorem Refines.code_version (hr : Refines s h) {id : Text} {g : GraphRow Blob}
    (hg : s.graphs.get id = some g) : h.code id g.version = some g.code := by
  obtain ⟨hv, hlast⟩ := hr.version hg
  have hne : (h id).length ≠ 0 := fun hlen => by
    rw [List.length_eq_zero_iff.1 hlen] at hlast
    cases hlast
  rw [Histories.code, hv, if_neg hne, ← List.getLast?_eq_getElem?, hlast]

end Refines

/-! ### Operations -/

inductive StorageOp (Blob : Type) where
  | createGraph (id now name code : Text)
  | createForkGraph (id now name code parentId forkNode : Text) (forkLabel : Option Text)
  | updateGraph (now id code : Text)
  | rollback (now id : Text) (version : Nat)
  | deploy (id : Text) (version : Nat)
  | savePlan (now id : Text) (version : Nat) (plan : Blob)

namespace StorageOp

variable {Blob : Type}

def run : StorageOp Blob → StorageM Blob Unit
  | createGraph id now name code => do let _ ← Storage.createGraph id now name code
  | createForkGraph id now name code parentId forkNode forkLabel => do
    let _ ← Storage.createForkGraph id now name code parentId forkNode forkLabel
  | updateGraph now id code => do let _ ← Storage.updateGraph now id code
  | rollback now id version => Storage.rollback now id version
  | deploy id version => Storage.deploy id version
  | savePlan now id version plan => Storage.savePlan now id version plan

/-- The store behind an operation, whether it succeeds or fails. -/
def step (s : Tables Blob) (op : StorageOp Blob) : Tables Blob := finalState (op.run s)

/-- The code an operation adds to the history of a graph. -/
def adds (h : Histories) : StorageOp Blob → Option (Text × Text)
  | createGraph id _ _ code | createForkGraph id _ _ code _ _ _ =>
    if h id = [] then some (id, code) else none
  | updateGraph _ id code => if h id = [] then none else some (id, code)
  | rollback _ id version => (h.code id version).map fun code => (id, code)
  | deploy _ _ | savePlan _ _ _ _ => none

def record (h : Histories) (op : StorageOp Blob) : Histories :=
  match op.adds h with
  | some (id, code) => h.append id code
  | none => h

theorem record_create {h : Histories} {op : StorageOp Blob} {id code : Text}
    (ho : op.adds h = if h id = [] then some (id, code) else none) :
    op.record h = if h id = [] then h.append id code else h := by
  rw [record, ho]
  by_cases hnil : h id = []
  · rw [if_pos hnil, if_pos hnil]
  · rw [if_neg hnil, if_neg hnil]

theorem prefix_record (h : Histories) (op : StorageOp Blob) (id : Text) : h id <+: op.record h id := by
  unfold record
  cases op.adds h with
  | none => exact List.prefix_rfl
  | some added => exact h.prefix_append _ _ id

end StorageOp

section Simulation

variable {Blob : Type} {s : Tables Blob} {h : Histories}

/-- One more version of a graph, and its header. -/
theorem Refines.newVersion (hr : Refines s h) {id : Text} {v : Nat} (hv : v = (h id).length + 1)
    {g : GraphRow Blob} {r : VersionRow Blob} (hg : g.version = v) (hcode : r.code = g.code) :
    Refines ((s.setGraph id g).setVersion id v r) (h.append id g.code) := by
  refine ⟨fun id' v' => ?_, fun id' => ?_⟩
  · rw [Tables.get_setVersion, Tables.versions_setGraph, Histories.code_append]
    by_cases hid : id' = id ∧ v' = (h id).length + 1
    · rw [if_pos hid, if_pos (by rw [hid.1, hid.2, hv]), Option.map_some, hcode]
    · rw [if_neg hid, if_neg (by rw [hv]; rintro ⟨⟩; exact hid ⟨rfl, rfl⟩)]
      exact hr.rows id' v'
  · rw [Tables.graphs_setVersion, Tables.get_setGraph]
    by_cases hid : id = id'
    · subst hid
      rw [if_pos rfl, Histories.append_self, List.getLast?_concat, Option.map_some, Option.map_some,
        hg, hv, List.length_append, List.length_singleton]
    · rw [if_neg hid, Histories.append_of_ne h (Ne.symm hid)]
      exact hr.header id'

/-- The histories stay as they are. -/
def KeepsHistory (s t : Tables Blob) : Prop := ∀ h, Refines s h → Refines t h

instance : Std.Refl (KeepsHistory : Tables Blob → Tables Blob → Prop) := ⟨fun _ _ hr => hr⟩

instance : IsTrans (Tables Blob) KeepsHistory := ⟨fun _ _ _ h₁ h₂ h hr => h₂ h (h₁ h hr)⟩

/-- Changes to the other columns. -/
theorem refines_updateRow {id : Text} {f : GraphRow Blob → GraphRow Blob}
    (hf : ∀ g, (f g).version = g.version ∧ (f g).code = g.code) :
    Steps KeepsHistory (Storage.updateRow id f) := by
  intro s h hr
  simp only [Storage.updateRow, modify_apply, finalState]
  split
  case h_1 g hg =>
    refine ⟨hr.rows, fun id' => ?_⟩
    rw [Dict.get_set, ← hr.header]
    split
    case isTrue hid => rw [← hid, hg, Option.map_some, Option.map_some, (hf g).1, (hf g).2]
    case isFalse => rfl
  · exact hr

theorem refines_updateVersionRow {id : Text} {v : Nat} {f : VersionRow Blob → VersionRow Blob}
    (hf : ∀ r, (f r).code = r.code) :
    Steps KeepsHistory (Storage.updateVersionRow id v f) := by
  intro s h hr
  simp only [Storage.updateVersionRow, modify_apply, finalState]
  split
  case h_1 r hrow =>
    refine ⟨fun id' v' => ?_, hr.header⟩
    rw [Dict.get_set, ← hr.rows]
    split
    case isTrue hid => rw [← hid, hrow, Option.map_some, Option.map_some, hf r]
    case isFalse => rfl
  · exact hr

theorem Refines.next_free (hr : Refines s h) (id : Text) :
    s.versions.get (id, (h id).length + 1) = none := by
  rw [← Option.map_eq_none_iff (f := VersionRow.code), hr.rows, Histories.code,
    if_neg (Nat.succ_ne_zero _), List.getElem?_eq_none]
  omega

theorem Refines.exists_graph (hr : Refines s h) {id : Text} (hne : h id ≠ []) :
    ∃ g, s.graphs.get id = some g := by
  cases hg : s.graphs.get id with
  | none => exact absurd (hr.graph_eq_none.1 hg) hne
  | some g => exact ⟨g, rfl⟩

theorem Refines.first_free (hr : Refines s h) {id : Text} (hnil : h id = []) :
    s.versions.get (id, 1) = none := by
  have hfree := hr.next_free id
  rwa [hnil] at hfree

theorem Refines.update_free (hr : Refines s h) {id : Text} {g : GraphRow Blob}
    (hg : s.graphs.get id = some g) : s.versions.get (id, g.version + 1) = none := by
  rw [(hr.version hg).1]
  exact hr.next_free id

theorem Refines.version_eq_none (hr : Refines s h) {id : Text} (hg : s.graphs.get id = none) (v : Nat) :
    s.versions.get (id, v) = none := by
  cases hv : s.versions.get (id, v) with
  | none => rfl
  | some r => exact absurd (hr.graph_eq_none.1 hg) (hr.ne_nil hv)

/-- Every operation does to the tables what it does to the histories. -/
theorem Refines.step (hr : Refines s h) (op : StorageOp Blob) : Refines (op.step s) (op.record h) := by
  cases op with
  | createGraph id now name code =>
    rw [StorageOp.step, StorageOp.run, StorageOp.record_create rfl]
    by_cases hnil : h id = []
    · rw [if_pos hnil, bind_of_ok _
        (Storage.createGraph_ok (hr.graph_eq_none.2 hnil) (hr.first_free hnil) now name code)]
      refine hr.newVersion ?_ rfl rfl
      rw [hnil, List.length_nil]
    · obtain ⟨g, hg⟩ := hr.exists_graph hnil
      rw [if_neg hnil, bind_of_error _ (Storage.createGraph_error hg now name code)]
      exact hr
  | createForkGraph id now name code parentId forkNode forkLabel =>
    rw [StorageOp.step, StorageOp.run, StorageOp.record_create rfl]
    by_cases hnil : h id = []
    · rw [if_pos hnil, bind_of_ok _ (Storage.createForkGraph_ok (hr.graph_eq_none.2 hnil)
        (hr.first_free hnil) now name code parentId forkNode forkLabel)]
      refine hr.newVersion ?_ rfl rfl
      rw [hnil, List.length_nil]
    · obtain ⟨g, hg⟩ := hr.exists_graph hnil
      rw [if_neg hnil,
        bind_of_error _ (Storage.createForkGraph_error hg now name code parentId forkNode forkLabel)]
      exact hr
  | updateGraph now id code =>
    rw [StorageOp.step, StorageOp.run, StorageOp.record, StorageOp.adds]
    by_cases hnil : h id = []
    · rw [if_pos hnil, bind_of_error _ (Storage.updateGraph_error (hr.graph_eq_none.2 hnil) now code)]
      exact hr
    · obtain ⟨g, hg⟩ := hr.exists_graph hnil
      rw [if_neg hnil, bind_of_ok _ (Storage.updateGraph_ok hg (hr.update_free hg) now code)]
      refine hr.newVersion ?_ rfl rfl
      rw [(hr.version hg).1]
  | rollback now id version =>
    rw [StorageOp.step, StorageOp.run, StorageOp.record, StorageOp.adds, ← hr.rows]
    cases hold : s.versions.get (id, version) with
    | none =>
      rw [Storage.rollback_error hold now]
      exact hr
    | some old =>
      obtain ⟨g, hg⟩ := hr.exists_graph (hr.ne_nil hold)
      rw [Storage.rollback_ok hg hold now]
      refine hr.newVersion ?_ rfl rfl
      rw [hr.maxVersion]
  | deploy id version =>
    rw [StorageOp.step, StorageOp.run, StorageOp.record, StorageOp.adds, Storage.deploy, get_bind]
    cases s.versions.get (id, version) with
    | none => exact hr
    | some r =>
      refine refines_updateRow ?_ s h hr
      exact fun _ => ⟨rfl, rfl⟩
  | savePlan now id version plan =>
    refine (Steps.bind ?_ fun _ => ?_ : Steps KeepsHistory (Storage.savePlan now id version plan)) s h hr
    · exact refines_updateRow fun _ => ⟨rfl, rfl⟩
    · exact refines_updateVersionRow fun _ => rfl

theorem Refines.run (hr : Refines s h) (ops : List (StorageOp Blob)) :
    Refines (ops.foldl StorageOp.step s) (ops.foldl StorageOp.record h) := by
  induction ops generalizing s h with
  | nil => exact hr
  | cons op ops ih => exact ih (hr.step op)

theorem prefix_records (h : Histories) (ops : List (StorageOp Blob)) (id : Text) :
    h id <+: ops.foldl StorageOp.record h id := by
  induction ops generalizing h with
  | nil => exact List.prefix_rfl
  | cons op ops ih => exact (op.prefix_record h id).trans (ih (op.record h))

theorem Histories.code_of_prefix {h h' : Histories} {id : Text} (hp : h id <+: h' id) {v : Nat}
    {c : Text} (hc : h.code id v = some c) : h'.code id v = some c := by
  cases v with
  | zero => simp [Histories.code] at hc
  | succ v =>
    rw [Histories.code, if_neg (Nat.succ_ne_zero v)] at hc ⊢
    obtain ⟨t, ht⟩ := hp
    rw [← ht, List.getElem?_append_left (List.getElem?_eq_some_iff.1 hc).1, hc]

/-- Whatever operations have been run, the versions of every graph are numbered from 1 up to the
number in its header, whose code is that of the last one, and no operation changes the code of a
version. -/
theorem version_history (ops ops' : List (StorageOp Blob)) :
    (∀ id g, (ops.foldl StorageOp.step Tables.empty).graphs.get id = some g →
      ((ops.foldl StorageOp.step Tables.empty).versionsOf id).map Prod.fst = List.range' 1 g.version ∧
      ∃ r, (ops.foldl StorageOp.step Tables.empty).versions.get (id, g.version) = some r ∧
        r.code = g.code) ∧
    ∀ id v r, (ops.foldl StorageOp.step Tables.empty).versions.get (id, v) = some r →
      ∃ r', ((ops ++ ops').foldl StorageOp.step Tables.empty).versions.get (id, v) = some r' ∧
        r'.code = r.code := by
  have hr : Refines (ops.foldl StorageOp.step (Tables.empty : Tables Blob))
      (ops.foldl StorageOp.record fun _ => []) := refines_empty.run ops
  refine ⟨fun id g hg => ⟨?_, ?_⟩, fun id v r hv => ?_⟩
  · rw [hr.versionsOf, (hr.version hg).1]
  · have hcode : Histories.code _ id g.version = some g.code := hr.code_version hg
    rw [← hr.rows] at hcode
    exact Option.map_eq_some_iff.1 hcode
  · have hr' := hr.run ops'
    rw [List.foldl_append]
    have hcode := hr.rows id v
    rw [hv, Option.map_some] at hcode
    have hrow := hr'.rows id v
    rw [Histories.code_of_prefix (prefix_records _ ops' id) hcode.symm] at hrow
    exact Option.map_eq_some_iff.1 hrow

end Simulation

/-- Two graphs, an update, a plan and a rollback to the first version. -/
theorem version_history_rollback :
    let ops : List (StorageOp Unit) := [.createGraph "a" "0" "first" "x", .updateGraph "1" "a" "y",
      .createForkGraph "b" "2" "first" "z" "a" "n0" none, .savePlan "3" "a" 2 (), .rollback "4" "a" 1]
    ∃ g, (ops.foldl StorageOp.step Tables.empty).graphs.get "a" = some g ∧
      ((ops.foldl StorageOp.step Tables.empty).versionsOf "a").map Prod.fst = List.range' 1 g.version := by
  intro ops
  obtain ⟨g, hg⟩ : ∃ g, (ops.foldl StorageOp.step Tables.empty).graphs.get "a" = some g := ⟨_, rfl⟩
  exact ⟨g, hg, ((version_history ops []).1 "a" g hg).1⟩

end Tinypipe
