import Tinypipe.Lib.Forest
import Tinypipe.Lib.Triples
import Tinypipe.Store.Storage

/-! The walks over forks (`graph_lineage` and `graph_tree`, `tinypipe-storage/src/lib.rs`). They have
no bound of their own: what ends them is that a graph is there before its forks. -/

namespace Tinypipe

open Lib Lib.Stateful

/-- A graph with the trees of its forks. -/
abbrev GraphTreeNode := Rose GraphDefinition

namespace Tables

variable {Blob : Type}

/-- The rows with a parent, `ORDER BY created_at ASC`. -/
def childrenOf (s : Tables Blob) (id : Text) : List GraphDefinition :=
  ((s.graphs.entries.filter fun e => e.2.parentId = some id).map fun e => definition e.1 e.2).insertionSort
    fun a b => ¬b.createdAt < a.createdAt

def parentOf (s : Tables Blob) (id : Text) : Option Text := (s.graphs.get id).bind GraphRow.parentId

def childIds (s : Tables Blob) (id : Text) : List Text := (s.childrenOf id).map GraphDefinition.id

/-- A row as it is loaded. -/
def Stored (s : Tables Blob) (g : GraphDefinition) : Prop :=
  (s.graphs.get g.id).map (definition g.id) = some g

/-- The path from a graph without parent to `id`, along the parent links. -/
structure IsLineage (s : Tables Blob) (id : Text) (lineage : List GraphDefinition) : Prop where
  stored : ∀ g ∈ lineage, s.Stored g
  root : ∃ g, lineage.head? = some g ∧ g.parentId = none
  links : lineage.IsChain fun p g => g.parentId = some p.id
  last : ∃ g, lineage.getLast? = some g ∧ g.id = id

/-- `id` with every graph below it, once, under its parent. -/
structure IsTree (s : Tables Blob) (id : Text) (t : GraphTreeNode) : Prop where
  root : t.root.id = id
  stored : ∀ g ∈ t.elems, s.Stored g
  descendants : ∀ d, d ∈ t.elems.map GraphDefinition.id ↔
    Relation.ReflTransGen (fun p c => s.parentOf c = some p) id d
  once : (t.elems.map GraphDefinition.id).Nodup
  nested : t.Grown GraphDefinition.id s.childIds

end Tables

namespace Storage

variable {Blob : Type}

def listChildren (id : Text) : StorageM Blob (List GraphDefinition) := do
  let s ← get
  pure (s.childrenOf id)

/-- `none`: the walk goes on. -/
def lineageLoop : Nat → Option Text → List GraphDefinition → StorageM Blob (Option (List GraphDefinition))
  | _, none, lineage => pure (some lineage)
  | 0, some _, _ => pure none
  | fuel + 1, some cid, lineage => do
    let graph ← loadGraph cid
    lineageLoop fuel graph.parentId (lineage ++ [graph])

def graphLineage (fuel : Nat) (id : Text) : StorageM Blob (Option (List GraphDefinition)) := do
  let lineage ← lineageLoop fuel (some id) []
  pure (lineage.map List.reverse)

/-- The subtrees of the children in turn. -/
def subtreesLoop (graphTree : Text → StorageM Blob (Option GraphTreeNode)) :
    List GraphDefinition → List GraphTreeNode → StorageM Blob (Option (List GraphTreeNode))
  | [], treeChildren => pure (some treeChildren)
  | child :: children, treeChildren => do
    let subtree ← graphTree child.id
    match subtree with
    | some subtree => subtreesLoop graphTree children (treeChildren ++ [subtree])
    | none => pure none

def graphTree : Nat → Text → StorageM Blob (Option GraphTreeNode)
  | 0, _ => pure none
  | fuel + 1, id => do
    let graph ← loadGraph id
    let children ← listChildren id
    let treeChildren ← subtreesLoop (graphTree fuel) children []
    pure (treeChildren.map (Rose.node graph))

end Storage

/-! ### Operations -/

/-- What changes the graphs; the clock and the new ids are any. -/
inductive GraphOp (Blob : Type) where
  | create (id now name code : Text)
  | fork (childId now id forkNode code : Text) (label : Option Text)
  | update (now id code : Text)
  | rollback (now id : Text) (version : Nat)
  | deploy (id : Text) (version : Nat)
  | savePlan (now id : Text) (version : Nat) (plan : Blob)

namespace GraphOp

variable {Blob : Type}

def run : GraphOp Blob → StorageM Blob Unit
  | create id now name code => do let _ ← Storage.createGraph id now name code
  | fork childId now id forkNode code label => do let _ ← Storage.forkGraph childId now id forkNode code label
  | update now id code => do let _ ← Storage.updateGraph now id code
  | rollback now id version => Storage.rollback now id version
  | deploy id version => Storage.deploy id version
  | savePlan now id version plan => Storage.savePlan now id version plan

/-- The store behind an operation, whether it succeeds or fails. -/
def step (s : Tables Blob) (op : GraphOp Blob) : Tables Blob := finalState (op.run s)

def runAll (ops : List (GraphOp Blob)) : Tables Blob := ops.foldl step Tables.empty

end GraphOp

/-! ### The parents come first -/

section Invariant

variable {Blob : Type} {s t : Tables Blob} {id : Text}

/-- The rank goes up from each graph to its forks. -/
def Ranked (s : Tables Blob) (rank : Text → Nat) : Prop :=
  ∀ id g, s.graphs.get id = some g → rank id < s.graphs.entries.length ∧
    ∀ p, g.parentId = some p → (s.graphs.get p).isSome ∧ rank p < rank id

def Lineal (s : Tables Blob) : Prop := ∃ rank, Ranked s rank

theorem lineal_empty : Lineal (Tables.empty : Tables Blob) := ⟨fun _ => 0, fun _ _ h => by cases h⟩

theorem Lineal.congr (h : Lineal s) (ht : t.graphs = s.graphs) : Lineal t := by
  obtain ⟨rank, hrank⟩ := h
  refine ⟨rank, fun id g hg => ?_⟩
  rw [ht] at hg ⊢
  exact hrank id g hg

theorem mem_keys_of_get {g : GraphRow Blob} (hg : s.graphs.get id = some g) : id ∈ s.graphs.keys :=
  Dict.mem_keys.2 ⟨g, Dict.get_eq_some_iff.1 hg⟩

theorem not_mem_keys_of_get (hg : s.graphs.get id = none) : id ∉ s.graphs.keys := by
  intro hmem
  obtain ⟨g, he⟩ := Dict.mem_keys.1 hmem
  rw [Dict.get_eq_some_iff.2 he] at hg
  cases hg

/-- Another row of the same parent. -/
theorem Lineal.setGraph (h : Lineal s) {g g' : GraphRow Blob} (hg : s.graphs.get id = some g)
    (hparent : g'.parentId = g.parentId) : Lineal (s.setGraph id g') := by
  obtain ⟨rank, hrank⟩ := h
  have hlength : (s.setGraph id g').graphs.entries.length = s.graphs.entries.length :=
    Dict.length_set_of_mem (mem_keys_of_get hg) g'
  have hkept : ∀ p, (s.graphs.get p).isSome → ((s.setGraph id g').graphs.get p).isSome := by
    intro p hp
    rw [Tables.get_setGraph]
    split
    · rfl
    · exact hp
  refine ⟨rank, fun id' row hrow => ?_⟩
  rw [Tables.get_setGraph] at hrow
  rw [hlength]
  split at hrow
  case isTrue heq =>
    subst heq
    cases hrow
    obtain ⟨hbound, hup⟩ := hrank id g hg
    exact ⟨hbound, fun p hp => (hup p (hparent ▸ hp)).imp_left (hkept p)⟩
  case isFalse =>
    obtain ⟨hbound, hup⟩ := hrank id' row hrow
    exact ⟨hbound, fun p hp => (hup p hp).imp_left (hkept p)⟩

/-- A new row, whose parent is there. -/
theorem Lineal.insertGraph (h : Lineal s) {g : GraphRow Blob} (hg : s.graphs.get id = none)
    (hparent : ∀ p, g.parentId = some p → (s.graphs.get p).isSome) : Lineal (s.setGraph id g) := by
  obtain ⟨rank, hrank⟩ := h
  have hlength : (s.setGraph id g).graphs.entries.length = s.graphs.entries.length + 1 :=
    Dict.length_set_of_not_mem (not_mem_keys_of_get hg) g
  have hother : ∀ p, (s.graphs.get p).isSome → id ≠ p := by
    rintro p hp rfl
    rw [hg] at hp
    cases hp
  refine ⟨Function.update rank id (g.parentId.elim 0 fun p => rank p + 1), fun id' row hrow => ?_⟩
  rw [Tables.get_setGraph] at hrow
  rw [hlength]
  have hpresent : ∀ p, (s.graphs.get p).isSome → ((s.setGraph id g).graphs.get p).isSome ∧
      Function.update rank id (g.parentId.elim 0 fun p => rank p + 1) p = rank p := by
    intro p hp
    rw [Tables.get_setGraph, if_neg (hother p hp), Function.update_of_ne (hother p hp).symm]
    exact ⟨hp, rfl⟩
  split at hrow
  case isTrue heq =>
    subst heq
    cases hrow
    rw [Function.update_self]
    cases hp : g.parentId with
    | none => exact ⟨Nat.succ_pos _, fun p h => by cases h⟩
    | some p =>
      obtain ⟨row, hrow⟩ := Option.isSome_iff_exists.1 (hparent p hp)
      obtain ⟨hthere, hsame⟩ := hpresent p (hparent p hp)
      rw [hp] at hsame
      refine ⟨Nat.succ_lt_succ (hrank p row hrow).1, fun q hq => ?_⟩
      cases hq
      exact ⟨hthere, by rw [hsame]; exact Nat.lt_succ_self _⟩
  case isFalse hne =>
    obtain ⟨hbound, hup⟩ := hrank id' row hrow
    rw [Function.update_of_ne (Ne.symm hne)]
    refine ⟨Nat.lt_succ_of_lt hbound, fun p hp => ?_⟩
    obtain ⟨hthere, hlt⟩ := hup p hp
    obtain ⟨hthere', hsame⟩ := hpresent p hthere
    exact ⟨hthere', by rw [hsame]; exact hlt⟩

/-- However a computation ends, the parents are still there first. -/
def KeepsLineal {α : Type} (x : StorageM Blob α) : Prop := Triple Lineal x (fun _ => Lineal) fun _ => Lineal

theorem keeps_insertGraph (what : Text) (id : Text) (g : GraphRow Blob) :
    Triple (fun s => Lineal s ∧ ∀ p, g.parentId = some p → (s.graphs.get p).isSome)
      (Storage.insertGraph what id g) (fun _ => Lineal) fun _ => Lineal := by
  refine Triple.of_finalState fun s hs => ?_
  cases hg : s.graphs.get id with
  | none =>
    rw [Storage.insertGraph_ok hg]
    exact hs.1.insertGraph hg hs.2
  | some g' =>
    rw [Storage.insertGraph_error hg]
    exact hs.1

theorem keeps_insertVersion (what : Text) (id : Text) (version : Nat) (row : VersionRow Blob) :
    KeepsLineal (Storage.insertVersion what id version row) := by
  refine Triple.of_finalState fun s hs => ?_
  cases hv : s.versions.get (id, version) with
  | none =>
    rw [Storage.insertVersion_ok hv]
    exact hs.congr (Tables.graphs_setVersion s id version row)
  | some row' =>
    rw [Storage.insertVersion_error hv]
    exact hs

theorem keeps_updateRow (id : Text) {f : GraphRow Blob → GraphRow Blob}
    (hf : ∀ g, (f g).parentId = g.parentId) : KeepsLineal (Storage.updateRow id f) := by
  refine Triple.of_finalState fun s hs => ?_
  cases hg : s.graphs.get id with
  | none =>
    rw [Storage.updateRow_none hg]
    exact hs
  | some g =>
    rw [Storage.updateRow_ok hg]
    exact hs.setGraph hg (hf g)

theorem keeps_updateVersionRow (id : Text) (version : Nat) (f : VersionRow Blob → VersionRow Blob) :
    KeepsLineal (Storage.updateVersionRow id version f) := by
  refine Triple.of_finalState fun s hs => ?_
  cases hv : s.versions.get (id, version) with
  | none =>
    rw [Storage.updateVersionRow_none hv]
    exact hs
  | some row =>
    rw [Storage.updateVersionRow_ok hv]
    exact hs.congr (Tables.graphs_setVersion s id version (f row))

theorem KeepsLineal.bind {α β : Type} {x : StorageM Blob α} {f : α → StorageM Blob β} (hx : KeepsLineal x)
    (hf : ∀ a, KeepsLineal (f a)) : KeepsLineal (x >>= f) := Triple.bind hx hf

theorem KeepsLineal.get_bind {α : Type} {f : Tables Blob → StorageM Blob α} (hf : ∀ s, KeepsLineal (f s)) :
    KeepsLineal (get >>= f) := Triple.get_bind fun s hs t ht => hf s t (ht ▸ hs)

theorem KeepsLineal.pure {α : Type} (a : α) : KeepsLineal (pure a : StorageM Blob α) := Triple.pure fun _ hs => hs

theorem KeepsLineal.throw {α : Type} (e : StorageError) : KeepsLineal (throw e : StorageM Blob α) :=
  Triple.throw fun _ hs => hs

theorem keeps_createGraph (id now name code : Text) :
    KeepsLineal (Storage.createGraph id now name code : StorageM Blob Text) := by
  refine Triple.bind ((keeps_insertGraph _ id _).conseq (fun s hs => ⟨hs, fun p hp => ?_⟩)
    (fun _ _ hs => hs) fun _ _ hs => hs) fun _ => ?_
  · cases hp
  · exact (keeps_insertVersion _ id 1 _).bind fun _ => KeepsLineal.pure id

theorem load_of_get {g : GraphRow Blob} (hg : s.graphs.get id = some g) :
    Storage.loadGraph id s = .ok (Tables.definition id g) s := by
  simp only [Storage.loadGraph, get_bind, hg, pure_apply]

theorem load_of_none (hg : s.graphs.get id = none) :
    Storage.loadGraph id s = .error (.graphNotFound id) s := by
  simp only [Storage.loadGraph, get_bind, hg, throw_apply]

/-- A fork hangs on a graph that is there. -/
theorem keeps_forkGraph (childId now id forkNode code : Text) (label : Option Text) :
    KeepsLineal (Storage.forkGraph childId now id forkNode code label : StorageM Blob Text) := by
  have hload : Triple Lineal (Storage.loadGraph id : StorageM Blob GraphDefinition)
      (fun _ s => Lineal s ∧ (s.graphs.get id).isSome) fun _ => Lineal := by
    intro s hs
    cases hg : s.graphs.get id with
    | none =>
      rw [load_of_none hg]
      exact hs
    | some g =>
      rw [load_of_get hg]
      exact ⟨hs, by rw [hg]; rfl⟩
  refine Triple.bind hload fun parent => ?_
  refine Triple.bind ((keeps_insertGraph _ childId _).conseq (fun s hs => ⟨hs.1, fun p hp => ?_⟩)
    (fun _ _ hs => hs) fun _ _ hs => hs) fun _ => ?_
  · cases hp
    exact hs.2
  · exact (keeps_insertVersion _ childId 1 _).bind fun _ => KeepsLineal.pure childId

theorem keeps_updateGraph (now id code : Text) :
    KeepsLineal (Storage.updateGraph now id code : StorageM Blob Nat) := by
  refine KeepsLineal.get_bind fun s => ?_
  cases s.graphs.get id with
  | none => exact KeepsLineal.throw _
  | some g =>
    refine (keeps_updateRow id fun _ => ?_).bind fun _ => ?_
    · rfl
    · exact (keeps_insertVersion _ id _ _).bind fun _ => KeepsLineal.pure _

theorem keeps_rollback (now id : Text) (version : Nat) :
    KeepsLineal (Storage.rollback now id version : StorageM Blob Unit) := by
  refine KeepsLineal.get_bind fun s => ?_
  cases s.versions.get (id, version) with
  | none => exact KeepsLineal.throw _
  | some old =>
    refine (keeps_updateRow id ?_).bind fun _ => (keeps_insertVersion _ id _ _).bind fun _ =>
      KeepsLineal.bind ?_ fun _ => (keeps_updateRow id ?_).bind fun _ => keeps_updateRow id ?_
    · exact fun _ => rfl
    · cases hplan : old.executionPlan with
      | none => exact KeepsLineal.pure _
      | some plan => exact keeps_updateRow id fun _ => rfl
    · intro g
      split <;> rfl
    · exact fun _ => rfl

theorem keeps_deploy (id : Text) (version : Nat) :
    KeepsLineal (Storage.deploy id version : StorageM Blob Unit) := by
  refine KeepsLineal.get_bind fun s => ?_
  cases s.versions.get (id, version) with
  | none => exact KeepsLineal.throw _
  | some _ => exact keeps_updateRow id fun _ => rfl

theorem keeps_savePlan (now id : Text) (version : Nat) (plan : Blob) :
    KeepsLineal (Storage.savePlan now id version plan) := by
  refine (keeps_updateRow id ?_).bind fun _ => keeps_updateVersionRow id version _
  exact fun _ => rfl

theorem keeps_run (op : GraphOp Blob) : KeepsLineal op.run := by
  cases op with
  | create id now name code => exact (keeps_createGraph id now name code).bind fun _ => KeepsLineal.pure _
  | fork childId now id forkNode code label =>
    exact (keeps_forkGraph childId now id forkNode code label).bind fun _ => KeepsLineal.pure _
  | update now id code => exact (keeps_updateGraph now id code).bind fun _ => KeepsLineal.pure _
  | rollback now id version => exact keeps_rollback now id version
  | deploy id version => exact keeps_deploy id version
  | savePlan now id version plan => exact keeps_savePlan now id version plan

theorem lineal_foldl (ops : List (GraphOp Blob)) (h : Lineal s) : Lineal (ops.foldl GraphOp.step s) := by
  induction ops generalizing s with
  | nil => exact h
  | cons op ops ih => exact ih (Triple.finalState (keeps_run op) h)

theorem lineal_runAll (ops : List (GraphOp Blob)) : Lineal (GraphOp.runAll ops) := lineal_foldl ops lineal_empty

end Invariant

/-! ### The walk upwards -/

section Walks

variable {Blob : Type} {s : Tables Blob} {id : Text} {rank : Text → Nat}

theorem stored_definition {g : GraphRow Blob} (hg : s.graphs.get id = some g) :
    s.Stored (Tables.definition id g) := by
  rw [Tables.Stored, Tables.definition, hg]
  rfl

theorem isLineage_root {g : GraphRow Blob} (hg : s.graphs.get id = some g) (hp : g.parentId = none) :
    s.IsLineage id [Tables.definition id g] where
  stored d hd := by
    rw [List.mem_singleton.1 hd]
    exact stored_definition hg
  root := ⟨_, rfl, hp⟩
  links := List.isChain_singleton _
  last := ⟨_, rfl, rfl⟩

theorem Tables.IsLineage.snoc {p : Text} {l : List GraphDefinition} (h : s.IsLineage p l) {g : GraphRow Blob}
    (hg : s.graphs.get id = some g) (hp : g.parentId = some p) :
    s.IsLineage id (l ++ [Tables.definition id g]) := by
  obtain ⟨top, htop, hroot⟩ := h.root
  obtain ⟨parent, hparent, hid⟩ := h.last
  refine ⟨fun d hd => ?_, ⟨top, ?_, hroot⟩, ?_, ⟨_, List.getLast?_concat, rfl⟩⟩
  · rcases List.mem_append.1 hd with hd | hd
    · exact h.stored d hd
    · rw [List.mem_singleton.1 hd]
      exact stored_definition hg
  · rw [List.head?_append, htop, Option.some_or]
  · refine List.isChain_append.2 ⟨h.links, List.isChain_singleton _, fun d hd g' hg' => ?_⟩
    rw [hparent] at hd
    cases hd
    cases hg'
    rw [hid]
    exact hp

theorem lineageLoop_none (fuel : Nat) (acc : List GraphDefinition) :
    Storage.lineageLoop fuel none acc s = .ok (some acc) s := by
  cases fuel <;> rfl

/-- The walk visits graphs of a smaller and smaller rank. -/
theorem lineageLoop_spec (hrank : Ranked s rank) (n : Nat) : ∀ {id : Text}, (s.graphs.get id).isSome →
    rank id < n → ∃ up, s.IsLineage id up.reverse ∧ ∀ fuel acc, n ≤ fuel →
      Storage.lineageLoop fuel (some id) acc s = .ok (some (acc ++ up)) s := by
  induction n with
  | zero => exact fun _ hlt => absurd hlt (Nat.not_lt_zero _)
  | succ n ih =>
    intro id hsome hlt
    obtain ⟨g, hg⟩ := Option.isSome_iff_exists.1 hsome
    have hstep : ∀ fuel acc, Storage.lineageLoop (fuel + 1) (some id) acc s =
        Storage.lineageLoop fuel g.parentId (acc ++ [Tables.definition id g]) s :=
      fun fuel acc => bind_of_ok _ (load_of_get hg)
    cases hp : g.parentId with
    | none =>
      refine ⟨[Tables.definition id g], isLineage_root hg hp, fun fuel acc hfuel => ?_⟩
      obtain ⟨fuel, rfl⟩ := Nat.exists_eq_add_of_lt (Nat.lt_of_lt_of_le (Nat.succ_pos n) hfuel)
      rw [Nat.zero_add, hstep, hp, lineageLoop_none]
    | some p =>
      obtain ⟨hthere, hbelow⟩ := (hrank id g hg).2 p hp
      obtain ⟨up, hlineage, hup⟩ := ih hthere (by omega)
      refine ⟨Tables.definition id g :: up, ?_, fun fuel acc hfuel => ?_⟩
      · rw [List.reverse_cons]
        exact hlineage.snoc hg hp
      · obtain ⟨fuel, rfl⟩ := Nat.exists_eq_add_of_lt (Nat.lt_of_lt_of_le (Nat.succ_pos n) hfuel)
        rw [Nat.zero_add] at hfuel ⊢
        rw [hstep, hp, hup fuel _ (by omega), List.append_assoc, List.singleton_append]

theorem graphLineage_spec (hrank : Ranked s rank) (hsome : (s.graphs.get id).isSome) : ∃ lineage,
    s.IsLineage id lineage ∧ ∀ fuel, s.graphs.entries.length ≤ fuel →
      Storage.graphLineage fuel id s = .ok (some lineage) s := by
  obtain ⟨g, hg⟩ := Option.isSome_iff_exists.1 hsome
  obtain ⟨up, hlineage, hup⟩ := lineageLoop_spec hrank s.graphs.entries.length hsome (hrank id g hg).1
  refine ⟨up.reverse, hlineage, fun fuel hfuel => ?_⟩
  rw [Storage.graphLineage, bind_of_ok _ (hup fuel [] hfuel)]
  rfl

/-! ### The walk downwards -/

theorem mem_childrenOf {g : GraphDefinition} {p : Text} :
    g ∈ s.childrenOf p ↔ s.Stored g ∧ g.parentId = some p := by
  rw [Tables.childrenOf, List.mem_insertionSort, List.mem_map, Tables.Stored, Option.map_eq_some_iff]
  constructor
  · rintro ⟨e, he, rfl⟩
    obtain ⟨hmem, hparent⟩ := List.mem_filter.1 he
    exact ⟨⟨e.2, Dict.get_eq_some_iff.2 hmem, rfl⟩, of_decide_eq_true hparent⟩
  · rintro ⟨⟨row, hrow, hg⟩, hparent⟩
    refine ⟨(g.id, row), List.mem_filter.2 ⟨Dict.get_eq_some_iff.1 hrow, ?_⟩, hg⟩
    rw [← hg] at hparent
    exact decide_eq_true hparent

theorem mem_childIds {p c : Text} : c ∈ s.childIds p ↔ s.parentOf c = some p := by
  rw [Tables.childIds, List.mem_map, Tables.parentOf, Option.bind_eq_some_iff]
  constructor
  · rintro ⟨g, hg, rfl⟩
    obtain ⟨hstored, hparent⟩ := mem_childrenOf.1 hg
    obtain ⟨row, hrow, hdef⟩ := Option.map_eq_some_iff.1 hstored
    rw [← hdef] at hparent
    exact ⟨row, hrow, hparent⟩
  · rintro ⟨row, hrow, hparent⟩
    exact ⟨Tables.definition c row, mem_childrenOf.2 ⟨stored_definition hrow, hparent⟩, rfl⟩

theorem childIds_nodup (s : Tables Blob) (p : Text) : (s.childIds p).Nodup := by
  rw [Tables.childIds, Tables.childrenOf, ((List.perm_insertionSort _ _).map GraphDefinition.id).nodup_iff,
    List.map_map]
  exact s.graphs.nodup.sublist (List.filter_sublist.map _)

theorem subtreesLoop_spec {graphTree : Text → StorageM Blob (Option GraphTreeNode)} {f : Text → GraphTreeNode}
    (children : List GraphDefinition) : ∀ acc, (∀ c ∈ children, graphTree c.id s = .ok (some (f c.id)) s) →
      Storage.subtreesLoop graphTree children acc s = .ok (some (acc ++ children.map fun c => f c.id)) s := by
  induction children with
  | nil =>
    intro acc _
    rw [List.map_nil, List.append_nil]
    rfl
  | cons c cs ih =>
    intro acc h
    rw [Storage.subtreesLoop, bind_of_ok _ (h c List.mem_cons_self)]
    dsimp only
    rw [ih _ fun c' hc' => h c' (List.mem_cons_of_mem _ hc'), List.append_assoc]
    rfl

/-- A tree as `graphTree` grows it. -/
structure IsGrown (s : Tables Blob) (id : Text) (t : GraphTreeNode) : Prop where
  root : t.root.id = id
  stored : ∀ g ∈ t.elems, s.Stored g
  grown : t.Grown GraphDefinition.id s.childIds

theorem isGrown_node {g : GraphRow Blob} (hg : s.graphs.get id = some g) {f : Text → GraphTreeNode}
    (hf : ∀ c ∈ s.childIds id, IsGrown s c (f c)) :
    IsGrown s id (Rose.node (Tables.definition id g) ((s.childrenOf id).map fun c => f c.id)) := by
  have hsub : ∀ t ∈ (s.childrenOf id).map fun c => f c.id, ∃ c, IsGrown s c t := by
    intro t ht
    obtain ⟨c, hc, rfl⟩ := List.mem_map.1 ht
    exact ⟨c.id, hf c.id (List.mem_map_of_mem hc)⟩
  refine ⟨rfl, fun d hd => ?_, Rose.Grown.node ?_ fun t ht => ?_⟩
  · rw [Rose.elems_node, List.mem_cons, List.mem_flatMap] at hd
    rcases hd with rfl | ⟨t, ht, hd⟩
    · exact stored_definition hg
    · obtain ⟨c, hc⟩ := hsub t ht
      exact hc.stored d hd
  · rw [List.map_map]
    exact List.map_congr_left fun c hc => (hf c.id (List.mem_map_of_mem hc)).root
  · obtain ⟨c, hc⟩ := hsub t ht
    exact hc.grown

/-- The walk visits graphs of a greater and greater rank. -/
theorem graphTree_grown (hrank : Ranked s rank) (n : Nat) : ∀ {id : Text}, (s.graphs.get id).isSome →
    s.graphs.entries.length ≤ n + rank id → ∃ t, IsGrown s id t ∧ ∀ fuel, n ≤ fuel →
      Storage.graphTree fuel id s = .ok (some t) s := by
  induction n with
  | zero =>
    intro id hsome hle
    obtain ⟨g, hg⟩ := Option.isSome_iff_exists.1 hsome
    exact absurd (hrank id g hg).1 (by omega)
  | succ n ih =>
    intro id hsome hle
    obtain ⟨g, hg⟩ := Option.isSome_iff_exists.1 hsome
    have hchild : ∀ c ∈ s.childIds id, ∃ t, IsGrown s c t ∧ ∀ fuel, n ≤ fuel →
        Storage.graphTree fuel c s = .ok (some t) s := by
      intro c hc
      obtain ⟨row, hrow, hparent⟩ := Option.bind_eq_some_iff.1 (mem_childIds.1 hc)
      have hlt := ((hrank c row hrow).2 id hparent).2
      exact ih (by rw [hrow]; rfl) (by omega)
    have : Nonempty GraphTreeNode := ⟨Rose.node (Tables.definition id g) []⟩
    choose! f hf using hchild
    refine ⟨_, isGrown_node hg fun c hc => (hf c hc).1, fun fuel hfuel => ?_⟩
    obtain ⟨fuel, rfl⟩ := Nat.exists_eq_add_of_lt (Nat.lt_of_lt_of_le (Nat.succ_pos n) hfuel)
    rw [Nat.zero_add] at hfuel ⊢
    have hchildren : ∀ c ∈ s.childrenOf id, Storage.graphTree fuel c.id s = .ok (some (f c.id)) s :=
      fun c hc => (hf c.id (List.mem_map_of_mem hc)).2 fuel (by omega)
    have hloop := subtreesLoop_spec (s.childrenOf id) [] hchildren
    have hlist : (Storage.listChildren id : StorageM Blob _) s = .ok (s.childrenOf id) s := rfl
    rw [Storage.graphTree, bind_of_ok _ (load_of_get hg), bind_of_ok _ hlist, bind_of_ok _ hloop]
    rfl

theorem isTree_of_grown (hrank : Ranked s rank) {t : GraphTreeNode} (h : IsGrown s id t) : s.IsTree id t := by
  refine ⟨h.root, h.stored, fun d => ?_, ?_, h.grown⟩
  · have hstep : (fun p c => c ∈ s.childIds p) = fun p c => s.parentOf c = some p := by
      funext p c
      exact propext mem_childIds
    rw [h.grown.mem_keys_iff, h.root, Rose.Below, hstep]
  · have hup : ∀ p c, c ∈ s.childIds p → rank p < rank c := by
      intro p c hc
      obtain ⟨row, hrow, hparent⟩ := Option.bind_eq_some_iff.1 (mem_childIds.1 hc)
      exact ((hrank c row hrow).2 p hparent).2
    refine Rose.Grown.nodup_keys (fun p p' c hc hc' => ?_) hup (childIds_nodup s) h.grown
    exact Option.some.inj ((mem_childIds.1 hc).symm.trans (mem_childIds.1 hc'))

theorem graphTree_spec (hrank : Ranked s rank) (hsome : (s.graphs.get id).isSome) : ∃ t,
    s.IsTree id t ∧ ∀ fuel, s.graphs.entries.length ≤ fuel → Storage.graphTree fuel id s = .ok (some t) s := by
  obtain ⟨t, ht, htree⟩ := graphTree_grown hrank s.graphs.entries.length hsome (Nat.le_add_right _ _)
  exact ⟨t, isTree_of_grown hrank ht, htree⟩

end Walks

/-- Both walks end after as many steps as there are graphs at most, and are exact. -/
theorem walks_exact {Blob : Type} (ops : List (GraphOp Blob)) (id : Text) :
    ((GraphOp.runAll ops).graphs.get id = none ∧ ∀ fuel,
      Storage.graphLineage (fuel + 1) id (GraphOp.runAll ops) = .error (.graphNotFound id) (GraphOp.runAll ops) ∧
      Storage.graphTree (fuel + 1) id (GraphOp.runAll ops) = .error (.graphNotFound id) (GraphOp.runAll ops)) ∨
    ∃ lineage t, (GraphOp.runAll ops).IsLineage id lineage ∧ (GraphOp.runAll ops).IsTree id t ∧
      ∀ fuel, (GraphOp.runAll ops).graphs.entries.length ≤ fuel →
        Storage.graphLineage fuel id (GraphOp.runAll ops) = .ok (some lineage) (GraphOp.runAll ops) ∧
        Storage.graphTree fuel id (GraphOp.runAll ops) = .ok (some t) (GraphOp.runAll ops) := by
  obtain ⟨rank, hrank⟩ := lineal_runAll ops
  generalize GraphOp.runAll ops = s at hrank ⊢
  cases hg : s.graphs.get id with
  | none =>
    refine Or.inl ⟨rfl, fun fuel => ⟨?_, ?_⟩⟩
    · have hloop : Storage.lineageLoop (fuel + 1) (some id) [] s = .error (.graphNotFound id) s :=
        bind_of_error _ (load_of_none hg)
      rw [Storage.graphLineage, bind_of_error _ hloop]
    · rw [Storage.graphTree, bind_of_error _ (load_of_none hg)]
  | some g =>
    have hsome : (s.graphs.get id).isSome := by rw [hg]; rfl
    obtain ⟨lineage, hlineage, hup⟩ := graphLineage_spec hrank hsome
    obtain ⟨t, htree, hdown⟩ := graphTree_spec hrank hsome
    exact Or.inr ⟨lineage, t, hlineage, htree, fun fuel hfuel => ⟨hup fuel hfuel, hdown fuel hfuel⟩⟩

end Tinypipe
