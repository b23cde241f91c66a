import Tinypipe.Lib.Folds
import Tinypipe.Server.Engine

/-! What a fork leaves as it is (`fork_graph` of `tinypipe-storage/src/lib.rs`, `resolve_graph` of
`tinypipe-tools/src/registry.rs`). Names are not unique: a fork has the name of its parent, and a
name means the graph that was created last. -/

namespace Tinypipe

open Lib Lib.Stateful

section Forks

variable {Blob : Type} {s t : Tables Blob}

/-- The graphs that are there keep their rows, their versions and their plans. -/
structure Kept (s t : Tables Blob) : Prop where
  graphs : ∀ id g, s.graphs.get id = some g → t.graphs.get id = some g
  versions : ∀ id, (s.graphs.get id).isSome → ∀ v, t.versions.get (id, v) = s.versions.get (id, v)
  executions : t.executions = s.executions

/-- The store behind a fork, whether it succeeds or fails. -/
def Tables.forked (s : Tables Blob) (childId now id forkNode code : Text) (label : Option Text) :
    Tables Blob :=
  finalState (Storage.forkGraph childId now id forkNode code label s)

/-- The fork succeeds, and every graph with its name is older. -/
def Shadowed (s : Tables Blob) (childId now id name : Text) : Prop :=
  s.graphs.get childId = none ∧ (∃ p, s.graphs.get id = some p ∧ p.name = name) ∧
    ∀ id' g, s.graphs.get id' = some g → g.name = name → g.createdAt < now

/-! ### Names -/

/-- One more graph with the name. -/
def newer (best : Option GraphDefinition) (g : GraphDefinition) : Option GraphDefinition :=
  match best with
  | some b => if b.createdAt < g.createdAt then some g else some b
  | none => some g

theorem newer_some (b g : GraphDefinition) :
    newer (some b) g = some (Folds.pick GraphDefinition.createdAt b g) := by
  by_cases h : b.createdAt < g.createdAt
  · rw [newer, if_pos h, Folds.pick, if_pos h]
  · rw [newer, if_neg h, Folds.pick, if_neg h]

theorem newest_eq (s : Tables Blob) (name : Text) : s.newest name =
    ((s.graphs.entries.filter fun e => e.2.name = name).map fun e =>
      Tables.definition e.1 e.2).foldl newer none := rfl

theorem newest_firstGreatest {name : Text} {g : GraphDefinition} (h : s.newest name = some g) :
    Folds.FirstGreatest GraphDefinition.createdAt
      ((s.graphs.entries.filter fun e => e.2.name = name).map fun e => Tables.definition e.1 e.2) g :=
  Folds.firstGreatest_of_foldl (fun _ => rfl) newer_some h

theorem mem_named {name : Text} {g : GraphDefinition} :
    g ∈ ((s.graphs.entries.filter fun e => e.2.name = name).map fun e => Tables.definition e.1 e.2) ↔
      ∃ row, s.graphs.get g.id = some row ∧ row.name = name ∧ g = Tables.definition g.id row := by
  rw [List.mem_map]
  constructor
  · rintro ⟨e, he, rfl⟩
    obtain ⟨hmem, hname⟩ := List.mem_filter.1 he
    exact ⟨e.2, Dict.get_eq_some_iff.2 hmem, of_decide_eq_true hname, rfl⟩
  · rintro ⟨row, hrow, hname, heq⟩
    exact ⟨(g.id, row), List.mem_filter.2 ⟨Dict.get_eq_some_iff.1 hrow, decide_eq_true hname⟩, heq.symm⟩

/-- A graph with the name is found, and none with the name is newer. -/
theorem newest_le {name : Text} {g : GraphDefinition} (h : s.newest name = some g) {id : Text}
    {row : GraphRow Blob} (hrow : s.graphs.get id = some row) (hname : row.name = name) :
    row.createdAt ≤ g.createdAt :=
  (newest_firstGreatest h).le _ (Tables.definition id row) (mem_named.2 ⟨row, hrow, hname, rfl⟩)

theorem newest_named {name : Text} {g : GraphDefinition} (h : s.newest name = some g) :
    ∃ row, s.graphs.get g.id = some row ∧ row.name = name ∧ g = Tables.definition g.id row :=
  mem_named.1 ((newest_firstGreatest h).mem _)

theorem newest_eq_none {name : Text} (h : s.newest name = none) {id : Text} {row : GraphRow Blob}
    (hrow : s.graphs.get id = some row) : row.name ≠ name := by
  intro hname
  have hmem := mem_named.2 ⟨row, hrow, hname, (rfl : Tables.definition id row = Tables.definition id row)⟩
  rw [Folds.eq_nil_of_foldl_pick (fun _ => rfl) newer_some h] at hmem
  cases hmem

/-- A new graph counts for its own name only, and there if it is the newest. -/
theorem newest_setGraph {id : Text} (hid : s.graphs.get id = none) (row : GraphRow Blob) (name : Text) :
    (s.setGraph id row).newest name =
      if row.name = name then newer (s.newest name) (Tables.definition id row) else s.newest name := by
  have hentries : (s.setGraph id row).graphs.entries = s.graphs.entries ++ [(id, row)] :=
    Dict.entries_set_of_get_none hid row
  rw [newest_eq, newest_eq, hentries, List.filter_append, List.map_append, List.foldl_append]
  by_cases hname : row.name = name
  · simp only [List.filter_cons, hname, decide_true, if_true]
    rfl
  · simp only [List.filter_cons, hname, decide_false, Bool.false_eq_true, if_false]
    rfl

theorem newest_congr (h : t.graphs = s.graphs) (name : Text) : t.newest name = s.newest name := by
  rw [newest_eq, newest_eq, h]

theorem findGraphByName_ok {name : Text} {g : GraphDefinition} :
    Storage.findGraphByName name s = .ok g s ↔ s.newest name = some g := by
  rw [Storage.findGraphByName, get_bind]
  cases s.newest name with
  | none => exact iff_of_false (by rintro ⟨⟩) (by rintro ⟨⟩)
  | some b =>
    constructor
    · rintro ⟨⟩
      rfl
    · rintro ⟨⟩
      rfl

theorem resolveSubgraph_named {input : Text} {g : GraphDefinition} (h : s.newest input = some g) :
    Storage.resolveSubgraph input s = .ok g s := by
  rw [Storage.resolveSubgraph, bind_of_ok _ (attempt_of_ok (findGraphByName_ok.2 h))]
  rfl

/-- An input that is no name is read as an id. -/
theorem resolveSubgraph_unnamed {input : Text} (h : s.newest input = none) :
    Storage.resolveSubgraph input s = Storage.loadGraph input s := by
  have herror : Storage.findGraphByName input s = .error (.graphNotFound input) s := by
    rw [Storage.findGraphByName, get_bind, h]
    rfl
  rw [Storage.resolveSubgraph, bind_of_ok _ (attempt_of_error herror)]

theorem loadGraph_ok {id : Text} {g : GraphDefinition} : Storage.loadGraph id s = .ok g s ↔
    ∃ row, s.graphs.get id = some row ∧ g = Tables.definition id row := by
  rw [Storage.loadGraph, get_bind]
  cases s.graphs.get id with
  | none => exact iff_of_false (by rintro ⟨⟩) (by rintro ⟨_, ⟨⟩, _⟩)
  | some row =>
    constructor
    · intro h
      cases h
      exact ⟨row, rfl, rfl⟩
    · rintro ⟨row', hrow, rfl⟩
      cases hrow
      rfl

/-! ### The fork -/

/-- A fork that fails leaves the store as it is; one that succeeds adds a graph with its parent's
name, and at most one row of the child's own versions. -/
theorem forked_cases (s : Tables Blob) (childId now id forkNode code : Text) (label : Option Text) :
    (s.forked childId now id forkNode code label = s ∧
      (s.graphs.get id = none ∨ (s.graphs.get childId).isSome)) ∨
    ∃ p row, s.graphs.get id = some p ∧ s.graphs.get childId = none ∧ row.name = p.name ∧
      row.createdAt = now ∧
      (s.forked childId now id forkNode code label).graphs = (s.setGraph childId row).graphs ∧
      (s.forked childId now id forkNode code label).executions = s.executions ∧
      ∀ k, k.1 ≠ childId →
        (s.forked childId now id forkNode code label).versions.get k = s.versions.get k := by
  rw [Tables.forked, Storage.forkGraph]
  cases hp : s.graphs.get id with
  | none =>
    have herror : Storage.loadGraph id s = .error (.graphNotFound id) s := by
      rw [Storage.loadGraph, get_bind, hp]
      rfl
    rw [bind_of_error _ herror]
    exact Or.inl ⟨rfl, Or.inl rfl⟩
  | some p =>
    rw [bind_of_ok _ (loadGraph_ok.2 ⟨p, hp, rfl⟩)]
    cases hc : s.graphs.get childId with
    | some g =>
      rw [Storage.createForkGraph_error hc]
      exact Or.inl ⟨rfl, Or.inr rfl⟩
    | none =>
      refine Or.inr ⟨p, ⟨p.name, 1, "draft", code, none, none, some id, some forkNode, label, none, now,
        now⟩, rfl, rfl, rfl, rfl, ?_⟩
      cases hv : s.versions.get (childId, 1) with
      | none =>
        rw [Tables.definition, Storage.createForkGraph_ok hc hv]
        refine ⟨rfl, rfl, fun k hk => ?_⟩
        have hne : (childId, 1) ≠ k := fun heq => hk (congrArg Prod.fst heq.symm)
        rw [finalState, Tables.get_setVersion, if_neg hne, Tables.versions_setGraph]
      | some r =>
        rw [Tables.definition, Storage.createForkGraph, bind_of_ok _ (Storage.insertGraph_ok hc _ _),
          bind_of_error _ (Storage.insertVersion_error (s := s.setGraph childId _) hv _ _)]
        exact ⟨rfl, rfl, fun k _ => rfl⟩

/-- Behind a fork the graph that a lookup has found is found again, or the fork is found. -/
def Refound (s t : Tables Blob) (childId : Text) (shadowed : Prop)
    (lookup : StorageM Blob GraphDefinition) : Prop :=
  ∀ g, lookup s = .ok g s →
    (¬shadowed → lookup t = .ok g t) ∧ (shadowed → ∃ f, lookup t = .ok f t ∧ f.id = childId)

theorem kept_forked (s : Tables Blob) (childId now id forkNode code : Text) (label : Option Text) :
    Kept s (s.forked childId now id forkNode code label) := by
  rcases forked_cases s childId now id forkNode code label with
    ⟨heq, -⟩ | ⟨p, row, -, hc, -, -, hgraphs, hexecutions, hversions⟩
  · rw [heq]
    exact ⟨fun _ _ h => h, fun _ _ _ => rfl, rfl⟩
  · have hne : ∀ {id'}, (s.graphs.get id').isSome → id' ≠ childId := by
      rintro id' hsome rfl
      rw [hc] at hsome
      cases hsome
    refine ⟨fun id' g hg => ?_, fun id' hsome v => hversions (id', v) (hne hsome), hexecutions⟩
    rw [hgraphs, Tables.get_setGraph, if_neg (hne (hg ▸ rfl)).symm, hg]

/-- A name that has been found is found again, or the fork is found. -/
theorem newest_forked (s : Tables Blob) (childId now id forkNode code : Text) (label : Option Text)
    {name : Text} {g : GraphDefinition} (h : s.newest name = some g) :
    (¬Shadowed s childId now id name →
      (s.forked childId now id forkNode code label).newest name = some g) ∧
    (Shadowed s childId now id name →
      ∃ f, (s.forked childId now id forkNode code label).newest name = some f ∧ f.id = childId) := by
  rcases forked_cases s childId now id forkNode code label with
    ⟨heq, hfail⟩ | ⟨p, row, hp, hc, hname, hnow, hgraphs, -⟩
  · rw [heq]
    refine ⟨fun _ => h, fun hs => ?_⟩
    obtain ⟨hc, ⟨p, hp, -⟩, -⟩ := hs
    rcases hfail with hnone | hsome
    · rw [hp] at hnone
      cases hnone
    · rw [hc] at hsome
      cases hsome
  · rw [newest_congr hgraphs, newest_setGraph hc, h, hname]
    obtain ⟨b, hb, hbname, hg⟩ := newest_named h
    by_cases hpn : p.name = name
    · have hiff : Shadowed s childId now id name ↔ g.createdAt < now := by
        refine ⟨fun hs => ?_, fun hlt => ⟨hc, ⟨p, hp, hpn⟩, fun id' g' hg' hn' => ?_⟩⟩
        · rw [hg]
          exact hs.2.2 g.id b hb hbname
        · exact (newest_le h hg' hn').trans_lt hlt
      rw [if_pos hpn, newer_some, hiff]
      refine ⟨fun hnot => ?_, fun hlt => ⟨Tables.definition childId row, ?_, rfl⟩⟩
      · rw [Folds.pick, if_neg (by rw [Tables.definition, hnow]; exact hnot)]
      · rw [Folds.pick, if_pos (by rw [Tables.definition, hnow]; exact hlt)]
    · rw [if_neg hpn]
      refine ⟨fun _ => rfl, fun hs => ?_⟩
      obtain ⟨-, ⟨p', hp', hn'⟩, -⟩ := hs
      rw [hp] at hp'
      cases hp'
      exact absurd hn' hpn

/-- A graph that is known by its id only is not hidden by a fork. -/
theorem newest_forked_none (s : Tables Blob) (childId now id forkNode code : Text) (label : Option Text)
    {name : Text} (h : s.newest name = none) :
    ¬Shadowed s childId now id name ∧ (s.forked childId now id forkNode code label).newest name = none := by
  refine ⟨fun hs => ?_, ?_⟩
  · obtain ⟨-, ⟨p, hp, hname⟩, -⟩ := hs
    exact newest_eq_none h hp hname
  · rcases forked_cases s childId now id forkNode code label with
      ⟨heq, -⟩ | ⟨p, row, hp, hc, hname, -, hgraphs, -⟩
    · rw [heq, h]
    · rw [newest_congr hgraphs, newest_setGraph hc, h, hname, if_neg (newest_eq_none h hp)]

/-- Whatever the store holds, a fork leaves every graph its row, versions and plans, and a name or
an id means the graph it meant before; but the fork itself has the name of its parent, and is meant
by it when every graph of that name is older. -/
theorem fork_graph_frame (s : Tables Blob) (childId now id forkNode code : Text) (label : Option Text) :
    Kept s (s.forked childId now id forkNode code label) ∧
    ∀ input, Refound s (s.forked childId now id forkNode code label) childId
        (Shadowed s childId now id input) (Storage.findGraphByName input) ∧
      Refound s (s.forked childId now id forkNode code label) childId
        (Shadowed s childId now id input) (Storage.resolveSubgraph input) := by
  refine ⟨kept_forked s childId now id forkNode code label, fun input => ⟨fun g hg => ?_, fun g hg => ?_⟩⟩
  · obtain ⟨hsame, hfork⟩ := newest_forked s childId now id forkNode code label (findGraphByName_ok.1 hg)
    refine ⟨fun hnot => findGraphByName_ok.2 (hsame hnot), fun hs => ?_⟩
    obtain ⟨f, hf, hid⟩ := hfork hs
    exact ⟨f, findGraphByName_ok.2 hf, hid⟩
  · cases hnewest : s.newest input with
    | some b =>
      rw [resolveSubgraph_named hnewest] at hg
      cases hg
      obtain ⟨hsame, hfork⟩ := newest_forked s childId now id forkNode code label hnewest
      refine ⟨fun hnot => resolveSubgraph_named (hsame hnot), fun hs => ?_⟩
      obtain ⟨f, hf, hid⟩ := hfork hs
      exact ⟨f, resolveSubgraph_named hf, hid⟩
    | none =>
      obtain ⟨hnot, hnone⟩ := newest_forked_none s childId now id forkNode code label hnewest
      rw [resolveSubgraph_unnamed hnewest] at hg
      obtain ⟨row, hrow, heq⟩ := loadGraph_ok.1 hg
      refine ⟨fun _ => ?_, fun hs => absurd hs hnot⟩
      rw [resolveSubgraph_unnamed hnone]
      exact loadGraph_ok.2 ⟨row, (kept_forked s childId now id forkNode code label).graphs _ _ hrow, heq⟩

end Forks

/-- A graph that is called by its name, and another. -/
def pricing : Tables Unit :=
  ([.createGraph "g1" "1" "price" "old", .createGraph "g2" "2" "shop" "call"] : List (StorageOp Unit)).foldl
    StorageOp.step Tables.empty

def priceGraph : GraphDefinition :=
  ⟨"g1", "price", 1, "draft", "old", none, none, none, none, none, "1", "1"⟩

/-- The calls of the graph run the code of the draft. -/
theorem fork_taken_for_parent : ¬∀ (ops : List (StorageOp Unit)) (childId now id forkNode code : Text)
    (label : Option Text) (input : Text) (g : GraphDefinition),
    Storage.resolveSubgraph input (ops.foldl StorageOp.step Tables.empty) =
        .ok g (ops.foldl StorageOp.step Tables.empty) →
      Storage.resolveSubgraph input
          ((ops.foldl StorageOp.step Tables.empty).forked childId now id forkNode code label) =
        .ok g ((ops.foldl StorageOp.step Tables.empty).forked childId now id forkNode code label) := by
  intro h
  have hparent : pricing.newest "price" = some priceGraph := by rfl
  have hfork : ((pricing.forked "g3" "3" "g1" "n0" "draft" none).newest "price").map GraphDefinition.id =
      some ("g3" : Text) := by rfl
  have heq := h [.createGraph "g1" "1" "price" "old", .createGraph "g2" "2" "shop" "call"]
    "g3" "3" "g1" "n0" "draft" none "price" _ (resolveSubgraph_named hparent)
  cases hnewest : (pricing.forked "g3" "3" "g1" "n0" "draft" none).newest "price" with
  | none =>
    rw [hnewest] at hfork
    cases hfork
  | some f =>
    rw [hnewest] at hfork
    have hf := resolveSubgraph_named hnewest
    obtain rfl : f = priceGraph := (EStateM.Result.ok.inj (hf.symm.trans heq)).1
    revert hfork
    decide

/-- A fork of the other graph leaves the first where it was. -/
theorem fork_graph_frame_shop :
    Storage.resolveSubgraph "price" (pricing.forked "g3" "3" "g2" "n0" "draft" none) =
      .ok priceGraph (pricing.forked "g3" "3" "g2" "n0" "draft" none) := by
  have hparent : pricing.newest "price" = some priceGraph := by rfl
  refine (((fork_graph_frame pricing "g3" "3" "g2" "n0" "draft" none).2 "price").2 _
    (resolveSubgraph_named hparent)).1 fun hs => ?_
  obtain ⟨-, ⟨p, hp, hname⟩, -⟩ := hs
  have hshop : (pricing.graphs.get "g2").map GraphRow.name = some ("shop" : Text) := by rfl
  rw [hp, Option.map_some, hname] at hshop
  revert hshop
  decide

end Tinypipe
