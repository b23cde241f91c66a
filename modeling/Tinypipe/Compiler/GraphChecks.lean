import Tinypipe.Compiler.Validator
import Tinypipe.Lib.Kahn

/-! What the graph checks of the validator find out. -/

namespace Tinypipe

open Lib

namespace ExecutionPlan

theorem duplicateIds_eq_nil : ∀ (ids seen : List Text),
    duplicateIds seen ids = [] ↔ ids.Nodup ∧ ∀ id ∈ ids, id ∉ seen
  | [], _ => by simp [duplicateIds]
  | id :: ids, seen => by
    rw [duplicateIds]
    by_cases hseen : id ∈ seen
    · rw [if_pos hseen]
      exact iff_of_false (List.cons_ne_nil _ _) fun h => h.2 id List.mem_cons_self hseen
    · rw [if_neg hseen, duplicateIds_eq_nil ids, List.nodup_cons]
      constructor
      · rintro ⟨hnodup, hnew⟩
        refine ⟨⟨fun hid => hnew id hid List.mem_cons_self, hnodup⟩, fun x hx => ?_⟩
        rcases List.mem_cons.1 hx with rfl | hx
        · exact hseen
        · exact fun hmem => hnew x hx (List.mem_cons_of_mem _ hmem)
      · rintro ⟨⟨hid, hnodup⟩, hnew⟩
        refine ⟨hnodup, fun x hx hmem => ?_⟩
        rcases List.mem_cons.1 hmem with rfl | hmem
        · exact hid hx
        · exact hnew x (List.mem_cons_of_mem _ hx) hmem

variable {p : ExecutionPlan}

theorem duplicateErrors_eq_nil : p.duplicateErrors = [] ↔ p.ids.Nodup := by
  rw [duplicateErrors, List.map_eq_nil_iff, duplicateIds_eq_nil]
  exact and_iff_left fun _ _ => List.not_mem_nil

theorem danglingErrors_eq_nil : p.danglingErrors = [] ↔ ∀ e ∈ p.edges, e.fromId ∈ p.ids ∧ e.toId ∈ p.ids := by
  rw [danglingErrors, List.flatMap_eq_nil_iff]
  refine forall₂_congr fun e _ => ?_
  have single : ∀ {c : Prop} [Decidable c] (x : ValidationError), (if c then [] else [x]) = [] ↔ c := by
    intro c _ x
    by_cases hc : c
    · rw [if_pos hc]
      exact iff_of_true rfl hc
    · rw [if_neg hc]
      exact iff_of_false (List.cons_ne_nil _ _) hc
  rw [List.append_eq_nil_iff, single, single]

theorem mem_idsOf {op : Opcode} {id : Text} : id ∈ p.idsOf op ↔ ∃ nd ∈ p.nodes, nd.op = op ∧ nd.id = id := by
  simp only [idsOf, List.mem_map, List.mem_filter, decide_eq_true_eq, and_assoc]

/-- The edges that do not lead back to a LOOP. -/
def forwardEdges (p : ExecutionPlan) : List Edge := p.edges.filter fun e => e.toId ∉ p.idsOf .loop

theorem cycleErrors_eq_nil (hids : p.ids.Nodup) (hknown : ∀ e ∈ p.edges, e.fromId ∈ p.ids ∧ e.toId ∈ p.ids) :
    p.cycleErrors = [] ↔ Kahn.Acyclic (p.forwardEdges.map fun e => (e.fromId, e.toId)) := by
  have harcs : p.arcs p.forwardEdges = p.forwardEdges.map fun e => (e.fromId, e.toId) :=
    congrArg _ (List.filter_eq_self.2 fun e he => decide_eq_true (hknown e (List.mem_filter.1 he).1).2)
  have hto : ∀ a ∈ p.arcs p.forwardEdges, a.2 ∈ p.ids := by
    intro a ha
    obtain ⟨e, he, rfl⟩ := List.mem_map.1 ha
    exact of_decide_eq_true (List.mem_filter.1 he).2
  have hfrom : ∀ a ∈ p.arcs p.forwardEdges, a.1 ∈ p.ids := by
    intro a ha
    obtain ⟨e, he, rfl⟩ := List.mem_map.1 ha
    exact (hknown e (List.mem_filter.1 (List.mem_filter.1 he).1).1).1
  have hlength : p.nodes.length = p.ids.length := (List.length_map _).symm
  have hsort : (Kahn.sort p.ids (p.arcs p.forwardEdges)).length = p.nodes.length ↔
      Kahn.Acyclic (p.arcs p.forwardEdges) := by
    rw [hlength, Kahn.sort_length_iff hids hto]
    exact ⟨fun h => h.acyclic, fun h => ⟨hfrom, h⟩⟩
  rw [← harcs, ← hsort]
  by_cases hlen : (Kahn.sort p.ids (p.arcs p.forwardEdges)).length = p.nodes.length
  · have horder : p.orderOver p.forwardEdges = .ok (Kahn.sort p.ids (p.arcs p.forwardEdges)) := if_neg (not_not.2 hlen)
    have hnil : p.cycleErrors = [] := by
      unfold cycleErrors
      rw [← forwardEdges, horder]
    exact iff_of_true hnil hlen
  · have horder : p.orderOver p.forwardEdges = .error "Graph contains a cycle" := if_pos hlen
    have hcons : p.cycleErrors ≠ [] := by
      unfold cycleErrors
      rw [← forwardEdges, horder]
      exact List.cons_ne_nil _ _
    exact iff_of_false hcons hlen

/-- On some path from a node without incoming edges. -/
def Rooted (p : ExecutionPlan) (id : Text) : Prop :=
  ∃ root ∈ p.ids, (∀ e ∈ p.edges, e.toId ≠ root) ∧ Reach.Path p.allArcs root id

theorem mem_roots {id : Text} : id ∈ p.roots ↔ id ∈ p.ids ∧ ∀ e ∈ p.edges, e.toId ≠ id := by
  simp [roots]

theorem reachabilityErrors_eq_nil : p.reachabilityErrors = [] ↔ ∀ id ∈ p.ids, p.Rooted id := by
  rw [reachabilityErrors, List.map_eq_nil_iff, List.filter_eq_nil_iff]
  refine forall₂_congr fun id _ => ?_
  rw [decide_eq_true_eq, not_not, Reach.mem_reachable]
  constructor
  · rintro ⟨root, hroot, hpath⟩
    exact ⟨root, (mem_roots.1 hroot).1, (mem_roots.1 hroot).2, hpath⟩
  · rintro ⟨root, hroot, hin, hpath⟩
    exact ⟨root, mem_roots.2 ⟨hroot, hin⟩, hpath⟩

/-- Reachable along data edges from the target of an unconditional data edge of a LOOP. -/
def InLoopBody (p : ExecutionPlan) (id : Text) : Prop :=
  ∃ e ∈ p.edges, (∃ nd ∈ p.nodes, nd.op = .loop ∧ nd.id = e.fromId) ∧ e.condition = none ∧ e.kind = .data ∧
    Reach.Path p.dataArcs e.toId id

theorem mem_loopBodyIds {id : Text} : id ∈ p.loopBodyIds ↔ p.InLoopBody id := by
  rw [loopBodyIds, Reach.mem_reachable]
  constructor
  · rintro ⟨start, hstart, hpath⟩
    obtain ⟨e, he, rfl⟩ := List.mem_map.1 hstart
    obtain ⟨he, hcond⟩ := List.mem_filter.1 he
    simp only [Bool.and_eq_true, decide_eq_true_eq, Option.isNone_iff_eq_none] at hcond
    exact ⟨e, he, mem_idsOf.1 hcond.1.1, hcond.1.2, hcond.2, hpath⟩
  · rintro ⟨e, he, hloop, hcond, hkind, hpath⟩
    refine ⟨e.toId, List.mem_map.2 ⟨e, List.mem_filter.2 ⟨he, ?_⟩, rfl⟩, hpath⟩
    simp only [Bool.and_eq_true, decide_eq_true_eq, Option.isNone_iff_eq_none]
    exact ⟨⟨mem_idsOf.2 hloop, hcond⟩, hkind⟩

/-- An ACT or an ERROR. -/
def Terminal (p : ExecutionPlan) (id : Text) : Prop := ∃ nd ∈ p.nodes, (nd.op = .act ∨ nd.op = .error) ∧ nd.id = id

theorem mem_terminalIds {id : Text} : id ∈ p.terminalIds ↔ p.Terminal id := by
  simp only [terminalIds, isTerminalOpcode, List.mem_map, List.mem_filter, Bool.or_eq_true, decide_eq_true_eq,
    and_assoc, Terminal]

/-- Some path from the node ends in an ACT, an ERROR, a LOOP or a loop body. -/
def Exits (p : ExecutionPlan) (id : Text) : Prop :=
  ∃ target, Reach.Path p.allArcs id target ∧
    (p.Terminal target ∨ (∃ nd ∈ p.nodes, nd.op = .loop ∧ nd.id = target) ∨ p.InLoopBody target)

theorem canReachAny_iff {id : Text} : p.canReachAny id ((p.terminalIds ++ p.idsOf .loop).toFinset ∪ p.loopBodyIds) =
    true ↔ p.Exits id := by
  rw [canReachAny, decide_eq_true_eq, ← Finset.nonempty_iff_ne_empty]
  constructor
  · rintro ⟨target, htarget⟩
    obtain ⟨hreach, hin⟩ := Finset.mem_inter.1 htarget
    obtain ⟨start, hstart, hpath⟩ := Reach.mem_reachable.1 hreach
    obtain rfl := List.mem_singleton.1 hstart
    refine ⟨target, hpath, ?_⟩
    rcases Finset.mem_union.1 hin with hin | hin
    · rcases List.mem_append.1 (List.mem_toFinset.1 hin) with hin | hin
      · exact .inl (mem_terminalIds.1 hin)
      · exact .inr (.inl (mem_idsOf.1 hin))
    · exact .inr (.inr (mem_loopBodyIds.1 hin))
  · rintro ⟨target, hpath, hin⟩
    refine ⟨target, Finset.mem_inter.2 ⟨Reach.mem_reachable.2 ⟨id, List.mem_singleton_self id, hpath⟩, ?_⟩⟩
    rcases hin with hin | hin | hin
    · exact Finset.mem_union_left _ (List.mem_toFinset.2 (List.mem_append_left _ (mem_terminalIds.2 hin)))
    · exact Finset.mem_union_left _ (List.mem_toFinset.2 (List.mem_append_right _ (mem_idsOf.2 hin)))
    · exact Finset.mem_union_right _ (mem_loopBodyIds.2 hin)

theorem outEdges_isEmpty {id : Text} : (p.outEdges id).isEmpty = false ↔ ∃ e ∈ p.edges, e.fromId = id := by
  rw [outEdges, List.isEmpty_eq_false_iff, ne_eq, List.filter_eq_nil_iff]
  simp

theorem terminalErrors_eq_nil : p.terminalErrors = [] ↔ (∃ id, p.Terminal id) ∧
    ∀ nd ∈ p.nodes, (∃ e ∈ p.edges, e.fromId = nd.id) → ¬p.InLoopBody nd.id → p.Exits nd.id := by
  rw [terminalErrors, List.append_eq_nil_iff, List.map_eq_nil_iff, List.filter_eq_nil_iff]
  refine and_congr ?_ (forall₂_congr fun nd _ => ?_)
  · by_cases hnil : p.terminalIds = []
    · rw [if_pos hnil]
      refine iff_of_false (List.cons_ne_nil _ _) ?_
      rintro ⟨id, hid⟩
      have hmem := mem_terminalIds.2 hid
      rw [hnil] at hmem
      cases hmem
    · rw [if_neg hnil]
      obtain ⟨id, hid⟩ := List.exists_mem_of_ne_nil _ hnil
      exact iff_of_true rfl ⟨id, mem_terminalIds.1 hid⟩
  · simp only [Bool.and_eq_true, decide_eq_true_eq, Bool.not_eq_true', ← Bool.not_eq_true, not_and, not_not]
    rw [Bool.not_eq_true, outEdges_isEmpty, mem_terminalIds, mem_loopBodyIds, canReachAny_iff]
    constructor
    · intro h hout hbody
      by_cases hterminal : p.Terminal nd.id
      · exact ⟨nd.id, Relation.ReflTransGen.refl, .inl hterminal⟩
      · exact h ⟨⟨hterminal, hbody⟩, hout⟩
    · exact fun h hcond => h hcond.2 hcond.1.2

end ExecutionPlan

theorem ids_nodup_of_validate {p : ExecutionPlan} (h : validate p = .ok ()) : p.ids.Nodup := by
  refine ExecutionPlan.duplicateErrors_eq_nil.1 ?_
  simp only [validate] at h
  split at h
  · cases h
  case isFalse hs => exact (List.append_eq_nil_iff.1 (not_not.1 hs)).1

/-! ### The report -/

def graphMessages : List Text :=
  ["duplicate node id", "edge references unknown ", "cycle detected: ",
   "node is not reachable from any INPUT node", "plan has no terminal nodes (ACT or ERROR)",
   "node cannot reach any terminal node (ACT or ERROR)"]

/-- An error of one of the graph checks. -/
def ValidationError.isGraph (e : ValidationError) : Bool := graphMessages.any fun m => m.isPrefixOf e.message

namespace ExecutionPlan

variable {p : ExecutionPlan}

/-- What the checks of the graph report, once ids and edges are in order. -/
def graphErrors (p : ExecutionPlan) : List ValidationError := p.cycleErrors ++ p.reachabilityErrors ++ p.terminalErrors

def zeroErrors (p : ExecutionPlan) : List ValidationError :=
  if p.nodes = [] then [⟨"<plan>", "execution plan has zero nodes"⟩] else []

/-- What the checks behind them report. -/
def argumentErrors (p : ExecutionPlan) : List ValidationError :=
  p.nodes.flatMap validateNodeArgs ++ p.nodes.flatMap (fun nd => edgeErrors (p.outEdges nd.id) nd) ++
    p.nodes.flatMap inputErrors ++ p.nodes.flatMap (selfCycleErrors p.metadata.subgraphDependencies) ++
      nestingErrors p

theorem structural_isGraph : ∀ e ∈ p.duplicateErrors ++ p.danglingErrors, e.isGraph = true := by
  intro e he
  rcases List.mem_append.1 he with he | he
  · obtain ⟨id, -, rfl⟩ := List.mem_map.1 he
    rfl
  · obtain ⟨edge, -, he⟩ := List.mem_flatMap.1 he
    rcases List.mem_append.1 he with he | he
    · split at he
      · cases he
      · rw [List.mem_singleton.1 he]
        rfl
    · split at he
      · cases he
      · rw [List.mem_singleton.1 he]
        rfl

theorem graphErrors_isGraph : ∀ e ∈ p.graphErrors, e.isGraph = true := by
  intro e he
  rcases List.mem_append.1 he with he | he
  · rcases List.mem_append.1 he with he | he
    · rw [cycleErrors] at he
      split at he
      · cases he
      · rw [List.mem_singleton.1 he]
        rfl
    · obtain ⟨id, -, rfl⟩ := List.mem_map.1 he
      rfl
  · rcases List.mem_append.1 he with he | he
    · split at he
      · rw [List.mem_singleton.1 he]
        rfl
      · cases he
    · obtain ⟨nd, -, rfl⟩ := List.mem_map.1 he
      rfl

/-- None of the errors is one of a graph check. -/
def NoGraph (errors : List ValidationError) : Prop := ∀ e ∈ errors, e.isGraph = false

theorem NoGraph.append {l l' : List ValidationError} (h : NoGraph l) (h' : NoGraph l') : NoGraph (l ++ l') :=
  List.forall_mem_append.2 ⟨h, h'⟩

theorem NoGraph.single {c : Prop} [Decidable c] {e : ValidationError} (h : e.isGraph = false) :
    NoGraph (if c then [e] else []) := by
  intro x hx
  split at hx
  · rwa [List.mem_singleton.1 hx]
  · cases hx

theorem NoGraph.unless {c : Prop} [Decidable c] {e : ValidationError} (h : e.isGraph = false) :
    NoGraph (if c then [] else [e]) := by
  intro x hx
  split at hx
  · cases hx
  · rwa [List.mem_singleton.1 hx]

theorem NoGraph.map {α : Type} {l : List α} {f : α → ValidationError} (h : ∀ a, (f a).isGraph = false) :
    NoGraph (l.map f) := by
  intro x hx
  obtain ⟨a, -, rfl⟩ := List.mem_map.1 hx
  exact h a

theorem NoGraph.flatMap {α : Type} {l : List α} {f : α → List ValidationError} (h : ∀ a, NoGraph (f a)) :
    NoGraph (l.flatMap f) := by
  intro x hx
  obtain ⟨a, -, hx⟩ := List.mem_flatMap.1 hx
  exact h a x hx

theorem validateNodeArgs_noGraph (nd : Node) : NoGraph (validateNodeArgs nd) := by
  refine NoGraph.map fun key => ?_
  cases nd.op with
  | _ => rfl

theorem edgeErrors_noGraph (out : List Edge) (nd : Node) : NoGraph (edgeErrors out nd) := by
  unfold edgeErrors
  split
  · exact (((NoGraph.single rfl).append (.unless rfl)).append (.unless rfl)).append (.map fun _ => rfl)
  · exact (((NoGraph.single rfl).append (.unless rfl)).append (.unless rfl)).append (.map fun _ => rfl)
  · exact .single rfl
  · exact (NoGraph.single rfl).append (.map fun _ => rfl)
  all_goals exact (NoGraph.map fun _ => rfl).append (.map fun _ => rfl)

theorem argumentErrors_noGraph : NoGraph p.argumentErrors := by
  refine ((((NoGraph.flatMap validateNodeArgs_noGraph).append (.flatMap fun nd => edgeErrors_noGraph _ nd)).append
    (.flatMap fun nd => .single rfl)).append (.flatMap fun nd => ?_)).append (.single rfl)
  unfold selfCycleErrors
  split
  · exact fun e he => by cases he
  · exact .single rfl

/-- The ids are unique, the edges join nodes, without the edges into LOOPs there is no cycle, every node is on
a path from a node without incoming edges, and there is a way out of every node. -/
structure GraphValid (p : ExecutionPlan) : Prop where
  unique : p.ids.Nodup
  known : ∀ e ∈ p.edges, e.fromId ∈ p.ids ∧ e.toId ∈ p.ids
  acyclic : Kahn.Acyclic (p.forwardEdges.map fun e => (e.fromId, e.toId))
  rooted : ∀ id ∈ p.ids, p.Rooted id
  terminal : ∃ id, p.Terminal id
  exits : ∀ nd ∈ p.nodes, (∃ e ∈ p.edges, e.fromId = nd.id) → ¬p.InLoopBody nd.id → p.Exits nd.id

theorem graphErrors_eq_nil (hids : p.ids.Nodup) (hknown : ∀ e ∈ p.edges, e.fromId ∈ p.ids ∧ e.toId ∈ p.ids) :
    p.graphErrors = [] ↔ p.GraphValid := by
  rw [graphErrors, List.append_eq_nil_iff, List.append_eq_nil_iff, cycleErrors_eq_nil hids hknown,
    reachabilityErrors_eq_nil, terminalErrors_eq_nil]
  constructor
  · rintro ⟨⟨hacyclic, hrooted⟩, hterminal, hexits⟩
    exact ⟨hids, hknown, hacyclic, hrooted, hterminal, hexits⟩
  · exact fun h => ⟨⟨h.acyclic, h.rooted⟩, h.terminal, h.exits⟩

theorem validate_eq (hids : p.ids.Nodup) (hknown : ∀ e ∈ p.edges, e.fromId ∈ p.ids ∧ e.toId ∈ p.ids) :
    validate p = if p.zeroErrors ++ (p.graphErrors ++ p.argumentErrors) = [] then .ok ()
      else .error (p.zeroErrors ++ (p.graphErrors ++ p.argumentErrors)) := by
  have hstructural : ¬p.duplicateErrors ++ p.danglingErrors ≠ [] := not_not.2
    (List.append_eq_nil_iff.2 ⟨duplicateErrors_eq_nil.2 hids, danglingErrors_eq_nil.2 hknown⟩)
  simp only [validate, if_neg hstructural, graphErrors, argumentErrors, zeroErrors, List.append_assoc]

end ExecutionPlan

/-- The validator reports no error of a graph check exactly if the graph is in order. -/
theorem graph_checks_exact (p : ExecutionPlan) :
    (∀ errors, validate p = .error errors → ∀ e ∈ errors, e.isGraph = false) ↔ p.GraphValid := by
  by_cases hstructural : p.duplicateErrors ++ p.danglingErrors = []
  · obtain ⟨hdup, hdangling⟩ := List.append_eq_nil_iff.1 hstructural
    have hids := ExecutionPlan.duplicateErrors_eq_nil.1 hdup
    have hknown := ExecutionPlan.danglingErrors_eq_nil.1 hdangling
    have hzero : ExecutionPlan.NoGraph p.zeroErrors := .single rfl
    rw [← ExecutionPlan.graphErrors_eq_nil hids hknown, ExecutionPlan.validate_eq hids hknown]
    constructor
    · intro h
      refine List.eq_nil_iff_forall_not_mem.2 fun e he => ?_
      have hmem := List.mem_append_right p.zeroErrors (List.mem_append_left p.argumentErrors he)
      rw [if_neg (List.ne_nil_of_mem hmem)] at h
      exact Bool.false_ne_true ((h _ rfl e hmem).symm.trans (ExecutionPlan.graphErrors_isGraph e he))
    · intro hnil errors herrors e he
      rw [hnil, List.nil_append] at herrors
      split at herrors
      · cases herrors
      · cases herrors
        exact hzero.append ExecutionPlan.argumentErrors_noGraph e he
  · refine iff_of_false (fun h => ?_) fun h => hstructural ?_
    · have hvalidate : validate p = .error (p.duplicateErrors ++ p.danglingErrors) := by
        simp only [validate, if_pos hstructural]
      obtain ⟨e, he⟩ := List.exists_mem_of_ne_nil _ hstructural
      exact Bool.false_ne_true ((h _ hvalidate e he).symm.trans (ExecutionPlan.structural_isGraph e he))
    · exact List.append_eq_nil_iff.2 ⟨ExecutionPlan.duplicateErrors_eq_nil.2 h.unique,
        ExecutionPlan.danglingErrors_eq_nil.2 h.known⟩

end Tinypipe
