import Tinypipe.Ir.PlanView

/-! The projection of a plan to its visible nodes is the plan with the hidden nodes contracted. A view
is built unless a label is cut inside a character or the hidden nodes form a cycle. -/

namespace Tinypipe.PlanView

open Lib Lib.Frontier

/-! ### Labels -/

/-- The expression is too long to show, and its 48th byte does not end a character. -/
def CutExpr (expr : Text) : Prop :=
  dictSummary (Text.trim expr) = none ∧ 48 < Text.utf8Len (Text.trim expr) ∧
    ∀ p, p <+: Text.trim expr → Text.utf8Len p ≠ 48

/-- A calculation whose label shows such an expression. -/
def CutsInside (nd : CompiledNode) : Prop := nd.op = .calc ∧ CutExpr ((arg nd "expr").getD [])

theorem slicePrefix_eq_none_iff {n : Nat} {t : Text} :
    Text.slicePrefix n t = none ↔ ∀ p, p <+: t → Text.utf8Len p ≠ n := by
  rw [Option.eq_none_iff_forall_ne_some]
  refine forall_congr' fun p => ?_
  rw [Ne, Text.slicePrefix_eq_some_iff, not_and]

theorem shortenExpr_eq_none_iff {expr : Text} : shortenExpr expr = none ↔ CutExpr expr := by
  rw [shortenExpr, CutExpr]
  cases hsummary : dictSummary (Text.trim expr) with
  | some summary => simp
  | none =>
    by_cases hlong : 48 < Text.utf8Len (Text.trim expr)
    · simp [hlong, slicePrefix_eq_none_iff]
    · simp [hlong]

/-- A shortened expression is a prefix of the trimmed one with an ellipsis. -/
theorem shortenExpr_prefix {expr s : Text} (h : shortenExpr expr = some s)
    (hsummary : dictSummary (Text.trim expr) = none) (hlong : 48 < Text.utf8Len (Text.trim expr)) :
    ∃ p, p <+: Text.trim expr ∧ Text.utf8Len p = 48 ∧ s = p ++ ['…'] := by
  simp only [shortenExpr, hsummary, if_pos hlong, Option.map_eq_some_iff] at h
  obtain ⟨p, hp, rfl⟩ := h
  obtain ⟨hpre, hlen⟩ := Text.slicePrefix_eq_some_iff.1 hp
  exact ⟨p, hpre, hlen, rfl⟩

theorem not_cutExpr_nil : ¬CutExpr [] := by
  rintro ⟨-, hlong, -⟩
  exact absurd hlong (by decide)

theorem calcLabel_eq_none_iff {nd : CompiledNode} : calcLabel nd = none ↔ CutExpr ((arg nd "expr").getD []) := by
  rw [calcLabel]
  generalize (arg nd "expr").getD [] = expr
  by_cases hexpr : expr = []
  · subst hexpr
    cases arg nd "output" <;> simp [not_cutExpr_nil]
  · cases arg nd "output" <;> simp [hexpr, shortenExpr_eq_none_iff]

theorem semanticLabel_eq_none_iff {u : Casing} {nd : CompiledNode} : semanticLabel u nd = none ↔ CutsInside nd := by
  rw [semanticLabel, Option.map_eq_none_iff, CutsInside]
  cases hop : nd.op <;> simp only [reduceCtorEq, false_and, true_and, calcLabel_eq_none_iff]

/-- A node of the view shows a node of the plan. -/
structure Shows (u : Casing) (nd : CompiledNode) (n : ViewNode) : Prop where
  index : n.index = nd.index
  groupId : n.groupId = nd.groupId
  label : semanticLabel u nd = some (n.label, n.shape)

theorem viewNodes_isSome_iff {u : Casing} {hidden : Finset Nat} {nds : List CompiledNode} :
    (viewNodes u hidden nds).isSome ↔ ∀ nd ∈ nds, nd.index ∉ hidden → ¬CutsInside nd := by
  induction nds with
  | nil => simp [viewNodes]
  | cons nd nds ih =>
    rw [viewNodes, List.forall_mem_cons, ← ih]
    by_cases hin : nd.index ∈ hidden
    · simp [hin]
    · simp only [hin, if_false, not_false_eq_true, forall_true_left, ← semanticLabel_eq_none_iff (u := u)]
      cases semanticLabel u nd <;> simp

theorem viewNodes_shows {u : Casing} {hidden : Finset Nat} : ∀ {nds : List CompiledNode} {ns : List ViewNode},
    viewNodes u hidden nds = some ns → List.Forall₂ (Shows u) (nds.filter fun nd => nd.index ∉ hidden) ns := by
  intro nds
  induction nds with
  | nil =>
    intro ns h
    obtain rfl : [] = ns := Option.some.inj h
    exact List.Forall₂.nil
  | cons nd nds ih =>
    intro ns h
    rw [viewNodes] at h
    by_cases hin : nd.index ∈ hidden
    · rw [if_pos hin] at h
      simpa [hin] using ih h
    · rw [if_neg hin] at h
      obtain ⟨x, hx, hrest⟩ := Option.bind_eq_some_iff.1 h
      obtain ⟨rest, hmap, rfl⟩ := Option.map_eq_some_iff.1 hrest
      rw [List.filter_cons_of_pos (by simpa using hin)]
      exact List.Forall₂.cons ⟨rfl, rfl, hx⟩ (ih hmap)

/-! ### Edges -/

namespace Linking

theorem mem_seenAny {st : Linking} {p : Nat × Nat} : p ∈ st.seenAny ↔ p ∈ st.pairs := by
  rw [pairs, ← st.seen, List.mem_reverse]

theorem nodup_pairs (st : Linking) : st.pairs.Nodup := by
  rw [pairs, ← st.seen]
  exact List.nodup_reverse.2 st.distinct

theorem mem_insert {st : Linking} {e : ViewEdge} {p : Nat × Nat} :
    p ∈ (st.insert e).pairs ↔ p ∈ st.pairs ∨ p = e.ends := by
  rw [insert]
  split
  case isTrue h =>
    refine ⟨Or.inl, Or.rec id ?_⟩
    rintro rfl
    exact mem_seenAny.1 h
  case isFalse h => simp [pairs]

end Linking

theorem mem_linkEdge {e : CompiledEdge} {src dst : Nat} {st : Linking} {p : Nat × Nat} :
    p ∈ (linkEdge e src st dst).pairs ↔ p ∈ st.pairs ∨ p.1 ≠ p.2 ∧ p = (src, dst) := by
  rw [linkEdge]
  by_cases hends : src = dst
  · rw [if_pos hends]
    refine ⟨Or.inl, Or.rec id ?_⟩
    rintro ⟨hne, rfl⟩
    exact absurd hends hne
  · rw [if_neg hends]
    split
    case isTrue hseen =>
      refine ⟨Or.inl, Or.rec id ?_⟩
      rintro ⟨-, rfl⟩
      exact Linking.mem_seenAny.1 hseen.2
    case isFalse =>
      rw [Linking.mem_insert]
      refine or_congr_right ⟨?_, And.right⟩
      rintro rfl
      exact ⟨hends, rfl⟩

theorem mem_foldl_linkEdge {e : CompiledEdge} {src : Nat} {p : Nat × Nat} {ls : List Nat} {st : Linking} :
    p ∈ (ls.foldl (linkEdge e src) st).pairs ↔ p ∈ st.pairs ∨ p.1 ≠ p.2 ∧ p.1 = src ∧ p.2 ∈ ls := by
  induction ls generalizing st with
  | nil => simp
  | cons dst ls ih =>
    rw [List.foldl_cons, ih, mem_linkEdge, or_assoc, Prod.ext_iff, List.mem_cons]
    refine or_congr_right ?_
    tauto

theorem mem_linkRoots {leaves : Option (List Nat)} {e : CompiledEdge} {p : Nat × Nat} :
    ∀ {roots : List Nat} {st st' : Linking}, linkRoots leaves e roots st = some st' →
      (p ∈ st'.pairs ↔ p ∈ st.pairs ∨ p.1 ≠ p.2 ∧ p.1 ∈ roots ∧ ∃ ls, leaves = some ls ∧ p.2 ∈ ls) := by
  intro roots
  induction roots with
  | nil =>
    intro st st' h
    obtain rfl : st = st' := Option.some.inj h
    simp
  | cons src roots ih =>
    intro st st' h
    obtain ⟨ls, rfl, hrest⟩ := Option.bind_eq_some_iff.1 h
    rw [ih hrest, mem_foldl_linkEdge, or_assoc, List.mem_cons]
    refine or_congr_right ?_
    simp only [Option.some.injEq, exists_eq_left']
    tauto

theorem leaves_of_linkRoots {leaves : Option (List Nat)} {e : CompiledEdge} {src : Nat} {roots : List Nat}
    {st st' : Linking} (h : linkRoots leaves e roots st = some st') (hsrc : src ∈ roots) : ∃ ls, leaves = some ls := by
  cases roots with
  | nil => cases hsrc
  | cons src' roots =>
    obtain ⟨ls, hls, -⟩ := Option.bind_eq_some_iff.1 h
    exact ⟨ls, hls⟩

theorem linkRoots_isSome (ls : List Nat) (e : CompiledEdge) (roots : List Nat) (st : Linking) :
    (linkRoots (some ls) e roots st).isSome := by
  induction roots generalizing st with
  | nil => rfl
  | cons src roots ih => exact ih _

section Edges

variable {plan : CompiledPlan} {hidden : Finset Nat} {fuel : Nat}

/-- The edge is drawn between two visible nodes. -/
def Joins (plan : CompiledPlan) (hidden : Finset Nat) (p : Nat × Nat) (e : CompiledEdge) : Prop :=
  (p.1 ∉ hidden ∧ Relation.ReflTransGen (Step hidden (turned (planArcs plan))) e.fromIndex p.1) ∧
    (p.2 ∉ hidden ∧ Relation.ReflTransGen (Step hidden (planArcs plan)) e.toIndex p.2)

theorem mem_projectEdges {p : Nat × Nat} : ∀ {es : List CompiledEdge} {st st' : Linking},
    projectEdges fuel plan hidden es st = some st' →
      (p ∈ st'.pairs ↔ p ∈ st.pairs ∨ p.1 ≠ p.2 ∧ ∃ e ∈ es, Joins plan hidden p e) := by
  intro es
  induction es with
  | nil =>
    intro st st' h
    obtain rfl : st = st' := Option.some.inj h
    simp
  | cons e es ih =>
    intro st st' h
    obtain ⟨roots, hroots, hlink⟩ := Option.bind_eq_some_iff.1 h
    obtain ⟨mid, hmid, hrest⟩ := Option.bind_eq_some_iff.1 hlink
    have hjoins : (p.1 ∈ roots ∧ ∃ ls, visibleLeaves fuel plan hidden e.toIndex = some ls ∧ p.2 ∈ ls) ↔
        Joins plan hidden p e := by
      rw [Joins, ← mem_frontier hroots]
      refine and_congr_right fun hsrc => ?_
      obtain ⟨ls, hls⟩ := leaves_of_linkRoots hmid hsrc
      rw [← mem_frontier hls, hls]
      simp only [Option.some.injEq, exists_eq_left']
    rw [ih hrest, mem_linkRoots hmid, or_assoc, hjoins, ← and_or_left, List.exists_mem_cons_iff]

theorem projectEdges_isSome (h : Acyclic (Step hidden (planArcs plan))) (hfuel : plan.edges.length < fuel)
    (es : List CompiledEdge) (st : Linking) : (projectEdges fuel plan hidden es st).isSome := by
  have hlength : (planArcs plan).length < fuel := by
    rw [planArcs, List.length_map]
    exact hfuel
  have hback : (turned (planArcs plan)).length < fuel := by
    rw [turned, List.length_map]
    exact hlength
  induction es generalizing st with
  | nil => rfl
  | cons e es ih =>
    obtain ⟨roots, hroots⟩ := Option.isSome_iff_exists.1 (frontier_isSome (acyclic_turned.2 h) hback e.fromIndex)
    obtain ⟨ls, hls⟩ := Option.isSome_iff_exists.1 (frontier_isSome h hlength e.toIndex)
    obtain ⟨mid, hmid⟩ := Option.isSome_iff_exists.1 (linkRoots_isSome ls e roots st)
    rw [projectEdges, visibleRoots, hroots, Option.bind_some, visibleLeaves, hls, hmid, Option.bind_some]
    exact ih mid

theorem visibleRoots_isSome {e : CompiledEdge} : ∀ {es : List CompiledEdge} {st st' : Linking},
    projectEdges fuel plan hidden es st = some st' → e ∈ es → (visibleRoots fuel plan hidden e.fromIndex).isSome := by
  intro es
  induction es with
  | nil => exact fun _ he => absurd he List.not_mem_nil
  | cons e' es ih =>
    intro st st' h he
    obtain ⟨roots, hroots, hlink⟩ := Option.bind_eq_some_iff.1 h
    obtain ⟨mid, -, hrest⟩ := Option.bind_eq_some_iff.1 hlink
    rcases List.mem_cons.1 he with rfl | he
    · rw [hroots]
      rfl
    · exact ih hrest he

/-- The loop ends only when no cycle of hidden nodes is in its way. -/
theorem acyclic_of_projectEdges {st st' : Linking} (h : projectEdges fuel plan hidden plan.edges st = some st') :
    Acyclic (Step hidden (planArcs plan)) := by
  intro x hcycle
  obtain ⟨y, hstep, -⟩ := Relation.TransGen.head'_iff.1 hcycle
  obtain ⟨e, he, hends⟩ := List.mem_map.1 hstep.2
  have hroots := visibleRoots_isSome h he
  have hfrom : e.fromIndex = x := congrArg Prod.fst hends
  rw [visibleRoots, hfrom, frontier_eq_none_of_cycle (cycle_turned hcycle)] at hroots
  cases hroots

/-- What the edges of a projection join. -/
theorem exists_joins_iff {p : Nat × Nat} :
    (∃ e ∈ plan.edges, Joins plan hidden p e) ↔ Link hidden (planArcs plan) p.1 p.2 := by
  constructor
  · rintro ⟨e, he, ⟨hsrc, hback⟩, hdst, hon⟩
    exact ⟨hsrc, hdst, through_of_ends (List.mem_map.2 ⟨e, he, rfl⟩) hback hon⟩
  · rintro ⟨hsrc, hdst, c, hc, hpath⟩
    obtain ⟨e, he, hends⟩ := List.mem_map.1 hc
    obtain ⟨hfrom, hto⟩ := Prod.mk.inj hends
    refine ⟨e, he, ⟨hsrc, ?_⟩, hdst, ?_⟩
    · rw [hfrom]
    · rw [hto]
      exact hpath

end Edges

/-! ### The projection -/

/-- The view has an edge between the nodes. -/
def ViewGraph.Connects (view : ViewGraph) (a b : Nat) : Prop := ∃ e ∈ view.edges, e.ends = (a, b)

/-- The view is the plan with the hidden nodes contracted. -/
structure Faithful (u : Casing) (plan : CompiledPlan) (hidden : Finset Nat) (view : ViewGraph) : Prop where
  nodes : List.Forall₂ (Shows u) (plan.nodes.filter fun nd => nd.index ∉ hidden) view.nodes
  once : (view.edges.map ViewEdge.ends).Nodup
  path : ∀ a b, view.Connects a b → a ∉ hidden ∧ b ∉ hidden ∧ Through hidden (planArcs plan) a b
  connected : ∀ a b, a ∉ hidden → b ∉ hidden →
    (Relation.TransGen view.Connects a b ↔ Relation.TransGen (Arc (planArcs plan)) a b)

theorem project_eq_some {u : Casing} {fuel : Nat} {plan : CompiledPlan} {hidden : Finset Nat} {view : ViewGraph}
    (h : project u fuel plan hidden = some view) :
    ∃ nodes st, viewNodes u hidden plan.nodes = some nodes ∧
      projectEdges fuel plan hidden plan.edges Linking.empty = some st ∧
      view = { nodes := nodes, edges := st.edges, groups := plan.groups } := by
  obtain ⟨nodes, hnodes, hrest⟩ := Option.bind_eq_some_iff.1 h
  obtain ⟨st, hst, rfl⟩ := Option.map_eq_some_iff.1 hrest
  exact ⟨nodes, st, hnodes, hst, rfl⟩

theorem connects_iff {u : Casing} {fuel : Nat} {plan : CompiledPlan} {hidden : Finset Nat} {view : ViewGraph}
    (h : project u fuel plan hidden = some view) (a b : Nat) :
    view.Connects a b ↔ a ≠ b ∧ Link hidden (planArcs plan) a b := by
  obtain ⟨nodes, st, -, hst, rfl⟩ := project_eq_some h
  rw [ViewGraph.Connects, ← List.mem_map, ← Linking.pairs, mem_projectEdges hst, exists_joins_iff]
  exact or_iff_right List.not_mem_nil

/-- Of an acyclic plan every view is faithful. -/
theorem faithful_of_project {u : Casing} {fuel : Nat} {plan : CompiledPlan} {hidden : Finset Nat} {view : ViewGraph}
    (hacyclic : Acyclic (Arc (planArcs plan))) (h : project u fuel plan hidden = some view) :
    Faithful u plan hidden view := by
  have hconnects : view.Connects = Link hidden (planArcs plan) := by
    funext a b
    refine propext ((connects_iff h a b).trans (and_iff_right_of_imp fun hlink => ?_))
    rintro rfl
    exact hacyclic a hlink.2.2.path
  obtain ⟨nodes, st, hnodes, hst, rfl⟩ := project_eq_some h
  refine ⟨viewNodes_shows hnodes, st.nodup_pairs, fun a b hab => ?_, fun a b ha hb => ?_⟩
  · rw [hconnects] at hab
    exact hab
  · rw [hconnects]
    exact connected_iff ha hb

/-- The projection returns exactly when no label is cut and no cycle is hidden. -/
theorem project_isSome_iff {u : Casing} {plan : CompiledPlan} {hidden : Finset Nat} :
    (∃ fuel view, project u fuel plan hidden = some view) ↔
      (∀ nd ∈ plan.nodes, nd.index ∉ hidden → ¬CutsInside nd) ∧ Acyclic (Step hidden (planArcs plan)) := by
  constructor
  · rintro ⟨fuel, view, h⟩
    obtain ⟨nodes, st, hnodes, hst, -⟩ := project_eq_some h
    exact ⟨viewNodes_isSome_iff.1 (Option.isSome_of_eq_some hnodes), acyclic_of_projectEdges hst⟩
  · rintro ⟨hlabels, hacyclic⟩
    obtain ⟨nodes, hnodes⟩ := Option.isSome_iff_exists.1 ((viewNodes_isSome_iff (u := u)).2 hlabels)
    obtain ⟨st, hst⟩ := Option.isSome_iff_exists.1
      (projectEdges_isSome hacyclic (Nat.lt_succ_self _) plan.edges Linking.empty)
    refine ⟨plan.edges.length + 1, { nodes := nodes, edges := st.edges, groups := plan.groups }, ?_⟩
    rw [project, hnodes, Option.bind_some, hst, Option.map_some]

theorem hidden_acyclic {plan : CompiledPlan} {hidden : Finset Nat} (h : Acyclic (Arc (planArcs plan))) :
    Acyclic (Step hidden (planArcs plan)) :=
  fun x hcycle => h x (hcycle.lift id fun _ _ hstep => hstep.2)

/-- An acyclic plan has a faithful view unless a visible label is cut. -/
theorem project_reachability (u : Casing) (plan : CompiledPlan) (hidden : Finset Nat)
    (hacyclic : Acyclic (Arc (planArcs plan))) :
    (∃ fuel view, project u fuel plan hidden = some view ∧ Faithful u plan hidden view) ↔
      ∀ nd ∈ plan.nodes, nd.index ∉ hidden → ¬CutsInside nd := by
  constructor
  · rintro ⟨fuel, view, h, -⟩
    exact (project_isSome_iff.1 ⟨fuel, view, h⟩).1
  · intro hlabels
    obtain ⟨fuel, view, h⟩ := project_isSome_iff.2 ⟨hlabels, hidden_acyclic hacyclic⟩
    exact ⟨fuel, view, h, faithful_of_project hacyclic h⟩

/-- A plan over nodes given by index, opcode and arguments. -/
def planOf (nodes : List (Nat × Opcode × Option Nat × List (Text × Text))) (arcs : List (Nat × Nat)) (groups : List Text) :
    CompiledPlan where
  version := 4
  nodes := nodes.map fun n =>
    { index := n.1, id := Text.ofNat n.1, op := n.2.1, args := n.2.2.2.map fun a => ⟨a.1, a.2⟩,
      inferredType := none, branchId := none, groupId := n.2.2.1 }
  edges := arcs.map fun a =>
    { fromIndex := a.1, toIndex := a.2, condition := none, mapping := none, priority := none, label := none, kind := .data }
  metadata := Metadata.default
  idMap := none
  groups := groups

/-- An input, a constant that feeds the result, and the result. -/
def feedPlan : CompiledPlan :=
  planOf [(0, .input, none, [("name", "user")]), (1, .calc, none, [("expr", "user")]), (2, .act, none, [("type", "return")])]
    [(0, 1), (1, 2), (0, 2)] []

theorem acyclic_feedPlan : Acyclic (Arc (planArcs feedPlan)) :=
  acyclic_of_lt id fun a b h => (by decide : ∀ e ∈ planArcs feedPlan, e.1 < e.2) (a, b) h

theorem project_reachability_feed :
    ∃ fuel view, project Casing.asciiOnly fuel feedPlan (hiddenNodes feedPlan) = some view ∧
      Faithful Casing.asciiOnly feedPlan (hiddenNodes feedPlan) view := by
  refine (project_reachability _ feedPlan _ acyclic_feedPlan).2 fun nd hnd hvisible hcut => hvisible ?_
  have hcalc : ∀ nd ∈ feedPlan.nodes, nd.op = .calc → nd.index ∈ hiddenNodes feedPlan := by decide +kernel
  exact hcalc nd hnd hcut.1

/-- A calculation whose expression has the letter ş as its 48th and 49th byte. -/
def cutPlan : CompiledPlan :=
  planOf [(0, .calc, none, [("expr", List.replicate 47 'a' ++ ['ş', '1']), ("output", "total")])] [] []

theorem cutsInside_cutPlan : ∀ nd ∈ cutPlan.nodes, CutsInside nd := by
  intro nd hnd
  obtain rfl := List.mem_singleton.1 hnd
  exact ⟨rfl, by decide +kernel, by decide +kernel, slicePrefix_eq_none_iff.1 (by decide +kernel)⟩

theorem project_cut_label : Acyclic (Arc (planArcs cutPlan)) ∧ 0 ∉ hiddenNodes cutPlan ∧
    ¬∃ fuel view, project Casing.asciiOnly fuel cutPlan (hiddenNodes cutPlan) = some view ∧
      Faithful Casing.asciiOnly cutPlan (hiddenNodes cutPlan) view := by
  have hvisible : 0 ∉ hiddenNodes cutPlan := by decide +kernel
  refine ⟨acyclic_of_lt id fun a b h => absurd h List.not_mem_nil, hvisible, ?_⟩
  rintro ⟨fuel, view, h, -⟩
  have hlabels := (project_isSome_iff.1 ⟨fuel, view, h⟩).1 _ List.mem_cons_self
  exact hlabels hvisible (cutsInside_cutPlan _ List.mem_cons_self)

/-! ### Views -/

/-- The view is built, and what a label leaves out of an expression it leaves out at the end. -/
structure Renders (u : Casing) (plan : CompiledPlan) (level : ViewLevel) : Prop where
  returns : ∃ fuel view, buildView u fuel plan level = some view
  truncated : ∀ expr s, shortenExpr expr = some s → dictSummary (Text.trim expr) = none →
    48 < Text.utf8Len (Text.trim expr) → ∃ p, p <+: Text.trim expr ∧ s = p ++ ['…']

theorem buildView_isSome_iff (u : Casing) (plan : CompiledPlan) (level : ViewLevel) :
    (∃ fuel view, buildView u fuel plan level = some view) ↔
      ∃ fuel view, project u fuel plan (hiddenNodes plan) = some view := by
  refine exists_congr fun fuel => ⟨?_, ?_⟩
  · rintro ⟨view, h⟩
    obtain ⟨projected, hprojected, -⟩ := Option.map_eq_some_iff.1 h
    exact ⟨projected, hprojected⟩
  · rintro ⟨view, h⟩
    rw [buildView, h]
    exact ⟨_, rfl⟩

/-- Building a view ends well exactly when no visible expression is cut inside a character and no
hidden nodes form a cycle. -/
theorem buildView_renders_iff (u : Casing) (plan : CompiledPlan) (level : ViewLevel) :
    Renders u plan level ↔ (∀ nd ∈ plan.nodes, nd.index ∉ hiddenNodes plan → ¬CutsInside nd) ∧
      Acyclic (Step (hiddenNodes plan) (planArcs plan)) := by
  rw [← project_isSome_iff (u := u), ← buildView_isSome_iff u plan level]
  refine ⟨Renders.returns, fun h => ⟨h, fun expr s hs hsummary hlong => ?_⟩⟩
  obtain ⟨p, hpre, -, heq⟩ := shortenExpr_prefix hs hsummary hlong
  exact ⟨p, hpre, heq⟩

/-- Two names that feed each other. -/
def feedbackPlan : CompiledPlan :=
  planOf [(0, .calc, none, [("expr", "x")]), (1, .calc, none, [("expr", "y")])] [(0, 1), (1, 0)] []

theorem buildView_fails : (¬∃ fuel view, buildView Casing.asciiOnly fuel cutPlan .full = some view) ∧
    ¬∃ fuel view, buildView Casing.asciiOnly fuel feedbackPlan .full = some view := by
  rw [buildView_isSome_iff, buildView_isSome_iff, project_isSome_iff, project_isSome_iff]
  refine ⟨fun h => ?_, fun h => h.2 0 ?_⟩
  · exact h.1 _ List.mem_cons_self (by decide +kernel) (cutsInside_cutPlan _ List.mem_cons_self)
  · have hthere : Step (hiddenNodes feedbackPlan) (planArcs feedbackPlan) 0 1 := ⟨by decide +kernel, List.mem_cons_self⟩
    have hback : Step (hiddenNodes feedbackPlan) (planArcs feedbackPlan) 1 0 :=
      ⟨by decide +kernel, List.mem_cons_of_mem _ List.mem_cons_self⟩
    exact (Relation.TransGen.single hthere).tail hback

end Tinypipe.PlanView
