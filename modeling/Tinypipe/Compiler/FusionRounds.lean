import Tinypipe.Compiler.Substitution

/-! The rounds of calc fusion (`calc_fusion`, `tinypipe-compiler/src/backend/optimize.rs`). A round
that changes something inlines the definition of one node into another, and removes it. -/

namespace Tinypipe

open Lib

namespace Optimize

theorem fusionPass_ids (nodes : List Node) (edges : List Edge) :
    ∀ (l : List Node) (removed : List Text),
      ((fusionPass nodes edges l removed).1.map Node.id).Sublist (l.map Node.id)
  | [], _ => List.Sublist.refl _
  | nd :: rest, removed => by
    unfold fusionPass
    split
    · exact (fusionPass_ids nodes edges rest removed).cons _
    · -- the rewritten node keeps its id
      have hid : ∀ (r : Node × List Text), r.1.id = nd.id →
          (((r.1 :: (fusionPass nodes edges rest r.2).1)).map Node.id).Sublist
            ((nd :: rest).map Node.id) := by
        intro r hr
        rw [List.map_cons, List.map_cons, hr]
        exact (fusionPass_ids nodes edges rest r.2).cons_cons _
      refine hid _ ?_
      split
      · split
        · split
          split <;> rfl
        · rfl
      · rfl

theorem fuse_ids (edges : List Edge) : ∀ (fuel : Nat) (nodes : List Node) (fused : Nat),
    ((fuse edges fuel nodes fused).1.map Node.id).Sublist (nodes.map Node.id)
  | 0, _, _ => List.Sublist.refl _
  | fuel + 1, nodes, fused => by
    unfold fuse
    split
    case h_1 out removed hpass =>
      have hout : (out.map Node.id).Sublist (nodes.map Node.id) := by
        have := fusionPass_ids nodes edges nodes []
        rwa [hpass] at this
      split
      · exact List.Sublist.refl _
      · exact (fuse_ids edges fuel _ _).trans ((List.filter_sublist.map _).trans hout)

theorem calcFusion_ids (p : ExecutionPlan) : ((calcFusion p).1.ids).Sublist p.ids := by
  unfold calcFusion
  exact fuse_ids p.edges (p.nodes.length + 1) p.nodes 0

/-- What the loop over the variables of an expression keeps. -/
structure Inlining where
  inlined : Text
  localChanged : Bool
  toRemove : List Text

def pushNew (toRemove : List Text) (id : Text) : List Text := if id ∈ toRemove then toRemove else toRemove ++ [id]

/-- `for var in &vars`; `none` is a panic, here and below. -/
def inlineLoop (nodes : List Node) (edges : List Edge) (nd : Node) : List Text → Inlining → Option Inlining
  | [], st => some st
  | var :: vars, st =>
    match inlinable nodes edges nd var with
    | some (id, def_) =>
      (replaceVarLoop (st.inlined.length + 1) st.inlined var def_).bind fun newInlined =>
        if newInlined ≠ st.inlined then
          inlineLoop nodes edges nd vars ⟨newInlined, true, pushNew st.toRemove id⟩
        else inlineLoop nodes edges nd vars st
    | none => inlineLoop nodes edges nd vars st

/-- What a round over the nodes keeps. -/
structure Round where
  newNodes : List Node
  toRemove : List Text
  changed : Bool

def roundLoop (nodes : List Node) (edges : List Edge) : List Node → Round → Option Round
  | [], r => some r
  | nd :: rest, r =>
    if nd.id ∈ r.toRemove then roundLoop nodes edges rest r
    else
      match (if nd.op = .calc then exprOf nd else none) with
      | some expr =>
        if expr ≠ [] ∧ isConstantExpression expr = false then
          (inlineLoop nodes edges nd (extractVariables expr) ⟨expr, false, r.toRemove⟩).bind fun st =>
            if st.localChanged then
              roundLoop nodes edges rest
                ⟨r.newNodes ++ [{ nd with args := setExpr st.inlined nd.args }], st.toRemove, true⟩
            else roundLoop nodes edges rest ⟨r.newNodes ++ [nd], st.toRemove, r.changed⟩
        else roundLoop nodes edges rest { r with newNodes := r.newNodes ++ [nd] }
      | none => roundLoop nodes edges rest { r with newNodes := r.newNodes ++ [nd] }

/-- `while changed`; `none` also when more rounds are needed. -/
def fuseLoop (edges : List Edge) : (rounds : Nat) → List Node → (fused : Nat) → Option (List Node × Nat)
  | 0, _, _ => none
  | rounds + 1, nodes, fused =>
    (roundLoop nodes edges nodes ⟨[], [], false⟩).bind fun r =>
      if r.changed then
        fuseLoop edges rounds (r.newNodes.filter fun nd => nd.id ∉ r.toRemove) (fused + r.toRemove.length)
      else some (nodes, fused)

def calcFusionLoop (rounds : Nat) (p : ExecutionPlan) : Option (ExecutionPlan × Nat) :=
  (fuseLoop p.edges rounds p.nodes 0).map fun r =>
    ({ p with nodes := r.1, edges := keptEdges r.1 p.edges }, r.2)

section Rounds

variable {nodes : List Node} {edges : List Edge} {nd : Node}

theorem mem_pushNew {toRemove : List Text} {id x : Text} : x ∈ pushNew toRemove id ↔ x ∈ toRemove ∨ x = id := by
  rw [pushNew]
  split
  case isTrue hmem =>
    refine ⟨Or.inl, fun h => h.elim (fun hx => hx) fun hx => hx ▸ hmem⟩
  case isFalse => rw [List.mem_append, List.mem_singleton]

theorem mem_foldl_pushNew {toRemove used : List Text} {x : Text} :
    x ∈ used.foldl pushNew toRemove ↔ x ∈ toRemove ∨ x ∈ used := by
  induction used generalizing toRemove with
  | nil => simp
  | cons id used ih => rw [List.foldl_cons, ih, mem_pushNew, or_assoc, List.mem_cons]

/-- The loop does what `inlineVars` says, and does not panic. -/
theorem inlineLoop_eq (removed : List Text) : ∀ (vars : List Text), (∀ var ∈ vars, IsName var) →
    ∀ (expr : Text) (used : List Text),
      inlineLoop nodes edges nd vars ⟨expr, decide (used ≠ []), used.foldl pushNew removed⟩ =
        some ⟨(inlineVars nodes edges nd vars expr used).1,
          decide ((inlineVars nodes edges nd vars expr used).2 ≠ []),
          (inlineVars nodes edges nd vars expr used).2.foldl pushNew removed⟩ := by
  intro vars
  induction vars with
  | nil => exact fun _ _ _ => rfl
  | cons var vars ih =>
    intro hnames expr used
    have hrest : ∀ v ∈ vars, IsName v := fun v hv => hnames v (List.mem_cons_of_mem _ hv)
    rw [inlineLoop, inlineVars]
    cases inlinable nodes edges nd var with
    | none => exact ih hrest expr used
    | some d =>
      obtain ⟨id, def_⟩ := d
      dsimp only
      rw [replaceVarLoop_eq (hnames var List.mem_cons_self) (Nat.lt_succ_self _), Option.bind_some]
      split
      case isFalse => exact ih hrest expr used
      case isTrue =>
        have hpush : pushNew (used.foldl pushNew removed) id =
            (if id ∈ used then used else used ++ [id]).foldl pushNew removed := by
          by_cases hmem : id ∈ used
          · rw [if_pos hmem, pushNew, if_pos (mem_foldl_pushNew.2 (Or.inr hmem))]
          · rw [if_neg hmem, List.foldl_append, List.foldl_cons, List.foldl_nil]
        have hne : (if id ∈ used then used else used ++ [id]) ≠ [] := by
          split
          · rintro rfl
            contradiction
          · simp
        rw [hpush, ← ih hrest, decide_eq_true hne]

theorem fusionPass_skip {rest : List Node} {removed : List Text} (h : nd.id ∈ removed) :
    fusionPass nodes edges (nd :: rest) removed = fusionPass nodes edges rest removed := by
  rw [fusionPass, if_pos h]

/-- The expression in which a round inlines. -/
def candidate (nd : Node) : Option Text :=
  (if nd.op = .calc then exprOf nd else none).filter fun expr =>
    decide (expr ≠ [] ∧ isConstantExpression expr = false)

/-- What is inlined into a node: its new expression and the definitions used. -/
def inlining (nodes : List Node) (edges : List Edge) (nd : Node) : Option (Text × List Text) :=
  ((candidate nd).map fun expr => inlineVars nodes edges nd (extractVariables expr) expr []).filter
    fun r => decide (r.2 ≠ [])

theorem candidate_eq_some {expr : Text} : candidate nd = some expr ↔
    (if nd.op = .calc then exprOf nd else none) = some expr ∧ expr ≠ [] ∧ isConstantExpression expr = false := by
  rw [candidate, Option.filter_eq_some_iff, decide_eq_true_iff]

theorem candidate_eq_none : candidate nd = none ↔ ∀ expr, (if nd.op = .calc then exprOf nd else none) = some expr →
    ¬(expr ≠ [] ∧ isConstantExpression expr = false) := by
  rw [candidate, Option.filter_eq_none_iff]
  simp only [decide_eq_true_eq]

theorem inlining_eq_some {r : Text × List Text} : inlining nodes edges nd = some r ↔ ∃ expr,
    candidate nd = some expr ∧ inlineVars nodes edges nd (extractVariables expr) expr [] = r ∧ r.2 ≠ [] := by
  rw [inlining, Option.filter_eq_some_iff, Option.map_eq_some_iff, decide_eq_true_iff]
  exact ⟨fun ⟨⟨expr, hc, hr⟩, hne⟩ => ⟨expr, hc, hr, hne⟩, fun ⟨expr, hc, hr, hne⟩ => ⟨⟨expr, hc, hr⟩, hne⟩⟩

theorem inlining_eq_none : inlining nodes edges nd = none ↔ ∀ expr, candidate nd = some expr →
    (inlineVars nodes edges nd (extractVariables expr) expr []).2 = [] := by
  rw [inlining, Option.filter_eq_none_iff]
  simp

variable {rest : List Node} {removed : List Text}

theorem fusionPass_inline (h : nd.id ∉ removed) {r : Text × List Text} (hr : inlining nodes edges nd = some r) :
    fusionPass nodes edges (nd :: rest) removed =
      ({ nd with args := setExpr r.1 nd.args } :: (fusionPass nodes edges rest (r.2.foldl pushNew removed)).1,
        (fusionPass nodes edges rest (r.2.foldl pushNew removed)).2) := by
  obtain ⟨expr, hc, hinline, hne⟩ := inlining_eq_some.1 hr
  obtain ⟨hexpr, hfit⟩ := candidate_eq_some.1 hc
  rw [fusionPass, if_neg h]
  simp only [hexpr, if_pos hfit, hinline, if_neg hne]
  rfl

theorem fusionPass_keep (h : nd.id ∉ removed) (hr : inlining nodes edges nd = none) :
    fusionPass nodes edges (nd :: rest) removed =
      (nd :: (fusionPass nodes edges rest removed).1, (fusionPass nodes edges rest removed).2) := by
  rw [fusionPass, if_neg h]
  cases hexpr : (if nd.op = .calc then exprOf nd else none) with
  | none => rfl
  | some expr =>
    by_cases hfit : expr ≠ [] ∧ isConstantExpression expr = false
    · have hempty := inlining_eq_none.1 hr expr (candidate_eq_some.2 ⟨hexpr, hfit⟩)
      simp only [if_pos hfit, hempty, if_true]
    · simp only [if_neg hfit]

/-- A round does what `fusionPass` says; it has changed something if it removes something. -/
theorem roundLoop_eq (l : List Node) : ∀ (newNodes : List Node) (toRemove : List Text),
    roundLoop nodes edges l ⟨newNodes, toRemove, decide (toRemove ≠ [])⟩ =
      some ⟨newNodes ++ (fusionPass nodes edges l toRemove).1, (fusionPass nodes edges l toRemove).2,
        decide ((fusionPass nodes edges l toRemove).2 ≠ [])⟩ := by
  induction l with
  | nil =>
    intro newNodes toRemove
    rw [roundLoop, fusionPass, List.append_nil]
  | cons nd rest ih =>
    intro newNodes toRemove
    by_cases hmem : nd.id ∈ toRemove
    · rw [roundLoop, if_pos hmem, ih, fusionPass_skip hmem]
    rw [roundLoop, if_neg hmem]
    have hkeep : ∀ tr ch, tr = toRemove → ch = decide (toRemove ≠ []) → inlining nodes edges nd = none →
        roundLoop nodes edges rest ⟨newNodes ++ [nd], tr, ch⟩ =
          some ⟨newNodes ++ (fusionPass nodes edges (nd :: rest) toRemove).1,
            (fusionPass nodes edges (nd :: rest) toRemove).2,
            decide ((fusionPass nodes edges (nd :: rest) toRemove).2 ≠ [])⟩ := by
      rintro _ _ rfl rfl hnone
      rw [ih, fusionPass_keep hmem hnone, List.append_assoc, List.singleton_append]
    cases hexpr : (if nd.op = .calc then exprOf nd else none) with
    | none =>
      refine hkeep _ _ rfl rfl (inlining_eq_none.2 fun expr hc => ?_)
      rw [candidate_eq_some, hexpr] at hc
      cases hc.1
    | some expr =>
      dsimp only
      by_cases hfit : expr ≠ [] ∧ isConstantExpression expr = false
      · have hc : candidate nd = some expr := candidate_eq_some.2 ⟨hexpr, hfit⟩
        have hloop := @inlineLoop_eq nodes edges nd toRemove (extractVariables expr)
          (fun var hvar => isName_extractVariables hvar) expr []
        rw [if_pos hfit]
        rw [List.foldl_nil] at hloop
        rw [show decide (([] : List Text) ≠ []) = false from rfl] at hloop
        rw [hloop, Option.bind_some]
        by_cases hused : (inlineVars nodes edges nd (extractVariables expr) expr []).2 = []
        · have hnone : inlining nodes edges nd = none := by
            refine inlining_eq_none.2 fun expr' hc' => ?_
            rw [hc] at hc'
            cases hc'
            exact hused
          rw [if_neg (by simp [hused])]
          exact hkeep _ _ (by rw [hused]; rfl) rfl hnone
        · have hsome := inlining_eq_some.2 ⟨expr, hc, rfl, hused⟩
          have hpushed : (inlineVars nodes edges nd (extractVariables expr) expr []).2.foldl pushNew toRemove ≠ [] := by
            obtain ⟨id, hid⟩ := List.exists_mem_of_ne_nil _ hused
            exact List.ne_nil_of_mem (mem_foldl_pushNew.2 (Or.inr hid))
          rw [if_pos (decide_eq_true hused), ← decide_eq_true hpushed, ih, fusionPass_inline hmem hsome,
            List.append_assoc, List.singleton_append]
      · rw [if_neg hfit]
        refine hkeep _ _ rfl rfl (inlining_eq_none.2 fun expr' hc' => ?_)
        rw [candidate_eq_some, hexpr] at hc'
        cases hc'.1
        exact absurd hc'.2 hfit

/-! ### A round that changes something -/

theorem definingNode_mem {var : Text} {d : Node} (h : definingNode nodes var = some d) : d ∈ nodes :=
  List.mem_reverse.1 (List.mem_of_find?_eq_some h)

theorem inlinable_spec {var id def_ : Text} (h : inlinable nodes edges nd var = some (id, def_)) :
    ∃ d ∈ nodes, d.id = id ∧ exprOf d = some def_ ∧ var ∉ extractVariables def_ := by
  rw [inlinable] at h
  cases hd : definingNode nodes var with
  | none =>
    rw [hd] at h
    cases h
  | some d =>
    rw [hd] at h
    dsimp only at h
    split at h
    case isFalse => cases h
    case isTrue =>
      cases hexpr : exprOf d with
      | none =>
        rw [hexpr] at h
        cases h
      | some expr =>
        rw [hexpr] at h
        dsimp only at h
        split at h
        case isTrue => cases h
        case isFalse hvar =>
          cases h
          exact ⟨d, definingNode_mem hd, rfl, hexpr, hvar⟩

theorem mem_inlineVars {id : Text} (vars : List Text) : ∀ {expr : Text} {used : List Text},
    id ∈ (inlineVars nodes edges nd vars expr used).2 →
      id ∈ used ∨ ∃ var ∈ vars, ∃ def_, inlinable nodes edges nd var = some (id, def_) := by
  induction vars with
  | nil => exact fun h => Or.inl h
  | cons var vars ih =>
    intro expr used h
    have hlater : ∀ {expr used}, id ∈ (inlineVars nodes edges nd vars expr used).2 →
        id ∈ used ∨ ∃ v ∈ var :: vars, ∃ def_, inlinable nodes edges nd v = some (id, def_) := fun h =>
      (ih h).imp_right fun ⟨v, hv, hdef⟩ => ⟨v, List.mem_cons_of_mem _ hv, hdef⟩
    rw [inlineVars] at h
    cases hin : inlinable nodes edges nd var with
    | none =>
      rw [hin] at h
      exact hlater h
    | some d =>
      obtain ⟨id', def_⟩ := d
      rw [hin] at h
      dsimp only at h
      split at h
      case isFalse => exact hlater h
      case isTrue =>
        refine (hlater h).elim (fun hmem => ?_) Or.inr
        rcases mem_pushNew.1 hmem with hmem | rfl
        · exact Or.inl hmem
        · exact Or.inr ⟨var, List.mem_cons_self, def_, hin⟩

/-- What is inlined into a node is the definition of another one. -/
theorem inlining_other {r : Text × List Text} (h : inlining nodes edges nd = some r) {id : Text} (hid : id ∈ r.2) :
    ∃ d ∈ nodes, d.id = id ∧ d ≠ nd := by
  obtain ⟨expr, hc, hinline, -⟩ := inlining_eq_some.1 h
  have hexpr := (candidate_eq_some.1 hc).1
  rw [← hinline] at hid
  rcases mem_inlineVars _ hid with hid | ⟨var, hvar, def_, hin⟩
  · cases hid
  · obtain ⟨d, hd, rfl, hdef, hnot⟩ := inlinable_spec hin
    refine ⟨d, hd, rfl, ?_⟩
    rintro rfl
    split at hexpr
    case isTrue =>
      rw [hdef] at hexpr
      cases hexpr
      exact hnot hvar
    case isFalse => cases hexpr

theorem mem_fusionPass_removed {id : Text} (l : List Node) : ∀ {removed : List Text},
    id ∈ (fusionPass nodes edges l removed).2 → id ∈ removed ∨ ∃ nd ∈ l, ∃ d ∈ nodes, d.id = id ∧ d ≠ nd := by
  induction l with
  | nil => exact fun h => Or.inl h
  | cons nd rest ih =>
    intro removed h
    have hlater : ∀ {removed}, id ∈ (fusionPass nodes edges rest removed).2 →
        id ∈ removed ∨ ∃ n ∈ nd :: rest, ∃ d ∈ nodes, d.id = id ∧ d ≠ n := fun h =>
      (ih h).imp_right fun ⟨n, hn, hd⟩ => ⟨n, List.mem_cons_of_mem _ hn, hd⟩
    by_cases hmem : nd.id ∈ removed
    · rw [fusionPass_skip hmem] at h
      exact hlater h
    cases hin : inlining nodes edges nd with
    | none =>
      rw [fusionPass_keep hmem hin] at h
      exact hlater h
    | some r =>
      rw [fusionPass_inline hmem hin] at h
      refine (hlater h).elim (fun hid => ?_) Or.inr
      exact (mem_foldl_pushNew.1 hid).imp_right fun hid => ⟨nd, List.mem_cons_self, inlining_other hin hid⟩

/-- The nodes behind a round. -/
def fusedNodes (nodes : List Node) (edges : List Edge) : List Node :=
  (fusionPass nodes edges nodes []).1.filter fun nd => nd.id ∉ (fusionPass nodes edges nodes []).2

theorem two_le_length {l : List Node} {a b : Node} (ha : a ∈ l) (hb : b ∈ l) (hne : a ≠ b) : 2 ≤ l.length := by
  cases l with
  | nil => cases ha
  | cons x xs =>
    cases xs with
    | nil => exact absurd ((List.mem_singleton.1 ha).trans (List.mem_singleton.1 hb).symm) hne
    | cons y ys => simp

/-- It takes two nodes, and leaves less. -/
theorem length_fusedNodes_lt (h : (fusionPass nodes edges nodes []).2 ≠ []) :
    2 ≤ nodes.length ∧ (fusedNodes nodes edges).length < nodes.length := by
  obtain ⟨id, hid⟩ := List.exists_mem_of_ne_nil _ h
  obtain ⟨nd, hnd, d, hd, rfl, hne⟩ := (mem_fusionPass_removed nodes hid).resolve_left List.not_mem_nil
  refine ⟨?_, ?_⟩
  · exact two_le_length hd hnd hne
  · have hids := ((fusionPass_ids nodes edges nodes []).filter fun id => id ∉ (fusionPass nodes edges nodes []).2).length_le
    have hgone : ((nodes.map Node.id).filter fun id => id ∉ (fusionPass nodes edges nodes []).2).length <
        (nodes.map Node.id).length := by
      refine List.length_filter_lt_length_iff_exists.2 ⟨d.id, List.mem_map_of_mem hd, ?_⟩
      simp [hid]
    rw [List.filter_map, List.length_map] at hids
    rw [List.length_map] at hgone
    exact hids.trans_lt hgone

theorem fuse_succ (edges : List Edge) (fuel : Nat) (nodes : List Node) (fused : Nat) :
    fuse edges (fuel + 1) nodes fused =
      if (fusionPass nodes edges nodes []).2 = [] then (nodes, fused)
      else fuse edges fuel (fusedNodes nodes edges) (fused + (fusionPass nodes edges nodes []).2.length) := rfl

theorem fuseLoop_succ (edges : List Edge) (rounds : Nat) (nodes : List Node) (fused : Nat) :
    fuseLoop edges (rounds + 1) nodes fused =
      if (fusionPass nodes edges nodes []).2 = [] then some (nodes, fused)
      else fuseLoop edges rounds (fusedNodes nodes edges) (fused + (fusionPass nodes edges nodes []).2.length) := by
  have hround := @roundLoop_eq nodes edges nodes [] []
  rw [show decide (([] : List Text) ≠ []) = false from rfl] at hround
  rw [fuseLoop, hround, Option.bind_some]
  by_cases h : (fusionPass nodes edges nodes []).2 = []
  · rw [if_pos h, if_neg (by simp [h])]
  · rw [if_neg h, if_pos (decide_eq_true h)]
    rfl

/-- Each round but the last one pays with a node. -/
theorem fuseLoop_eq (n : Nat) : ∀ {nodes : List Node} (fused : Nat), nodes.length ≤ n + 1 →
    ∃ r, ∀ rounds, n + 1 ≤ rounds →
      fuseLoop edges rounds nodes fused = some r ∧ fuse edges rounds nodes fused = r := by
  induction n with
  | zero =>
    intro nodes fused hlen
    have hnil : (fusionPass nodes edges nodes []).2 = [] := by
      by_contra h
      have := (length_fusedNodes_lt h).1
      omega
    refine ⟨(nodes, fused), fun rounds hrounds => ?_⟩
    obtain ⟨rounds, rfl⟩ := Nat.exists_eq_succ_of_ne_zero (Nat.ne_of_gt hrounds)
    rw [fuseLoop_succ, fuse_succ, if_pos hnil, if_pos hnil]
    exact ⟨rfl, rfl⟩
  | succ n ih =>
    intro nodes fused hlen
    by_cases hnil : (fusionPass nodes edges nodes []).2 = []
    · refine ⟨(nodes, fused), fun rounds hrounds => ?_⟩
      obtain ⟨rounds, rfl⟩ := Nat.exists_eq_succ_of_ne_zero (Nat.ne_of_gt (Nat.lt_of_lt_of_le (Nat.succ_pos _) hrounds))
      rw [fuseLoop_succ, fuse_succ, if_pos hnil, if_pos hnil]
      exact ⟨rfl, rfl⟩
    · have hlt := (length_fusedNodes_lt hnil).2
      obtain ⟨r, hr⟩ := @ih (fusedNodes nodes edges) (fused + (fusionPass nodes edges nodes []).2.length) (by omega)
      refine ⟨r, fun rounds hrounds => ?_⟩
      obtain ⟨rounds, rfl⟩ := Nat.exists_eq_succ_of_ne_zero (Nat.ne_of_gt (Nat.lt_of_lt_of_le (Nat.succ_pos _) hrounds))
      rw [fuseLoop_succ, fuse_succ, if_neg hnil, if_neg hnil]
      exact hr rounds (Nat.le_of_succ_le_succ hrounds)

end Rounds

/-- Without a node one round still looks for a change. -/
theorem empty_round : ¬∀ p : ExecutionPlan, ∃ r, calcFusionLoop p.nodes.length p = some r := by
  intro h
  obtain ⟨r, hr⟩ := h (ExecutionPlan.new [] [])
  cases hr

/-- The loop ends without panic after as many rounds as there are nodes at most, one at least, and
the edges it leaves join nodes it leaves. -/
theorem calcFusion_ends (p : ExecutionPlan) :
    (∀ rounds, max 1 p.nodes.length ≤ rounds → calcFusionLoop rounds p = some (calcFusion p)) ∧
      ∀ e ∈ (calcFusion p).1.edges, e.fromId ∈ (calcFusion p).1.ids ∧ e.toId ∈ (calcFusion p).1.ids := by
  refine ⟨fun rounds hrounds => ?_, fun e he => ?_⟩
  · obtain ⟨r, hr⟩ := @fuseLoop_eq p.edges (max 1 p.nodes.length - 1) p.nodes 0 (by omega)
    have hloop := (hr rounds (by omega)).1
    have hfuse := (hr (p.nodes.length + 1) (by omega)).2
    rw [calcFusionLoop, hloop, calcFusion, hfuse]
    rfl
  · have hkept : e ∈ keptEdges (calcFusion p).1.nodes p.edges := he
    have hends := (List.mem_filter.1 hkept).2
    rw [Bool.and_eq_true, decide_eq_true_iff, decide_eq_true_iff] at hends
    exact hends

end Optimize

end Tinypipe
