import Tinypipe.Compiler.GraphChecks
import Tinypipe.Vm.Once
import Tinypipe.Vm.Runnable

/-! Multi-branch fusion. The pass merges the CALL children of a PARALLEL that have one signature, whether
or not the calls are pure. Here it is when the merged plan is still an acyclic graph over its nodes,
and that it dispatches less whenever it has merged calls that are all run. -/

namespace Tinypipe

open Lib Optimize

namespace ExecutionPlan

variable (p : ExecutionPlan)

/-- The merged calls, each with the one that is kept for it. -/
def redirects : List (Text × Text) := (p.idsOf .parallel).flatMap fun par => duplicates [] (childCalls p par)

def merged : List Text := p.redirects.map Prod.fst

/-- The calls of one PARALLEL all have different signatures. -/
def SeparateCalls : Prop := ∀ par ∈ p.idsOf .parallel, ((childCalls p par).map Prod.fst).Nodup

/-- An acyclic graph without self-loops, over the nodes of the plan. -/
structure Sound : Prop where
  acyclic : Kahn.Acyclic p.allArcs
  noLoop : ∀ e ∈ p.edges, e.fromId ≠ e.toId
  known : ∀ e ∈ p.edges, e.fromId ∈ p.ids ∧ e.toId ∈ p.ids

/-- No call that is kept is itself merged, and the nodes can be numbered along the edges with one number
for the calls that are merged. -/
structure Contractible : Prop where
  kept : ∀ id ∈ p.merged, redirectId p.redirects id ∉ p.merged
  rank : ∃ rank : Text → Nat, (∀ id ∈ p.merged, rank id = rank (redirectId p.redirects id)) ∧
    ∀ e ∈ p.edges, rank e.fromId < rank e.toId

def fused : ExecutionPlan := (multiBranchFusion p).1

end ExecutionPlan

section Redirects

variable {p : ExecutionPlan}

theorem duplicates_eq_nil : ∀ (calls seen : List (Text × Text)), duplicates seen calls = [] ↔
    (calls.map Prod.fst).Nodup ∧ ∀ c ∈ calls, c.1 ∉ seen.map Prod.fst
  | [], _ => by simp [duplicates]
  | (sig, id) :: calls, seen => by
    rw [duplicates]
    cases hfind : seen.find? fun s => s.1 = sig with
    | some s =>
      have hsig : s.1 = sig := by simpa using List.find?_some hfind
      have hmem : sig ∈ seen.map Prod.fst := List.mem_map.2 ⟨s, List.mem_of_find?_eq_some hfind, hsig⟩
      refine iff_of_false (List.cons_ne_nil _ _) fun h => ?_
      exact h.2 (sig, id) List.mem_cons_self hmem
    | none =>
      have hnot : sig ∉ seen.map Prod.fst := by
        intro hmem
        obtain ⟨s, hs, heq⟩ := List.mem_map.1 hmem
        exact List.find?_eq_none.1 hfind s hs (decide_eq_true heq)
      dsimp only
      rw [duplicates_eq_nil calls, List.map_cons, List.nodup_cons, List.map_append]
      constructor
      · rintro ⟨hnodup, hseen⟩
        refine ⟨⟨fun hmem => ?_, hnodup⟩, fun c hc => ?_⟩
        · obtain ⟨c, hc, heq⟩ := List.mem_map.1 hmem
          exact hseen c hc (List.mem_append_right _ (heq ▸ List.mem_singleton_self _))
        · rcases List.mem_cons.1 hc with rfl | hc
          · exact hnot
          · exact fun hmem => hseen c hc (List.mem_append_left _ hmem)
      · rintro ⟨⟨hsig, hnodup⟩, hseen⟩
        refine ⟨hnodup, fun c hc hmem => ?_⟩
        rcases List.mem_append.1 hmem with hmem | hmem
        · exact hseen c (List.mem_cons_of_mem _ hc) hmem
        · exact hsig (List.mem_map.2 ⟨c, hc, List.mem_singleton.1 hmem⟩)

theorem redirects_eq_nil : p.redirects = [] ↔ p.SeparateCalls := by
  rw [ExecutionPlan.redirects, List.flatMap_eq_nil_iff]
  refine forall₂_congr fun par _ => ?_
  rw [duplicates_eq_nil]
  exact and_iff_left fun c _ => List.not_mem_nil

theorem mem_of_duplicates : ∀ {calls seen : List (Text × Text)} {r : Text × Text}, r ∈ duplicates seen calls →
    r.1 ∈ calls.map Prod.snd
  | [], _, _, h => by cases h
  | (sig, id) :: calls, seen, r, h => by
    rw [duplicates] at h
    rw [List.map_cons]
    split at h
    · rcases List.mem_cons.1 h with rfl | h
      · exact List.mem_cons_self
      · exact List.mem_cons_of_mem _ (mem_of_duplicates h)
    · exact List.mem_cons_of_mem _ (mem_of_duplicates h)

theorem kept_of_duplicates : ∀ {calls seen : List (Text × Text)} {r : Text × Text}, r ∈ duplicates seen calls →
    r.2 ∈ (seen ++ calls).map Prod.snd
  | [], _, _, h => by cases h
  | (sig, id) :: calls, seen, r, h => by
    rw [duplicates] at h
    cases hfind : seen.find? fun s => s.1 = sig with
    | some s =>
      rw [hfind] at h
      rw [List.map_append, List.map_cons]
      rcases List.mem_cons.1 h with rfl | h
      · exact List.mem_append_left _ (List.mem_map.2 ⟨s, List.mem_of_find?_eq_some hfind, rfl⟩)
      · have hmem := kept_of_duplicates h
        rw [List.map_append] at hmem
        rcases List.mem_append.1 hmem with hmem | hmem
        · exact List.mem_append_left _ hmem
        · exact List.mem_append_right _ (List.mem_cons_of_mem _ hmem)
    | none =>
      rw [hfind] at h
      have hmem := kept_of_duplicates h
      rwa [List.append_assoc] at hmem

/-- A CALL of the plan, at the end of an edge. -/
def CallTo (p : ExecutionPlan) (id : Text) : Prop :=
  (∃ nd ∈ p.nodes, nd.op = .call ∧ nd.id = id) ∧ ∃ e ∈ p.edges, e.toId = id

theorem callTo_of_childCalls {par : Text} {id : Text} (h : id ∈ (childCalls p par).map Prod.snd) : CallTo p id := by
  obtain ⟨c, hc, heq⟩ := List.mem_map.1 h
  obtain ⟨e, he, hsome⟩ := List.mem_filterMap.1 hc
  cases hfind : p.nodes.find? fun nd => nd.id = e.toId with
  | none =>
    rw [hfind] at hsome
    cases hsome
  | some nd =>
    simp only [hfind] at hsome
    split at hsome
    case isTrue hop =>
      cases hsome
      have hid : nd.id = e.toId := by simpa using List.find?_some hfind
      exact ⟨⟨nd, List.mem_of_find?_eq_some hfind, hop, hid.trans heq⟩, e, (List.mem_filter.1 he).1, heq⟩
    case isFalse => cases hsome

/-- What is merged, and what is kept for it. -/
theorem callTo_of_redirect {r : Text × Text} (h : r ∈ p.redirects) : CallTo p r.1 ∧ CallTo p r.2 := by
  obtain ⟨par, -, hdup⟩ := List.mem_flatMap.1 h
  exact ⟨callTo_of_childCalls (mem_of_duplicates hdup), callTo_of_childCalls (kept_of_duplicates hdup)⟩

theorem callTo_of_merged {id : Text} (h : id ∈ p.merged) : CallTo p id := by
  obtain ⟨r, hr, rfl⟩ := List.mem_map.1 h
  exact (callTo_of_redirect hr).1

theorem redirect_of_merged {id : Text} (h : id ∈ p.merged) : (id, redirectId p.redirects id) ∈ p.redirects := by
  obtain ⟨r, hr, rfl⟩ := List.mem_map.1 h
  cases hfind : p.redirects.find? fun r' => r'.1 = r.1 with
  | none => exact absurd (decide_eq_true rfl) (List.find?_eq_none.1 hfind r hr)
  | some r' =>
    have hid : r'.1 = r.1 := by simpa using List.find?_some hfind
    rw [redirectId, hfind, ← hid]
    exact List.mem_of_find?_eq_some hfind

theorem redirectId_of_not_merged {id : Text} (h : id ∉ p.merged) : redirectId p.redirects id = id := by
  have hnone : (p.redirects.find? fun r => r.1 = id) = none := List.find?_eq_none.2 fun r hr heq =>
    h (List.mem_map.2 ⟨r, hr, of_decide_eq_true heq⟩)
  rw [redirectId, hnone]
  rfl

def redirectEdge (redirects : List (Text × Text)) (e : Edge) : Edge :=
  { e with fromId := redirectId redirects e.fromId, toId := redirectId redirects e.toId }

theorem fused_of_separate (h : p.SeparateCalls) : p.fused = p := by
  have hnil : ((p.idsOf .parallel).flatMap fun par => duplicates [] (childCalls p par)) = [] := redirects_eq_nil.2 h
  simp only [ExecutionPlan.fused, multiBranchFusion, hnil, if_true]

theorem fused_nodes : p.fused.nodes = p.nodes.filter fun nd => nd.id ∉ p.merged := by
  by_cases h : p.redirects = []
  · rw [fused_of_separate (redirects_eq_nil.1 h), ExecutionPlan.merged, h]
    exact (List.filter_eq_self.2 fun nd _ => decide_eq_true List.not_mem_nil).symm
  · have hne : ¬((p.idsOf .parallel).flatMap fun par => duplicates [] (childCalls p par)) = [] := h
    simp only [ExecutionPlan.fused, multiBranchFusion, if_neg hne]
    rfl

theorem fused_edges : p.fused.edges = p.edges.map (redirectEdge p.redirects) := by
  by_cases h : p.redirects = []
  · have hid : ∀ e ∈ p.edges, redirectEdge [] e = e := fun e _ => rfl
    rw [fused_of_separate (redirects_eq_nil.1 h), h, List.map_congr_left hid, List.map_id']
  · have hne : ¬((p.idsOf .parallel).flatMap fun par => duplicates [] (childCalls p par)) = [] := h
    simp only [ExecutionPlan.fused, multiBranchFusion, if_neg hne]
    rfl

theorem mem_fused_ids {id : Text} : id ∈ p.fused.ids ↔ id ∈ p.ids ∧ id ∉ p.merged := by
  simp only [ExecutionPlan.ids, fused_nodes, List.mem_map, List.mem_filter, decide_eq_true_eq]
  constructor
  · rintro ⟨nd, ⟨hnd, hnot⟩, rfl⟩
    exact ⟨⟨nd, hnd, rfl⟩, hnot⟩
  · rintro ⟨⟨nd, hnd, rfl⟩, hnot⟩
    exact ⟨nd, ⟨hnd, hnot⟩, rfl⟩

end Redirects

/-! ### The graph -/

section Graph

variable {p : ExecutionPlan}

theorem contractible_of_sound (hids : p.ids.Nodup) (h : p.fused.Sound) : p.Contractible := by
  obtain ⟨hacyclic, -, hknown⟩ := h
  have hkept : ∀ id ∈ p.merged, redirectId p.redirects id ∉ p.merged := by
    intro id hid
    obtain ⟨-, e, he, rfl⟩ := callTo_of_merged hid
    have hmem : redirectEdge p.redirects e ∈ p.fused.edges := by
      rw [fused_edges]
      exact List.mem_map_of_mem he
    exact (mem_fused_ids.1 (hknown _ hmem).2).2
  have hsub : p.fused.ids.Nodup := hids.sublist (multiBranchFusion_ids p)
  have hto : ∀ a ∈ p.fused.allArcs, a.2 ∈ p.fused.ids := by
    intro a ha
    obtain ⟨e, he, rfl⟩ := List.mem_map.1 ha
    exact (hknown e he).2
  have hfrom : ∀ a ∈ p.fused.allArcs, a.1 ∈ p.fused.ids := by
    intro a ha
    obtain ⟨e, he, rfl⟩ := List.mem_map.1 ha
    exact (hknown e he).1
  obtain ⟨rank, hrank⟩ := Kahn.Orderable.exists_rank hsub hto ⟨hfrom, hacyclic⟩
  -- A merged call is numbered like the one that is kept for it.
  refine ⟨hkept, fun id => rank (redirectId p.redirects id), fun id hid => ?_, fun e he => ?_⟩
  · exact congrArg rank (redirectId_of_not_merged (hkept id hid)).symm
  · have hmem : redirectEdge p.redirects e ∈ p.fused.edges := by
      rw [fused_edges]
      exact List.mem_map_of_mem he
    exact hrank _ (List.mem_map.2 ⟨_, hmem, rfl⟩)

theorem sound_of_contractible (hknown : ∀ e ∈ p.edges, e.fromId ∈ p.ids ∧ e.toId ∈ p.ids) (h : p.Contractible) :
    p.fused.Sound := by
  obtain ⟨hkept, rank, hsame, hrank⟩ := h
  have hrank' : ∀ id, rank (redirectId p.redirects id) = rank id := by
    intro id
    by_cases hid : id ∈ p.merged
    · exact (hsame id hid).symm
    · rw [redirectId_of_not_merged hid]
  have hlt : ∀ e ∈ p.fused.edges, rank e.fromId < rank e.toId := by
    intro e he
    rw [fused_edges] at he
    obtain ⟨e', he', rfl⟩ := List.mem_map.1 he
    calc rank (redirectId p.redirects e'.fromId) = rank e'.fromId := hrank' _
      _ < rank e'.toId := hrank e' he'
      _ = rank (redirectId p.redirects e'.toId) := (hrank' _).symm
  have hmem : ∀ id, id ∈ p.ids → redirectId p.redirects id ∈ p.fused.ids := by
    intro id hid
    by_cases hm : id ∈ p.merged
    · obtain ⟨-, e, he, heq⟩ := (callTo_of_redirect (redirect_of_merged hm)).2
      have hto : redirectId p.redirects id ∈ p.ids := by
        rw [← show e.toId = redirectId p.redirects id from heq]
        exact (hknown e he).2
      exact mem_fused_ids.2 ⟨hto, hkept id hm⟩
    · rw [redirectId_of_not_merged hm]
      exact mem_fused_ids.2 ⟨hid, hm⟩
  refine ⟨Kahn.acyclic_of_lt rank fun a ha => ?_, fun e he heq => ?_, fun e he => ?_⟩
  · obtain ⟨e, he, rfl⟩ := List.mem_map.1 ha
    exact hlt e he
  · exact Nat.lt_irrefl _ (heq ▸ hlt e he)
  · rw [fused_edges] at he
    obtain ⟨e', he', rfl⟩ := List.mem_map.1 he
    exact ⟨hmem _ (hknown e' he').1, hmem _ (hknown e' he').2⟩

end Graph

/-! ### The calls -/

namespace ExecutionPlan

variable (p : ExecutionPlan)

def callCount : Nat := p.nodes.countP fun nd => decide (nd.op = .call)

/-- The merged plan is a sound graph, and on every input on which both plans complete it dispatches the
same and has the same output. -/
structure FusesSafely : Prop where
  sound : p.fused.Sound
  same : ∀ (opts : List Text) (registry : Registry) (depth : Nat) (inputs : Context) (r r' : ExecutionResult),
    (execute ⟨.fromExecutionPlan p opts, registry, depth⟩ inputs).result = .ok (.completed r) →
    (execute ⟨.fromExecutionPlan p.fused opts, registry, depth⟩ inputs).result = .ok (.completed r') →
      (dispatches (execute ⟨.fromExecutionPlan p opts, registry, depth⟩ inputs).log).Perm
        (dispatches (execute ⟨.fromExecutionPlan p.fused opts, registry, depth⟩ inputs).log) ∧ r.output = r'.output

/-- On some input both plans complete, the plan dispatches as often as it has CALLs, and the merged plan
runs no node twice and has no CALL in a loop body. -/
def Exercised : Prop :=
  ∃ (opts : List Text) (registry : Registry) (depth : Nat) (inputs : Context) (r r' : ExecutionResult),
    (execute ⟨.fromExecutionPlan p opts, registry, depth⟩ inputs).result = .ok (.completed r) ∧
    (execute ⟨.fromExecutionPlan p.fused opts, registry, depth⟩ inputs).result = .ok (.completed r') ∧
    p.callCount ≤ (dispatches (execute ⟨.fromExecutionPlan p opts, registry, depth⟩ inputs).log).length ∧
    (CompiledPlan.fromExecutionPlan p.fused opts).CallsOutside ∧
    (CompiledPlan.fromExecutionPlan p.fused opts).CoveredLog
      (execute ⟨.fromExecutionPlan p.fused opts, registry, depth⟩ inputs).log

end ExecutionPlan

section Calls

variable {p : ExecutionPlan}

theorem compileNodes_calls : ∀ (k : Nat) (groups : List Text) (nodes : List Node),
    ((CompiledPlan.compileNodes k groups nodes).1.countP fun nd => decide (nd.op = .call)) =
      nodes.countP fun nd => decide (nd.op = .call)
  | _, _, [] => rfl
  | k, groups, nd :: rest => by
    simp only [CompiledPlan.compileNodes, List.countP_cons]
    rw [compileNodes_calls]

/-- Merging leaves fewer CALLs. -/
theorem callCount_fused_lt (h : ¬p.SeparateCalls) : p.fused.callCount < p.callCount := by
  obtain ⟨r, hr⟩ := List.exists_mem_of_ne_nil _ fun hnil => h (redirects_eq_nil.1 hnil)
  have hmerged : r.1 ∈ p.merged := List.mem_map_of_mem hr
  obtain ⟨⟨nd, hnd, hop, hid⟩, -⟩ := callTo_of_merged hmerged
  have hfewer : ((p.nodes.filter fun nd => decide (nd.op = .call)).filter fun nd => decide (nd.id ∉ p.merged)).length <
      (p.nodes.filter fun nd => decide (nd.op = .call)).length := by
    refine List.length_filter_lt_length_iff_exists.2 ⟨nd, List.mem_filter.2 ⟨hnd, decide_eq_true hop⟩, ?_⟩
    rw [decide_eq_true_eq, not_not, hid]
    exact hmerged
  calc p.fused.callCount = ((p.nodes.filter fun nd => decide (nd.id ∉ p.merged)).filter
        fun nd => decide (nd.op = .call)).length := by
        rw [ExecutionPlan.callCount, fused_nodes, List.countP_eq_length_filter]
    _ = ((p.nodes.filter fun nd => decide (nd.op = .call)).filter fun nd => decide (nd.id ∉ p.merged)).length := by
        rw [List.filter_comm]
    _ < (p.nodes.filter fun nd => decide (nd.op = .call)).length := hfewer
    _ = p.callCount := List.countP_eq_length_filter.symm

/-- A run in which no node is run twice dispatches at most as often as there are CALLs. -/
theorem dispatches_le_callCount {q : ExecutionPlan} {opts : List Text} {registry : Registry} {depth : Nat}
    {inputs : Context} {r : ExecutionResult} (hknown : ∀ e ∈ q.edges, e.fromId ∈ q.ids ∧ e.toId ∈ q.ids)
    (hr : (execute ⟨.fromExecutionPlan q opts, registry, depth⟩ inputs).result = .ok (.completed r))
    (hout : (CompiledPlan.fromExecutionPlan q opts).CallsOutside)
    (hcov : (CompiledPlan.fromExecutionPlan q opts).CoveredLog
      (execute ⟨.fromExecutionPlan q opts, registry, depth⟩ inputs).log) :
    (dispatches (execute ⟨.fromExecutionPlan q opts, registry, depth⟩ inputs).log).length ≤ q.callCount := by
  have hwf := CompiledPlan.wellFormed_of_known opts hknown
  have hrun := HasRun.executed hr
  obtain ⟨order, horder⟩ := hrun.exists_order
  obtain ⟨t, hsoFar, -, -⟩ := hrun.told hwf horder hcov
  obtain ⟨s, -, -, hacc⟩ := hsoFar.account
  exact (hacc.dispatches_le hwf.index hout).trans_eq (compileNodes_calls 0 [] q.nodes)

theorem fusesSafely_of_separate (hknown : ∀ e ∈ p.edges, e.fromId ∈ p.ids ∧ e.toId ∈ p.ids)
    (hacyclic : Kahn.Acyclic p.allArcs) (h : p.SeparateCalls) : p.FusesSafely := by
  have hself : ∀ e ∈ p.edges, e.fromId ≠ e.toId := by
    intro e he heq
    refine hacyclic e.fromId (Relation.TransGen.single ?_)
    exact List.mem_map.2 ⟨e, he, by rw [← heq]⟩
  constructor
  · rw [fused_of_separate h]
    exact ⟨hacyclic, hself, hknown⟩
  · intro opts registry depth inputs r r' hr hr'
    rw [fused_of_separate h] at hr' ⊢
    cases hr.symm.trans hr'
    exact ⟨List.Perm.refl _, rfl⟩

end Calls

/-- For a validated plan without cycles: the merged plan is sound exactly if the merged calls can be put
together; where nothing is merged all is as before; and where all calls are run, only there. -/
theorem fusion_safe {p : ExecutionPlan} (hvalid : validate p = .ok ())
    (horder : ∃ order, p.topologicalOrder = .ok order) :
    (p.fused.Sound ↔ p.Contractible) ∧ (p.SeparateCalls → p.FusesSafely) ∧
      (p.Exercised → (p.FusesSafely ↔ p.SeparateCalls)) := by
  have hknown := known_of_validate hvalid
  have hids := ids_nodup_of_validate hvalid
  have hacyclic : Kahn.Acyclic p.allArcs := by
    have harcs : p.arcs p.edges = p.allArcs :=
      congrArg _ (List.filter_eq_self.2 fun e he => decide_eq_true (hknown e he).2)
    have hacyclic := ((ExecutionPlan.topologicalOrder_iff hids).1 horder).acyclic
    rwa [harcs] at hacyclic
  refine ⟨⟨contractible_of_sound hids, sound_of_contractible hknown⟩, fusesSafely_of_separate hknown hacyclic,
    fun h => ⟨fun hsafe => ?_, fusesSafely_of_separate hknown hacyclic⟩⟩
  obtain ⟨opts, registry, depth, inputs, r, r', hr, hr', hall, hout, hcov⟩ := h
  by_contra hmerges
  have hfused := dispatches_le_callCount hsafe.sound.known hr' hout hcov
  have hperm := (hsafe.same opts registry depth inputs r r' hr hr').1
  have hfewer := callCount_fused_lt hmerges
  have hlength := hperm.length_eq
  omega

/-- The same call in both branches of a PARALLEL. -/
def twinCalls : ExecutionPlan := ExecutionPlan.new
  [⟨"n0", .parallel, [], none, none, none⟩,
   ⟨"n1", .call, [⟨"type", .string "tool"⟩, ⟨"target", .string "t"⟩], none, some 0, none⟩,
   ⟨"n2", .call, [⟨"type", .string "tool"⟩, ⟨"target", .string "t"⟩], none, some 1, none⟩,
   ⟨"n3", .act, [⟨"type", .string "return"⟩], none, none, none⟩]
  [Edge.new "n0" "n1", Edge.new "n0" "n2", Edge.new "n1" "n3", Edge.new "n2" "n3"]

theorem twinCalls_order : ∃ order, twinCalls.topologicalOrder = .ok order := by
  have hok : twinCalls.topologicalOrder.toOption.isSome := by decide +kernel
  cases horder : twinCalls.topologicalOrder with
  | ok order => exact ⟨order, rfl⟩
  | error e =>
    rw [horder] at hok
    cases hok

/-- The tool is called twice by the plan and once by the merged plan. -/
theorem fusion_drops_call : ¬∀ p : ExecutionPlan, validate p = .ok () → (∃ order, p.topologicalOrder = .ok order) →
    p.FusesSafely := by
  intro h
  have horder : (execute (Executor.of (.fromExecutionPlan twinCalls [])) (inputsOf [])).completedOrder.isSome := by
    decide +kernel
  have horder' : (execute (Executor.of (.fromExecutionPlan twinCalls.fused [])) (inputsOf [])).completedOrder.isSome := by
    decide +kernel
  obtain ⟨ids, hids⟩ := Option.isSome_iff_exists.1 horder
  obtain ⟨ids', hids'⟩ := Option.isSome_iff_exists.1 horder'
  obtain ⟨r, hr, -⟩ := Segment.completed_of_order hids
  obtain ⟨r', hr', -⟩ := Segment.completed_of_order hids'
  have hperm := ((h twinCalls rfl twinCalls_order).same [] _ _ _ r r' hr hr').1.length_eq
  have htwo : (dispatches (execute (Executor.of (.fromExecutionPlan twinCalls [])) (inputsOf [])).log).length = 2 := by
    decide +kernel
  have hone : (dispatches (execute (Executor.of (.fromExecutionPlan twinCalls.fused [])) (inputsOf [])).log).length =
      1 := by decide +kernel
  exact absurd (htwo.symm.trans (hperm.trans hone)) (by decide)

theorem fusion_safe_twinCalls : (twinCalls.fused.Sound ↔ twinCalls.Contractible) ∧
    (twinCalls.FusesSafely ↔ twinCalls.SeparateCalls) := by
  obtain ⟨hsound, -, hexact⟩ := fusion_safe (p := twinCalls) rfl twinCalls_order
  refine ⟨hsound, hexact ?_⟩
  have horder : (execute (Executor.of (.fromExecutionPlan twinCalls [])) (inputsOf [])).completedOrder.isSome := by
    decide +kernel
  have horder' : (execute (Executor.of (.fromExecutionPlan twinCalls.fused [])) (inputsOf [])).completedOrder.isSome := by
    decide +kernel
  obtain ⟨ids, hids⟩ := Option.isSome_iff_exists.1 horder
  obtain ⟨ids', hids'⟩ := Option.isSome_iff_exists.1 horder'
  obtain ⟨r, hr, -⟩ := Segment.completed_of_order hids
  obtain ⟨r', hr', -⟩ := Segment.completed_of_order hids'
  have hbodies : (CompiledPlan.fromExecutionPlan twinCalls.fused []).identifyLoopBodies = [] := by decide +kernel
  refine ⟨[], _, _, _, r, r', hr, hr', by decide +kernel, fun i hi => ?_, by decide +kernel⟩
  rw [CompiledPlan.inBody, hbodies] at hi
  cases hi

end Tinypipe
