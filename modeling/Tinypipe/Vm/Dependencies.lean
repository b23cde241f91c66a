import Tinypipe.Compiler.CallTargets
import Tinypipe.Programs
import Tinypipe.Vm.Agreement

/-! The dependencies that code generation records in a plan, against the targets that executing
the plan dispatches. Code generation reads the text of a target as it is written, quotes included;
the executor reads it without. -/

namespace Tinypipe

open Lib Lib.Stateful

/-! ### Recorded and dispatched -/

namespace CompiledPlan

variable (plan : CompiledPlan)

def recordedSubgraphs : List Text :=
  plan.metadata.subgraphDependencies.map (Text.trimStartMatches "subgraph:")

def recordedTools : List Text := plan.metadata.toolDeps.map ToolDep.name

/-- What a CALL of the plan dispatches in some state, at top level or in a loop body. -/
def CanDispatch (d : Dispatch) : Prop :=
  ∃ ex nd s, ex.plan = plan ∧ nd ∈ plan.nodes ∧ nd.op = .call ∧
    (d ∈ newDispatches s (finalState (armCall ex nd s)) ∨
      d ∈ newDispatches s (finalState (bodyCall ex nd s)))

/-- The recorded dependencies are what runs, and the hash that is recorded for a tool decides about
the drift of its schema at every call of it. -/
structure DependenciesRun : Prop where
  subgraphs : ∀ name, name ∈ plan.recordedSubgraphs ↔ ∃ input, plan.CanDispatch (.subgraph name input)
  tools : ∀ name, name ∈ plan.recordedTools ↔ ∃ call, call.name = name ∧ plan.CanDispatch (.tool call)
  drift : ∀ dep ∈ plan.metadata.toolDeps, dep.schemaHash ≠ [] →
    ∀ nd ∈ plan.nodes, nd.op = .call → callTargetOf nd = dep.name →
      ∀ ex latest, ex.plan = plan → ex.registry.latestSchemaHash dep.name = .ok latest → latest ≠ [] →
        ((schemaDrift ex (callTargetOf nd)).isSome ↔ dep.schemaHash ≠ latest)

end CompiledPlan

/-! ### What a CALL dispatches -/

section Calls

variable {ex : Executor} {nd : CompiledNode} {s : ExecState} {d : Dispatch}

theorem dispatches_eq {α : Type} (i : Nat) (r : EStateM.Result ExecutionError ExecState α) :
    (armEffect i s r).dispatches = newDispatches s (finalState r) := by
  cases r <;> rfl

/-- The tool or the subgraph a runtime target names. -/
def Dispatch.Of (target : Text) : Dispatch → Prop
  | .tool call => Text.stripPrefix "subgraph:" target = none ∧ call.name = target
  | .subgraph name _ =>
    Text.stripPrefix "subgraph:" target ≠ none ∧ name = Text.trimStartMatches "subgraph:" target

theorem of_callSubgraph {name : Text} {params : Dict Text Value} {out : Option Text}
    (h : d ∈ (armEffect nd.index s (callSubgraph ex nd name params out s)).dispatches) :
    d = .subgraph name (setAll s.ctx params) := by
  by_cases hlim : ex.plan.metadata.maxRecursionDepth ≤ ex.recursionDepth
  · rw [callSubgraph_limit _ _ _ hlim] at h
    simp [armEffect, ArmEffect.dispatches, newDispatches] at h
  · rw [callSubgraph_dispatches _ _ _ hlim] at h
    exact List.mem_singleton.1 h

theorem of_armCall (h : d ∈ newDispatches s (finalState (armCall ex nd s))) : d.Of (callTargetOf nd) := by
  rw [← dispatches_eq nd.index] at h
  by_cases hsub : Text.stripPrefix "subgraph:" (callTargetOf nd) = none
  · rw [armCall_tool hsub] at h
    cases hdrift : schemaDrift ex (callTargetOf nd) with
    | some e =>
      rw [hdrift] at h
      simp [armEffect, ArmEffect.dispatches, newDispatches] at h
    | none =>
      rw [hdrift, toolCall_dispatches] at h
      obtain rfl := List.mem_singleton.1 h
      exact ⟨hsub, rfl⟩
  · simp only [armCall, get_bind, ne_eq, hsub, not_false_eq_true, if_true] at h
    obtain rfl := of_callSubgraph h
    exact ⟨hsub, rfl⟩

theorem of_bodyCall (h : d ∈ newDispatches s (finalState (bodyCall ex nd s))) : d.Of (callTargetOf nd) := by
  rw [← dispatches_eq nd.index] at h
  by_cases hsub : Text.stripPrefix "subgraph:" (callTargetOf nd) = none
  · rw [bodyCall_tool hsub, toolCall_dispatches] at h
    obtain rfl := List.mem_singleton.1 h
    exact ⟨hsub, rfl⟩
  · simp only [bodyCall, get_bind, ne_eq, hsub, not_false_eq_true, if_true, armEffect_bind_pure] at h
    obtain rfl := of_callSubgraph h
    exact ⟨hsub, rfl⟩

theorem CompiledPlan.CanDispatch.of {plan : CompiledPlan} (h : plan.CanDispatch d) :
    ∃ nd ∈ plan.nodes, nd.op = .call ∧ d.Of (callTargetOf nd) := by
  obtain ⟨ex, nd, s, -, hnd, hop, h⟩ := h
  exact ⟨nd, hnd, hop, h.elim of_armCall of_bodyCall⟩

end Calls

/-! ### The quotes -/

theorem head_trimMatches {p : Char → Bool} {t : Text} {c : Char}
    (h : (Text.trimMatches p t).head? = some c) : p c = false := by
  have hpre : Text.trimMatches p t <+: t.dropWhile p := by
    rw [← List.reverse_suffix, Text.trimMatches, List.reverse_reverse]
    exact List.dropWhile_suffix p
  obtain ⟨rest, hrest⟩ := hpre
  have hhead : (t.dropWhile p).head? = some c := by
    rw [← hrest, List.head?_append, h, Option.some_or]
  have hnot := List.head?_dropWhile_not p t
  rwa [hhead] at hnot

/-- The tool a CALL dispatches is not named in quotes. -/
theorem head_callTargetOf (nd : CompiledNode) : (callTargetOf nd).head? ≠ some '"' := by
  unfold callTargetOf
  cases nd.arg "target" with
  | none => decide
  | some t => exact fun h => absurd (head_trimMatches h) (by decide)

theorem head_toolNameVersion (s : Text) : (toolNameVersion ('"' :: s)).1.head? = some '"' := by
  have htool : Text.trimStartMatches "tool:" ('"' :: s) = '"' :: s := by
    simp [Text.trimStartMatches, Text.trimStartMatches.go, List.isPrefixOf]
  rw [toolNameVersion, htool]
  simp only [Text.splitOnce]
  split
  · rename_i hat
    simp [List.isPrefixOf] at hat
  · cases Text.splitOnce ['@'] s with
    | none => rfl
    | some p => rfl

/-- The tool that is recorded for a target in quotes has a quote at the front of its name. -/
theorem toolDep_quoted (hashes : Dict Text Text) {nd : Node} (h : nd.Quoted) (hop : nd.op = .call) :
    ∃ dep, toolDep hashes nd = some dep ∧ dep.name.head? = some '"' := by
  obtain ⟨s, hs⟩ := h hop
  have hsub : (Text.stripPrefix "subgraph:" ('"' :: s ++ ['"'])).isSome = false := by
    simp [Text.stripPrefix, List.isPrefixOf]
  rw [toolDep, hs, Option.bind_some, hsub]
  exact ⟨_, rfl, head_toolNameVersion _⟩

/-! ### Programs that call nothing -/

theorem compileNodes_op {nd : CompiledNode} : ∀ {k : Nat} {groups : List Text} {nodes : List Node},
    nd ∈ (CompiledPlan.compileNodes k groups nodes).1 → ∃ n ∈ nodes, n.op = nd.op
  | k, groups, n :: rest, h => by
    simp only [CompiledPlan.compileNodes] at h
    rcases List.mem_cons.1 h with rfl | h
    · exact ⟨n, List.mem_cons_self, rfl⟩
    · obtain ⟨n', hn', hop⟩ := compileNodes_op h
      exact ⟨n', List.mem_cons_of_mem _ hn', hop⟩

/-- What code generation records is read off the optimized plan, which it lowers. -/
theorem codegen_metadata {now : Nat} {p : ExecutionPlan} {hashes : Dict Text Text} {o : CodegenOutput}
    (h : codegenWithSchemaHashes now p hashes = .ok o) :
    o.compiled.metadata.subgraphDependencies = (Optimize.optimizeAll p).1.nodes.filterMap subgraphTarget ∧
      o.compiled.metadata.toolDeps = (Optimize.optimizeAll p).1.nodes.filterMap (toolDep hashes) ∧
      ∀ nd ∈ o.compiled.nodes, ∃ n ∈ (Optimize.optimizeAll p).1.nodes, n.op = nd.op := by
  simp only [codegenWithSchemaHashes] at h
  split at h
  · cases h
  · cases h
    exact ⟨rfl, rfl, fun nd hnd => compileNodes_op hnd⟩

/-- In the plan of an accepted program the recorded dependencies are what runs if and only if the
plan, as it is optimized, calls nothing. -/
theorem dependencies_run_iff {now : Nat} {m : Ast.Module} {p : ExecutionPlan} {hashes : Dict Text Text}
    {o : CodegenOutput} (hp : transform m = .ok p) (_ : validate p = .ok ())
    (h : codegenWithSchemaHashes now p hashes = .ok o) :
    o.compiled.DependenciesRun ↔ ∀ nd ∈ (Optimize.optimizeAll p).1.nodes, nd.op ≠ .call := by
  obtain ⟨hsubgraphs, htools, hnodes⟩ := codegen_metadata h
  constructor
  · intro hrun nd hnd hop
    have hquoted := quoted_transform hp nd (Optimize.call_optimizeAll hnd hop)
    obtain ⟨dep, hdep, hquote⟩ := toolDep_quoted hashes hquoted hop
    have hrec : dep.name ∈ o.compiled.recordedTools := by
      rw [CompiledPlan.recordedTools, htools]
      exact List.mem_map_of_mem (List.mem_filterMap.2 ⟨nd, hnd, hdep⟩)
    obtain ⟨call, hname, hcan⟩ := (hrun.tools dep.name).1 hrec
    obtain ⟨nd', -, -, -, htarget⟩ := hcan.of
    exact head_callTargetOf nd' (by rw [← htarget, hname, hquote])
  · intro hnone
    have hcalls : ∀ nd ∈ o.compiled.nodes, nd.op ≠ .call := by
      intro nd hnd
      obtain ⟨n, hn, hop⟩ := hnodes nd hnd
      rw [← hop]
      exact hnone n hn
    have hcan (d : Dispatch) : ¬o.compiled.CanDispatch d := by
      intro hd
      obtain ⟨nd, hnd, hop, -⟩ := hd.of
      exact hcalls nd hnd hop
    have htarget : ∀ nd ∈ (Optimize.optimizeAll p).1.nodes, callTarget nd = none := fun nd hnd =>
      if_neg (hnone nd hnd)
    have hdeps : o.compiled.metadata.toolDeps = [] := by
      rw [htools]
      exact List.filterMap_eq_nil_iff.2 fun nd hnd => by rw [toolDep, htarget nd hnd]; rfl
    have hsubs : o.compiled.metadata.subgraphDependencies = [] := by
      rw [hsubgraphs]
      exact List.filterMap_eq_nil_iff.2 fun nd hnd => by rw [subgraphTarget, htarget nd hnd]; rfl
    refine ⟨fun name => ?_, fun name => ?_, fun dep hdep => ?_⟩
    · rw [CompiledPlan.recordedSubgraphs, hsubs]
      exact ⟨fun h => (nomatch h), fun ⟨input, hd⟩ => absurd hd (hcan _)⟩
    · rw [CompiledPlan.recordedTools, hdeps]
      exact ⟨fun h => (nomatch h), fun ⟨call, _, hd⟩ => absurd hd (hcan _)⟩
    · rw [hdeps] at hdep
      cases hdep

/-- The stages of a compilation that succeeds. -/
theorem compile_stages {now : Nat} {m : Ast.Module} {o : CodegenOutput} (h : compile now m = .ok o) :
    ∃ p, transform m = .ok p ∧ validate p = .ok () ∧ codegenWithSchemaHashes now p Dict.empty = .ok o := by
  unfold compile at h
  cases hp : transform m with
  | error errors => rw [hp] at h; cases h
  | ok p =>
    rw [hp] at h
    cases hv : validate p with
    | error errors => simp only [hv] at h; cases h
    | ok _ =>
      simp only [hv] at h
      refine ⟨p, rfl, hv, ?_⟩
      cases hc : codegenWithSchemaHashes now p Dict.empty with
      | error e => rw [codegen, hc] at h; cases h
      | ok o' => rw [codegen, hc] at h; cases h; rfl

open Build in
/-- `return call("echo")` -/
def callsEcho : Ast.Module := graph [] [ret (call "echo" [])]

open Build in
/-- `return x` -/
def callsNothing : Ast.Module := graph ["x"] [ret (name "x")]

/-- The tool is recorded in quotes and dispatched without. -/
theorem dependencies_callsEcho : ∃ o, compile 0 callsEcho = .ok o ∧
    o.compiled.recordedTools = [("\"echo\"" : Text)] ∧ ¬o.compiled.DependenciesRun := by
  have hok : ((compile 0 callsEcho).toOption.map fun o => o.compiled.recordedTools) =
      some [("\"echo\"" : Text)] := by decide +kernel
  cases h : compile 0 callsEcho with
  | error e => rw [h] at hok; cases hok
  | ok o =>
    rw [h] at hok
    replace hok : o.compiled.recordedTools = [("\"echo\"" : Text)] := Option.some.inj hok
    refine ⟨o, rfl, hok, fun hrun => ?_⟩
    obtain ⟨call, hname, hcan⟩ := (hrun.tools "\"echo\"").1 (by rw [hok]; exact List.mem_singleton_self _)
    obtain ⟨nd, -, -, -, htarget⟩ := hcan.of
    exact head_callTargetOf nd (by rw [← htarget, hname]; rfl)

theorem dependencies_callsNothing : ∃ o, compile 0 callsNothing = .ok o ∧ o.compiled.DependenciesRun := by
  have hok : ((transform callsNothing).toOption.any fun p => (compile 0 callsNothing).isOk &&
      (Optimize.optimizeAll p).1.nodes.all fun nd => nd.op ≠ .call) = true := by decide +kernel
  cases h : compile 0 callsNothing with
  | error e =>
    cases hp : transform callsNothing with
    | error errors => rw [hp] at hok; cases hok
    | ok p => rw [hp, h] at hok; cases hok
  | ok o =>
    obtain ⟨p, hp, hv, hc⟩ := compile_stages h
    rw [hp] at hok
    simp only [Except.toOption, Option.any_some, Bool.and_eq_true, List.all_eq_true,
      decide_eq_true_eq] at hok
    exact ⟨o, rfl, (dependencies_run_iff hp hv hc).2 hok.2⟩

end Tinypipe
