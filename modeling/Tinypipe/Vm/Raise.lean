import Tinypipe.Vm.Agreement
import Tinypipe.Vm.Trace

/-! `raise` and `assert`. A `raise` is an ERROR node: outside loop bodies it ends the run,
and behind it only the other branches of a PARALLEL go on. An `assert` is a DECIDE whose
edges do not depend on the decision, so it lets the run go on. -/

namespace Tinypipe

open Lib Lib.Stateful

/-! ### Raise -/

/-- Visits in different branches of one PARALLEL. -/
def Concurrent (v w : List Frame) : Prop :=
  ∃ u p b c, b ≠ c ∧ (u ++ [.branch p b]) <+: v ∧ (u ++ [.branch p c]) <+: w

/-- The visit is a pass over a loop body. -/
def InBody (v : List Frame) : Prop := ∃ u loop i, v = u ++ [.iteration loop i]

/-- An ERROR node that is run by `run_node`. -/
def Raises (plan : CompiledPlan) (v : List Frame) (i : Nat) : Prop :=
  plan.opAt i = some .error ∧ ¬ InBody v

section Logs

variable {plan : CompiledPlan}

/-- Nothing has been raised. -/
structure NotRaised (plan : CompiledPlan) (v : List Frame) (l : List Event) : Prop where
  within : WithinVisit v l
  clean : ∀ w i c o, .node w i c o ∈ l → ¬ Raises plan w i

/-- After a raise only concurrent nodes run. -/
structure StopsAtRaise (plan : CompiledPlan) (v : List Frame) (l : List Event) : Prop where
  within : WithinVisit v l
  stops : ∀ l₁ w i c o l₂, l = l₁ ++ .node w i c o :: l₂ → Raises plan w i →
    ∀ w' i' c' o', .node w' i' c' o' ∈ l₂ → Concurrent w w'

theorem NotRaised.stopsAtRaise {v : List Frame} {l : List Event} (h : NotRaised plan v l) :
    StopsAtRaise plan v l := by
  refine ⟨h.within, fun l₁ w i c o l₂ hl hr => ?_⟩
  exact absurd hr (h.clean w i c o (by simp [hl]))

/-- An event of a concatenation is in one of its parts. -/
theorem append_eq_append_cons {α : Type} {a b l₁ l₂ : List α} {x : α}
    (h : a ++ b = l₁ ++ x :: l₂) :
    (∃ a₂, a = l₁ ++ x :: a₂ ∧ l₂ = a₂ ++ b) ∨ ∃ b₁, b = b₁ ++ x :: l₂ ∧ l₁ = a ++ b₁ := by
  rcases List.append_eq_append_iff.1 h with ⟨c, hc, hb⟩ | ⟨c, ha, hc⟩
  · exact Or.inr ⟨c, hb, hc⟩
  · cases c with
    | nil =>
      rw [List.append_nil] at ha
      rw [List.nil_append] at hc
      exact Or.inr ⟨[], hc.symm, by rw [List.append_nil, ha]⟩
    | cons y c =>
      rw [List.cons_append, List.cons.injEq] at hc
      obtain ⟨rfl, rfl⟩ := hc
      exact Or.inl ⟨c, ha, rfl⟩

theorem StopsAtRaise.append {v : List Frame} {l l' : List Event} (h : NotRaised plan v l)
    (h' : StopsAtRaise plan v l') : StopsAtRaise plan v (l ++ l') := by
  refine ⟨h.within.append h'.within, fun l₁ w i c o l₂ hl hr => ?_⟩
  rcases append_eq_append_cons hl with ⟨a₂, ha, -⟩ | ⟨b₁, hb, -⟩
  · exact absurd hr (h.clean w i c o (by simp [ha]))
  · exact h'.stops b₁ w i c o l₂ hb hr

/-- What is logged in another branch is concurrent. -/
theorem StopsAtRaise.threads {v : List Frame} {p : Nat} :
    ∀ {threads : List (Nat × List Event)}, (threads.map Prod.fst).Nodup →
      (∀ t ∈ threads, StopsAtRaise plan (v ++ [.branch p t.1]) t.2) →
      StopsAtRaise plan v (threads.flatMap Prod.snd)
  | [], _, _ => ⟨by intro w i c o h; simp at h, by intro l₁ w i c o l₂ h; simp at h⟩
  | (b, l) :: rest, hnd, ht => by
    rw [List.map_cons, List.nodup_cons] at hnd
    have hhead := ht (b, l) List.mem_cons_self
    have htail := StopsAtRaise.threads hnd.2 fun t h => ht t (List.mem_cons_of_mem _ h)
    have hprefix : ∀ {c : Nat} {w : List Frame}, (v ++ [Frame.branch p c]) <+: w → v <+: w :=
      fun h => (List.prefix_append _ _).trans h
    rw [List.flatMap_cons]
    refine ⟨WithinVisit.append (fun w i c o h => hprefix (hhead.within w i c o h)) htail.within, ?_⟩
    intro l₁ w i c o l₂ hl hr w' i' c' o' hw'
    rcases append_eq_append_cons hl with ⟨a₂, ha, rfl⟩ | ⟨b₁, hb, -⟩
    · rcases List.mem_append.1 hw' with hw' | hw'
      · exact hhead.stops l₁ w i c o a₂ ha hr w' i' c' o' hw'
      · obtain ⟨t, htmem, htl⟩ := List.mem_flatMap.1 hw'
        have hne : b ≠ t.1 := by
          rintro rfl
          exact hnd.1 (List.mem_map.2 ⟨t, htmem, rfl⟩)
        have hmem : Event.node w i c o ∈ (b, l).2 := by
          rw [ha]
          simp
        exact ⟨v, p, b, t.1, hne, hhead.within w i c o hmem,
          (ht t (List.mem_cons_of_mem _ htmem)).within w' i' c' o' htl⟩
    · exact htail.stops b₁ w i c o l₂ hb hr w' i' c' o' hw'

theorem raiseLogic (plan : CompiledPlan) :
    TraceLogic plan (NotRaised plan) (StopsAtRaise plan) where
  quiet v l h := ⟨fun w i c o he => absurd (h _ he) id, fun w i c o he => absurd (h _ he) id⟩
  append v l l' h h' _ := ⟨h.within.append h'.within, fun w i c o he =>
    (List.mem_append.1 he).elim (h.clean w i c o) (h'.clean w i c o)⟩
  append_err v l l' h h' _ := h'.append h
  to_err v l h := h.stopsAtRaise
  node v nd ctx outs l hnd _ herr hl := by
    have only : ∀ w i c o, Event.node w i c o ∈ Event.node v nd.index ctx outs :: l →
        w = v ∧ i = nd.index := by
      intro w i c o he
      rcases List.mem_cons.1 he with he | he
      · cases he
        exact ⟨rfl, rfl⟩
      · exact absurd he (hl.not_node w i c o)
    refine ⟨fun w i c o he => (only w i c o he).1 ▸ List.prefix_refl v, fun w i c o he hr => ?_⟩
    obtain ⟨rfl, rfl⟩ := only w i c o he
    have hop : nd.op = .error := by
      have := hr.1
      rw [CompiledPlan.opAt, hnd] at this
      exact Option.some.inj this
    exact hr.2 (herr hop)
  error v nd ctx outs _ _ := by
    refine ⟨fun w i c o he => ?_, fun l₁ w i c o l₂ hl _ w' i' c' o' he => ?_⟩
    · cases List.mem_singleton.1 he
      exact List.prefix_refl v
    · have hnil : l₂ = [] := by
        have := congrArg List.length hl
        simp only [List.length_append, List.length_cons, List.length_nil] at this
        exact List.eq_nil_of_length_eq_zero (by omega)
      simp [hnil] at he
  iteration v loop i ctx outs := ⟨by simp [WithinVisit], by simp⟩
  iteration_ok v loop i l h :=
    ⟨fun w j c o he => (List.prefix_append _ _).trans (h.within w j c o he), h.clean⟩
  iteration_err v loop i l h :=
    ⟨fun w j c o he => (List.prefix_append _ _).trans (h.within w j c o he), h.stops⟩
  threads_ok v p threads _ _ h := by
    refine ⟨fun w i c o he => ?_, fun w i c o he => ?_⟩
    · obtain ⟨t, ht, he⟩ := List.mem_flatMap.1 he
      exact (List.prefix_append _ _).trans ((h t ht).within w i c o he)
    · obtain ⟨t, ht, he⟩ := List.mem_flatMap.1 he
      exact (h t ht).clean w i c o he
  threads_err v p threads hnd _ h := StopsAtRaise.threads hnd h

end Logs

/-! ### Assert -/

/-- What an assert evaluates. -/
def assertCondition (test : Text) : Text := ("not (" : Text) ++ test ++ [')']

/-- The node of an `assert`: none of its edges depends on the decision. -/
structure IsAssert (plan : CompiledPlan) (nd : CompiledNode) (test : Text) : Prop where
  op : nd.op = .decide
  condition : nd.arg "condition" = some (assertCondition test)
  edges : ∀ e ∈ plan.edgesFrom nd.index, e.condition = none ∧ e.mapping.getD [] = []

def TestHolds (ctx : Context) (outputs : Nat → Option Value) (test : Text) : Prop :=
  ∃ v, evalExpression ctx outputs test = .ok v ∧ isTruthy v = true

/-- A step that only records its own value. -/
structure OnlyRecords (nd : CompiledNode) (s t : ExecState) : Prop where
  ctx : t.ctx = s.ctx
  nodeOutputs : ∀ i, i ≠ nd.index → t.nodeOutputs i = s.nodeOutputs i
  output : t.output = s.output
  log : ∃ v b, t.log = s.log ++ [.decided v nd.index b]

/-- The targets of edges are enabled, and each control edge is counted. -/
structure LetsGoOn (edges : List CompiledEdge) (s t : ExecState) : Prop where
  enabled : ∀ e ∈ edges, e.toIndex ∈ t.enabled
  still : s.enabled ⊆ t.enabled
  control : ∀ i, t.controlSatisfied i =
    s.controlSatisfied i + edges.countP fun e => e.kind = .control && e.toIndex = i

section Assert

variable {ex : Executor} {plan : CompiledPlan} {nd : CompiledNode}

theorem propagateEdge_uncond {e : CompiledEdge} (hc : e.condition = none)
    (hm : e.mapping.getD [] = []) (s : ExecState) :
    ∃ t, propagateEdge nd plan e s = .ok () t ∧ SameView s t ∧ LetsGoOn [e] s t := by
  cases hk : e.kind with
  | control =>
    refine ⟨{ s with
      controlSatisfied :=
        Function.update s.controlSatisfied e.toIndex (s.controlSatisfied e.toIndex + 1)
      enabled := insert e.toIndex s.enabled }, ?_, ⟨rfl, rfl, rfl, rfl⟩, ?_, ?_, ?_⟩
    · rw [propagateEdge, if_pos hk]
      rfl
    · simp
    · exact Finset.subset_insert _ _
    · intro i
      by_cases hi : e.toIndex = i
      · subst hi
        simp [hk]
      · have hne : i ≠ e.toIndex := fun h => hi h.symm
        simp [hi, Function.update_of_ne hne]
  | data =>
    have hne : ¬ e.kind = .control := by simp [hk]
    refine ⟨{ s with enabled := insert e.toIndex s.enabled }, ?_, ⟨rfl, rfl, rfl, rfl⟩, ?_, ?_, ?_⟩
    · rw [propagateEdge, if_neg hne, edgeFires, hc]
      simp only [pure_bind_apply, followEdge, if_true, applyMapping, hm, applyPairs, enable,
        modify_apply]
    · simp
    · exact Finset.subset_insert _ _
    · simp [hk]

theorem propagateEdges_uncond : ∀ (edges : List CompiledEdge),
    (∀ e ∈ edges, e.condition = none ∧ e.mapping.getD [] = []) → ∀ s,
    ∃ t, (edges.forM (propagateEdge nd plan) : M PUnit) s = .ok () t ∧ SameView s t ∧
      LetsGoOn edges s t
  | [], _, s => ⟨s, rfl, SameView.refl s, by simp, fun _ h => h, by simp⟩
  | e :: es, h, s => by
    obtain ⟨t, ht, hst, hgo⟩ := @propagateEdge_uncond plan nd e (h e (by simp)).1 (h e (by simp)).2 s
    obtain ⟨u, hu, htu, hgo'⟩ := propagateEdges_uncond es (fun e' he' => h e' (by simp [he'])) t
    refine ⟨u, ?_, hst.trans htu, ?_, ?_, ?_⟩
    · rw [forM_cons, bind_of_ok _ ht, hu]
    · intro e' he'
      rcases List.mem_cons.1 he' with rfl | he'
      · exact hgo'.still (hgo.enabled _ (by simp))
      · exact hgo'.enabled e' he'
    · exact hgo.still.trans hgo'.still
    · intro i
      rw [hgo'.control, hgo.control, Nat.add_assoc, ← List.countP_append, List.singleton_append]

/-- At top level an assert lets the run go on, whatever it evaluates to. -/
theorem assert_runArm {order : List Nat} {bodies : List (Nat × Finset Nat)}
    {runNode : List Frame → CompiledNode → M NodeOutcome} {visit : List Frame}
    {pause : Option PausePolicy} {test : Text} (ha : IsAssert ex.plan nd test) (s : ExecState) :
    ∃ t, runArm ex order bodies runNode visit pause nd s = .ok .ok t ∧ OnlyRecords nd s t ∧
      LetsGoOn (ex.plan.edgesFrom nd.index) s t := by
  obtain ⟨b, harm⟩ : ∃ b, nodeArm ex visit nd s = .ok () { s with
      nodeOutputs := Function.update s.nodeOutputs nd.index (some (.bool b))
      log := s.log ++ [.decided visit nd.index b] } := by
    simp only [nodeArm, ha.op, armDecide, get_bind, insertOutput, note, modify_bind, modify_apply]
    exact ⟨_, rfl⟩
  generalize hs1 : ({ s with
      nodeOutputs := Function.update s.nodeOutputs nd.index (some (.bool b))
      log := s.log ++ [.decided visit nd.index b] } : ExecState) = s1 at harm
  obtain ⟨t, ht, hst, hgo⟩ := @propagateEdges_uncond ex.plan nd (ex.plan.edgesFrom nd.index) ha.edges s1
  have hprop : propagate ex.plan nd s1 = .ok () t := by
    rw [propagate, if_pos (by rw [ha.op]; rfl)]
    exact ht
  refine ⟨t, ?_, ⟨?_, ?_, ?_, visit, b, ?_⟩, hgo.enabled, ?_, ?_⟩
  · simp only [runArm, ha.op]
    rw [bind_of_ok _ harm, bind_of_ok _ hprop]
    rfl
  · rw [hst.ctx, ← hs1]
  · intro i hi
    rw [hst.nodeOutputs, ← hs1]
    exact Function.update_of_ne hi _ _
  · rw [hst.output, ← hs1]
  · rw [hst.log, ← hs1]
  · have := hgo.still
    rwa [← hs1] at this
  · intro i
    rw [hgo.control, ← hs1]

/-- In a loop body it does so when its condition evaluates. -/
theorem assert_bodyArm {visit : List Frame} {test : Text} (ha : IsAssert ex.plan nd test)
    {s : ExecState} {x : Value}
    (hx : evalExpression s.ctx s.nodeOutputs (trimQuotes (assertCondition test)) = .ok x) :
    ∃ t, bodyArm ex visit nd s = .ok .next t ∧ OnlyRecords nd s t := by
  have hcond : evalCondition nd s = .ok (isTruthy x) s := by
    simp only [evalCondition, ha.condition, Option.map_some, eval, map_apply, get_bind, hx,
      pure_apply]
  refine ⟨{ s with
    nodeOutputs := Function.update s.nodeOutputs nd.index (some (.bool (isTruthy x)))
    log := s.log ++ [.decided visit nd.index (isTruthy x)] }, ?_, rfl, ?_, rfl, visit, _, rfl⟩
  · simp only [bodyArm, ha.op, bodyDecide]
    rw [bind_of_ok _ hcond]
    rfl
  · exact fun i hi => Function.update_of_ne hi _ _

end Assert

/-! ### Runs -/

/-- The run has failed, and of the nodes behind node `i` only concurrent ones have run. -/
def StopsAt (seg : Segment) (v : List Frame) (i : Nat) : Prop :=
  seg.failed = true ∧ ∀ w j c o, .node w j c o ∈ seg.log → i < j → Concurrent v w

/-- The assert at `nd` lets the run go on in a state. -/
structure Passes (ex : Executor) (order : List Nat) (v : List Frame) (nd : CompiledNode)
    (s : ExecState) : Prop where
  body : InBody v → ∃ t, bodyArm ex v nd s = .ok .next t ∧ OnlyRecords nd s t
  top : ¬ InBody v → ∀ bodies runNode pause, ∃ t,
    runArm ex order bodies runNode v pause nd s = .ok .ok t ∧ OnlyRecords nd s t ∧
      LetsGoOn (ex.plan.edgesFrom nd.index) s t

/-- The raises and asserts of a run do what they say: a raise stops the run, and so does an
assert that does not hold; one that holds lets the run go on. -/
structure StopsRun (ex : Executor) (seg : Segment) : Prop where
  raise : ∀ v i c o, .node v i c o ∈ seg.log → ex.plan.opAt i = some .error → StopsAt seg v i
  fails : ∀ v nd c o test, .node v nd.index c o ∈ seg.log → ex.plan.getNode nd.index = some nd →
    IsAssert ex.plan nd test → ¬ TestHolds c o test → StopsAt seg v nd.index
  passes : ∀ v nd c o test, .node v nd.index c o ∈ seg.log → ex.plan.getNode nd.index = some nd →
    IsAssert ex.plan nd test → TestHolds c o test →
    ∀ order s, s.ctx = c → s.nodeOutputs = o → Passes ex order v nd s

/-- The steps of a run that the executor gets right: no raise in a loop body, none that a
later node has overtaken, no assert that fails, and in a loop body none whose condition
does not evaluate. -/
structure RaisesInOrder (plan : CompiledPlan) (log : List Event) : Prop where
  outside : ∀ v i c o, .node v i c o ∈ log → plan.opAt i = some .error → ¬ InBody v
  first : ∀ l₁ v i c o l₂, log = l₁ ++ .node v i c o :: l₂ → plan.opAt i = some .error →
    ∀ w j c' o', .node w j c' o' ∈ l₁ → i < j → Concurrent v w
  holds : ∀ v nd c o test, .node v nd.index c o ∈ log → plan.getNode nd.index = some nd →
    IsAssert plan nd test → TestHolds c o test
  evaluates : ∀ v nd c o test, .node v nd.index c o ∈ log → plan.getNode nd.index = some nd →
    IsAssert plan nd test → InBody v →
    ∃ x, evalExpression c o (trimQuotes (assertCondition test)) = .ok x

/-- `for i in range(2): raise` and a call. -/
def raiseInLoop : Ast.Module := Build.graph []
  [Build.forIn "i" (Build.range [Build.int 2]) [.raise none none], .expr (Build.call "t" [])]

/-- `raise` -/
def onlyRaise : ExecutionPlan := ExecutionPlan.new
  [⟨"n0", .error, [⟨"message", .string "raised by code"⟩], none, none, none⟩] []

end Tinypipe
