import Tinypipe.Programs

/-! The body of a LOOP. The compiler does not record it; the executor takes the
nodes that the LOOP's data edges lead to and that its control edges do not. -/

namespace Tinypipe

open Lib

namespace CompiledPlan

variable (plan : CompiledPlan) (loop : Nat)

/-- A control edge of the LOOP leads to the node. -/
def Behind (x : Nat) : Prop := Reach.From plan.arcs (plan.anchors loop true) x

/-- A node hangs on a data edge of the LOOP by edges inside a set of nodes. -/
inductive Hangs (body : Finset Nat) : Nat → Prop
  | anchor {x : Nat} : x ∈ plan.anchors loop false → x ∈ body → Hangs body x
  | step {x y : Nat} : Hangs body x → (x, y) ∈ plan.arcs → y ∈ body → Hangs body y

/-- The edges that make a set of nodes the body of a LOOP. -/
structure Wired (body : Finset Nat) : Prop where
  entered : ∀ x ∈ body, plan.Hangs loop body x
  anchored : ∀ x ∈ plan.anchors loop false, x ∈ body ∨ plan.Behind loop x
  kept : ∀ x ∈ body, ∀ y, (x, y) ∈ plan.arcs → y ∈ body ∨ plan.Behind loop y
  apart : ∀ x ∈ body, ¬plan.Behind loop x

variable {plan} {loop}

theorem mem_loopBody {x : Nat} : x ∈ plan.loopBody loop ↔
    Reach.From plan.arcs (plan.anchors loop false) x ∧ ¬plan.Behind loop x := by
  have hbehind : plan.anchors loop true = [] → ¬plan.Behind loop x := by
    rintro h ⟨s, hs, -⟩
    rw [h] at hs
    cases hs
  simp only [loopBody, collectReachableIndices]
  split
  case isTrue h => rw [Reach.mem_reachable, and_iff_left (hbehind h)]
  case isFalse => rw [Finset.mem_sdiff, Reach.mem_reachable, Reach.mem_reachable, Behind]

theorem Behind.step {x y : Nat} (h : plan.Behind loop x) (hxy : (x, y) ∈ plan.arcs) :
    plan.Behind loop y := by
  obtain ⟨s, hs, hpath⟩ := h
  exact ⟨s, hs, hpath.tail hxy⟩

theorem Hangs.from {body : Finset Nat} {x : Nat} (h : plan.Hangs loop body x) :
    Reach.From plan.arcs (plan.anchors loop false) x := by
  induction h with
  | anchor hx _ => exact ⟨_, hx, .refl⟩
  | step _ hxy _ ih =>
    obtain ⟨s, hs, hpath⟩ := ih
    exact ⟨s, hs, hpath.tail hxy⟩

/-- From an anchor the paths stay in the body until they go behind the loop. -/
theorem Wired.mem_or_behind {body : Finset Nat} (h : plan.Wired loop body) {s x : Nat}
    (hs : s ∈ plan.anchors loop false) (hpath : Reach.Path plan.arcs s x) :
    x ∈ body ∨ plan.Behind loop x := by
  induction hpath with
  | refl => exact h.anchored s hs
  | tail _ hxy ih =>
    rcases ih with hx | hx
    · exact h.kept _ hx _ hxy
    · exact .inr (hx.step hxy)

theorem loopBody_hangs {x : Nat} (h : x ∈ plan.loopBody loop) :
    plan.Hangs loop (plan.loopBody loop) x := by
  obtain ⟨⟨s, hs, hpath⟩, hout⟩ := mem_loopBody.1 h
  induction hpath with
  | refl => exact .anchor hs h
  | @tail y z hpath hyz ih =>
    have hy : ¬plan.Behind loop y := fun hy => hout (hy.step hyz)
    exact .step (ih (mem_loopBody.2 ⟨⟨s, hs, hpath⟩, hy⟩) hy) hyz h

theorem loopBody_wired : plan.Wired loop (plan.loopBody loop) where
  entered := fun _ => loopBody_hangs
  anchored := fun x hx => by
    by_cases hb : plan.Behind loop x
    · exact .inr hb
    · exact .inl (mem_loopBody.2 ⟨⟨x, hx, .refl⟩, hb⟩)
  kept := fun x hx y hxy => by
    obtain ⟨⟨s, hs, hpath⟩, -⟩ := mem_loopBody.1 hx
    by_cases hb : plan.Behind loop y
    · exact .inr hb
    · exact .inl (mem_loopBody.2 ⟨⟨s, hs, hpath.tail hxy⟩, hb⟩)
  apart := fun _ hx => (mem_loopBody.1 hx).2

/-- The wiring determines the set. -/
theorem loopBody_eq_iff {body : Finset Nat} : plan.loopBody loop = body ↔ plan.Wired loop body := by
  constructor
  · rintro rfl
    exact loopBody_wired
  · intro h
    ext x
    rw [mem_loopBody]
    constructor
    · rintro ⟨⟨s, hs, hpath⟩, hout⟩
      exact (h.mem_or_behind hs hpath).resolve_right hout
    · exact fun hx => ⟨(h.entered x hx).from, h.apart x hx⟩

theorem mem_identifyLoopBodies {nd : CompiledNode} (hnd : nd ∈ plan.nodes) (hop : nd.op = .loop)
    {body : Finset Nat} :
    (nd.index, body) ∈ plan.identifyLoopBodies ↔ plan.loopBody nd.index = body := by
  simp only [identifyLoopBodies, List.mem_map, List.mem_filter, decide_eq_true_eq, Prod.mk.injEq]
  constructor
  · rintro ⟨nd', -, heq, rfl⟩
    rw [heq]
  · rintro rfl
    exact ⟨nd, ⟨hnd, hop⟩, rfl, rfl⟩

end CompiledPlan

/-- The nodes of a plan that were made from the body of a `for`, of its LOOP's id. -/
def TransformEngine.bodyNodes (e : TransformEngine) (plan : CompiledPlan) (loop : Text) :
    Finset Nat :=
  ((plan.nodes.filter fun nd => e.origins.any fun o =>
    o.1 == nd.id && o.2.elem (.body loop)).map CompiledNode.index).toFinset

theorem compile_transforms {now : Nat} {m : Ast.Module} {o : CodegenOutput}
    (h : compile now m = .ok o) : ∃ e, runTransform m = .ok e := by
  simp only [compile, transform] at h
  cases hs : sanitize m with
  | error errors =>
    rw [hs] at h
    cases h
  | ok u =>
    cases he : runTransform m with
    | error errors =>
      rw [hs, he] at h
      cases h
    | ok e => exact ⟨e, rfl⟩

open Build Ast in
/-- `for i in range(2): y = i`, then `return x` -/
def copyLoop : Module := graph ["x"]
  [forIn "i" (range [int 2]) [assign "y" (name "i")], ret (name "x")]

open Build Ast in
/-- The same loop as the last statement of a branch. -/
def loopInBranch : Module := graph ["x"]
  [.if (name "x") [forIn "i" (range [int 2]) [assign "y" (name "i")]] [assign "z" (int 1)],
    ret (name "x")]

end Tinypipe
