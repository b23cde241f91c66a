import Tinypipe.Api.Types

/-! Runs of context operations. A variable written in a branch is read back there until the
next merge or entry, unless the snapshot of a PARALLEL hides it or its scope is taken away;
what is written in one branch is never seen in another. -/

namespace Tinypipe

open Lib

inductive ContextOp where
  | get (key : Text)
  | set (key : Text) (value : Value)
  | enterParallel
  | exitParallel
  | setBranch (branchId : Nat)
  | clearBranch
  | insertBranchScope (branchId : Nat) (scope : Scope)
  | takeBranchScope (branchId : Nat)
  | setMergeStrategy (key : Text) (strategy : MergeStrategy)
  | mergeBranches

namespace ContextOp

def run (c : Context) : ContextOp → Context
  | get _ => c
  | set key value => c.set key value
  | enterParallel => c.enterParallel
  | exitParallel => c.exitParallel
  | setBranch branchId => c.setBranch branchId
  | clearBranch => c.clearBranch
  | insertBranchScope branchId scope => c.insertBranchScope branchId scope
  | takeBranchScope branchId => (c.takeBranchScope branchId).2
  | setMergeStrategy key strategy => c.setMergeStrategy key strategy
  | mergeBranches => c.mergeBranches

/-- The active branch behind an operation. -/
def active (a : Option Nat) : ContextOp → Option Nat
  | setBranch branchId => some branchId
  | enterParallel | exitParallel | clearBranch | mergeBranches => none
  | get _ | set _ _ | insertBranchScope _ _ | takeBranchScope _ | setMergeStrategy _ _ => a

theorem run_activeBranch (c : Context) (op : ContextOp) :
    (op.run c).activeBranch = op.active c.activeBranch := by
  cases op with
  | set key value =>
    rw [run, Context.set]
    split <;> rfl
  | setMergeStrategy key strategy =>
    rw [run, Context.setMergeStrategy]
    split <;> rfl
  | get key => rfl
  | enterParallel => rfl
  | exitParallel => rfl
  | setBranch branchId => rfl
  | clearBranch => rfl
  | insertBranchScope branchId scope => rfl
  | takeBranchScope branchId => rfl
  | mergeBranches => rfl

end ContextOp

/-! ### What a read sees -/

namespace Context

/-- What the scope of a branch holds. -/
def held (c : Context) (b : Nat) (x : Text) : Option Value :=
  (c.branchScopes.get b).bind fun sc => sc.vars.get x

/-- What a read finds when no branch holds the variable. -/
def beneath (c : Context) (x : Text) : Option Value :=
  (c.parentScope.bind fun sc => sc.vars.get x).or (c.vars.get x)

theorem get_eq (c : Context) (x : Text) :
    c.get x = (c.activeBranch.bind fun b => c.held b x).or (c.beneath x) := rfl

theorem get_of_active {c : Context} {b : Nat} (h : c.activeBranch = some b) (x : Text) :
    c.get x = (c.held b x).or (c.beneath x) := by rw [get_eq, h, Option.bind_some]

theorem get_of_global {c : Context} (h : c.activeBranch = none) (x : Text) :
    c.get x = c.beneath x := by rw [get_eq, h, Option.bind_none, Option.none_or]

end Context

variable {c : Context} {b : Nat} {x : Text}

theorem set_of_active (h : c.activeBranch = some b) (k : Text) (w : Value) :
    c.set k w =
    { c with branchScopes :=
        c.branchScopes.set b (((c.branchScopes.get b).getD Scope.new).set k w) } := by
  rw [Context.set, h]

theorem set_of_inactive (h : c.activeBranch = none) (k : Text) (w : Value) :
    c.set k w = { c with vars := c.vars.set k w } := by
  rw [Context.set, h]

theorem held_set (h : c.activeBranch = some b) (k : Text) (w : Value) (x : Text) :
    (c.set k w).held b x = if k = x then some w else c.held b x := by
  rw [set_of_active h, Context.held, Dict.get_set_self, Option.bind_some, Scope.set, Dict.get_set,
    Context.held]
  congr 1
  cases c.branchScopes.get b <;> rfl

theorem held_setBranch (b b' : Nat) : (c.setBranch b).held b' x = c.held b' x := by
  rw [Context.held, Context.held, Context.setBranch]
  split
  · rfl
  case h_2 hb =>
    rw [Dict.get_set]
    split
    case isTrue h =>
      rw [← h, hb]
      rfl
    · rfl

theorem held_clearBranch (c : Context) (b : Nat) (x : Text) : c.clearBranch.held b x = c.held b x := rfl

/-- A write in another branch, or a global one, leaves a scope alone. -/
theorem branchScopes_set_of_ne (h : c.activeBranch ≠ some b) (k : Text) (w : Value) :
    (c.set k w).branchScopes.get b = c.branchScopes.get b := by
  cases ha : c.activeBranch with
  | none => rw [set_of_inactive ha]
  | some a =>
    have hne : a ≠ b := fun e => h (by rw [ha, e])
    rw [set_of_active ha, Dict.get_set_ne _ hne]

theorem held_setMergeStrategy (key : Text) (strategy : MergeStrategy) :
    (c.setMergeStrategy key strategy).held b x = c.held b x := by
  rw [Context.setMergeStrategy]
  split
  case h_1 a ha =>
    rw [Context.held, Context.held, Dict.get_set]
    split
    case isTrue h =>
      subst h
      cases c.branchScopes.get a <;> rfl
    · rfl
  · rfl

/-! ### Reading one's own writes -/

/-- What was written last in each branch, and with no branch active. -/
abbrev Written := Option Nat → Text → Option Value

/-- A merge and an entry start afresh. -/
def ContextOp.record (a : Option Nat) (w : Written) : ContextOp → Written
  | .set key value => Function.update w a (Function.update (w a) key (some value))
  | .enterParallel | .mergeBranches => fun _ _ => none
  | .get _ | .exitParallel | .setBranch _ | .clearBranch | .insertBranchScope _ _
  | .takeBranchScope _ | .setMergeStrategy _ _ => w

/-- A context with the writes that led to it. -/
structure Recorded where
  ctx : Context
  written : Written

namespace Recorded

def new : Recorded := ⟨Context.new, fun _ _ => none⟩

def step (s : Recorded) (op : ContextOp) : Recorded :=
  ⟨op.run s.ctx, op.record s.ctx.activeBranch s.written⟩

@[simp] theorem ctx_step (s : Recorded) (op : ContextOp) : (s.step op).ctx = op.run s.ctx := rfl

@[simp] theorem written_step (s : Recorded) (op : ContextOp) :
    (s.step op).written = op.record s.ctx.activeBranch s.written := rfl

/-- A variable written with the branch now active has the value written last. -/
def ReadsOwn (s : Recorded) : Prop :=
  ∀ x v, s.written s.ctx.activeBranch x = some v → s.ctx.get x = some v

end Recorded

/-- A global write does not differ from the snapshot of a PARALLEL, and a scope is only put in or
taken out where it does not lose what the branch has written. -/
def ContextOp.Keeps (s : Recorded) : ContextOp → Prop
  | .set key value => s.ctx.activeBranch = none →
    ∀ sc, s.ctx.parentScope = some sc → ∀ w, sc.vars.get key = some w → w = value
  | .insertBranchScope b scope => ∀ x v, s.written (some b) x = some v → scope.vars.get x = some v
  | .takeBranchScope b => ∀ x, s.written (some b) x = none
  | .get _ | .enterParallel | .exitParallel | .setBranch _ | .clearBranch
  | .setMergeStrategy _ _ | .mergeBranches => True

/-- Every write since the last merge or entry is still in place, and nothing hides it. -/
structure InPlace (s : Recorded) : Prop where
  branch : ∀ b x v, s.written (some b) x = some v → s.ctx.held b x = some v
  vars : ∀ x v, s.written none x = some v → s.ctx.beneath x = some v

theorem InPlace.readsOwn {s : Recorded} (h : InPlace s) : s.ReadsOwn := by
  intro x v hw
  cases ha : s.ctx.activeBranch with
  | none =>
    rw [ha] at hw
    rw [Context.get_of_global ha, h.vars x v hw]
  | some b =>
    rw [ha] at hw
    rw [Context.get_of_active ha, h.branch b x v hw, Option.some_or]

theorem inPlace_of_none {s : Recorded} (h : ∀ a x, s.written a x = none) : InPlace s :=
  ⟨fun b x v hx => (by rw [h] at hx; cases hx), fun x v hx => by rw [h] at hx; cases hx⟩

/-- What an operation other than a write and a new start leaves in place. -/
theorem InPlace.frame {s : Recorded} (h : InPlace s) {op : ContextOp}
    (hw : op.record s.ctx.activeBranch s.written = s.written)
    (hheld : ∀ b x v, s.written (some b) x = some v → (op.run s.ctx).held b x = s.ctx.held b x)
    (hbeneath : ∀ x, (op.run s.ctx).beneath x = s.ctx.beneath x) : InPlace (s.step op) := by
  refine ⟨fun b x v hx => ?_, fun x v hx => ?_⟩
  · rw [Recorded.written_step, hw] at hx
    rw [Recorded.ctx_step, hheld b x v hx]
    exact h.branch b x v hx
  · rw [Recorded.written_step, hw] at hx
    rw [Recorded.ctx_step, hbeneath]
    exact h.vars x v hx

theorem InPlace.set {s : Recorded} (h : InPlace s) {key : Text} {value : Value}
    (hk : (ContextOp.set key value).Keeps s) : InPlace (s.step (.set key value)) := by
  cases ha : s.ctx.activeBranch with
  | none =>
    refine ⟨fun b x v hx => ?_, fun x v hx => ?_⟩
    · rw [Recorded.written_step, ContextOp.record, ha, Function.update_of_ne (by simp)] at hx
      rw [Recorded.ctx_step, ContextOp.run, Context.held, branchScopes_set_of_ne (by rw [ha]; simp)]
      exact h.branch b x v hx
    · rw [Recorded.written_step, ContextOp.record, ha, Function.update_self] at hx
      rw [Recorded.ctx_step, ContextOp.run, set_of_inactive ha, Context.beneath]
      by_cases hkey : x = key
      · subst hkey
        rw [Function.update_self, Option.some.injEq] at hx
        cases hp : s.ctx.parentScope with
        | none => simp [hx]
        | some sc =>
          cases hsc : sc.vars.get x with
          | none => simp [hsc, hx]
          | some w => simp [hsc, ← hx, hk ha sc hp w hsc]
      · rw [Function.update_of_ne hkey] at hx
        rw [Dict.get_set_ne _ (Ne.symm hkey)]
        exact h.vars x v hx
  | some a =>
    refine ⟨fun b x v hx => ?_, fun x v hx => ?_⟩
    · rw [Recorded.written_step, ContextOp.record, ha] at hx
      rw [Recorded.ctx_step, ContextOp.run]
      by_cases hb : b = a
      · subst hb
        rw [Function.update_self] at hx
        rw [held_set ha]
        by_cases hkey : x = key
        · subst hkey
          rwa [if_pos rfl, ← Function.update_self (f := s.written (some b)) x (some value)]
        · rw [Function.update_of_ne hkey] at hx
          rw [if_neg (Ne.symm hkey)]
          exact h.branch b x v hx
      · rw [Function.update_of_ne (by simpa using hb)] at hx
        rw [Context.held, branchScopes_set_of_ne (by rw [ha]; simpa using Ne.symm hb)]
        exact h.branch b x v hx
    · rw [Recorded.written_step, ContextOp.record, ha, Function.update_of_ne (by simp)] at hx
      rw [Recorded.ctx_step, ContextOp.run, set_of_active ha]
      exact h.vars x v hx

theorem InPlace.step {s : Recorded} (h : InPlace s) {op : ContextOp} (hk : op.Keeps s) :
    InPlace (s.step op) := by
  cases op with
  | set key value => exact h.set hk
  | get key => exact h.frame rfl (fun _ _ _ _ => rfl) fun _ => rfl
  | exitParallel => exact h.frame rfl (fun _ _ _ _ => rfl) fun _ => rfl
  | clearBranch => exact h.frame rfl (fun _ _ _ _ => rfl) fun _ => rfl
  | setBranch a => exact h.frame rfl (fun b x v _ => held_setBranch a b) fun _ => rfl
  | setMergeStrategy key strategy =>
    refine h.frame rfl (fun b x v _ => held_setMergeStrategy key strategy) fun x => ?_
    rw [ContextOp.run, Context.setMergeStrategy]
    split <;> rfl
  | enterParallel => exact inPlace_of_none fun _ _ => rfl
  | mergeBranches => exact inPlace_of_none fun _ _ => rfl
  | insertBranchScope a scope =>
    refine h.frame rfl (fun b x v hx => ?_) fun _ => rfl
    rw [h.branch b x v hx, ContextOp.run, Context.held, Context.insertBranchScope, Dict.get_set]
    split
    case isTrue hab => exact hk x v (hab ▸ hx)
    case isFalse hab => exact h.branch b x v hx
  | takeBranchScope a =>
    refine h.frame rfl (fun b x v hx => ?_) fun _ => rfl
    have hab : b ≠ a := by
      rintro rfl
      rw [hk x] at hx
      cases hx
    rw [ContextOp.run, Context.held, Context.takeBranchScope, Dict.get_erase_ne _ hab, Context.held]

/-- Every operation of the run keeps the writes in place. -/
def KeepsAll : Recorded → List ContextOp → Prop
  | _, [] => True
  | s, op :: ops => op.Keeps s ∧ KeepsAll (s.step op) ops

theorem InPlace.run {s : Recorded} (h : InPlace s) {ops : List ContextOp} (hk : KeepsAll s ops) :
    InPlace (ops.foldl Recorded.step s) := by
  induction ops generalizing s with
  | nil => exact h
  | cons op ops ih => exact ih (h.step hk.1) hk.2

theorem keepsAll_append {s : Recorded} {ops ops' : List ContextOp} (h : KeepsAll s (ops ++ ops')) :
    KeepsAll s ops := by
  induction ops generalizing s with
  | nil => trivial
  | cons op ops ih => exact ⟨h.1, ih h.2⟩

/-- A write is read back at once, unless the snapshot of a PARALLEL hides it. -/
theorem get_set_iff (c : Context) (x : Text) (v : Value) : (c.set x v).get x = some v ↔
    (c.activeBranch = none → ∀ sc, c.parentScope = some sc → ∀ w, sc.vars.get x = some w → w = v) := by
  cases ha : c.activeBranch with
  | some b =>
    have hset : (c.set x v).activeBranch = some b := by
      rw [set_of_active ha]
      exact ha
    simp [Context.get_of_active hset, held_set ha]
  | none =>
    have hset : (c.set x v).activeBranch = none := by
      rw [set_of_inactive ha]
      exact ha
    rw [Context.get_of_global hset, set_of_inactive ha, Context.beneath]
    cases hp : c.parentScope with
    | none => simp
    | some sc =>
      cases hsc : sc.vars.get x with
      | none => simp [hsc]
      | some w => simp [hsc]

/-- A write is read back at once exactly where no snapshot hides it, and in a run that keeps its
writes in place every read finds the last write made with the branch that is active. -/
theorem reads_own_writes (ops ops' : List ContextOp) (h : KeepsAll Recorded.new (ops ++ ops')) :
    (∀ (c : Context) (x : Text) (v : Value), (c.set x v).get x = some v ↔
      (c.activeBranch = none → ∀ sc, c.parentScope = some sc → ∀ w, sc.vars.get x = some w → w = v)) ∧
    (ops.foldl Recorded.step Recorded.new).ReadsOwn := by
  refine ⟨get_set_iff, ?_⟩
  have hnew : InPlace Recorded.new := inPlace_of_none fun _ _ => rfl
  exact (hnew.run (keepsAll_append h)).readsOwn

/-- A global `x` is written again behind a PARALLEL: the snapshot still holds the old value. -/
theorem snapshot_hides_write :
    ¬ (([.set "x" (.int 1), .enterParallel, .setBranch 0, .exitParallel, .set "x" (.int 2)] :
      List ContextOp).foldl Recorded.step Recorded.new).ReadsOwn := fun h => by
  have hread := h "x" (.int 2) (by decide +kernel)
  revert hread
  decide +kernel

theorem reads_own_writes_merged :
    (([.set "x" (.int 1), .enterParallel, .setBranch 0, .set "x" (.int 2)] : List ContextOp).foldl
      Recorded.step Recorded.new).ReadsOwn :=
  (reads_own_writes [.set "x" (.int 1), .enterParallel, .setBranch 0, .set "x" (.int 2)]
    [.clearBranch, .mergeBranches, .set "x" (.int 3)]
    ⟨fun _ _ h => (by cases h), trivial, trivial, fun h => (by cases h), trivial, trivial,
      fun _ _ h => (by cases h), trivial⟩).2

/-! ### Branches apart -/

/-- What the reads made while branch `b` is active return. -/
def observe (b : Nat) : Context → List ContextOp → List (Option Value)
  | _, [] => []
  | c, .get key :: ops => if c.activeBranch = some b then c.get key :: observe b c ops
    else observe b c ops
  | c, op :: ops => observe b (op.run c) ops

/-- Runs without a merge that differ only in what is set while other branches than `b` are
active, `a` being the active branch at their start. -/
inductive Alike (b : Nat) : Option Nat → List ContextOp → List ContextOp → Prop
  | nil (a : Option Nat) : Alike b a [] []
  | same {a : Option Nat} {op : ContextOp} {ops ops' : List ContextOp} (hop : op ≠ .mergeBranches)
    (h : Alike b (op.active a) ops ops') : Alike b a (op :: ops) (op :: ops')
  | left {a : Nat} (key : Text) (value : Value) {ops ops' : List ContextOp} (ha : a ≠ b)
    (h : Alike b (some a) ops ops') : Alike b (some a) (.set key value :: ops) ops'
  | right {a : Nat} (key : Text) (value : Value) {ops ops' : List ContextOp} (ha : a ≠ b)
    (h : Alike b (some a) ops ops') : Alike b (some a) ops (.set key value :: ops')

/-- Contexts that branch `b` cannot tell apart. -/
structure SameFor (b : Nat) (c c' : Context) : Prop where
  active : c.activeBranch = c'.activeBranch
  vars : c.vars = c'.vars
  parent : c.parentScope = c'.parentScope
  scope : c.branchScopes.get b = c'.branchScopes.get b

instance (b : Nat) : IsEquiv Context (SameFor b) where
  refl _ := ⟨rfl, rfl, rfl, rfl⟩
  symm _ _ h := ⟨h.active.symm, h.vars.symm, h.parent.symm, h.scope.symm⟩
  trans _ _ _ h h' := ⟨h.active.trans h'.active, h.vars.trans h'.vars, h.parent.trans h'.parent,
    h.scope.trans h'.scope⟩

section SameFor

variable {b : Nat} {c c' : Context}

theorem SameFor.get (h : SameFor b c c') (hb : c.activeBranch = some b) (x : Text) :
    c.get x = c'.get x := by
  rw [Context.get_of_active hb, Context.get_of_active (h.active ▸ hb), Context.held, Context.held,
    h.scope, Context.beneath, Context.beneath, h.parent, h.vars]

/-- A write made while another branch is active. -/
theorem SameFor.set_other {a : Nat} (ha : c.activeBranch = some a) (hab : a ≠ b) (key : Text)
    (value : Value) : SameFor b (c.set key value) c := by
  have hne : c.activeBranch ≠ some b := by rw [ha]; simpa using hab
  refine ⟨?_, ?_, ?_, branchScopes_set_of_ne hne key value⟩
  all_goals rw [set_of_active ha]

theorem SameFor.run (h : SameFor b c c') {op : ContextOp} (hop : op ≠ .mergeBranches) :
    SameFor b (op.run c) (op.run c') := by
  have hactive : (op.run c).activeBranch = (op.run c').activeBranch := by
    rw [ContextOp.run_activeBranch, ContextOp.run_activeBranch, h.active]
  cases op with
  | mergeBranches => exact absurd rfl hop
  | get key => exact h
  | exitParallel => exact ⟨rfl, h.vars, h.parent, h.scope⟩
  | clearBranch => exact ⟨rfl, h.vars, h.parent, h.scope⟩
  | enterParallel =>
    refine ⟨rfl, h.vars, ?_, rfl⟩
    simp only [ContextOp.run, Context.enterParallel, h.vars]
  | set key value =>
    cases ha : c.activeBranch with
    | none =>
      have ha' : c'.activeBranch = none := h.active ▸ ha
      simp only [ContextOp.run, set_of_inactive ha, set_of_inactive ha']
      exact ⟨ha.trans ha'.symm, by rw [h.vars], h.parent, h.scope⟩
    | some a =>
      have ha' : c'.activeBranch = some a := h.active ▸ ha
      by_cases hab : a = b
      · subst hab
        simp only [ContextOp.run, set_of_active ha, set_of_active ha']
        exact ⟨ha.trans ha'.symm, h.vars, h.parent, by simp [h.scope]⟩
      · exact trans_of (SameFor b) (SameFor.set_other ha hab key value) (trans_of (SameFor b) h
          (symm_of (SameFor b) (SameFor.set_other ha' hab key value)))
  | setBranch a =>
    refine ⟨rfl, h.vars, h.parent, ?_⟩
    simp only [ContextOp.run, Context.setBranch]
    by_cases hab : a = b
    · subst hab
      rw [h.scope]
      split
      · exact h.scope
      · simp
    · split <;> split <;> simp [Dict.get_set_ne _ hab, h.scope]
  | insertBranchScope a scope =>
    refine ⟨h.active, h.vars, h.parent, ?_⟩
    simp only [ContextOp.run, Context.insertBranchScope, Dict.get_set, h.scope]
  | takeBranchScope a =>
    refine ⟨h.active, h.vars, h.parent, ?_⟩
    by_cases hab : b = a
    · subst hab
      simp [ContextOp.run, Context.takeBranchScope, Dict.get_erase_self]
    · simp [ContextOp.run, Context.takeBranchScope, Dict.get_erase_ne _ hab, h.scope]
  | setMergeStrategy key strategy =>
    simp only [ContextOp.run, Context.setMergeStrategy, ← h.active]
    cases ha : c.activeBranch with
    | none => exact h
    | some a =>
      refine ⟨rfl, h.vars, h.parent, ?_⟩
      by_cases hab : a = b
      · subst hab
        simp [h.scope]
      · simp [Dict.get_set_ne _ hab, h.scope]

/-- Branch `b` observes the same in runs that differ in other branches only. -/
theorem Alike.observe_eq {a : Option Nat} {ops ops' : List ContextOp} (hops : Alike b a ops ops') :
    ∀ {c c' : Context}, c.activeBranch = a → SameFor b c c' → observe b c ops = observe b c' ops' := by
  induction hops with
  | nil a => exact fun _ _ => rfl
  | @same a op ops ops' hop hops ih =>
    intro c c' ha h
    have hrest : observe b (op.run c) ops = observe b (op.run c') ops' :=
      ih (by rw [ContextOp.run_activeBranch, ha]) (h.run hop)
    cases op with
    | get key =>
      rw [observe, observe, ← h.active]
      split
      case isTrue hb =>
        rw [h.get hb]
        exact congrArg _ hrest
      case isFalse => exact hrest
    | set key value => exact hrest
    | enterParallel => exact hrest
    | exitParallel => exact hrest
    | setBranch a => exact hrest
    | clearBranch => exact hrest
    | insertBranchScope a scope => exact hrest
    | takeBranchScope a => exact hrest
    | setMergeStrategy key strategy => exact hrest
    | mergeBranches => exact absurd rfl hop
  | @left a key value ops ops' hab hops ih =>
    intro c c' ha h
    have hset := SameFor.set_other ha hab key value
    exact ih (hset.active.trans ha) (trans_of (SameFor b) hset h)
  | @right a key value ops ops' hab hops ih =>
    intro c c' ha h
    have hset := SameFor.set_other (h.active.symm.trans ha) hab key value
    exact ih ha (trans_of (SameFor b) h (symm_of (SameFor b) hset))

end SameFor

/-- Behind the entry of a PARALLEL what a branch reads does not depend on what other branches
set, and what a branch sets is no global and in no other scope. -/
theorem branches_isolated (b : Nat) (c : Context) :
    (∀ ops ops', Alike b none ops ops' →
      observe b c.enterParallel ops = observe b c.enterParallel ops') ∧
    ∀ (d : Context) (a : Nat) (key : Text) (value : Value), d.activeBranch = some a →
      (d.set key value).vars = d.vars ∧
        ∀ a', a' ≠ a → (d.set key value).branchScopes.get a' = d.branchScopes.get a' := by
  refine ⟨fun ops ops' h => h.observe_eq rfl (refl_of (SameFor b) _), fun d a key value ha => ?_⟩
  refine ⟨by rw [set_of_active ha], fun a' hne => branchScopes_set_of_ne ?_ key value⟩
  rw [ha]
  simpa using Ne.symm hne

/-- Branch 1 sets `x` twice in one run and not at all in the other; branch 0 reads its own. -/
theorem branches_isolated_two :
    observe 0 Context.new.enterParallel [.setBranch 1, .set "x" (.int 7), .set "y" (.int 8),
      .setBranch 0, .set "x" (.int 1), .get "x"] =
    observe 0 Context.new.enterParallel [.setBranch 1, .setBranch 0, .set "x" (.int 1), .get "x"] ∧
    (Context.new.setBranch 0 |>.set "x" (.int 1)).vars = (Context.new.setBranch 0).vars :=
  ⟨(branches_isolated 0 Context.new).1 _ _ (.same (by simp) (.left _ _ (by simp)
    (.left _ _ (by simp) (.same (by simp) (.same (by simp) (.same (by simp) (.nil _))))))),
   ((branches_isolated 0 Context.new).2 (Context.new.setBranch 0) 0 "x" (.int 1) rfl).1⟩

end Tinypipe
