import Tinypipe.Api.Scoping
import Tinypipe.Vm.Threads

/-! Variables assigned in the branches of a PARALLEL. A branch writes to a scope of its own,
which only a MERGE folds into the globals, so what a branch assigns can be read again exactly
when a MERGE comes next. Contexts are followed through the log: outside of MERGE, PARALLEL and
the entry of a node a context is what the logged writes make of it. -/

namespace Tinypipe

open Lib Lib.Stateful Lib.Folds

/-! ### The block of a PARALLEL in a log -/

/-- The visit is below node `p` of another visit. -/
def inside : List Frame → Nat → List Frame → Bool
  | _, _, [] => false
  | [], p, f :: _ => f.index = p
  | g :: v, p, f :: w => f = g && inside v p w

def Event.inBlock (v : List Frame) (p : Nat) : Event → Bool
  | .node w _ _ _ => inside v p w
  | .iteration _ _ _ _ _ | .decided _ _ _ | .dispatch _ | .write _ _ => true

/-- What a PARALLEL logs behind its own step. -/
def blockOf (v : List Frame) (p : Nat) (l : List Event) : List Event := l.takeWhile (Event.inBlock v p)

def behind (v : List Frame) (p : Nat) (l : List Event) : List Event := l.dropWhile (Event.inBlock v p)

def Event.written (x : Text) : Event → Option Value
  | .write k val => if k = x then some val else none
  | .node _ _ _ _ | .iteration _ _ _ _ _ | .decided _ _ _ | .dispatch _ => none

/-- The last value written to a variable. The branches of a PARALLEL are logged in their order,
so behind a PARALLEL this is the value of the highest-numbered branch. -/
def lastWrite (x : Text) (l : List Event) : Option Value := (l.filterMap (Event.written x)).getLast?

/-- Visits in different branches of one PARALLEL. -/
def apart : List Frame → List Frame → Bool
  | f :: v, g :: w => if f = g then apart v w else
    match f, g with
    | .branch p _, .branch q _ => p = q
    | _, _ => false
  | _, _ => false

/-- Until the variable is written again, every statement that does not run beside `v` reads
the value. A MERGE reads nothing. -/
def reads (plan : CompiledPlan) (v : List Frame) (x : Text) (val : Value) : List Event → Bool
  | [] => true
  | .write k _ :: l => k = x || reads plan v x val l
  | .node w j c _ :: l =>
    (plan.opAt j = some .merge || apart v w || c.get x = some val) && reads plan v x val l
  | .iteration _ _ _ _ _ :: l | .decided _ _ _ :: l | .dispatch _ :: l => reads plan v x val l

/-- The statements behind the block of the PARALLEL, if it is one, read what it assigned last. -/
def blockSurvives (plan : CompiledPlan) (x : Text) (l : List Event) : Event → Bool
  | .node v p _ _ =>
    if plan.opAt p = some .parallel then
      match lastWrite x (blockOf v p l) with
      | some val => reads plan v x val (behind v p l)
      | none => true
    else true
  | .iteration _ _ _ _ _ | .decided _ _ _ | .dispatch _ | .write _ _ => true

/-- What the branches of a PARALLEL assign to a variable is read by what is run behind it. -/
def survives (plan : CompiledPlan) (x : Text) : List Event → Bool
  | [] => true
  | e :: l => blockSurvives plan x l e && survives plan x l

/-! ### Where they survive -/

def Event.isWrite : Event → Bool
  | .write _ _ => true
  | .node _ _ _ _ | .iteration _ _ _ _ _ | .decided _ _ _ | .dispatch _ => false

/-- A MERGE or a PARALLEL that a branch of the main pass runs itself. -/
def Event.drains (plan : CompiledPlan) : Event → Bool
  | .node [.branch _ _] i _ _ => plan.opAt i = some .merge || plan.opAt i = some .parallel
  | _ => false

/-- Nothing comes, or a MERGE of the main pass comes first. -/
def mergeFirst (plan : CompiledPlan) : List Event → Bool
  | [] => true
  | .node [] m _ _ :: _ => plan.opAt m = some .merge
  | _ => false

/-- A PARALLEL that assigns something is one of the main pass, none of its branches runs a MERGE
or a PARALLEL, and a MERGE comes next. -/
def blockMerged (plan : CompiledPlan) (l : List Event) : Event → Bool
  | .node v p _ _ =>
    plan.opAt p ≠ some .parallel || !(blockOf v p l).any Event.isWrite ||
      (v = [] && !(blockOf v p l).any (Event.drains plan) && mergeFirst plan (behind v p l))
  | .iteration _ _ _ _ _ | .decided _ _ _ | .dispatch _ | .write _ _ => true

def merged (plan : CompiledPlan) : List Event → Bool
  | [] => true
  | e :: l => blockMerged plan l e && merged plan l

/-! ### Logs and contexts -/

/-- A relation between two contexts and the log in between that can be composed. -/
class Composes (P : Context → List Event → Context → Prop) : Prop where
  nil : ∀ c, P c [] c
  append : ∀ c l d l' e, P c l d → P d l' e → P c (l ++ l') e

/-- The context changes along with the log. -/
def Logged (P : Context → List Event → Context → Prop) (s t : ExecState) : Prop :=
  Extends ExecState.log (fun l => P s.ctx l t.ctx) s t

section Logged

variable {P Q : Context → List Event → Context → Prop}

instance [Composes P] : Std.Refl (Logged P) :=
  ⟨fun s => ⟨[], by rw [List.append_nil], Composes.nil s.ctx⟩⟩

instance [Composes P] : IsTrans ExecState (Logged P) :=
  ⟨fun _ _ _ h h' => h.append h' fun l l' => Composes.append _ l _ l' _⟩

theorem Logged.mono {s t : ExecState} (h : Logged P s t) (hPQ : ∀ c l d, P c l d → Q c l d) :
    Logged Q s t := Extends.mono h fun l hl => hPQ _ l _ hl

theorem Logged.one {s t : ExecState} {e : Event} (hlog : t.log = s.log ++ [e])
    (h : P s.ctx [e] t.ctx) : Logged P s t := ⟨[e], hlog, h⟩

theorem Logged.silent {s t : ExecState} (hlog : t.log = s.log) (h : P s.ctx [] t.ctx) :
    Logged P s t := ⟨[], by rw [hlog, List.append_nil], h⟩

end Logged

/-- The context follows the writes, and a step is logged with the context it finds. -/
def Traced : Context → List Event → Context → Prop
  | c, [], d => d = c
  | c, .write k val :: l, d => Traced (c.set k val) l d
  | c, .node _ _ c' _ :: l, d => c' = c ∧ Traced c l d
  | c, .iteration _ _ _ _ _ :: l, d | c, .decided _ _ _ :: l, d | c, .dispatch _ :: l, d =>
    Traced c l d

theorem Traced.append {c d e : Context} {l l' : List Event} (h : Traced c l d)
    (h' : Traced d l' e) : Traced c (l ++ l') e := by
  induction l generalizing c with
  | nil =>
    rw [Traced] at h
    rwa [h] at h'
  | cons ev l ih =>
    cases ev with
    | node w j c' o => exact ⟨h.1, ih h.2⟩
    | iteration w loop i c' o => exact ih h
    | decided w j b => exact ih h
    | dispatch d => exact ih h
    | write k val => exact ih h

instance : Composes Traced := ⟨fun _ => rfl, fun _ _ _ _ _ h h' => h.append h'⟩

/-- An event that leaves the context as it is and, if it is a step, finds it. -/
def Event.finds (c : Context) : Event → Prop
  | .node _ _ c' _ => c' = c
  | .write _ _ => False
  | .iteration _ _ _ _ _ | .decided _ _ _ | .dispatch _ => True

theorem Event.finds.written {c : Context} {e : Event} (h : e.finds c) (x : Text) :
    e.written x = none := by
  cases e with
  | write k w => exact h.elim
  | node w j c' o => rfl
  | iteration w loop i c' o => rfl
  | decided w j b => rfl
  | dispatch d => rfl

/-- A relation that holds across the single events holds across a trace. -/
theorem Traced.lift {P : Context → List Event → Context → Prop} [Composes P]
    (hwrite : ∀ c k w, P c [.write k w] (c.set k w)) (hother : ∀ c e, e.finds c → P c [e] c)
    {c d : Context} {l : List Event} (h : Traced c l d) : P c l d := by
  induction l generalizing c with
  | nil =>
    obtain rfl : d = c := h
    exact Composes.nil d
  | cons e l ih =>
    rw [← List.singleton_append]
    cases e with
    | node w j c' o => exact Composes.append _ _ c _ _ (hother c _ h.1) (ih h.2)
    | write k w => exact Composes.append _ _ (c.set k w) _ _ (hwrite c k w) (ih h)
    | iteration w loop i c' o => exact Composes.append _ _ c _ _ (hother c _ trivial) (ih h)
    | decided w j b => exact Composes.append _ _ c _ _ (hother c _ trivial) (ih h)
    | dispatch d => exact Composes.append _ _ c _ _ (hother c _ trivial) (ih h)

theorem traced : ArmLaws (Logged Traced) where
  silent := fun _ _ hctx hlog _ => Logged.silent hlog hctx
  write := fun _ _ _ => Logged.one rfl rfl
  dispatch := fun _ _ => Logged.one rfl rfl

section Traced

variable {ex : Executor} {order : List Nat} {bodies : List (Nat × Finset Nat)} {visit : List Frame}
  {pause : Option PausePolicy} {nd : CompiledNode}

theorem note_decided_traced (i : Nat) (b : Bool) :
    Steps (Logged Traced) (note (.decided visit i b)) := Steps.modify fun _ => Logged.one rfl rfl

theorem nodeArm_traced (hm : nd.op ≠ .merge) : Steps (Logged Traced) (nodeArm ex visit nd) := by
  by_cases hd : nd.op = .decide
  · simp only [nodeArm, hd]
    exact Steps.get_bind fun s => Steps.bind (traced.insertOutput _ _) fun _ =>
      note_decided_traced _ _
  · exact traced.nodeArm hd hm

theorem bodyArm_traced : Steps (Logged Traced) (bodyArm ex visit nd) := by
  by_cases hd : nd.op = .decide
  · simp only [bodyArm, hd]
    exact Steps.bind ArmLaws.evalCondition fun b => Steps.bind (traced.insertOutput _ _) fun _ =>
      Steps.bind (note_decided_traced _ _) fun _ => Steps.pure _
  · exact traced.bodyArm hd

theorem countNode_traced (plan : CompiledPlan) : Steps (Logged Traced) (countNode plan) :=
  Steps.bind (Steps.modify fun _ => Logged.silent rfl rfl) fun _ =>
    Steps.get_bind fun _ => ArmLaws.failIf _ _

theorem bodyNode_traced (idx : Nat) : Steps (Logged Traced) (bodyNode ex visit idx) := by
  unfold bodyNode
  split
  · exact Steps.throw _
  · refine Steps.get_bind fun s => Steps.ite (Steps.pure _) ?_
    exact Steps.bind (countNode_traced _) fun _ =>
      Steps.bind (Steps.modify fun _ => Logged.one rfl ⟨rfl, rfl⟩) fun _ =>
        Steps.bind bodyArm_traced fun _ => Steps.pure _

theorem runBody_traced : ∀ (position : Nat) (nodes : List Nat),
    Steps (Logged Traced) (runBody ex visit pause position nodes)
  | _, [] => Steps.pure _
  | position, idx :: rest => by
    refine Steps.bind (bodyNode_traced idx) fun r => ?_
    split
    · exact runBody_traced _ rest
    · exact runBody_traced _ rest
    · exact Steps.pure _
    · exact Steps.pure _
    · exact Steps.get_bind fun s => Steps.ite (Steps.pure _) (runBody_traced _ rest)

theorem runIterations_traced (loop : Nat) (target : Option Text) (body : List Nat) :
    ∀ remaining iteration start, Steps (Logged Traced)
      (runIterations ex visit pause loop target body remaining iteration start)
  | 0, _, _ => Steps.pure _
  | remaining + 1, iteration, start => by
    refine Steps.bind (traced.writeOutput _ _) fun _ => Steps.bind ?_ fun _ =>
      Steps.bind (runBody_traced _ _) fun r => ?_
    · refine Steps.modify fun s => ?_
      split
      · exact Logged.one rfl rfl
      · exact Logged.silent rfl rfl
    · split
      · exact runIterations_traced loop target body remaining _ _
      · exact Steps.pure _
      · exact Steps.pure _

theorem runLoop_traced (cursor : Nat × Nat) :
    Steps (Logged Traced) (runLoop ex order bodies visit pause cursor nd) := by
  refine Steps.get_bind fun s => Steps.ite traced.finishLoop ?_
  refine Steps.bind (traced.modify fun _ => ⟨rfl, rfl, rfl⟩) fun _ =>
    Steps.bind (runIterations_traced _ _ _ _ _ _) fun r => ?_
  split
  · exact Steps.pure _
  · exact traced.finishLoop

end Traced

/-! ### Scopes -/

namespace Context

/-- No merge strategies are set. -/
def Plain (c : Context) : Prop :=
  ∀ b sc, c.branchScopes.get b = some sc → sc.mergeStrategies = Dict.empty

variable {c : Context} {x : Text}

theorem mergeScope_none {sc : Scope} (h : sc.vars.get x = none) (vs : Dict Text Value) :
    (mergeScope vs sc).get x = vs.get x := by
  have hne : ∀ e ∈ sc.vars.entries, e.1 ≠ x := by
    rintro ⟨k, v⟩ he rfl
    rw [Dict.get_eq_some_iff.2 he] at h
    cases h
  rw [mergeScope]
  revert hne
  generalize sc.vars.entries = es
  intro hne
  induction es generalizing vs with
  | nil => rfl
  | cons e es ih =>
    have he : (mergeEntry sc vs e).get x = vs.get x := by
      unfold mergeEntry
      split
      · exact Dict.get_set_ne _ (hne e List.mem_cons_self) _
      · exact Dict.get_set_ne _ (hne e List.mem_cons_self) _
    rw [List.foldl_cons, ih _ fun e' he' => hne e' (List.mem_cons_of_mem _ he'), he]

theorem mergeScope_plain {sc : Scope} (h : sc.mergeStrategies = Dict.empty)
    (vs : Dict Text Value) : mergeScope vs sc = vs.extend sc.vars := by
  have hentry : ∀ vs e, mergeEntry sc vs e = vs.set e.1 e.2 := by
    intro vs e
    unfold mergeEntry
    split
    · rw [Scope.getMergeStrategy, h]
      rfl
    · rfl
  exact List.foldl_ext _ _ _ fun vs e _ => hentry vs e

theorem mergeBranches_get (h : c.Plain) : c.mergeBranches.vars.get x =
    ((c.vars.get x).toList ++ (c.branchScopes.entries.insertionSort fun a b => a.1 ≤ b.1).filterMap
      fun e => e.2.vars.get x).getLast? := by
  have hplain : ∀ e ∈ c.branchScopes.entries.insertionSort (fun a b => a.1 ≤ b.1),
      e.2.mergeStrategies = Dict.empty := fun e he =>
    h e.1 e.2 (Dict.get_eq_some_iff.2 ((List.mem_insertionSort _).1 he))
  rw [mergeBranches, ← foldl_or_eq_getLast?]
  revert hplain
  generalize c.branchScopes.entries.insertionSort (fun a b => a.1 ≤ b.1) = es
  generalize c.vars = vs
  intro hplain
  induction es generalizing vs with
  | nil => rfl
  | cons e es ih =>
    rw [List.foldl_cons, List.foldl_cons, ih _ fun e' he' => hplain e' (List.mem_cons_of_mem _ he'),
      mergeScope_plain (hplain e List.mem_cons_self), Dict.get_extend]

theorem scopes_sorted (c : Context) :
    (c.branchScopes.entries.insertionSort fun a b => a.1 ≤ b.1).Pairwise fun a b => a.1 < b.1 := by
  have hmap := List.map_insertionSort (r := fun a b : Nat × Scope => a.1 ≤ b.1)
    (s := fun a b : Nat => a ≤ b) Prod.fst c.branchScopes.entries fun _ _ _ _ => Iff.rfl
  have hle := List.pairwise_insertionSort (· ≤ ·) (c.branchScopes.entries.map Prod.fst)
  have hnd : (c.branchScopes.entries.map Prod.fst).insertionSort (· ≤ ·) |>.Nodup :=
    (List.perm_insertionSort _ _).nodup_iff.2 c.branchScopes.nodup
  rw [← hmap] at hle hnd
  refine List.pairwise_map.1 (hle.imp₂ (fun a b hab hne => lt_of_le_of_ne hab hne) hnd)

end Context

/-- The value is in the globals, and nothing hides it. -/
structure Known (x : Text) (val : Value) (c : Context) : Prop where
  vars : c.vars.get x = some val
  parent : ∀ sc, c.parentScope = some sc → sc.vars.get x = some val
  scopes : ∀ b sc, c.branchScopes.get b = some sc → sc.vars.get x = none

/-- A MERGE makes the value known: the highest-numbered branch to hold the variable holds it,
or the globals do and no branch holds the variable. -/
structure Pending (x : Text) (val : Value) (c : Context) : Prop where
  plain : c.Plain
  value : (∃ b, c.held b x = some val ∧ ∀ b', b < b' → c.held b' x = none) ∨
    (∀ b, c.held b x = none) ∧ c.vars.get x = some val

section Known

variable {x : Text} {val : Value} {c : Context}

theorem Known.get (h : Known x val c) : c.get x = some val := by
  have hbranch : (do let bid ← c.activeBranch; let scope ← c.branchScopes.get bid; scope.vars.get x) =
      none := by
    cases hb : c.activeBranch with
    | none => rfl
    | some b =>
      cases hs : c.branchScopes.get b with
      | none => simp [hs]
      | some sc => simp [hs, h.scopes b sc hs]
  have hparent : (do let scope ← c.parentScope; scope.vars.get x).or (c.vars.get x) = some val := by
    cases hp : c.parentScope with
    | none => simp [h.vars]
    | some sc => simp [h.parent sc hp]
  rw [Context.get, hbranch, hparent, Option.none_or]

theorem Known.set (h : Known x val c) {k : Text} (hk : k ≠ x) (w : Value) :
    Known x val (c.set k w) := by
  unfold Context.set
  split
  case h_1 b hb =>
    refine ⟨h.vars, h.parent, fun b' sc hs => ?_⟩
    rw [Dict.get_set] at hs
    split at hs
    · obtain rfl := Option.some.inj hs
      rw [Scope.set, Dict.get_set_ne _ hk]
      cases hb' : c.branchScopes.get b with
      | none => rfl
      | some sc => exact h.scopes b sc hb'
    · exact h.scopes b' sc hs
  · exact ⟨by rw [Dict.get_set_ne _ hk]; exact h.vars, h.parent, h.scopes⟩

theorem Known.clearBranch (h : Known x val c) : Known x val c.clearBranch := ⟨h.vars, h.parent, h.scopes⟩

theorem Known.setBranch (h : Known x val c) (b : Nat) : Known x val (c.setBranch b) := by
  refine ⟨h.vars, h.parent, fun b' sc hs => ?_⟩
  rw [Context.setBranch] at hs
  split at hs
  · exact h.scopes b' sc hs
  · rw [Dict.get_set] at hs
    split at hs
    · obtain rfl := Option.some.inj hs
      rfl
    · exact h.scopes b' sc hs

theorem Known.enterParallel (h : Known x val c) : Known x val c.enterParallel := by
  refine ⟨h.vars, fun sc hsc => ?_, fun b sc hs => ?_⟩
  · obtain rfl := Option.some.inj hsc
    exact h.vars
  · cases hs

theorem Known.insertBranchScope (h : Known x val c) (b : Nat) {sc : Scope}
    (hsc : sc.vars.get x = none) : Known x val (c.insertBranchScope b sc) := by
  refine ⟨h.vars, h.parent, fun b' sc' hs => ?_⟩
  rw [Context.insertBranchScope, Dict.get_set] at hs
  split at hs
  · obtain rfl := Option.some.inj hs
    exact hsc
  · exact h.scopes b' sc' hs

theorem Known.mergeBranches (h : Known x val c) : Known x val c.mergeBranches := by
  refine ⟨?_, fun sc hsc => (by cases hsc), fun b sc hs => by cases hs⟩
  have hnone : ∀ e ∈ c.branchScopes.entries.insertionSort (fun a b => a.1 ≤ b.1),
      e.2.vars.get x = none := fun e he =>
    h.scopes e.1 e.2 (Dict.get_eq_some_iff.2 ((List.mem_insertionSort _).1 he))
  rw [Context.mergeBranches, ← h.vars]
  revert hnone
  generalize c.branchScopes.entries.insertionSort (fun a b => a.1 ≤ b.1) = es
  generalize c.vars = vs
  intro hnone
  induction es generalizing vs with
  | nil => rfl
  | cons e es ih =>
    rw [List.foldl_cons, ih _ fun e' he' => hnone e' (List.mem_cons_of_mem _ he'),
      Context.mergeScope_none (hnone e List.mem_cons_self)]

theorem Pending.mergeBranches (h : Pending x val c) : Known x val c.mergeBranches := by
  refine ⟨?_, fun sc hsc => (by cases hsc), fun b sc hs => by cases hs⟩
  rw [Context.mergeBranches_get h.plain]
  have hheld : ∀ e ∈ c.branchScopes.entries.insertionSort (fun a b => a.1 ≤ b.1),
      e.2.vars.get x = c.held e.1 x := by
    intro e he
    rw [Context.held, Dict.get_eq_some_iff.2 ((List.mem_insertionSort _).1 he)]
    rfl
  rcases h.value with ⟨b, hb, hlast⟩ | ⟨hnone, hvars⟩
  · obtain ⟨sc, hsc, hval⟩ := Option.bind_eq_some_iff.1 hb
    obtain ⟨es, es', hes⟩ := List.append_of_mem
      ((List.mem_insertionSort fun a b : Nat × Scope => a.1 ≤ b.1).2 (Dict.get_eq_some_iff.1 hsc))
    have hsorted := c.scopes_sorted
    rw [hes] at hsorted hheld
    have hrest : es'.filterMap (fun e => e.2.vars.get x) = [] := by
      refine List.filterMap_eq_nil_iff.2 fun e he => ?_
      rw [hheld e (by simp [he])]
      refine hlast e.1 ?_
      rw [List.pairwise_append, List.pairwise_cons] at hsorted
      exact hsorted.2.1.1 e he
    have hentry : ((b, sc) :: es').filterMap (fun e => e.2.vars.get x) = [val] := by
      simp only [List.filterMap_cons, hval, hrest]
    rw [hes, List.filterMap_append, hentry, ← List.append_assoc, List.getLast?_concat]
  · have hnil : (c.branchScopes.entries.insertionSort fun a b => a.1 ≤ b.1).filterMap
        (fun e => e.2.vars.get x) = [] :=
      List.filterMap_eq_nil_iff.2 fun e he => (hheld e he).trans (hnone e.1)
    rw [hnil, hvars]
    rfl

theorem Context.Plain.setBranch (h : c.Plain) (b : Nat) : (c.setBranch b).Plain := by
  intro b' sc hs
  rw [Context.setBranch] at hs
  split at hs
  · exact h b' sc hs
  · rw [Dict.get_set] at hs
    split at hs
    · obtain rfl := Option.some.inj hs
      rfl
    · exact h b' sc hs

theorem Pending.setBranch (h : Pending x val c) (b : Nat) : Pending x val (c.setBranch b) :=
  ⟨h.plain.setBranch b, by simp only [held_setBranch]; exact h.value⟩

theorem Pending.clearBranch (h : Pending x val c) : Pending x val c.clearBranch := ⟨h.plain, h.value⟩

end Known

/-! ### A value that is known stays readable -/

section Keeps

variable {plan : CompiledPlan} {v : List Frame} {x : Text} {val : Value}

theorem lastWrite_append (l l' : List Event) :
    lastWrite x (l ++ l') = (lastWrite x l').or (lastWrite x l) := by
  rw [lastWrite, List.filterMap_append, List.getLast?_append]
  rfl

theorem lastWrite_cons (e : Event) (l : List Event) :
    lastWrite x (e :: l) = (lastWrite x l).or (e.written x) := by
  rw [← List.singleton_append, lastWrite_append]
  congr 1
  rw [lastWrite, List.filterMap_cons]
  cases e.written x <;> rfl

theorem lastWrite_cons_eq_none {e : Event} {l : List Event} :
    lastWrite x (e :: l) = none ↔ e.written x = none ∧ lastWrite x l = none := by
  rw [lastWrite_cons, Option.or_eq_none_iff, and_comm]

theorem reads_append : ∀ {l l' : List Event}, reads plan v x val l = true →
    (lastWrite x l = none → reads plan v x val l' = true) → reads plan v x val (l ++ l') = true
  | [], _, _, h' => h' rfl
  | e :: l, l', h, h' => by
    have hrest : e.written x = none → lastWrite x l = none → reads plan v x val l' = true :=
      fun he hl => h' (lastWrite_cons_eq_none.2 ⟨he, hl⟩)
    rw [List.cons_append]
    cases e with
    | node w j c o =>
      rw [reads, Bool.and_eq_true] at h ⊢
      exact ⟨h.1, reads_append h.2 (hrest rfl)⟩
    | write k w =>
      rw [reads, Bool.or_eq_true, decide_eq_true_iff] at h ⊢
      by_cases hk : k = x
      · exact Or.inl hk
      · exact Or.inr (reads_append (h.resolve_left hk) (hrest (if_neg hk)))
    | iteration w loop i c o => exact reads_append h (hrest rfl)
    | decided w j b => exact reads_append h (hrest rfl)
    | dispatch d => exact reads_append h (hrest rfl)

/-- From a context that knows the value. -/
def Keeps (plan : CompiledPlan) (v : List Frame) (x : Text) (val : Value) (c : Context)
    (l : List Event) (d : Context) : Prop :=
  Known x val c → reads plan v x val l = true ∧ (lastWrite x l = none → Known x val d)

instance : Composes (Keeps plan v x val) where
  nil := fun _ h => ⟨rfl, fun _ => h⟩
  append := fun _ l _ l' _ h h' hc => by
    refine ⟨reads_append (h hc).1 fun hl => (h' ((h hc).2 hl)).1, fun hl => ?_⟩
    rw [lastWrite_append, Option.or_eq_none_iff] at hl
    exact (h' ((h hc).2 hl.2)).2 hl.1

theorem lastWrite_singleton (e : Event) : lastWrite x [e] = e.written x := by
  rw [lastWrite_cons]
  rfl

theorem Traced.keeps {l : List Event} {c d : Context} (h : Traced c l d) :
    Keeps plan v x val c l d := by
  refine h.lift (fun c k w hc => ?_) fun c e he hc => ⟨?_, fun _ => hc⟩
  · by_cases hk : k = x
    · refine ⟨by rw [reads, decide_eq_true hk, Bool.true_or], fun hl => ?_⟩
      rw [lastWrite_singleton, Event.written, if_pos hk] at hl
      cases hl
    · exact ⟨by rw [reads, reads, Bool.or_true], fun _ => hc.set hk w⟩
  · cases e with
    | node w j c' o =>
      obtain rfl : c' = c := he
      rw [reads, reads, Bool.and_true, hc.get]
      simp
    | write k w => exact he.elim
    | iteration w loop i c' o => rfl
    | decided w j b => rfl
    | dispatch a => rfl

variable {ex : Executor} {order : List Nat} {bodies : List (Nat × Finset Nat)} {visit : List Frame}
  {pause : Option PausePolicy} {nd : CompiledNode}

theorem steps_keeps {α : Type} {y : M α} (h : Steps (Logged Traced) y) :
    Steps (Logged (Keeps plan v x val)) y := h.mono fun _ _ h => h.mono fun _ _ _ => Traced.keeps

theorem contextChange_keeps {f : Context → Context} (h : ∀ c, Known x val c → Known x val (f c)) :
    Steps (Logged (Keeps plan v x val)) (modify fun s => { s with ctx := f s.ctx } : M Unit) :=
  Steps.modify fun s => Logged.silent rfl fun hc => ⟨rfl, fun _ => h s.ctx hc⟩

theorem enterNode_keeps : Steps (Logged (Keeps plan v x val)) (enterNode ex visit nd) := by
  refine Steps.bind (steps_keeps (countNode_traced _)) fun _ => Steps.bind ?_ fun _ =>
    Steps.bind (Steps.modify fun s => Logged.silent rfl fun hc => ⟨rfl, fun _ => ?_⟩) fun _ =>
      steps_keeps (Steps.modify fun _ => Logged.one rfl ⟨rfl, rfl⟩)
  · exact Steps.get_bind fun _ => ArmLaws.failIf _ _
  · cases nd.branchId with
    | none => exact hc.clearBranch
    | some b => exact hc.setBranch b

theorem nodeArm_keeps : Steps (Logged (Keeps plan v x val)) (nodeArm ex visit nd) := by
  by_cases hm : nd.op = .merge
  · simp only [nodeArm, hm]
    exact Steps.bind (contextChange_keeps fun _ h => h.mergeBranches) fun _ =>
      Steps.get_bind fun _ => steps_keeps (traced.insertOutput _ _)
  · exact steps_keeps (nodeArm_traced hm)

theorem threadLog_eq (r : EStateM.Result ExecutionError ExecState Unit) :
    threadLog r = (finalState r).log := by cases r <;> rfl

theorem lastWrite_flatMap_eq_none {α : Type} {f : α → List Event} {l : List α} :
    lastWrite x (l.flatMap f) = none ↔ ∀ a ∈ l, lastWrite x (f a) = none := by
  induction l with
  | nil => simp [lastWrite]
  | cons a l ih =>
    rw [List.flatMap_cons, lastWrite_append, Option.or_eq_none_iff, ih, List.forall_mem_cons, and_comm]

theorem reads_flatMap {α : Type} {f : α → List Event} : ∀ {as : List α},
    (∀ a ∈ as, reads plan v x val (f a) = true) → reads plan v x val (as.flatMap f) = true
  | [], _ => rfl
  | a :: _, h => reads_append (h a List.mem_cons_self) fun _ =>
    reads_flatMap fun b hb => h b (List.mem_cons_of_mem _ hb)

theorem Known.joinThreads (before : Nat → Nat) : ∀ {threads : List (Nat × ExecState)}
    {s : ExecState}, Known x val s.ctx → (∀ t ∈ threads, Known x val t.2.ctx) →
      Known x val (joinThreads before threads s).ctx
  | [], _, h, _ => h
  | (b, t) :: threads, s, h, ht => by
    have hmerge : Known x val (mergeThread before b t s).ctx := by
      simp only [mergeThread]
      split
      case h_1 sc hsc => exact h.insertBranchScope b ((ht (b, t) List.mem_cons_self).scopes b sc hsc)
      · exact h
    rw [joinThreads_cons]
    exact Known.joinThreads before hmerge fun t' ht' => ht t' (List.mem_cons_of_mem _ ht')

theorem runGroup_keeps {runNode : CompiledNode → M NodeOutcome}
    (hrun : ∀ nd, Steps (Logged (Keeps plan v x val)) (runNode nd)) (plan' : CompiledPlan) :
    ∀ nodes, Steps (Logged (Keeps plan v x val)) (runGroup runNode plan' nodes)
  | [] => Steps.pure _
  | idx :: rest => by
    unfold runGroup
    split
    · exact Steps.throw _
    · exact Steps.bind (hrun _) fun _ => runGroup_keeps hrun plan' rest

theorem armParallel_keeps {runNode : List Frame → CompiledNode → M NodeOutcome}
    (hrun : ∀ v' nd, Steps (Logged (Keeps plan v x val)) (runNode v' nd)) :
    Steps (Logged (Keeps plan v x val)) (armParallel ex order runNode visit nd) := by
  have hbranch : ∀ b, Steps (Logged (Keeps plan v x val)) (runBranch ex order runNode visit nd b) :=
    fun b => runGroup_keeps (hrun _) _ _
  rw [armParallel_eq]
  refine Steps.bind ?_ fun _ => Steps.ite (Steps.pure _) (Steps.bind ?_ fun _ => ?_)
  · exact Steps.bind (contextChange_keeps fun _ h => h.enterParallel) fun _ =>
      steps_keeps (Steps.bind (Steps.forM (fun e => Steps.bind (traced.applyMapping _) fun _ =>
        traced.enable _) _) fun _ => traced.insertOutput _ _)
  · exact steps_keeps (traced.modify fun _ => ⟨rfl, rfl, rfl⟩)
  · intro s
    rw [get_bind]
    generalize hresults : (ex.plan.groupIds order nd).map (fun b =>
      (b, runBranch ex order runNode visit nd b (branchState ex order nd s b))) = results
    have hthread : Known x val s.ctx → ∀ r ∈ results, reads plan v x val (threadLog r.2) = true ∧
        (lastWrite x (threadLog r.2) = none → Known x val (finalState r.2).ctx) := by
      intro hc r hr
      rw [← hresults] at hr
      obtain ⟨b, -, rfl⟩ := List.mem_map.1 hr
      obtain ⟨l, hl, hk⟩ := hbranch b (branchState ex order nd s b)
      rw [threadLog_eq, hl]
      exact hk hc
    have hreads : Known x val s.ctx →
        reads plan v x val (results.flatMap fun r => threadLog r.2) = true :=
      fun hc => reads_flatMap fun r hr => (hthread hc r hr).1
    simp only [modify_bind]
    cases hthreads : collectThreads results with
    | error e => exact ⟨_, rfl, fun hc => ⟨hreads hc, fun _ => hc⟩⟩
    | ok threads =>
      refine ⟨_, joinThreads_log _ _ _, fun hc => ⟨hreads hc, fun hl => ?_⟩⟩
      rw [lastWrite_flatMap_eq_none] at hl
      refine Known.joinThreads _ hc fun t ht => ?_
      have hmem : (t.1, EStateM.Result.ok () t.2) ∈ results := by
        rw [collectThreads_eq_ok hthreads]
        exact List.mem_map.2 ⟨t, ht, rfl⟩
      exact (hthread hc _ hmem).2 (hl _ hmem)

theorem runArm_keeps {runNode : List Frame → CompiledNode → M NodeOutcome}
    (hrun : ∀ v' nd, Steps (Logged (Keeps plan v x val)) (runNode v' nd)) :
    Steps (Logged (Keeps plan v x val)) (runArm ex order bodies runNode visit pause nd) := by
  unfold runArm
  split
  · exact steps_keeps (runLoop_traced _)
  · exact Steps.bind (armParallel_keeps hrun) fun _ => Steps.pure _
  · exact Steps.bind nodeArm_keeps fun _ => Steps.bind (steps_keeps (traced.propagate _)) fun _ =>
      Steps.pure _

theorem runNode_keeps : ∀ (fuel : Nat) (visit : List Frame) (pause : Option PausePolicy)
    (nd : CompiledNode), Steps (Logged (Keeps plan v x val)) (runNode ex order bodies fuel visit pause nd)
  | 0, _, _, _ => Steps.throw _
  | fuel + 1, _, _, _ => Steps.get_bind fun _ => Steps.ite (Steps.bind enterNode_keeps fun _ =>
      runArm_keeps fun v' nd => runNode_keeps fuel v' none nd) (Steps.pure _)

theorem mainPass_keeps (policy : PausePolicy) : ∀ (nodes : List Nat) (position : Nat),
    Steps (Logged (Keeps plan v x val)) (mainPass ex order policy nodes position)
  | [], _ => Steps.pure _
  | idx :: rest, position => by
    unfold mainPass
    split
    · exact Steps.throw _
    · refine Steps.bind (runNode_keeps _ _ _ _) fun r => ?_
      split
      · exact Steps.pure _
      · exact Steps.get_bind fun s => Steps.ite (Steps.pure _) (mainPass_keeps policy rest _)

end Keeps

/-! ### What a branch writes is in its scope -/

/-- The context a node starts with. -/
def CompiledNode.entered (nd : CompiledNode) (c : Context) : Context :=
  match nd.branchId with
  | some b => c.setBranch b
  | none => c.clearBranch

section Branch

variable {plan : CompiledPlan} {x : Text} {b : Nat} {c d : Context}

/-- From a context in which the branch is active. -/
def Branched (plan : CompiledPlan) (b : Nat) (c : Context) (l : List Event) (d : Context) : Prop :=
  (∀ e ∈ l, e.drains plan = false) → c.Plain → c.activeBranch = some b →
    d.Plain ∧ d.activeBranch = some b ∧ ∀ x, d.held b x = (lastWrite x l).or (c.held b x)

/-- What the branch wrote is what its scope has got in addition. -/
def BranchStep (plan : CompiledPlan) (b : Nat) (c : Context) (l : List Event) (d : Context) : Prop :=
  (∀ e ∈ l, e.drains plan = false) → c.Plain →
    d.Plain ∧ ∀ x, d.held b x = (lastWrite x l).or (c.held b x)

/-- From a context without an active branch. -/
def Global (c : Context) (l : List Event) (d : Context) : Prop :=
  c.activeBranch = none →
    d.activeBranch = none ∧ ∀ x, d.vars.get x = (lastWrite x l).or (c.vars.get x)

instance : Composes (BranchStep plan b) where
  nil := fun _ _ hp => ⟨hp, fun _ => rfl⟩
  append := fun c l d l' e h h' hl hp => by
    rw [List.forall_mem_append] at hl
    obtain ⟨hd, hheld⟩ := h hl.1 hp
    obtain ⟨he, hheld'⟩ := h' hl.2 hd
    exact ⟨he, fun x => by rw [hheld' x, hheld x, lastWrite_append, Option.or_assoc]⟩

theorem Context.Plain.set (hp : c.Plain) (h : c.activeBranch = some b) (k : Text) (w : Value) :
    (c.set k w).Plain := by
  intro b' sc hs
  rw [set_of_active h, Dict.get_set] at hs
  split at hs
  · obtain rfl := Option.some.inj hs
    cases hb : c.branchScopes.get b with
    | none => rfl
    | some sc => exact hp b sc hb
  · exact hp b' sc hs

instance : Composes (Branched plan b) where
  nil := fun _ _ hp ha => ⟨hp, ha, fun _ => rfl⟩
  append := fun c l d l' e h h' hl hp ha => by
    rw [List.forall_mem_append] at hl
    obtain ⟨hd, had, hheld⟩ := h hl.1 hp ha
    obtain ⟨he, hae, hheld'⟩ := h' hl.2 hd had
    exact ⟨he, hae, fun x => by rw [hheld' x, hheld x, lastWrite_append, Option.or_assoc]⟩

instance : Composes Global where
  nil := fun _ ha => ⟨ha, fun _ => rfl⟩
  append := fun c l d l' e h h' ha => by
    obtain ⟨had, hget⟩ := h ha
    obtain ⟨hae, hget'⟩ := h' had
    exact ⟨hae, fun x => by rw [hget' x, hget x, lastWrite_append, Option.or_assoc]⟩

theorem Traced.branched {l : List Event} (h : Traced c l d) : Branched plan b c l d := by
  refine h.lift (fun c k w _ hp ha => ⟨hp.set ha k w, ?_, fun x => ?_⟩)
    fun c e he _ hp ha => ⟨hp, ha, fun x => ?_⟩
  · rw [set_of_active ha]
    exact ha
  · rw [held_set ha, lastWrite_singleton, Event.written]
    split <;> rfl
  · rw [lastWrite_singleton, he.written, Option.none_or]

theorem Traced.global {l : List Event} (h : Traced c l d) : Global c l d := by
  refine h.lift (fun c k w ha => ⟨?_, fun x => ?_⟩) fun c e he ha => ⟨ha, fun x => ?_⟩
  · rw [set_of_inactive ha]
    exact ha
  · rw [set_of_inactive ha, Dict.get_set, lastWrite_singleton, Event.written]
    split <;> rfl
  · rw [lastWrite_singleton, he.written, Option.none_or]

variable {ex : Executor} {order : List Nat} {bodies : List (Nat × Finset Nat)} {visit : List Frame}
  {pause : Option PausePolicy} {nd : CompiledNode}

theorem enterNode_ctx (ex : Executor) (visit : List Frame) (nd : CompiledNode) (s : ExecState) :
    (∃ t, enterNode ex visit nd s = .ok () t ∧ t.ctx = nd.entered s.ctx ∧
        t.log = s.log ++ [.node visit nd.index t.ctx s.nodeOutputs]) ∨
      ∃ e t, enterNode ex visit nd s = .error e t ∧ t.ctx = s.ctx ∧ t.log = s.log := by
  simp only [enterNode, countNode, checkMemory, failIf, bind_assoc, modify_bind, get_bind]
  split
  · exact Or.inr ⟨_, _, rfl, rfl, rfl⟩
  · rw [pure_bind_apply, get_bind]
    split
    · exact Or.inr ⟨_, _, rfl, rfl, rfl⟩
    · exact Or.inl ⟨_, rfl, rfl, rfl⟩

/-- A node of the branch, in the visit of the branch. -/
theorem runNode_branchStep {p : Nat} (hb : nd.branchId = some b)
    (hop : ex.plan.opAt nd.index = some nd.op) (fuel : Nat) : Steps (Logged (BranchStep ex.plan b))
      (runNode ex order bodies fuel [.branch p b] pause nd) := by
  cases fuel with
  | zero => exact Steps.throw _
  | succ fuel =>
    refine Steps.get_bind fun _ => Steps.ite (fun s => ?_) (Steps.pure _)
    rcases enterNode_ctx ex [.branch p b] nd s with
      ⟨t, he, hctx, hlog⟩ | ⟨e, t, he, hctx, hlog⟩
    · rw [bind_of_ok _ he]
      rw [CompiledNode.entered, hb] at hctx
      by_cases hdrain : nd.op = .merge ∨ nd.op = .parallel
      · have hx : Steps (Logged (Keeps ex.plan [] [] .null)) (runArm ex order bodies
            (fun v => runNode ex order bodies fuel v none) [.branch p b] pause nd) :=
          runArm_keeps fun v' nd => runNode_keeps fuel v' none nd
        obtain ⟨l, hl, -⟩ := hx t
        refine ⟨.node [.branch p b] nd.index t.ctx s.nodeOutputs :: l, ?_, fun hnone => ?_⟩
        · rw [hl, hlog, List.append_assoc, List.singleton_append]
        · have hnode := (List.forall_mem_cons.1 hnone).1
          rw [Event.drains, hop] at hnode
          rcases hdrain with h | h <;> simp [h] at hnode
      · rw [not_or] at hdrain
        have hx : Steps (Logged Traced) (runArm ex order bodies
            (fun v => runNode ex order bodies fuel v none) [.branch p b] pause nd) := by
          unfold runArm
          split
          · exact runLoop_traced _
          case h_2 hp => exact absurd hp hdrain.2
          · exact Steps.bind (nodeArm_traced hdrain.1) fun _ =>
              Steps.bind (traced.propagate _) fun _ => Steps.pure _
        obtain ⟨l, hl, htraced⟩ := hx t
        refine ⟨.node [.branch p b] nd.index t.ctx s.nodeOutputs :: l, ?_, fun hnone hp => ?_⟩
        · rw [hl, hlog, List.append_assoc, List.singleton_append]
        · rw [List.forall_mem_cons] at hnone
          obtain ⟨hd, -, hheld⟩ := htraced.branched hnone.2 (hctx ▸ hp.setBranch b)
            (by rw [hctx]; rfl)
          refine ⟨hd, fun x => ?_⟩
          rw [hheld x, hctx, held_setBranch, lastWrite_cons, Event.written, Option.or_none]
    · rw [bind_of_error _ he]
      exact Logged.silent hlog fun _ hp => ⟨hctx ▸ hp, fun x => by rw [finalState, hctx]; rfl⟩

theorem runGroup_branchStep {p : Nat}
    (hindex : ∀ i nd, ex.plan.getNode i = some nd → nd.index = i) (fuel : Nat) :
    ∀ nodes : List Nat,
      (∀ i ∈ nodes, (ex.plan.getNode i).bind CompiledNode.branchId = some b) →
      Steps (Logged (BranchStep ex.plan b))
        (runGroup (runNode ex order bodies fuel [.branch p b] none) ex.plan nodes)
  | [], _ => Steps.pure _
  | i :: rest, hnodes => by
    rw [List.forall_mem_cons] at hnodes
    unfold runGroup
    split
    · exact Steps.throw _
    case h_2 nd hnd =>
      have hop : ex.plan.opAt nd.index = some nd.op := by
        rw [CompiledPlan.opAt, hindex i nd hnd, hnd]
        rfl
      rw [hnd] at hnodes
      exact Steps.bind (runNode_branchStep hnodes.1 hop fuel) fun _ =>
        runGroup_branchStep hindex fuel rest hnodes.2

end Branch

/-! ### Behind the branches a merge is pending -/

section Block

variable {ex : Executor} {order : List Nat} {bodies : List (Nat × Finset Nat)} {nd : CompiledNode}
  {x : Text} {val : Value}

theorem joinThreads_vars (before : Nat → Nat) : ∀ (threads : List (Nat × ExecState)) (s : ExecState),
    (joinThreads before threads s).ctx.vars = s.ctx.vars
  | [], _ => rfl
  | (b, t) :: threads, s => by
    rw [joinThreads_cons, joinThreads_vars before threads]
    simp only [mergeThread]
    split <;> rfl

theorem groupIds_sorted (plan : CompiledPlan) (order : List Nat) (nd : CompiledNode) :
    (plan.groupIds order nd).Pairwise (· < ·) :=
  (List.pairwise_insertionSort (· ≤ ·) _).imp₂ (fun _ _ hle hne => lt_of_le_of_ne hle hne)
    (branchIds_nodup plan order _)

/-- The last of the logs that write a variable. -/
theorem lastWrite_flatMap_some {f : Nat → List Event} : ∀ {bids : List Nat},
    bids.Pairwise (· < ·) → lastWrite x (bids.flatMap f) = some val →
      ∃ b ∈ bids, lastWrite x (f b) = some val ∧ ∀ b' ∈ bids, b < b' → lastWrite x (f b') = none
  | [], _, h => by cases h
  | b :: bids, hs, h => by
    rw [List.pairwise_cons] at hs
    rw [List.flatMap_cons, lastWrite_append, Option.or_eq_some_iff] at h
    rcases h with h | ⟨hnone, h⟩
    · obtain ⟨b', hb', hval, hrest⟩ := lastWrite_flatMap_some hs.2 h
      refine ⟨b', List.mem_cons_of_mem _ hb', hval, fun c hc hlt => ?_⟩
      rcases List.mem_cons.1 hc with rfl | hc
      · exact absurd hlt (hs.1 b' hb').asymm
      · exact hrest c hc hlt
    · refine ⟨b, List.mem_cons_self, h, fun c hc hlt => ?_⟩
      rcases List.mem_cons.1 hc with rfl | hc
      · exact absurd hlt (lt_irrefl _)
      · exact lastWrite_flatMap_eq_none.1 hnone c hc

theorem openParallel_logged (ex : Executor) (nd : CompiledNode) (s : ExecState) : ∃ t l, openParallel ex nd s = .ok () t ∧
    t.log = s.log ++ l ∧ t.ctx.branchScopes = Dict.empty ∧
    ∀ x, t.ctx.vars.get x = (lastWrite x l).or (s.ctx.vars.get x) := by
  obtain ⟨t, ht, hopened⟩ := @openParallel_opened ex nd s
  have hsteps : Steps (Logged Traced) (do
      (ex.plan.edgesFrom nd.index).forM fun e => do
        applyMapping e.mapping
        enable e.toIndex
      insertOutput nd.index .null : M Unit) :=
    Steps.bind (Steps.forM (fun e => Steps.bind (traced.applyMapping _) fun _ =>
      traced.enable _) _) fun _ => traced.insertOutput _ _
  obtain ⟨l, hl, htraced⟩ := hsteps.ok (by rw [openParallel, modify_bind] at ht; exact ht)
  exact ⟨t, l, ht, hl, hopened.branchScopes, (htraced.global rfl).2⟩

theorem held_empty {c : Context} (h : c.branchScopes = Dict.empty) (b : Nat) : c.held b x = none := by
  rw [Context.held, h]
  rfl

theorem plain_empty {c : Context} (h : c.branchScopes = Dict.empty) : c.Plain := by
  intro b sc hs
  rw [h] at hs
  cases hs

/-- The groups as threads, with the states they end in. -/
theorem threads_of_collectThreads {results : Nat → EStateM.Result ExecutionError ExecState Unit}
    {bids : List Nat} {threads : List (Nat × ExecState)}
    (h : collectThreads (bids.map fun b => (b, results b)) = .ok threads) :
    threads = bids.map fun b => (b, finalState (results b)) := by
  have heq := congrArg (List.map fun r => (r.1, finalState r.2)) (collectThreads_eq_ok h)
  rw [List.map_map, List.map_map] at heq
  rw [← List.map_id threads]
  exact heq.symm

theorem branchScopes_joined {s : ExecState} {thread : Nat → ExecState} {log : List Event}
    (hs : s.ctx.branchScopes = Dict.empty) (b : Nat) :
    (joined ex order nd thread log s).ctx.branchScopes.get b =
      if b ∈ ex.plan.groupIds order nd then (thread b).ctx.branchScopes.get b else none := by
  have hnd : (ex.plan.groupIds order nd).Nodup := branchIds_nodup _ _ _
  rw [joined, join_scopes b _ _ hnd]
  simp [hs]

theorem joined_pending {s : ExecState} {thread : Nat → ExecState} {log l₀ : List Event}
    (hs : s.ctx.branchScopes = Dict.empty)
    (hvars : ∀ v, lastWrite x l₀ = some v → s.ctx.vars.get x = some v)
    (hthread : ∀ b ∈ ex.plan.groupIds order nd, (thread b).ctx.Plain ∧
      ∀ x, (thread b).ctx.held b x = lastWrite x (thread b).log)
    (hl : lastWrite x (l₀ ++ (ex.plan.groupIds order nd).flatMap fun b => (thread b).log) =
      some val) : Pending x val (joined ex order nd thread log s).ctx := by
  have hheld : ∀ b, (joined ex order nd thread log s).ctx.held b x =
      if b ∈ ex.plan.groupIds order nd then lastWrite x (thread b).log else none := by
    intro b
    rw [Context.held, branchScopes_joined hs]
    split
    case isTrue hb => exact (hthread b hb).2 x
    · rfl
  refine ⟨fun b sc hsc => ?_, ?_⟩
  · rw [branchScopes_joined hs] at hsc
    split at hsc
    case isTrue hb => exact (hthread b hb).1 b sc hsc
    · cases hsc
  · rw [lastWrite_append, Option.or_eq_some_iff] at hl
    rcases hl with hl | ⟨hnone, hl⟩
    · obtain ⟨b, hb, hval, hlast⟩ := lastWrite_flatMap_some (groupIds_sorted _ _ _) hl
      refine Or.inl ⟨b, by rw [hheld, if_pos hb, hval], fun c hc => ?_⟩
      rw [hheld]
      split
      case isTrue hmem => exact hlast c hmem hc
      · rfl
    · rw [lastWrite_flatMap_eq_none] at hnone
      refine Or.inr ⟨fun b => ?_, ?_⟩
      · rw [hheld]
        split
        case isTrue hb => exact hnone b hb
        · rfl
      · rw [joined, joinThreads_vars]
        exact hvars val hl

theorem threads_pending {results : Nat → EStateM.Result ExecutionError ExecState Unit}
    {s t : ExecState} {l₀ : List Event} (hs : s.ctx.branchScopes = Dict.empty)
    (hvars : ∀ x v, lastWrite x l₀ = some v → s.ctx.vars.get x = some v)
    (hbranch : ∀ b ∈ ex.plan.groupIds order nd,
      Logged (BranchStep ex.plan b) (branchState ex order nd s b) (finalState (results b)))
    (h : (match collectThreads ((ex.plan.groupIds order nd).map fun b => (b, results b)) with
      | .error e => throw e
      | .ok threads => modify (joinThreads s.controlSatisfied threads) : M Unit)
        { s with
          log := s.log ++ ((ex.plan.groupIds order nd).map fun b => (b, results b)).flatMap
            fun r => threadLog r.2 } = .ok () t) :
    ∃ l, t.log = s.log ++ l ∧ ((∀ e ∈ l, e.drains ex.plan = false) →
      ∀ x val, lastWrite x (l₀ ++ l) = some val → Pending x val t.ctx) := by
  have hlogs : ((ex.plan.groupIds order nd).map fun b => (b, results b)).flatMap
      (fun r => threadLog r.2) = (ex.plan.groupIds order nd).flatMap fun b =>
        (finalState (results b)).log := by
    rw [List.flatMap_map]
    simp only [threadLog_eq]
  rw [hlogs] at h
  cases hthreads : collectThreads ((ex.plan.groupIds order nd).map fun b => (b, results b)) with
  | error e =>
    rw [hthreads] at h
    cases h
  | ok threads =>
    rw [hthreads] at h
    obtain rfl := threads_of_collectThreads hthreads
    cases h
    refine ⟨_, joinThreads_log _ _ _, fun hnone x val hl => ?_⟩
    refine joined_pending hs (hvars x) (fun b hb => ?_) hl
    obtain ⟨l, hlog, hstep⟩ := hbranch b hb
    obtain rfl : (finalState (results b)).log = l := by rw [hlog]; rfl
    obtain ⟨hplain, hheld⟩ := hstep
      (fun e he => hnone e (List.mem_flatMap.2 ⟨b, hb, he⟩)) (plain_empty hs)
    refine ⟨hplain, fun x => ?_⟩
    rw [hheld x, branchState, threadState, held_empty hs, Option.or_none]

/-- A PARALLEL whose branches run no MERGE and no PARALLEL leaves what it wrote to a MERGE. -/
theorem armParallel_pending (hindex : ∀ i nd, ex.plan.getNode i = some nd → nd.index = i)
    (fuel : Nat) {s t : ExecState}
    (h : armParallel ex order (fun v => runNode ex order bodies fuel v none) [] nd s = .ok () t) :
    ∃ l, t.log = s.log ++ l ∧ ((∀ e ∈ l, e.drains ex.plan = false) →
      ∀ x val, lastWrite x l = some val → Pending x val t.ctx) := by
  obtain ⟨s₀, l₀, hs₀, hlog₀, hscopes, hvars⟩ := openParallel_logged ex nd s
  rw [armParallel_eq, bind_of_ok _ hs₀] at h
  by_cases hids : ex.plan.groupIds order nd = []
  · rw [if_pos hids] at h
    cases h
    refine ⟨l₀, hlog₀, fun _ x val hl => ⟨plain_empty hscopes, Or.inr ⟨held_empty hscopes, ?_⟩⟩⟩
    rw [hvars, hl, Option.some_or]
  rw [if_neg hids, setAside, modify_bind, get_bind] at h
  generalize hs₁ : ({ s₀ with loopSkipped := s₀.loopSkipped ∪
    ((ex.plan.groupIds order nd).flatMap (ex.plan.group order nd)).toFinset } : ExecState) = s₁ at h
  have hctx : s₁.ctx = s₀.ctx := by rw [← hs₁]
  have hlog₁ : s₁.log = s₀.log := by rw [← hs₁]
  have hbranch : ∀ b ∈ ex.plan.groupIds order nd,
      Logged (BranchStep ex.plan b) (branchState ex order nd s₁ b) (finalState
        (runBranch ex order (fun v => runNode ex order bodies fuel v none) [] nd b
          (branchState ex order nd s₁ b))) := by
    intro b _
    refine runGroup_branchStep hindex fuel (ex.plan.group order nd b) (fun i hi => ?_) _
    have hmem := List.of_mem_filter hi
    rw [Bool.and_eq_true, decide_eq_true_iff, decide_eq_true_iff] at hmem
    exact hmem.2
  obtain ⟨l, hlog, hpending⟩ := threads_pending (hctx ▸ hscopes)
    (fun x v hv => by rw [hctx, hvars, hv, Option.some_or]) hbranch h
  refine ⟨l₀ ++ l, by rw [hlog, hlog₁, hlog₀, List.append_assoc], fun hnone => ?_⟩
  exact hpending fun e he => hnone e (List.mem_append_right _ he)

end Block

/-! ### The steps of the main pass -/

section Main

variable {ex : Executor} {order : List Nat} {bodies : List (Nat × Finset Nat)} {visit : List Frame}
  {pause : Option PausePolicy} {nd : CompiledNode} {plan : CompiledPlan} {v : List Frame} {x : Text}
  {val : Value}

/-- From a context in which a MERGE makes the value known. -/
def Makes (plan : CompiledPlan) (v : List Frame) (x : Text) (val : Value) (c : Context)
    (l : List Event) (d : Context) : Prop :=
  Pending x val c → reads plan v x val l = true ∧ (lastWrite x l = none → Known x val d)

theorem makes_after {α β : Type} {y : M α} {f : α → M β}
    (hy : Steps (Logged (Makes plan v x val)) y) (hf : ∀ a, Steps (Logged (Keeps plan v x val)) (f a)) :
    Steps (Logged (Makes plan v x val)) (y >>= f) := by
  refine Steps.seq (fun _ _ h => h) (fun _ _ _ h h' => h.append h' fun l l' hl hl' hc => ?_) hy hf
  obtain ⟨hr, hd⟩ := hl hc
  refine ⟨reads_append hr fun hnone => (hl' (hd hnone)).1, fun hnone => ?_⟩
  rw [lastWrite_append, Option.or_eq_none_iff] at hnone
  exact (hl' (hd hnone.2)).2 hnone.1

theorem runArm_makes (hm : nd.op = .merge) (runNode : List Frame → CompiledNode → M NodeOutcome) :
    Steps (Logged (Makes plan v x val)) (runArm ex order bodies runNode visit pause nd) := by
  have hmerge : Steps (Logged (Makes plan v x val))
      (modify fun s => { s with ctx := s.ctx.mergeBranches } : M Unit) :=
    Steps.modify fun s => Logged.silent rfl fun hc => ⟨rfl, fun _ => hc.mergeBranches⟩
  have harm : Steps (Logged (Makes plan v x val)) (nodeArm ex visit nd) := by
    simp only [nodeArm, hm]
    exact makes_after hmerge fun _ => Steps.get_bind fun _ => steps_keeps (traced.insertOutput _ _)
  unfold runArm
  simp only [hm]
  exact makes_after harm fun _ => Steps.bind (steps_keeps (traced.propagate _)) fun _ => Steps.pure _

/-- Every log has the properties. -/
theorem anyLog (plan : CompiledPlan) : TraceLogic plan (fun _ _ => True) fun _ _ => True := by
  constructor <;> intros <;> trivial

theorem runArm_inside (hindex : ∀ i nd, ex.plan.getNode i = some nd → nd.index = i)
    (horder : order.Nodup) (fuel : Nat) :
    Steps (Extends ExecState.log fun l => ∀ k ∈ stepKeys l, k ∈ Inside visit nd.index)
      (runArm ex order bodies (fun v => runNode ex order bodies fuel v none) visit pause nd) := by
  have deeper : ∀ {α : Type} {y : M α}, Logs (fun _ _ => True) (fun _ _ => True) visit
      (Inside visit nd.index) y →
      Steps (Extends ExecState.log fun l => ∀ k ∈ stepKeys l, k ∈ Inside visit nd.index) y :=
    fun hy => hy.steps (fun _ _ h => h.mono fun _ hl => hl.2) fun _ _ h => h.mono fun _ hl => hl.2
  have simple : Steps (Extends ExecState.log fun l => ∀ k ∈ stepKeys l, k ∈ Inside visit nd.index)
      (do nodeArm ex visit nd; propagate ex.plan nd; pure .ok : M NodeOutcome) := by
    have hlog : Steps (ArmStep (StepLog visit nd.index))
        (do nodeArm ex visit nd; propagate ex.plan nd; pure .ok : M NodeOutcome) :=
      stepLog_after nodeArm_stepLog fun _ => Steps.bind (armLog.propagate _) fun _ => Steps.pure _
    refine hlog.mono fun _ _ h => h.log.mono fun l hl k hk => ?_
    obtain ⟨c, o, he⟩ := mem_stepKeys.1 hk
    exact absurd he (hl.not_node _ _ _ _)
  unfold runArm
  split
  · exact deeper ((anyLog ex.plan).runLoop hindex horder pause (0, 0) nd)
  · exact deeper ((anyLog ex.plan).bind_quietly ((anyLog ex.plan).armParallel hindex horder
      (fun v nd hnd => (anyLog ex.plan).runNode hindex horder fuel v none nd hnd) nd) fun _ =>
        Steps.pure _)
  · exact simple

/-- What a step of the main pass logs behind its own entry, where it ends, and with what result. -/
structure MainStep (ex : Executor) (i : Nat) (c : Context)
    (r : EStateM.Result ExecutionError ExecState NodeOutcome) (l : List Event) : Prop where
  inside : ∀ k ∈ stepKeys l, k ∈ Inside [] i
  merge : ex.plan.opAt i = some .merge → ∀ x val, Makes ex.plan [] x val c l (finalState r).ctx
  parallel : ex.plan.opAt i = some .parallel → ∀ o t, r = .ok o t →
    (∀ e ∈ l, e.drains ex.plan = false) → ∀ x val, lastWrite x l = some val → Pending x val t.ctx

theorem runArm_main (hindex : ∀ i nd, ex.plan.getNode i = some nd → nd.index = i)
    (horder : order.Nodup) (fuel : Nat) (hop : ex.plan.opAt nd.index = some nd.op) (s : ExecState)
    {r : EStateM.Result ExecutionError ExecState NodeOutcome}
    (hr : runArm ex order bodies (fun v => runNode ex order bodies fuel v none) [] pause nd s = r) :
    ∃ l, (finalState r).log = s.log ++ l ∧ MainStep ex nd.index s.ctx r l := by
  have hsteps : Steps (Extends ExecState.log fun l => ∀ k ∈ stepKeys l, k ∈ Inside [] nd.index)
      (runArm ex order bodies (fun v => runNode ex order bodies fuel v none) [] pause nd) :=
    runArm_inside hindex horder fuel
  obtain ⟨l, hl, hinside⟩ := hsteps s
  rw [hr] at hl
  refine ⟨l, hl, hinside, fun hm x val => ?_, fun hp o t hok => ?_⟩
  · rw [hop, Option.some.injEq] at hm
    have hmakes : Steps (Logged (Makes ex.plan [] x val))
        (runArm ex order bodies (fun v => runNode ex order bodies fuel v none) [] pause nd) :=
      runArm_makes hm _
    obtain ⟨l', hl', hstep⟩ := hmakes s
    rw [hr] at hl' hstep
    obtain rfl : l = l' := List.append_cancel_left (hl.symm.trans hl')
    exact hstep
  · rw [hop, Option.some.injEq] at hp
    rw [hok, runArm, hp] at hr
    obtain ⟨a, u, ha, hu⟩ := bind_ok hr
    cases hu
    obtain ⟨l', hl', hpending⟩ := armParallel_pending hindex fuel ha
    rw [hok] at hl
    obtain rfl : l = l' := List.append_cancel_left (hl.symm.trans hl')
    exact hpending

theorem Pending.entered {c : Context} (h : Pending x val c) (nd : CompiledNode) :
    Pending x val (nd.entered c) := by
  rw [CompiledNode.entered]
  split
  · exact h.setBranch _
  · exact h.clearBranch

theorem runNode_main (hindex : ∀ i nd, ex.plan.getNode i = some nd → nd.index = i)
    (horder : order.Nodup) (fuel : Nat) (hop : ex.plan.opAt nd.index = some nd.op) (s : ExecState)
    {r : EStateM.Result ExecutionError ExecState NodeOutcome}
    (hr : runNode ex order bodies fuel [] pause nd s = r) :
    ((finalState r).log = s.log ∧ (finalState r).ctx = s.ctx) ∨
    ∃ c o l, (finalState r).log = s.log ++ .node [] nd.index c o :: l ∧
      MainStep ex nd.index s.ctx r l := by
  cases fuel with
  | zero =>
    rw [← hr]
    exact Or.inl ⟨rfl, rfl⟩
  | succ fuel =>
    rw [runNode, runNodeWith, get_bind] at hr
    by_cases hready : ready ex.plan bodies s nd = true
    · rw [if_pos hready] at hr
      rcases enterNode_ctx ex [] nd s with ⟨t, he, hctx, hlog⟩ | ⟨e, t, he, hctx, hlog⟩
      · rw [bind_of_ok _ he] at hr
        obtain ⟨l, hl, hstep⟩ := runArm_main hindex horder fuel hop t hr
        refine Or.inr ⟨t.ctx, s.nodeOutputs, l, ?_, hstep.inside, fun hm x val hc => ?_,
          hstep.parallel⟩
        · rw [hl, hlog, List.append_assoc, List.singleton_append]
        · exact hstep.merge hm x val (by rw [hctx]; exact hc.entered nd)
      · rw [bind_of_error _ he] at hr
        rw [← hr]
        exact Or.inl ⟨hlog, hctx⟩
    · rw [if_neg hready] at hr
      rw [← hr]
      exact Or.inl ⟨rfl, rfl⟩

/-! ### Runs -/

/-- The log of the rest of a main pass. -/
structure MainLog (plan : CompiledPlan) (c : Context) (l : List Event) : Prop where
  head : l = [] ∨ ∃ i c o l', l = .node [] i c o :: l'
  survives : merged plan l = true → ∀ x, survives plan x l = true
  known : ∀ x val, Known x val c → reads plan [] x val l = true
  pending : ∀ x val, Pending x val c → mergeFirst plan l = true → reads plan [] x val l = true

theorem mainLog_nil (plan : CompiledPlan) (c : Context) : MainLog plan c [] :=
  ⟨Or.inl rfl, fun _ _ => rfl, fun _ _ _ => rfl, fun _ _ _ _ => rfl⟩

theorem inside_of_mem {i : Nat} {k : Key} (h : k ∈ Inside [] i) : inside [] i k.1 = true := by
  obtain ⟨f, hf, hprefix⟩ := h
  obtain ⟨w, hw⟩ := hprefix
  rw [← hw]
  exact decide_eq_true hf

theorem blockOf_append {i : Nat} {l l' : List Event} (h : ∀ k ∈ stepKeys l, k ∈ Inside [] i)
    (h' : l' = [] ∨ ∃ j c o l'', l' = .node [] j c o :: l'') :
    blockOf [] i (l ++ l') = l ∧ behind [] i (l ++ l') = l' := by
  have hall : ∀ e ∈ l, e.inBlock [] i = true := by
    intro e he
    cases e with
    | node w j c o => exact inside_of_mem (h (w, j) (mem_stepKeys.2 ⟨c, o, he⟩))
    | iteration w loop i c o => rfl
    | decided w j b => rfl
    | dispatch d => rfl
    | write k w => rfl
  rw [blockOf, behind, List.takeWhile_append_of_pos hall, List.dropWhile_append_of_pos hall]
  rcases h' with rfl | ⟨j, c, o, l'', rfl⟩
  · simp
  · simp [Event.inBlock, inside]

/-- A block that writes nothing has nothing that could be lost. -/
theorem blockSurvives_of_silent {v : List Frame} {p : Nat} {c : Context}
    {o : Nat → Option Value} {l : List Event} (h : (blockOf v p l).any Event.isWrite = false) :
    blockSurvives plan x l (.node v p c o) = true := by
  have hnone : lastWrite x (blockOf v p l) = none := by
    rw [lastWrite, List.getLast?_eq_none_iff, List.filterMap_eq_nil_iff]
    intro e he
    have hw := List.any_eq_false.1 h e he
    cases e with
    | write k w => exact absurd rfl hw
    | node w j c o => rfl
    | iteration w loop i c o => rfl
    | decided w j b => rfl
    | dispatch d => rfl
  rw [blockSurvives, hnone]
  simp

theorem merged_append : ∀ {l l' : List Event}, merged plan (l ++ l') = true → merged plan l' = true
  | [], _, h => h
  | e :: l, l', h => by
    rw [List.cons_append, merged, Bool.and_eq_true] at h
    exact merged_append h.2

theorem mem_stepKeys_cons {e : Event} {l : List Event} {k : Key} (h : k ∈ stepKeys l) :
    k ∈ stepKeys (e :: l) := by
  obtain ⟨c, o, he⟩ := mem_stepKeys.1 h
  exact mem_stepKeys.2 ⟨c, o, List.mem_cons_of_mem _ he⟩

theorem blockSurvives_of_not_parallel {v : List Frame} {p : Nat} {c : Context}
    {o : Nat → Option Value} {l : List Event} (h : plan.opAt p ≠ some .parallel) :
    blockSurvives plan x l (.node v p c o) = true := by
  rw [blockSurvives, if_neg h]

/-- Inside a step of the main pass there is no block of the main pass. -/
theorem survives_append {i : Nat} : ∀ {l l' : List Event}, (∀ k ∈ stepKeys l, k ∈ Inside [] i) →
    merged plan (l ++ l') = true → survives plan x l' = true → survives plan x (l ++ l') = true
  | [], _, _, _, h => h
  | e :: l, l', hin, hm, h => by
    rw [List.cons_append, merged, Bool.and_eq_true] at hm
    have hrest : survives plan x (l ++ l') = true :=
      survives_append (fun k hk => hin k (mem_stepKeys_cons hk)) hm.2 h
    rw [List.cons_append, survives, hrest, Bool.and_true]
    cases e with
    | node v p c o =>
      have hv : v ≠ [] := by
        rintro rfl
        have hinside := inside_of_mem (hin ([], p) (mem_stepKeys.2 ⟨c, o, List.mem_cons_self⟩))
        cases hinside
      by_cases hp : plan.opAt p = some .parallel
      · refine blockSurvives_of_silent ?_
        simpa [blockMerged, hp, hv] using hm.1
      · exact blockSurvives_of_not_parallel hp
    | iteration w loop i c o => rfl
    | decided w j b => rfl
    | dispatch d => rfl
    | write k w => rfl

theorem MainStep.mainLog {i : Nat} {s : ExecState} {l l' : List Event} {c : Context}
    {o : Nat → Option Value} {r : EStateM.Result ExecutionError ExecState NodeOutcome}
    (h : MainStep ex i s.ctx r l) (h' : MainLog ex.plan (finalState r).ctx l')
    (hend : l' = [] ∨ ∃ o t, r = .ok o t)
    (hknown : ∀ x val, Known x val s.ctx → reads ex.plan [] x val (.node [] i c o :: (l ++ l')) = true) :
    MainLog ex.plan s.ctx (.node [] i c o :: (l ++ l')) := by
  obtain ⟨hblock, hbehind⟩ := blockOf_append h.inside h'.head
  refine ⟨Or.inr ⟨i, c, o, l ++ l', rfl⟩, fun hm x => ?_, hknown, fun x val hc hm => ?_⟩
  · rw [merged, Bool.and_eq_true] at hm
    rw [survives, survives_append h.inside hm.2 (h'.survives (merged_append hm.2) x), Bool.and_true]
    by_cases hp : ex.plan.opAt i = some .parallel
    · cases hw : l.any Event.isWrite with
      | false => exact blockSurvives_of_silent (by rw [hblock, hw])
      | true =>
        rw [blockSurvives, if_pos hp, hblock, hbehind]
        cases hl : lastWrite x l with
        | none => rfl
        | some val =>
          have hmerged : l.any (Event.drains ex.plan) = false ∧ mergeFirst ex.plan l' = true := by
            simpa [blockMerged, hp, hblock, hbehind, hw] using hm.1
          rcases hend with rfl | ⟨o', t, rfl⟩
          · rfl
          · refine h'.pending x val ?_ hmerged.2
            exact h.parallel hp o' t rfl (fun e he => by
              simpa using List.any_eq_false.1 hmerged.1 e he) x val hl
    · exact blockSurvives_of_not_parallel hp
  · have hop : ex.plan.opAt i = some .merge := by simpa [mergeFirst] using hm
    obtain ⟨hr, hd⟩ := h.merge hop x val hc
    rw [reads, hop, reads_append hr fun hl => h'.known x val (hd hl)]
    simp

theorem mainPass_mainLog (hindex : ∀ i nd, ex.plan.getNode i = some nd → nd.index = i)
    (horder : order.Nodup) (policy : PausePolicy) : ∀ (nodes : List Nat) (position : Nat)
    (s : ExecState), ∃ l, (finalState (mainPass ex order policy nodes position s)).log = s.log ++ l ∧
      MainLog ex.plan s.ctx l
  | [], _, s => ⟨[], by simp [mainPass, finalState], mainLog_nil _ _⟩
  | idx :: rest, position, s => by
    have hkeeps : ∀ x val, Logged (Keeps ex.plan [] x val) s
        (finalState (mainPass ex order policy (idx :: rest) position s)) :=
      fun x val => mainPass_keeps policy (idx :: rest) position s
    generalize hfinal : finalState (mainPass ex order policy (idx :: rest) position s) = u at hkeeps ⊢
    rw [mainPass] at hfinal
    cases hnd : ex.plan.getNode idx with
    | none =>
      rw [hnd] at hfinal
      exact ⟨[], by rw [← hfinal, List.append_nil]; rfl, mainLog_nil _ _⟩
    | some nd =>
      simp only [hnd] at hfinal
      have hop : ex.plan.opAt nd.index = some nd.op := by
        rw [CompiledPlan.opAt, hindex idx nd hnd, hnd]
        rfl
      generalize hr : runNode ex order ex.plan.identifyLoopBodies (ex.plan.nodes.length + 1) []
        (some policy) nd s = r at hfinal
      -- behind the step: nothing, or the rest of the pass
      obtain ⟨l', hlog', hmain, hend⟩ : ∃ l', u.log = (finalState r).log ++ l' ∧
          MainLog ex.plan (finalState r).ctx l' ∧ (l' = [] ∨ ∃ o t, r = .ok o t) := by
        cases r with
        | error e t =>
          rw [bind_of_error _ hr] at hfinal
          exact ⟨[], by rw [← hfinal, List.append_nil]; rfl, mainLog_nil _ _, Or.inl rfl⟩
        | ok outcome t =>
          rw [bind_of_ok _ hr] at hfinal
          cases outcome with
          | paused ls => exact ⟨[], by rw [← hfinal, List.append_nil]; rfl, mainLog_nil _ _, Or.inl rfl⟩
          | ok =>
            simp only [get_bind] at hfinal
            split at hfinal
            · exact ⟨[], by rw [← hfinal, List.append_nil]; rfl, mainLog_nil _ _, Or.inl rfl⟩
            · obtain ⟨l', hl', hmain⟩ := mainPass_mainLog hindex horder policy rest (position + 1) t
              exact ⟨l', by rw [← hfinal, hl']; rfl, hmain, Or.inr ⟨_, _, rfl⟩⟩
      rcases runNode_main hindex horder _ hop s hr with ⟨hlog, hctx⟩ | ⟨c, o, l, hlog, hstep⟩
      · exact ⟨l', by rw [hlog', hlog], hctx ▸ hmain⟩
      · have hall : u.log = s.log ++ .node [] nd.index c o :: (l ++ l') := by
          rw [hlog', hlog, List.append_assoc, List.cons_append]
        refine ⟨_, hall, hstep.mainLog hmain hend fun x val hc => ?_⟩
        obtain ⟨l'', hl'', hk⟩ := hkeeps x val
        rw [List.append_cancel_left (hall.symm.trans hl'')]
        exact (hk hc).1

end Main

theorem finishPass_log (r : EStateM.Result ExecutionError ExecState PassOutcome) :
    (finishPass r).log = (finalState r).log := by
  cases r with
  | error e t => rfl
  | ok outcome t => cases outcome <;> rfl

/-- A PARALLEL with `a = call("t")` and behind it `x = a`, in a group, and `return x`. -/
def readBehindParallel : Ast.Module := Build.graph []
  [Build.group "g" [Build.parallel [Build.assign "a" (Build.call "t" [])],
    Build.assign "x" (Build.name "a")], Build.ret (Build.name "x")]

/-- `if True:` a PARALLEL with `a = 5` and `a = 6`, and behind it `return a`. -/
def parallelInBranch : ExecutionPlan :=
  ((transform (Build.graph [] [.if (.constant (.bool true))
    [Build.parallel [Build.assign "a" (Build.int 5), Build.assign "a" (Build.int 6)]] [],
    Build.ret (Build.name "a")])).toOption).getD (ExecutionPlan.new [] [])

example : (execute (Executor.of (.fromExecutionPlan parallelInBranch [])) (inputsOf [])).output =
    some (.int 6) := by decide +kernel

end Tinypipe
