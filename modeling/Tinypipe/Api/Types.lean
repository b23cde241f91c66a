import Tinypipe.Lib.Text
import Tinypipe.Lib.Float64
import Tinypipe.Lib.Dict

/-! Values, branch scopes and the execution context (`tinypipe-api/src/types.rs`).
A `HashMap` is a `Dict`; inside a value, where the type is nested, it is the list
of its entries. -/

namespace Tinypipe

open Lib

inductive Value where
  | null
  | bool (b : Bool)
  | int (i : Int64)
  | float (f : F64)
  | string (s : Text)
  | array (items : List Value)
  | object (m : List (Text × Value))

instance : Inhabited Value := ⟨.null⟩

namespace Value

mutual

/-- Decidable equality by recursion on the first value; the nested lists have their own. -/
def decEq : (a b : Value) → Decidable (a = b)
  | null, b => match b with
    | null => isTrue rfl
    | bool _ | int _ | float _ | string _ | array _ | object _ => isFalse (by simp)
  | bool x, b => match b with
    | bool y => decidable_of_iff (x = y) (by simp)
    | null | int _ | float _ | string _ | array _ | object _ => isFalse (by simp)
  | int x, b => match b with
    | int y => decidable_of_iff (x = y) (by simp)
    | null | bool _ | float _ | string _ | array _ | object _ => isFalse (by simp)
  | float x, b => match b with
    | float y => decidable_of_iff (x = y) (by simp)
    | null | bool _ | int _ | string _ | array _ | object _ => isFalse (by simp)
  | string x, b => match b with
    | string y => decidable_of_iff (x = y) (by simp)
    | null | bool _ | int _ | float _ | array _ | object _ => isFalse (by simp)
  | array xs, b => match b with
    | array ys => match decEqItems xs ys with
      | isTrue h => isTrue (by rw [h])
      | isFalse h => isFalse (by simpa using h)
    | null | bool _ | int _ | float _ | string _ | object _ => isFalse (by simp)
  | object xs, b => match b with
    | object ys => match decEqEntries xs ys with
      | isTrue h => isTrue (by rw [h])
      | isFalse h => isFalse (by simpa using h)
    | null | bool _ | int _ | float _ | string _ | array _ => isFalse (by simp)

def decEqItems : (a b : List Value) → Decidable (a = b)
  | [], [] => isTrue rfl
  | [], _ :: _ => isFalse (by simp)
  | _ :: _, [] => isFalse (by simp)
  | x :: xs, y :: ys => match decEq x y, decEqItems xs ys with
    | isTrue h, isTrue h' => isTrue (by rw [h, h'])
    | isFalse h, _ => isFalse (fun e => h (List.cons.inj e).1)
    | _, isFalse h => isFalse (fun e => h (List.cons.inj e).2)

def decEqEntries : (a b : List (Text × Value)) → Decidable (a = b)
  | [], [] => isTrue rfl
  | [], _ :: _ => isFalse (by simp)
  | _ :: _, [] => isFalse (by simp)
  | (k, x) :: xs, (k', y) :: ys =>
    if hk : k = k' then
      match decEq x y, decEqEntries xs ys with
      | isTrue h, isTrue h' => isTrue (by rw [hk, h, h'])
      | isFalse h, _ => isFalse (fun e => h (Prod.mk.inj (List.cons.inj e).1).2)
      | _, isFalse h => isFalse (fun e => h (List.cons.inj e).2)
    else isFalse (fun e => hk (Prod.mk.inj (List.cons.inj e).1).1)

end

instance : DecidableEq Value := decEq

def asF64 : Value → Option F64
  | float f => some f
  | int i => some (F64.ofInt i.toInt)
  | _ => none

/-- `i64::checked_add` and its siblings: the exact result when it is an `i64`. -/
def checkedI64 (i : Int) : Option Int64 :=
  if -2 ^ 63 ≤ i ∧ i < 2 ^ 63 then some (Int64.ofInt i) else none

theorem checkedI64_eq_some {z : Int} {s : Int64} (h : checkedI64 z = some s) : s.toInt = z ∧ s = Int64.ofInt z := by
  rw [checkedI64] at h
  split at h
  case isTrue hz =>
    obtain rfl := Option.some.inj h
    exact ⟨Int64.toInt_ofInt_of_le hz.1 hz.2, rfl⟩
  case isFalse => cases h

def checkedAdd : Value → Value → Option Value
  | int a, int b => (checkedI64 (a.toInt + b.toInt)).map int
  | float a, float b => some (float (a.add b))
  | int a, float b => some (float ((F64.ofInt a.toInt).add b))
  | float a, int b => some (float (a.add (F64.ofInt b.toInt)))
  | _, _ => none

end Value

inductive MergeStrategy where
  | last | first | min | max | concat | sum | avg
deriving DecidableEq

structure Scope where
  vars : Dict Text Value
  mergeStrategies : Dict Text MergeStrategy
deriving DecidableEq

namespace Scope

def new : Scope := ⟨Dict.empty, Dict.empty⟩

def set (s : Scope) (key : Text) (value : Value) : Scope :=
  { s with vars := s.vars.set key value }

def getMergeStrategy (s : Scope) (key : Text) : MergeStrategy :=
  (s.mergeStrategies.get key).getD .last

end Scope

structure Context where
  vars : Dict Text Value
  branchScopes : Dict Nat Scope
  parentScope : Option Scope
  activeBranch : Option Nat
deriving DecidableEq

namespace Context

def new : Context := ⟨Dict.empty, Dict.empty, none, none⟩

/-- The active branch's scope first, then the snapshot taken on entering the
PARALLEL block, then the globals. -/
def get (c : Context) (key : Text) : Option Value :=
  let branch := do
    let bid ← c.activeBranch
    let scope ← c.branchScopes.get bid
    scope.vars.get key
  let parent := do
    let scope ← c.parentScope
    scope.vars.get key
  branch.or (parent.or (c.vars.get key))

def set (c : Context) (key : Text) (value : Value) : Context :=
  match c.activeBranch with
  | some bid =>
    { c with branchScopes :=
        c.branchScopes.set bid (((c.branchScopes.get bid).getD Scope.new).set key value) }
  | none => { c with vars := c.vars.set key value }

def enterParallel (c : Context) : Context :=
  { c with parentScope := some ⟨c.vars, Dict.empty⟩
           branchScopes := Dict.empty
           activeBranch := none }

def exitParallel (c : Context) : Context := { c with activeBranch := none }

def setBranch (c : Context) (branchId : Nat) : Context :=
  { c with activeBranch := some branchId
           branchScopes :=
            match c.branchScopes.get branchId with
            | some _ => c.branchScopes
            | none => c.branchScopes.set branchId Scope.new }

def clearBranch (c : Context) : Context := { c with activeBranch := none }

def insertBranchScope (c : Context) (branchId : Nat) (scope : Scope) : Context :=
  { c with branchScopes := c.branchScopes.set branchId scope }

def takeBranchScope (c : Context) (branchId : Nat) : Option Scope × Context :=
  (c.branchScopes.get branchId, { c with branchScopes := c.branchScopes.erase branchId })

def setMergeStrategy (c : Context) (key : Text) (strategy : MergeStrategy) : Context :=
  match c.activeBranch with
  | some bid =>
    let scope := (c.branchScopes.get bid).getD Scope.new
    let scope := { scope with mergeStrategies := scope.mergeStrategies.set key strategy }
    { c with branchScopes := c.branchScopes.set bid scope }
  | none => c

/-- The new value of a key that already has `existing`, for one strategy. -/
def mergeValue (strategy : MergeStrategy) (existing value : Value) : Value :=
  match strategy with
  | .last => value
  | .first => existing
  | .min => match value.asF64, existing.asF64 with
    | some a, some b => if a.lt b then value else existing
    | _, _ => existing
  | .max => match value.asF64, existing.asF64 with
    | some a, some b => if a.gt b then value else existing
    | _, _ => existing
  | .concat => match existing, value with
    | .string a, .string b => .string (a ++ b)
    | .array a, .array b => .array (a ++ b)
    | _, _ => value
  | .sum => (existing.checkedAdd value).getD existing
  | .avg => match existing.asF64, value.asF64 with
    | some a, some b => .float (a.add b).half
    | _, _ => existing

def mergeEntry (scope : Scope) (vs : Dict Text Value) (e : Text × Value) : Dict Text Value :=
  match vs.get e.1 with
  | some existing => vs.set e.1 (mergeValue (scope.getMergeStrategy e.1) existing e.2)
  | none => vs.set e.1 e.2

def mergeScope (vs : Dict Text Value) (scope : Scope) : Dict Text Value :=
  scope.vars.entries.foldl (mergeEntry scope) vs

/-- Branch scopes are folded into the globals in ascending branch id. -/
def mergeBranches (c : Context) : Context :=
  let scopes := c.branchScopes.entries.insertionSort (fun a b => a.1 ≤ b.1)
  { vars := scopes.foldl (fun vs e => mergeScope vs e.2) c.vars
    branchScopes := Dict.empty
    parentScope := none
    activeBranch := none }

/-- The globals overlaid with the active branch's scope. -/
def allVariables (c : Context) : Dict Text Value :=
  match c.activeBranch with
  | some bid => match c.branchScopes.get bid with
    | some scope => c.vars.extend scope.vars
    | none => c.vars
  | none => c.vars

end Context

structure CallTarget where
  name : Text
  args : List Value
  kwargs : Dict Text Value
deriving DecidableEq

end Tinypipe
