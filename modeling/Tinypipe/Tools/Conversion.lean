import Tinypipe.Server.Http

/-! Values across a process boundary (`tinypipe-tools/src/daemon.rs`): the converters the daemon
client and the server share, next to the one the VM has of its own. -/

namespace Tinypipe

open Lib

namespace Json.Number

/-- `as_i64`: a number written with a point or an exponent is no integer. -/
def asI64 : Number → Option Int64
  | posInt n => if n < 2 ^ 63 then some (Int64.ofNat n) else none
  | negInt i => some (Int64.ofInt i)
  | float _ => none

/-- `as_f64` -/
def asF64 : Number → Option F64
  | posInt n => some (F64.ofInt n)
  | negInt i => some (F64.ofInt i)
  | float f => some f

end Json.Number

namespace Tools

mutual

/-- `json_to_tp` -/
def jsonToTp : Json → Value
  | .null => .null
  | .bool b => .bool b
  | .number n =>
    match n.asI64 with
    | some i => .int i
    | none => match n.asF64 with
      | some f => .float f
      | none => .null
  | .string s => .string s
  | .array items => .array (itemsToTp items)
  | .object m => .object (entriesToTp m)

def itemsToTp : List Json → List Value
  | [] => []
  | j :: js => jsonToTp j :: itemsToTp js

def entriesToTp : List (Text × Json) → List (Text × Value)
  | [] => []
  | (k, j) :: es => (k, jsonToTp j) :: entriesToTp es

end

end Tools

namespace Value

mutual

/-- No infinity and no `NaN`, at any depth. -/
def Finite : Value → Prop
  | float f => f.isFinite
  | array items => FiniteItems items
  | object m => FiniteEntries m
  | null | bool _ | int _ | string _ => True

def FiniteItems : List Value → Prop
  | [] => True
  | v :: vs => v.Finite ∧ FiniteItems vs

def FiniteEntries : List (Text × Value) → Prop
  | [] => True
  | (_, v) :: es => v.Finite ∧ FiniteEntries es

end

end Value

/-! ### Numbers -/

theorem Tools.jsonToTp_number (n : Json.Number) :
    Tools.jsonToTp (.number n) = Tinypipe.jsonToTp (.number n) := by
  cases n with
  | posInt n =>
    rw [Tools.jsonToTp, Tinypipe.jsonToTp, Json.Number.asI64]
    by_cases h : n < 2 ^ 63
    · rw [if_pos h, if_pos h]
    · rw [if_neg h, if_neg h]
      rfl
  | negInt i => rfl
  | float f => rfl

/-- An `i64` is written as one of two kinds of number, by its sign, and read back from either. -/
theorem jsonToTp_numberOfI64 (i : Int64) : jsonToTp (numberOfI64 i) = .int i := by
  have hlow := i.le_toInt
  have hhigh := i.toInt_lt
  rw [numberOfI64]
  by_cases h : 0 ≤ i.toInt
  · have hnat : i.toInt.toNat < 2 ^ 63 := by omega
    rw [if_pos h, jsonToTp, if_pos hnat, ← Int64.ofInt_eq_ofNat, Int.toNat_of_nonneg h, Int64.ofInt_toInt]
  · rw [if_neg h, jsonToTp, Int64.ofInt_toInt]

theorem jsonToTp_floatJson {f : F64} (h : f.isFinite) : jsonToTp (floatJson f) = .float f := by
  rw [floatJson, if_pos h]
  rfl

/-! ### The two converters -/

namespace Tools

mutual

/-- The client's converter and the VM's read every JSON alike. -/
theorem jsonToTp_eq : ∀ j : Json, jsonToTp j = Tinypipe.jsonToTp j
  | .null => rfl
  | .bool _ => rfl
  | .number n => jsonToTp_number n
  | .string _ => rfl
  | .array items => by rw [jsonToTp, Tinypipe.jsonToTp, itemsToTp_eq items]
  | .object m => by rw [jsonToTp, Tinypipe.jsonToTp, entriesToTp_eq m]

theorem itemsToTp_eq : ∀ js : List Json, itemsToTp js = jsonItems js
  | [] => rfl
  | j :: js => by rw [itemsToTp, jsonItems, jsonToTp_eq j, itemsToTp_eq js]

theorem entriesToTp_eq : ∀ es : List (Text × Json), entriesToTp es = jsonEntries es
  | [] => rfl
  | (k, j) :: es => by rw [entriesToTp, jsonEntries, jsonToTp_eq j, entriesToTp_eq es]

end

end Tools

mutual

theorem jsonToTp_tpToJson : ∀ {v : Value}, v.Finite → jsonToTp (tpToJson v) = v
  | .null, _ => rfl
  | .bool _, _ => rfl
  | .int i, _ => jsonToTp_numberOfI64 i
  | .float _, h => jsonToTp_floatJson h
  | .string _, _ => rfl
  | .array items, h => by rw [tpToJson, jsonToTp, jsonItems_tpItems h]
  | .object m, h => by rw [tpToJson, jsonToTp, jsonEntries_tpEntries h]

theorem jsonItems_tpItems : ∀ {vs : List Value}, Value.FiniteItems vs → jsonItems (tpItems vs) = vs
  | [], _ => rfl
  | v :: vs, h => by rw [tpItems, jsonItems, jsonToTp_tpToJson h.1, jsonItems_tpItems h.2]

theorem jsonEntries_tpEntries :
    ∀ {es : List (Text × Value)}, Value.FiniteEntries es → jsonEntries (tpEntries es) = es
  | [], _ => rfl
  | (k, v) :: es, h => by rw [tpEntries, jsonEntries, jsonToTp_tpToJson h.1, jsonEntries_tpEntries h.2]

end

/-- A value without infinities comes back from its JSON as it was; the client, the server and the VM
read the same value in the same JSON; every `i64` stays an integer. -/
theorem conversion_lossless (v : Value) (hv : v.Finite) (j : Json) (i : Int64) :
    Tools.jsonToTp (tpToJson v) = v ∧ Tools.jsonToTp j = jsonToTp j ∧
      Tools.jsonToTp (numberOfI64 i) = .int i ∧ jsonToTp (numberOfI64 i) = .int i := by
  have hback : Tools.jsonToTp (tpToJson v) = v := by
    rw [Tools.jsonToTp_eq]
    exact jsonToTp_tpToJson hv
  have hint : Tools.jsonToTp (numberOfI64 i) = .int i := by
    rw [Tools.jsonToTp_eq]
    exact jsonToTp_numberOfI64 i
  exact ⟨hback, Tools.jsonToTp_eq j, hint, jsonToTp_numberOfI64 i⟩

/-- A negative zero inside an object, beside the greatest integer. -/
def nestedValue : Value :=
  .array [.object [("a", .float ⟨0x8000000000000000#64⟩)], .int Int64.maxValue]

theorem conversion_lossless_nested :
    Tools.jsonToTp (tpToJson nestedValue) = nestedValue ∧
      Tools.jsonToTp (.number (.posInt (2 ^ 63))) = jsonToTp (.number (.posInt (2 ^ 63))) ∧
      Tools.jsonToTp (numberOfI64 Int64.minValue) = .int Int64.minValue ∧
        jsonToTp (numberOfI64 Int64.minValue) = .int Int64.minValue := by
  have hzero : (⟨0x8000000000000000#64⟩ : F64).isFinite := by decide +kernel
  exact conversion_lossless nestedValue ⟨⟨hzero, trivial⟩, trivial, trivial⟩ _ _

end Tinypipe
