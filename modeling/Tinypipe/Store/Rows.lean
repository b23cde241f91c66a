import Tinypipe.Api.Serde
import Tinypipe.Store.Storage

/-! The columns of a row of `executions`. Whatever cannot be read back from its column is left out
without an error, so an execution may be loaded other than it was saved. -/

namespace Tinypipe

open Lib

namespace Context

/-- `serde_json::from_str` -/
def fromText (t : Text) : Option Context := (Json.fromStr t).bind ofJson

structure Keeps (c : Context) : Prop where
  level : c.toJson.level < 128
  floats : ∀ f ∈ c.floats, Value.ReadsBack f

theorem fromText_iff {c : Context} (h : c.Wf) : fromText c.toJson.toText = some c ↔ c.Keeps := by
  rw [fromText, Json.fromStr_toText (wf_toJson h)]
  split_ifs with hlevel
  · rw [reread_toJson h, reread_eq_some]
    exact ⟨fun hfloats => ⟨hlevel, hfloats⟩, Keeps.floats⟩
  · constructor
    · intro hnone
      cases hnone
    · exact fun hkeeps => absurd hkeeps.level hlevel

theorem new_keeps : new.Keeps := ⟨by decide +kernel, fun f hf => absurd hf List.not_mem_nil⟩

end Context

namespace Value

structure Keeps (v : Value) : Prop where
  level : v.level < 128
  floats : ∀ f ∈ v.floats, ReadsBack f

end Value

namespace ExecutionStatus

def asStr : ExecutionStatus → Text
  | running => "running"
  | paused => "paused"
  | completed => "completed"
  | failed => "failed"

def fromColumn (s : Text) : ExecutionStatus :=
  if s = ("running" : Text) then running
  else if s = ("paused" : Text) then paused
  else if s = ("completed" : Text) then completed
  else if s = ("failed" : Text) then failed
  else running

theorem fromColumn_asStr (s : ExecutionStatus) : fromColumn s.asStr = s := by
  cases s <;> decide

end ExecutionStatus

structure ExecutionColumns where
  graphId : Text
  graphVersion : Int64
  input : Text
  output : Option Text
  status : Text
  error : Option Text
  startedAt : Text
  completedAt : Option Text
  durationUs : Option Int64
  context : Option Text

/-- What `save_execution` writes. -/
def Execution.columns (e : Execution) : ExecutionColumns where
  graphId := e.graphId
  graphVersion := Int64.ofNat e.graphVersion
  input := e.input.toJson.toText
  output := e.output.map Value.toJsonText
  status := e.status.asStr
  error := e.error
  startedAt := e.startedAt
  completedAt := e.completedAt
  durationUs := e.durationUs.map Int64.ofNat
  context := e.context.map fun c => c.toJson.toText

/-- What `load_execution` reads. -/
def ExecutionColumns.execution (c : ExecutionColumns) : Execution where
  graphId := c.graphId
  graphVersion := c.graphVersion.toUInt64.toNat
  input := (Context.fromText c.input).getD Context.new
  output := c.output.bind fun t => (Json.fromStr t).map jsonToTp
  status := .fromColumn c.status
  error := c.error
  startedAt := c.startedAt
  completedAt := c.completedAt
  durationUs := c.durationUs.map fun d => d.toUInt64.toNat
  context := c.context.bind Context.fromText

namespace Execution

structure Wf (e : Execution) : Prop where
  graphVersion : e.graphVersion < 2 ^ 64
  input : e.input.Wf
  output : ∀ v ∈ e.output, v.Wf
  durationUs : ∀ d ∈ e.durationUs, d < 2 ^ 64
  context : ∀ c ∈ e.context, c.Wf

/-- Every column holds what is read back from it. -/
structure Keeps (e : Execution) : Prop where
  input : e.input.Keeps
  output : ∀ v ∈ e.output, v.Keeps
  context : ∀ c ∈ e.context, c.Keeps

theorem toNat_ofNat {n : Nat} (h : n < 2 ^ 64) : (Int64.ofNat n).toUInt64.toNat = n := by
  rw [Int64.toUInt64_ofNat']
  exact UInt64.toNat_ofNat_of_lt' h

theorem fromText_input {c : Context} (h : c.Wf) :
    (Context.fromText c.toJson.toText).getD Context.new = c ↔ c.Keeps := by
  rw [← Context.fromText_iff h]
  cases hread : Context.fromText c.toJson.toText with
  | some c' => simp
  | none =>
    constructor
    · intro hnew
      have hkeeps := (Context.fromText_iff h).2 (hnew ▸ Context.new_keeps)
      rw [hread] at hkeeps
      cases hkeeps
    · intro hnone
      cases hnone

theorem bind_map_iff {α : Type} {write : α → Text} {read : Text → Option α} {P : α → Prop} {o : Option α}
    (h : ∀ a ∈ o, read (write a) = some a ↔ P a) : (o.map write).bind read = o ↔ ∀ a ∈ o, P a := by
  cases o with
  | none => simp
  | some a =>
    rw [Option.map_some, Option.bind_some, h a rfl]
    simp

def answered : Execution where
  graphId := "g"
  graphVersion := 3
  input := { Context.new with vars := Dict.empty.set "q" (.string "why") }
  output := some .null
  status := .completed
  error := none
  startedAt := "2024-05-01T00:00:00Z"
  completedAt := some "2024-05-01T00:00:01Z"
  durationUs := some 1000000
  context := none

end Execution

end Tinypipe
