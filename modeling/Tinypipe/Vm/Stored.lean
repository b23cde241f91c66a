import Tinypipe.Vm.Provenance
import Tinypipe.Api.Serde

/-! A checkpoint as the store keeps it: its JSON text, what is read back from the text, and the
segments of a run whose checkpoints go through the store. -/

namespace Tinypipe

open Lib

/-- A checkpoint with the maps, sets and vectors of the source, each in some order. -/
structure CheckpointFile where
  nodeCount : Nat
  position : Nat
  elapsedUs : Nat
  loopState : Option LoopState
  context : Context
  nodeOutputs : Dict Nat Value
  enabled : List Nat
  controlSatisfied : List Nat
  loopSkipped : List Nat
  executionOrder : List Text
  output : Option Value

namespace LoopState

def toJson (ls : LoopState) : Json := .object
  [("loop_index", Json.ofUnsigned ls.loopIndex),
   ("iteration", Json.ofUnsigned ls.iteration),
   ("body_position", Json.ofUnsigned ls.bodyPosition)]

def ofJson : Json → Option LoopState
  | .object m => do
    let loopIndex ← Json.field (Json.asUnsigned 32) "loop_index" m
    let iteration ← Json.field (Json.asUnsigned 32) "iteration" m
    let bodyPosition ← Json.field (Json.asUnsigned 64) "body_position" m
    some ⟨loopIndex, iteration, bodyPosition⟩
  | _ => none

def Fits (ls : LoopState) : Prop := ls.loopIndex < 2 ^ 32 ∧ ls.iteration < 2 ^ 32 ∧ ls.bodyPosition < 2 ^ 64

theorem ofJson_toJson {ls : LoopState} (h : ls.Fits) : ofJson ls.toJson = some ls := by
  have hfields : ofJson ls.toJson = (Json.asUnsigned 32 (Json.ofUnsigned ls.loopIndex)).bind fun loopIndex =>
    (Json.asUnsigned 32 (Json.ofUnsigned ls.iteration)).bind fun iteration =>
      (Json.asUnsigned 64 (Json.ofUnsigned ls.bodyPosition)).bind fun bodyPosition =>
        some ⟨loopIndex, iteration, bodyPosition⟩ := rfl
  rw [hfields, Json.asUnsigned_ofUnsigned h.1, Json.asUnsigned_ofUnsigned h.2.1, Json.asUnsigned_ofUnsigned h.2.2]
  rfl

theorem wf_toJson {ls : LoopState} (h : ls.Fits) : ls.toJson.Wf := by
  have hkeys : ([("loop_index" : Text), "iteration", "body_position"] : List Text).Nodup := by decide
  exact ⟨hkeys, h.1.trans (by decide), h.2.1.trans (by decide), h.2.2, trivial⟩

end LoopState

namespace CheckpointFile

/-- The state that `resume` starts from. -/
def checkpoint (file : CheckpointFile) : Checkpoint where
  nodeCount := file.nodeCount
  position := file.position
  loopState := file.loopState
  context := file.context
  nodeOutputs := file.nodeOutputs.get
  enabled := file.enabled.toFinset
  controlSatisfied := fun i => (file.controlSatisfied[i]?).getD 0
  loopSkipped := file.loopSkipped.toFinset
  executionOrder := file.executionOrder
  output := file.output

def outputsJson (d : Dict Nat Value) : Json := Json.ofMap Text.ofNat Value.toJson d

def outputsOfJson : Json → Option (Dict Nat Value) := Json.asMap Json.keyU32 Value.ofJson

def indices (items : List Nat) : Json := Json.ofList Json.ofUnsigned items

def toJson (file : CheckpointFile) : Json := .object
  [("node_count", Json.ofUnsigned file.nodeCount),
   ("position", Json.ofUnsigned file.position),
   ("elapsed_us", Json.ofUnsigned file.elapsedUs),
   ("loop_state", Json.ofOption LoopState.toJson file.loopState),
   ("context", file.context.toJson),
   ("node_outputs", outputsJson file.nodeOutputs),
   ("enabled", indices file.enabled),
   ("control_satisfied", indices file.controlSatisfied),
   ("loop_skipped", indices file.loopSkipped),
   ("execution_order", Json.ofList .string file.executionOrder),
   ("output", Json.ofOption Value.toJson file.output)]

def ofJson : Json → Option CheckpointFile
  | .object m => do
    let nodeCount ← Json.field (Json.asUnsigned 32) "node_count" m
    let position ← Json.field (Json.asUnsigned 64) "position" m
    let elapsedUs ← Json.field (Json.asUnsigned 64) "elapsed_us" m
    let loopState ← Json.optionalField LoopState.ofJson "loop_state" m
    let context ← Json.field Context.ofJson "context" m
    let nodeOutputs ← Json.field outputsOfJson "node_outputs" m
    let enabled ← Json.field (Json.asList (Json.asUnsigned 32)) "enabled" m
    let controlSatisfied ← Json.field (Json.asList (Json.asUnsigned 32)) "control_satisfied" m
    let loopSkipped ← Json.field (Json.asList (Json.asUnsigned 32)) "loop_skipped" m
    let executionOrder ← Json.field (Json.asList Json.asString) "execution_order" m
    let output ← Json.optionalField Value.ofJson "output" m
    some ⟨nodeCount, position, elapsedUs, loopState, context, nodeOutputs, enabled, controlSatisfied, loopSkipped,
      executionOrder, output⟩
  | _ => none

/-- `serde_json::to_vec` -/
def toText (file : CheckpointFile) : Text := file.toJson.toText

/-- `serde_json::from_slice` -/
def fromText (t : Text) : Option CheckpointFile := (Json.fromStr t).bind ofJson

/-- The numbers are those of their types, and the objects of the values are maps. -/
structure Wf (file : CheckpointFile) : Prop where
  nodeCount : file.nodeCount < 2 ^ 32
  position : file.position < 2 ^ 64
  elapsedUs : file.elapsedUs < 2 ^ 64
  loopState : ∀ ls ∈ file.loopState, ls.Fits
  context : file.context.Wf
  nodeOutputs : ∀ e ∈ file.nodeOutputs.entries, e.1 < 2 ^ 32 ∧ e.2.Wf
  enabled : ∀ i ∈ file.enabled, i < 2 ^ 32
  controlSatisfied : ∀ n ∈ file.controlSatisfied, n < 2 ^ 32
  loopSkipped : ∀ i ∈ file.loopSkipped, i < 2 ^ 32
  output : ∀ v ∈ file.output, v.Wf

/-- `Some(null)` is read as `None`. -/
def rereadOutput : Option Value → Option (Option Value)
  | some v => v.reread.map fun v => if v = .null then none else some v
  | none => some none

/-- The checkpoint with its doubles read back. -/
def reread (file : CheckpointFile) : Option CheckpointFile := do
  let context ← file.context.reread
  let nodeOutputs ← traverseDict Value.reread file.nodeOutputs
  let output ← rereadOutput file.output
  some { file with context := context, nodeOutputs := nodeOutputs, output := output }

/-- All doubles of a checkpoint. -/
def floats (file : CheckpointFile) : List F64 :=
  file.context.floats ++ (file.nodeOutputs.entries.flatMap (fun e => e.2.floats) ++ file.output.toList.flatMap
    Value.floats)

theorem reread_output (o : Option Value) :
    (Json.ofOption Value.toJson o).reread.bind (Json.asOption Value.ofJson) = rereadOutput o := by
  have hread : ∀ j, Json.asOption Value.ofJson j = some (if jsonToTp j = .null then none else some (jsonToTp j)) := by
    intro j
    cases j with
    | null => rfl
    | number n =>
      have hne : jsonToTp (.number n) ≠ .null := by
        cases n with
        | posInt n =>
          rw [jsonToTp]
          split_ifs <;> simp
        | negInt i => simp [jsonToTp]
        | float f => simp [jsonToTp]
      rw [if_neg hne]
      rfl
    | bool | string | array | object =>
      rw [if_neg (by simp [jsonToTp])]
      rfl
  cases o with
  | none => rfl
  | some v =>
    rw [Json.ofOption, rereadOutput, ← Value.reread_toJson]
    cases v.toJson.reread with
    | none => rfl
    | some j => exact hread j

theorem reread_indices (items : List Nat) : (indices items).reread = some (indices items) :=
  Json.reread_ofList fun _ => rfl

theorem asList_indices {items : List Nat} (h : ∀ i ∈ items, i < 2 ^ 32) :
    Json.asList (Json.asUnsigned 32) (indices items) = some items :=
  Json.asList_ofList fun i hi => Json.asUnsigned_ofUnsigned (h i hi)

theorem reread_toJson {file : CheckpointFile} (h : file.Wf) : file.toJson.reread.bind ofJson = file.reread := by
  have hcontext := Context.reread_toJson h.context
  have houtputs : (outputsJson file.nodeOutputs).reread.bind outputsOfJson =
      traverseDict Value.reread file.nodeOutputs :=
    Json.reread_ofMap (fun e he => Json.keyU32_ofNat (h.nodeOutputs e he).1) Value.reread_bind_ofJson
  have houtput := reread_output file.output
  have hunsigned : ∀ n, (Json.ofUnsigned n).reread = some (Json.ofUnsigned n) := fun _ => rfl
  have hloop : (Json.ofOption LoopState.toJson file.loopState).reread =
      some (Json.ofOption LoopState.toJson file.loopState) := by
    cases file.loopState <;> rfl
  have hloopState : Json.asOption LoopState.ofJson (Json.ofOption LoopState.toJson file.loopState) =
      some file.loopState := by
    cases hls : file.loopState with
    | none => rfl
    | some ls => exact congrArg (Option.map some) (LoopState.ofJson_toJson (h.loopState ls hls))
  have horder : (Json.ofList Json.string file.executionOrder).reread = some (Json.ofList .string file.executionOrder) :=
    Json.reread_ofList fun _ => rfl
  have hstrings : Json.asList Json.asString (Json.ofList .string file.executionOrder) = some file.executionOrder :=
    Json.asList_ofList fun _ _ => rfl
  have hfields : ∀ c o r, ofJson (.object
      [("node_count", Json.ofUnsigned file.nodeCount), ("position", Json.ofUnsigned file.position),
       ("elapsed_us", Json.ofUnsigned file.elapsedUs),
       ("loop_state", Json.ofOption LoopState.toJson file.loopState), ("context", c), ("node_outputs", o),
       ("enabled", indices file.enabled), ("control_satisfied", indices file.controlSatisfied),
       ("loop_skipped", indices file.loopSkipped), ("execution_order", Json.ofList .string file.executionOrder),
       ("output", r)]) =
      (Json.asUnsigned 32 (Json.ofUnsigned file.nodeCount)).bind fun nodeCount =>
      (Json.asUnsigned 64 (Json.ofUnsigned file.position)).bind fun position =>
      (Json.asUnsigned 64 (Json.ofUnsigned file.elapsedUs)).bind fun elapsedUs =>
      (Json.asOption LoopState.ofJson (Json.ofOption LoopState.toJson file.loopState)).bind fun loopState =>
      (Context.ofJson c).bind fun context => (outputsOfJson o).bind fun nodeOutputs =>
      (Json.asList (Json.asUnsigned 32) (indices file.enabled)).bind fun enabled =>
      (Json.asList (Json.asUnsigned 32) (indices file.controlSatisfied)).bind fun controlSatisfied =>
      (Json.asList (Json.asUnsigned 32) (indices file.loopSkipped)).bind fun loopSkipped =>
      (Json.asList Json.asString (Json.ofList .string file.executionOrder)).bind fun executionOrder =>
      (Json.asOption Value.ofJson r).bind fun output =>
        some ⟨nodeCount, position, elapsedUs, loopState, context, nodeOutputs, enabled, controlSatisfied, loopSkipped,
          executionOrder, output⟩ := fun _ _ _ => rfl
  simp only [Json.asUnsigned_ofUnsigned h.nodeCount, Json.asUnsigned_ofUnsigned h.position,
    Json.asUnsigned_ofUnsigned h.elapsedUs, hloopState, asList_indices h.enabled, asList_indices h.controlSatisfied,
    asList_indices h.loopSkipped, hstrings, Option.bind_some] at hfields
  rw [reread, ← hcontext, ← houtputs, ← houtput, toJson, Json.reread_object_bind]
  simp only [hunsigned, hloop, reread_indices, horder, Option.bind_some, Json.rereadEntries]
  cases file.context.toJson.reread with
  | none => rfl
  | some c =>
    cases (outputsJson file.nodeOutputs).reread with
    | none =>
      simp only [Option.bind_none, Option.bind_fun_none, Option.bind_eq_bind]
      rfl
    | some o =>
      cases (Json.ofOption Value.toJson file.output).reread with
      | none =>
        simp only [Option.bind_none, Option.bind_fun_none, Option.bind_eq_bind]
        rfl
      | some r => exact hfields c o r

theorem wf_toJson {file : CheckpointFile} (h : file.Wf) : file.toJson.Wf := by
  have hkeys : ([("node_count" : Text), "position", "elapsed_us", "loop_state", "context", "node_outputs", "enabled",
    "control_satisfied", "loop_skipped", "execution_order", "output"] : List Text).Nodup := by decide
  have hindices : ∀ {items : List Nat}, (∀ i ∈ items, i < 2 ^ 32) → (indices items).Wf := fun hitems =>
    Json.wf_ofList fun i hi => (hitems i hi).trans (by decide)
  refine ⟨hkeys, h.nodeCount.trans (by decide), h.position, h.elapsedUs, ?_, Context.wf_toJson h.context, ?_,
    hindices h.enabled, hindices h.controlSatisfied, hindices h.loopSkipped, ?_, ?_, trivial⟩
  · exact Json.wf_ofOption fun ls hls => LoopState.wf_toJson (h.loopState ls hls)
  · exact Json.wf_ofMap (fun _ _ h => ofNat_injective h) fun e he => Value.wf_toJson (h.nodeOutputs e he).2
  · exact Json.wf_ofList fun _ _ => trivial
  · exact Json.wf_ofOption fun v hv => Value.wf_toJson (h.output v hv)

theorem rereadOutput_eq_some (o : Option Value) : rereadOutput o = some o ↔
    o ≠ some .null ∧ ∀ f ∈ o.toList.flatMap Value.floats, Value.ReadsBack f := by
  cases o with
  | none => simp [rereadOutput]
  | some v =>
    have hlist : (some v).toList.flatMap Value.floats = v.floats := by simp
    rw [hlist, ← Value.reread_eq_some, rereadOutput, Option.map_eq_some_iff]
    constructor
    · rintro ⟨w, hw, hnull⟩
      split_ifs at hnull with hne
      obtain rfl := Option.some.inj hnull
      exact ⟨fun heq => hne (Option.some.inj heq), hw⟩
    · rintro ⟨hne, hv⟩
      exact ⟨v, hv, if_neg fun heq => hne (congrArg some heq)⟩

theorem reread_eq_some {file : CheckpointFile} : file.reread = some file ↔
    file.output ≠ some .null ∧ ∀ f ∈ file.floats, Value.ReadsBack f := by
  have houtputs : traverseDict Value.reread file.nodeOutputs = some file.nodeOutputs ↔
      ∀ f ∈ file.nodeOutputs.entries.flatMap (fun e => e.2.floats), Value.ReadsBack f := by
    rw [traverseDict_eq_some, List.forall_mem_flatMap]
    exact forall₂_congr fun e _ => Value.reread_eq_some e.2
  have houtput := rereadOutput_eq_some file.output
  rw [floats, List.forall_mem_append, List.forall_mem_append, and_left_comm (a := file.output ≠ some .null),
    and_left_comm (a := file.output ≠ some .null), ← houtput, ← houtputs, ← Context.reread_eq_some, reread]
  constructor
  · intro heq
    obtain ⟨context, hcontext, heq⟩ := Option.bind_eq_some_iff.1 heq
    obtain ⟨outputs, houtputs, heq⟩ := Option.bind_eq_some_iff.1 heq
    obtain ⟨output, houtput, heq⟩ := Option.bind_eq_some_iff.1 heq
    have hfile := Option.some.inj heq
    rw [hcontext, houtputs, houtput, ← hfile]
    exact ⟨rfl, rfl, rfl⟩
  · rintro ⟨hcontext, houtputs, houtput⟩
    rw [hcontext, houtputs, houtput]
    rfl

/-- What is read from the text of a checkpoint. -/
theorem fromText_toText {file : CheckpointFile} (h : file.Wf) :
    fromText file.toText = if file.toJson.level < 128 then file.reread else none := by
  rw [fromText, toText, Json.fromStr_toText (wf_toJson h), ← reread_toJson h]
  split_ifs <;> rfl

/-- How deep the values of a checkpoint may be nested: `serde_json` stops at 128 levels, and those
around a value count. -/
structure Fits (file : CheckpointFile) : Prop where
  vars : ∀ e ∈ file.context.vars.entries, e.2.level < 125
  branchScopes : ∀ e ∈ file.context.branchScopes.entries, ∀ v ∈ e.2.vars.entries, v.2.level < 123
  parentScope : ∀ s ∈ file.context.parentScope, ∀ v ∈ s.vars.entries, v.2.level < 124
  nodeOutputs : ∀ e ∈ file.nodeOutputs.entries, e.2.level < 126
  output : ∀ v ∈ file.output, v.level < 127

/-- The text of a checkpoint is read as the checkpoint. -/
structure Keeps (file : CheckpointFile) : Prop where
  fits : file.Fits
  output : file.output ≠ some .null
  floats : ∀ f ∈ file.floats, Value.ReadsBack f

theorem level_toJson_lt {file : CheckpointFile} : file.toJson.level < 128 ↔ file.Fits := by
  have hindices : ∀ items, (indices items).level < 127 := fun items =>
    Json.level_ofList_lt.2 ⟨by decide, fun _ _ => (by decide : 0 < 126)⟩
  have hloop : (Json.ofOption LoopState.toJson file.loopState).level < 127 :=
    Json.level_ofOption_lt.2 ⟨by decide, fun _ _ => (by decide : 1 < 127)⟩
  have horder : (Json.ofList Json.string file.executionOrder).level < 127 :=
    Json.level_ofList_lt.2 ⟨by decide, fun _ _ => (by decide : 0 < 126)⟩
  have hunsigned : ∀ n, (Json.ofUnsigned n).level < 127 := fun _ => (by decide : 0 < 127)
  have hcontext := Context.level_toJson_lt (c := file.context) (n := 122)
  have houtputs : (outputsJson file.nodeOutputs).level < 127 ↔ 0 < 126 ∧
      ∀ e ∈ file.nodeOutputs.entries, e.2.level < 126 :=
    Json.level_ofMap_lt
  rw [toJson, Json.level_object_lt (n := 127)]
  simp only [List.forall_mem_cons, hunsigned, hindices, hloop, horder, houtputs, Json.level_ofOption_lt, hcontext,
    true_and]
  constructor
  · rintro ⟨-, hcontext, houtputs, houtput, -⟩
    exact ⟨hcontext.1, hcontext.2.1, hcontext.2.2, houtputs.2, houtput.2⟩
  · intro h
    exact ⟨by decide, ⟨h.vars, h.branchScopes, h.parentScope⟩, ⟨by decide, h.nodeOutputs⟩, ⟨by decide, h.output⟩,
      fun _ hx => absurd hx List.not_mem_nil⟩

theorem fromText_of_keeps {file : CheckpointFile} (h : file.Wf) (hkeeps : file.Keeps) :
    fromText file.toText = some file := by
  rw [fromText_toText h, if_pos (level_toJson_lt.2 hkeeps.fits)]
  exact reread_eq_some.2 ⟨hkeeps.output, hkeeps.floats⟩

def small : CheckpointFile where
  nodeCount := 2
  position := 1
  elapsedUs := 40
  loopState := some ⟨1, 3, 2⟩
  context := { Context.new with vars := Dict.empty.set "items" (.array [.int 1, .null]) }
  nodeOutputs := Dict.empty.set 0 (.bool true)
  enabled := [1, 0]
  controlSatisfied := [0, 2]
  loopSkipped := []
  executionOrder := ["n0", "n1"]
  output := none

end CheckpointFile

section Runs

variable (ex : Executor) (inputs : Context) (policies : Nat → PausePolicy)

/-- The segments of a run whose checkpoints are written to the store and read from it. -/
inductive StoredRun : Nat → Segment → Prop
  | start : StoredRun 0 (executeWith ex inputs (policies 0))
  | resumed {n : Nat} {seg : Segment} {file read : CheckpointFile} (hrun : StoredRun n seg)
      (hpaused : seg.result = .ok (.paused file.checkpoint)) (hwf : file.Wf)
      (hread : CheckpointFile.fromText file.toText = some read) :
      StoredRun (n + 1) (resume ex read.checkpoint (policies (n + 1)))

variable {ex inputs policies}

end Runs

theorem segment_of_ended {ex : Executor} {inputs : Context} {policies : Nat → PausePolicy} {m : Nat}
    (h : (segment ex inputs policies m).Ended) :
    ∀ {n : Nat}, m ≤ n → segment ex inputs policies n = segment ex inputs policies m := by
  intro n hn
  induction n, hn using Nat.le_induction with
  | base => rfl
  | succ n _ ih => rw [segment_succ_ended (by rwa [ih]), ih]

/-! ### A loop that is paused -/

/-- The checkpoint holds neither doubles nor nested values. -/
def Checkpoint.flat (cp : Checkpoint) : Bool :=
  let flat : Value → Bool := fun v => v.level == 0 && v.floats.isEmpty
  cp.context.vars.entries.all (fun e => flat e.2) && cp.context.branchScopes.entries.isEmpty &&
    cp.context.parentScope.isNone && cp.output.isNone && (List.range 4).all fun i => (cp.nodeOutputs i).all flat

end Tinypipe
