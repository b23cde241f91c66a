import Tinypipe.Vm.Eval
import Tinypipe.Lib.Reach

/-! The executor (`tinypipe-vm/src/compiled_executor.rs`, `pause.rs`, `error.rs`).

The mutable locals that `run_node` and `run_loop` share are one state record, and
a computation is an `EStateM` action on it, so the state at an error is kept. The
record also carries a log of what the run did; no modelled function reads it. The
wall clock is not modelled: the time limit never fires, and a `WAIT` takes no time. -/

namespace Tinypipe

open Lib

inductive ExecutionError where
  | cycleDetected
  | nodeNotFound (what : Text)
  | callFailed (name message : Text)
  | evalError (message : Text)
  | memoryLimitExceeded (limit bytes : Nat)
  | nodeBudgetExceeded (count budget : Nat)
  | recursionLimitExceeded (name : Text)
  | custom (message : Text)
  | versionMismatch (message : Text)
  | schemaDriftDetected (tool compiled latest : Text)
deriving DecidableEq

/-- The tools behind a call, taken at the executor's environment. Each is a function
of its arguments: the registry is deterministic. -/
structure Registry where
  dispatch : CallTarget → Context → Except Text Value
  executeSubgraph : Text → Context → Except Text (Context × Value)
  latestSchemaHash : Text → Except Text Text

structure Executor where
  plan : CompiledPlan
  registry : Registry
  /-- what a call reads from `recursion_depth`: zero, unless sibling branch threads
  have subgraph calls in flight -/
  recursionDepth : Nat

structure PausePolicy where
  maxNodes : Option Nat
  pauseAtNodeIds : Option (List Text)

namespace PausePolicy

def default : PausePolicy := ⟨none, none⟩

def shouldPause (p : PausePolicy) (nodeCount : Nat) (nodeId : Text) : Bool :=
  (match p.maxNodes with
    | some m => m ≤ nodeCount
    | none => false) ||
  (match p.pauseAtNodeIds with
    | some ids => nodeId ∈ ids
    | none => false)

end PausePolicy

/-- A place in the nesting of a run: a branch thread, or one iteration of a loop. -/
inductive Frame where
  | branch (parallel bid : Nat)
  | iteration (loop i : Nat)
deriving DecidableEq

/-- A call that leaves the executor: of a tool, or of a subgraph. -/
inductive Dispatch where
  | tool (call : CallTarget)
  | subgraph (name : Text) (input : Context)
deriving DecidableEq

/-- An observation of the run, for the log. A node, and an iteration of a loop, is logged
with the context and the outputs it starts from. -/
inductive Event where
  | node (visit : List Frame) (index : Nat) (ctx : Context) (outputs : Nat → Option Value)
  | iteration (visit : List Frame) (loop i : Nat) (ctx : Context) (outputs : Nat → Option Value)
  | decided (visit : List Frame) (index : Nat) (decision : Bool)
  | dispatch (d : Dispatch)
  | write (key : Text) (value : Value)

structure ExecState where
  ctx : Context
  nodeOutputs : Nat → Option Value
  executionOrder : List Text
  enabled : Finset Nat
  controlSatisfied : Nat → Nat
  loopSkipped : Finset Nat
  nodeCount : Nat
  output : Option Value
  log : List Event

abbrev M := EStateM ExecutionError ExecState

structure LoopState where
  loopIndex : Nat
  iteration : Nat
  bodyPosition : Nat
deriving DecidableEq

inductive NodeOutcome where
  | ok
  | paused (ls : LoopState)

namespace CompiledPlan

variable (plan : CompiledPlan)

def opAt (i : Nat) : Option Opcode := (plan.getNode i).map CompiledNode.op

def edgesFrom (i : Nat) : List CompiledEdge := plan.edges.filter (fun e => e.fromIndex = i)

def arcs : List (Nat × Nat) := plan.edges.map fun e => (e.fromIndex, e.toIndex)

def collectReachableIndices (starts : List Nat) : Finset Nat := Reach.reachable plan.arcs starts

/-- The unconditional edges out of a LOOP lead to its body (data) and past it (control). -/
def anchors (loop : Nat) (control : Bool) : List Nat :=
  (plan.edges.filter fun e =>
    e.fromIndex = loop && e.condition.isNone && decide (e.kind = .control) == control).map
    CompiledEdge.toIndex

def loopBody (loop : Nat) : Finset Nat :=
  let body := plan.collectReachableIndices (plan.anchors loop false)
  let after := plan.anchors loop true
  if after = [] then body else body \ plan.collectReachableIndices after

def identifyLoopBodies : List (Nat × Finset Nat) :=
  (plan.nodes.filter fun nd => nd.op = .loop).map fun nd => (nd.index, plan.loopBody nd.index)

/-- Kahn's algorithm on the edges whose target is a node. -/
def topologicalOrder : Except ExecutionError (List Nat) :=
  let n := plan.nodes.length
  let order := Kahn.sort (List.range n) (plan.arcs.filter fun e => e.2 < n)
  if order.length ≠ n then .error .cycleDetected else .ok order

def controlPredCount (i : Nat) : Nat :=
  plan.edges.countP fun e => e.kind = .control && e.toIndex = i

end CompiledPlan

/-! ### Gating -/

/-- `"true"` or `"false"` in any case. -/
def branchLabel (c : Text) : Option Bool :=
  if Text.eqIgnoreAsciiCase c "true" then some true
  else if Text.eqIgnoreAsciiCase c "false" then some false
  else none

/-- The branch of a DECIDE that a data edge into `index` belongs to. -/
def gateLabel (plan : CompiledPlan) (index : Nat) (e : CompiledEdge) : Option Bool :=
  if e.toIndex = index ∧ e.kind = .data ∧ plan.opAt e.fromIndex = some .decide then
    e.condition.bind branchLabel
  else none

/-- An edge of a branch whose DECIDE did not decide for it, or has not decided. -/
def edgeBlocks (plan : CompiledPlan) (outputs : Nat → Option Value) (index : Nat)
    (e : CompiledEdge) : Bool :=
  match gateLabel plan index e with
  | some want => match outputs e.fromIndex with
    | some (.bool b) => b != want
    | _ => true
  | none => false

/-- A MERGE behind a live branch: an unconditional data edge whose source has a value. -/
def uncondRan (plan : CompiledPlan) (outputs : Nat → Option Value) (index : Nat) : Bool :=
  plan.edges.any fun e =>
    e.toIndex = index && e.kind = .data && e.condition.isNone && (outputs e.fromIndex).isSome

def branchMismatch (plan : CompiledPlan) (outputs : Nat → Option Value) (op : Opcode)
    (index : Nat) : Bool :=
  if op = .merge ∧ uncondRan plan outputs index then false
  else plan.edges.any (edgeBlocks plan outputs index)

/-- A node of a branch that was decided against; an undecided branch is not dead yet. -/
def isBranchDead (plan : CompiledPlan) (outputs : Nat → Option Value) (index : Nat) : Bool :=
  plan.edges.any fun e => match gateLabel plan index e with
    | some want => match outputs e.fromIndex with
      | some (.bool b) => b != want
      | _ => false
    | none => false

def controlPending (plan : CompiledPlan) (s : ExecState) (index : Nat) : Bool :=
  index < plan.nodes.length && s.controlSatisfied index < plan.controlPredCount index

/-- A data predecessor without a value. Inputs, loop bodies and dead branches do not count. -/
def dataPredMissing (plan : CompiledPlan) (bodies : List (Nat × Finset Nat))
    (outputs : Nat → Option Value) (index : Nat) : Bool :=
  plan.edges.any fun e =>
    e.toIndex = index && e.kind = .data && (outputs e.fromIndex).isNone &&
      plan.opAt e.fromIndex != some .input &&
      !(bodies.any fun b => e.fromIndex ∈ b.2) && !isBranchDead plan outputs e.fromIndex

/-- Every check `run_node` makes before it counts the node. -/
def ready (plan : CompiledPlan) (bodies : List (Nat × Finset Nat)) (s : ExecState)
    (nd : CompiledNode) : Bool :=
  nd.index ∉ s.loopSkipped && nd.index ∈ s.enabled &&
    !branchMismatch plan s.nodeOutputs nd.op nd.index && !controlPending plan s nd.index &&
    !dataPredMissing plan bodies s.nodeOutputs nd.index

/-! ### State updates -/

def note (e : Event) : M Unit := modify fun s => { s with log := s.log ++ [e] }

/-- `ctx.set` -/
def setVar (key : Text) (value : Value) : M Unit :=
  modify fun s => { s with ctx := s.ctx.set key value, log := s.log ++ [.write key value] }

def failIf (c : Prop) [Decidable c] (e : ExecutionError) : M Unit := if c then throw e else pure ()

theorem failIf_pos {c : Prop} [Decidable c] (h : c) (e : ExecutionError) :
    failIf c e = throw e := if_pos h

theorem failIf_neg {c : Prop} [Decidable c] (h : ¬ c) (e : ExecutionError) :
    failIf c e = pure () := if_neg h

def setVars : List (Text × Value) → M Unit
  | [] => pure ()
  | (k, v) :: es => do setVar k v; setVars es

def enable (i : Nat) : M Unit := modify fun s => { s with enabled := insert i s.enabled }

def insertOutput (i : Nat) (v : Value) : M Unit :=
  modify fun s => { s with nodeOutputs := Function.update s.nodeOutputs i (some v) }

def satisfyControl (i : Nat) : M Unit :=
  modify fun s =>
    { s with controlSatisfied := Function.update s.controlSatisfied i (s.controlSatisfied i + 1) }

def eval (text : Text) : M Value := do
  let s ← get
  match evalExpression s.ctx s.nodeOutputs text with
  | .ok v => pure v
  | .error e => throw (.evalError e)

def copyVar (fromKey toKey : Text) : M Unit := do
  let s ← get
  match s.ctx.get fromKey with
  | some v => setVar toKey v
  | none => pure ()

/-- Copy context variables along an edge's mapping. -/
def applyPairs : List (Text × Text) → M Unit
  | [] => pure ()
  | (fromKey, toKey) :: rest => do
    copyVar fromKey toKey
    applyPairs rest

def applyMapping (mapping : Option (List (Text × Text))) : M Unit := applyPairs (mapping.getD [])

/-- `*node_count += 1` and the budget check. -/
def countNode (plan : CompiledPlan) : M Unit := do
  modify fun s => { s with nodeCount := s.nodeCount + 1 }
  let s ← get
  failIf (plan.metadata.maxNodeExecutionCount < s.nodeCount)
    (.nodeBudgetExceeded s.nodeCount plan.metadata.maxNodeExecutionCount)

def checkMemory (plan : CompiledPlan) : M Unit := do
  let s ← get
  failIf (plan.metadata.maxContextMemoryBytes < s.ctx.estimatedBytes)
    (.memoryLimitExceeded plan.metadata.maxContextMemoryBytes s.ctx.estimatedBytes)

/-! ### Edge propagation -/

/-- Whether a data edge that leaves `nd` fires. A DECIDE's `true`/`false` edges follow
its decision; any other condition is evaluated. -/
def edgeFires (nd : CompiledNode) (plan : CompiledPlan) (e : CompiledEdge) : M Bool :=
  match e.condition with
  | none => pure true
  | some c => do
    let s ← get
    match plan.opAt nd.index, s.nodeOutputs nd.index with
    | some .decide, some (.bool b) =>
      if c = ("true" : Text) ∨ c = ("false" : Text) then pure (b == decide (c = ("true" : Text)))
      else return isTruthy (← eval c)
    | _, _ => return isTruthy (← eval c)

def followEdge (follow : Bool) (e : CompiledEdge) : M Unit :=
  if follow then do
    applyMapping e.mapping
    enable e.toIndex
  else pure ()

def propagateEdge (nd : CompiledNode) (plan : CompiledPlan) (e : CompiledEdge) : M Unit :=
  if e.kind = .control then do
    satisfyControl e.toIndex
    enable e.toIndex
  else do
    followEdge (← edgeFires nd plan e) e

def propagateEdges (plan : CompiledPlan) (nd : CompiledNode) : M Unit :=
  (plan.edgesFrom nd.index).forM (propagateEdge nd plan)

/-! ### Opcode arms of `run_node` -/

section Arms

variable (ex : Executor)

def armInput (nd : CompiledNode) : M Unit := do
  let name := ((nd.arg "name").map trimQuotes).getD nd.id
  let s ← get
  match s.ctx.get name, nd.arg "default" with
  | some v, _ => insertOutput nd.index v
  | none, some d => insertOutput nd.index (parseJsonValue d)
  | none, none => pure ()

/-- Evaluate, record the value, and write it to the context under the `output` name. -/
def armCalc (nd : CompiledNode) : M Unit := do
  let result ← eval ((nd.arg "expr").getD nd.id)
  insertOutput nd.index result
  match (nd.arg "output").map trimQuotes with
  | some (c :: name) => setVar (c :: name) result
  | _ => pure ()

/-- The arguments of a CALL that are not passed on, at top level and in a loop body. -/
def topReserved : List Text := ["target", "output", "on_error", "fallback_value"]

def bodyReserved : List Text := ["target", "output"]

/-- The keyword arguments of a call, resolved in the current state. -/
def callParams (nd : CompiledNode) (reserved : List Text) (ctx : Context)
    (outputs : Nat → Option Value) : Dict Text Value :=
  Dict.ofList ((nd.args.filter fun a => a.key ∉ reserved).map
    fun a => (a.key, resolveArgValue ctx outputs a.value))

def writeOutput (outputVar : Option Text) (v : Value) : M Unit :=
  match outputVar with
  | some name => setVar name v
  | none => pure ()

def setAll (ctx : Context) (params : Dict Text Value) : Context :=
  params.entries.foldl (fun c e => c.set e.1 e.2) ctx

/-- `subgraph:<name>`: run the child on the caller's context overlaid with the keyword
arguments, then copy the child's variables back. -/
def callSubgraph (nd : CompiledNode) (name : Text) (params : Dict Text Value)
    (outputVar : Option Text) : M Unit := do
  let s ← get
  let input := setAll s.ctx params
  failIf (ex.plan.metadata.maxRecursionDepth ≤ ex.recursionDepth) (.recursionLimitExceeded name)
  note (.dispatch (.subgraph name input))
  match ex.registry.executeSubgraph name input with
  | .error e => throw (.callFailed name e)
  | .ok (childCtx, childOutput) =>
    setVars childCtx.vars.entries
    writeOutput outputVar childOutput
    insertOutput nd.index childOutput

/-- The recorded schema hash of a tool against the registry's latest. -/
def schemaDrift (target : Text) : Option ExecutionError :=
  if Text.stripPrefix "rpc:" target = none then
    let tool := Text.trimStartMatches "tool:" target
    match ex.plan.metadata.toolDeps.find? (fun d => d.name = tool && !d.schemaHash.isEmpty) with
    | some dep =>
      let latest := (ex.registry.latestSchemaHash tool).toOption.getD []
      if latest ≠ [] ∧ dep.schemaHash ≠ latest then
        some (.schemaDriftDetected tool dep.schemaHash latest)
      else none
    | none => none
  else none

def checkSchemaDrift (target : Text) : M Unit :=
  match schemaDrift ex target with
  | some e => throw e
  | none => pure ()

def dispatchCall (call : CallTarget) : M (Except Text Value) := do
  let s ← get
  note (.dispatch (.tool call))
  pure (ex.registry.dispatch call s.ctx)

/-- The value a failed call stands for under its `on_error` policy, if it goes on. -/
def onErrorValue (nd : CompiledNode) : Option Value :=
  let onError := ((nd.arg "on_error").map trimQuotes).getD "abort"
  if onError = ("continue_with_null" : Text) then some .null
  else if onError = ("continue_with_fallback" : Text) then
    some (((nd.arg "fallback_value").map parseJsonValue).getD .null)
  else none

def callTargetOf (nd : CompiledNode) : Text := ((nd.arg "target").map trimQuotes).getD "unknown"

def armCall (nd : CompiledNode) : M Unit := do
  let target := callTargetOf nd
  let outputVar := (nd.arg "output").map trimQuotes
  let s ← get
  let params := callParams nd topReserved s.ctx s.nodeOutputs
  if Text.stripPrefix "subgraph:" target ≠ none then
    callSubgraph ex nd (Text.trimStartMatches "subgraph:" target) params outputVar
  else
    checkSchemaDrift ex target
    match ← dispatchCall ex ⟨target, [], params⟩ with
    | .ok v => writeOutput outputVar v; insertOutput nd.index v
    | .error e =>
      match onErrorValue nd with
      | some v => writeOutput outputVar v; insertOutput nd.index v
      | none => throw (.callFailed target e)

/-- An evaluation error counts as false. -/
def armDecide (visit : List Frame) (nd : CompiledNode) : M Unit := do
  let s ← get
  let decision := match (nd.arg "condition").map trimQuotes with
    | some c => match evalExpression s.ctx s.nodeOutputs c with
      | .ok v => isTruthy v
      | .error _ => false
    | none => false
  insertOutput nd.index (.bool decision)
  note (.decided visit nd.index decision)

def actionType (nd : CompiledNode) : Text :=
  ((nd.argEither "type" "action_type").map trimQuotes).getD []

def actText (action : Text) : Value := .string (("[ACT:" : Text) ++ action ++ [']'])

/-- The value of the last data predecessor that has one, unconditional edges first. -/
def predValue (plan : CompiledPlan) (outputs : Nat → Option Value) (index : Nat) : Option Value :=
  let values (uncond : Bool) :=
    (plan.edges.filter fun e =>
      e.toIndex = index && e.kind = .data && (!uncond || e.condition.isNone)).filterMap
      fun e => outputs e.fromIndex
  ((values true).getLast?).or (values false).getLast?

/-- What a `return` names or is fed, if anything. -/
def returnContent (plan : CompiledPlan) (nd : CompiledNode) (ctx : Context)
    (outputs : Nat → Option Value) : Option Value :=
  ((nd.argEither "content" "value").map (resolveArgValue ctx outputs)).or
    (predValue plan outputs nd.index)

def armAct (nd : CompiledNode) : M Unit := do
  let action := actionType nd
  insertOutput nd.index (actText action)
  if action = ("return" : Text) then
    let s ← get
    let v := (returnContent ex.plan nd s.ctx s.nodeOutputs).getD
      (.object s.ctx.allVariables.entries)
    modify fun s => { s with output := some v }
    insertOutput nd.index v

def isCase (source : Text) (e : CompiledEdge) : Bool := e.condition = some source

def isDefault (e : CompiledEdge) : Bool :=
  e.condition = some ("default" : Text) || e.condition.isNone

/-- The edges out of a SWITCH in order: a case that equals the source, or a default or
unconditional edge while no case has matched. -/
def switchEdges (source : Text) : Bool → List CompiledEdge → M Unit
  | _, [] => pure ()
  | matched, e :: es => do
    followEdge (isCase source e || (!matched && isDefault e)) e
    switchEdges source (matched || isCase source e) es

def armSwitch (nd : CompiledNode) : M Unit := do
  let s ← get
  let source := ((nd.arg "source").map (resolveArgValue s.ctx s.nodeOutputs)).getD .null
  switchEdges (formatValue source) false (ex.plan.edgesFrom nd.index)
  insertOutput nd.index (.string (formatValue source))

def armWait (nd : CompiledNode) : M Unit := do
  let secs : Int := (((nd.arg "duration_secs").bind Text.parseI64).map Int64.toInt).getD 0
  failIf (300 < secs) (.custom (("WAIT duration " : Text) ++ Text.ofInt secs ++
    ("s exceeds v1 maximum of 300s" : Text)))
  insertOutput nd.index .null

def armMerge (nd : CompiledNode) : M Unit := do
  modify fun s => { s with ctx := s.ctx.mergeBranches }
  let s ← get
  insertOutput nd.index (.object s.ctx.vars.entries)

def armError (nd : CompiledNode) : M Unit :=
  throw (.custom (((nd.arg "message").map trimQuotes).getD "execution error"))

/-! ### The loop -/

/-- How a pass over the body ended. -/
inductive BodyExit where
  | finished
  | broke
  | paused (position : Nat)

/-- What a body node does to the pass. -/
inductive BodyFlow where
  | next
  /-- a subgraph call: on to the next node without a pause check -/
  | nextUnpaused
  | breakLoop
  | skipRest

/-- The iteration count an edge into a LOOP carries: an integer from a data predecessor
that is no input, cut to 32 bits. -/
def edgeBound (plan : CompiledPlan) (outputs : Nat → Option Value) (nd : CompiledNode)
    (e : CompiledEdge) : Option Nat :=
  if e.toIndex = nd.index ∧ e.kind = .data ∧ plan.opAt e.fromIndex ≠ some .input then
    match outputs e.fromIndex with
    | some (.int b) => some ((max b.toInt 0).toNat % 2 ^ 32)
    | _ => none
  else none

/-- `max_iterations` -/
def staticBound (nd : CompiledNode) : Nat :=
  match nd.arg "max_iterations" with
  | some v => (Text.parseUnsigned 32 v).getD 100
  | none => 100

/-- The bound of a LOOP: from the first edge that carries one, else static. -/
def loopBound (plan : CompiledPlan) (outputs : Nat → Option Value) (nd : CompiledNode) : Nat :=
  (plan.edges.findSome? (edgeBound plan outputs nd)).getD (staticBound nd)

def bodyCalc (nd : CompiledNode) : M BodyFlow := do
  armCalc nd
  pure .next

def bodyCall (nd : CompiledNode) : M BodyFlow := do
  let target := callTargetOf nd
  let outputVar := (nd.arg "output").map trimQuotes
  let s ← get
  let params := callParams nd bodyReserved s.ctx s.nodeOutputs
  if Text.stripPrefix "subgraph:" target ≠ none then
    callSubgraph ex nd (Text.trimStartMatches "subgraph:" target) params outputVar
    pure .nextUnpaused
  else
    match ← dispatchCall ex ⟨target, [], params⟩ with
    | .ok v =>
      writeOutput outputVar v
      insertOutput nd.index v
      pure .next
    | .error e => throw (.callFailed target e)

/-- Here an evaluation error ends the run. -/
def evalCondition (nd : CompiledNode) : M Bool :=
  match (nd.arg "condition").map trimQuotes with
  | some c => isTruthy <$> eval c
  | none => pure false

def bodyDecide (visit : List Frame) (nd : CompiledNode) : M BodyFlow := do
  let decision ← evalCondition nd
  insertOutput nd.index (.bool decision)
  note (.decided visit nd.index decision)
  pure .next

def readVar (index : Nat) (name : Text) : M Unit := do
  let s ← get
  match s.ctx.get name with
  | some v => insertOutput index v
  | none => pure ()

def bodyInput (nd : CompiledNode) : M BodyFlow := do
  readVar nd.index (((nd.arg "name").map trimQuotes).getD nd.id)
  pure .next

def bodyAct (nd : CompiledNode) : M BodyFlow := do
  let action := actionType nd
  if action = ("return" : Text) then
    let s ← get
    insertOutput nd.index ((returnContent ex.plan nd s.ctx s.nodeOutputs).getD .null)
    pure .breakLoop
  else if action = ("break" : Text) then pure .breakLoop
  else if action = ("continue" : Text) then pure .skipRest
  else
    insertOutput nd.index (actText action)
    pure .next

/-- The opcode arms of `run_loop`. -/
def bodyArm (visit : List Frame) (nd : CompiledNode) : M BodyFlow :=
  match nd.op with
  | .calc => bodyCalc nd
  | .call => bodyCall ex nd
  | .decide => bodyDecide visit nd
  | .input => bodyInput nd
  | .act => bodyAct ex nd
  | .switch | .parallel | .loop | .wait | .merge | .error => do
    insertOutput nd.index .null
    pure .next

/-- `policy.should_pause`, when there is a policy. -/
def pauses (pause : Option PausePolicy) (nodeCount : Nat) (nodeId : Text) : Bool :=
  match pause with
  | some p => p.shouldPause nodeCount nodeId
  | none => false

def noteNode (visit : List Frame) (nd : CompiledNode) : M Unit :=
  modify fun s => { s with log := s.log ++ [.node visit nd.index s.ctx s.nodeOutputs] }

/-- One body node: gating, count, arm. `none` when the gate holds it back. -/
def bodyNode (visit : List Frame) (idx : Nat) : M (Option (CompiledNode × BodyFlow)) :=
  match ex.plan.getNode idx with
  | none => throw (.nodeNotFound (("body index " : Text) ++ Text.ofNat idx))
  | some nd => do
    let s ← get
    if branchMismatch ex.plan s.nodeOutputs nd.op idx then pure none
    else
      countNode ex.plan
      noteNode visit nd
      let flow ← bodyArm ex visit nd
      pure (some (nd, flow))

/-- The body nodes from a position on. -/
def runBody (visit : List Frame) (pause : Option PausePolicy) : Nat → List Nat → M BodyExit
  | _, [] => pure .finished
  | position, idx :: rest => do
    match ← bodyNode ex visit idx with
    | none | some (_, .nextUnpaused) => runBody visit pause (position + 1) rest
    | some (_, .breakLoop) => pure .broke
    | some (_, .skipRest) => pure .finished
    | some (nd, .next) =>
      let s ← get
      if pauses pause s.nodeCount nd.id then pure (.paused (position + 1))
      else runBody visit pause (position + 1) rest

/-- An iteration that is not the rest of a paused one. -/
def noteIteration (visit : List Frame) (loop i startPosition : Nat) : M Unit :=
  modify fun s => if startPosition = 0 then
    { s with log := s.log ++ [.iteration visit loop i s.ctx s.nodeOutputs] } else s

/-- The iterations from one on; `startPosition` applies to the first of them only. -/
def runIterations (visit : List Frame) (pause : Option PausePolicy) (loop : Nat)
    (target : Option Text) (body : List Nat) : (remaining iteration startPosition : Nat) →
    M NodeOutcome
  | 0, _, _ => pure .ok
  | remaining + 1, iteration, startPosition => do
    writeOutput target (.int (Int64.ofNat iteration))
    noteIteration visit loop iteration startPosition
    match ← runBody ex (visit ++ [.iteration loop iteration]) pause startPosition
        (body.drop startPosition) with
    | .finished => runIterations visit pause loop target body remaining (iteration + 1) 0
    | .broke => pure .ok
    | .paused position => pure (.paused ⟨loop, iteration, position⟩)

/-- After the loop: body calcs that only read and have no value yet are evaluated. -/
def readBodyCalc (body : Finset Nat) (nd : CompiledNode) : M Unit := do
  let s ← get
  if nd.index ∈ body ∧ nd.op = .calc ∧ nd.arg "output" = none ∧ s.nodeOutputs nd.index = none then
    match nd.arg "expr" with
    | some expr => match evalExpression s.ctx s.nodeOutputs expr with
      | .ok v => insertOutput nd.index v
      | .error _ => pure ()
    | none => pure ()

/-- A node outside the loop all of whose data predecessors are body nodes is enabled. -/
def enableAfterBody (plan : CompiledPlan) (body : Finset Nat) (nd : CompiledNode) : M Unit := do
  let s ← get
  if nd.index ∉ s.enabled ∧ nd.index ∉ s.loopSkipped then
    let preds := (plan.edges.filter fun e => e.toIndex = nd.index && e.kind = .data).map
      CompiledEdge.fromIndex
    if preds ≠ [] ∧ preds.all (· ∈ body) then enable nd.index

/-- What an edge carries out of a loop, whatever its condition. -/
def carryEdge (e : CompiledEdge) : M Unit :=
  if e.kind = .control then satisfyControl e.toIndex else applyMapping e.mapping

def leaveLoopEdge (body : Finset Nat) (e : CompiledEdge) : M Unit :=
  if e.toIndex ∈ body then pure ()
  else do
    carryEdge e
    enable e.toIndex

def bodyOf (bodies : List (Nat × Finset Nat)) (loop : Nat) : Finset Nat :=
  (bodies.lookup loop).getD ∅

/-- Unless the LOOP is itself in a body. -/
def settleBody (body : Finset Nat) (nd : CompiledNode) : M Unit := do
  let s ← get
  if nd.index ∉ s.loopSkipped then do
    ex.plan.nodes.forM (readBodyCalc body)
    ex.plan.nodes.forM (enableAfterBody ex.plan body)
  else pure ()

/-- What follows the iterations. -/
def finishLoop (bodies : List (Nat × Finset Nat)) (nd : CompiledNode) : M NodeOutcome := do
  let body := bodyOf bodies nd.index
  settleBody ex body nd
  (ex.plan.edgesFrom nd.index).forM (leaveLoopEdge body)
  insertOutput nd.index .null
  pure .ok

def runLoop (order : List Nat) (bodies : List (Nat × Finset Nat)) (visit : List Frame)
    (pause : Option PausePolicy) (cursor : Nat × Nat) (nd : CompiledNode) : M NodeOutcome := do
  let s ← get
  let maxIter := loopBound ex.plan s.nodeOutputs nd
  let target := (nd.arg "target").map trimQuotes
  if ex.plan.anchors nd.index false = [] then finishLoop ex bodies nd
  else
    let bodySet := ex.plan.loopBody nd.index
    let bodyVec := order.filter (· ∈ bodySet)
    modify fun s => { s with loopSkipped := s.loopSkipped ∪ bodySet }
    match ← runIterations ex visit pause nd.index target bodyVec (maxIter - cursor.1) cursor.1
        cursor.2 with
    | .paused ls => pure (.paused ls)
    | .ok => finishLoop ex bodies nd

/-! ### PARALLEL -/

/-- The branch nodes of a region, in execution order. -/
def branchGroup (plan : CompiledPlan) (order : List Nat) (region : Finset Nat) (bid : Nat) :
    List Nat :=
  order.filter fun i => i ∈ region && (plan.getNode i).bind CompiledNode.branchId = some bid

def branchIds (plan : CompiledPlan) (order : List Nat) (region : Finset Nat) : List Nat :=
  (((order.filter (· ∈ region)).filterMap fun i =>
    (plan.getNode i).bind CompiledNode.branchId).dedup).insertionSort (· ≤ ·)

/-- The state a branch thread starts from. -/
def threadState (s : ExecState) (children group : List Nat) : ExecState :=
  { s with
    executionOrder := []
    enabled := (children.filter (· ∈ group)).toFinset
    loopSkipped := s.loopSkipped.filter (· ∉ group)
    nodeCount := 0
    output := none
    log := [] }

def runGroup (runNode : CompiledNode → M NodeOutcome) (plan : CompiledPlan) : List Nat → M Unit
  | [] => pure ()
  | idx :: rest => match plan.getNode idx with
    | none => throw (.nodeNotFound (("region index " : Text) ++ Text.ofNat idx))
    | some nd => do
      let _ ← runNode nd
      runGroup runNode plan rest

/-- Fold a finished thread into the main state. `before` holds the control counters the
threads started from. -/
def mergeThread (before : Nat → Nat) (bid : Nat) (t s : ExecState) : ExecState :=
  { ctx := match t.ctx.branchScopes.get bid with
      | some scope => s.ctx.insertBranchScope bid scope
      | none => s.ctx
    nodeOutputs := fun i => (s.nodeOutputs i).or (t.nodeOutputs i)
    executionOrder := s.executionOrder ++ t.executionOrder
    enabled := s.enabled ∪ t.enabled
    controlSatisfied := fun i =>
      if before i < t.controlSatisfied i then t.controlSatisfied i else s.controlSatisfied i
    loopSkipped := s.loopSkipped
    nodeCount := s.nodeCount + t.nodeCount
    output := s.output.or t.output
    log := s.log }

def threadLog : EStateM.Result ExecutionError ExecState Unit → List Event
  | .ok _ t => t.log
  | .error _ t => t.log

/-- The threads' states in branch order, or the first error in that order. Nothing is
merged when there is one. -/
def collectThreads : List (Nat × EStateM.Result ExecutionError ExecState Unit) →
    Except ExecutionError (List (Nat × ExecState))
  | [] => .ok []
  | (_, .error e _) :: _ => .error e
  | (bid, .ok _ t) :: rest => (collectThreads rest).map ((bid, t) :: ·)

def joinThreads (before : Nat → Nat) (threads : List (Nat × ExecState)) (s : ExecState) :
    ExecState :=
  threads.foldl (fun s t => mergeThread before t.1 t.2 s) s

def armParallel (order : List Nat) (runNode : List Frame → CompiledNode → M NodeOutcome)
    (visit : List Frame) (nd : CompiledNode) : M Unit := do
  modify fun s => { s with ctx := s.ctx.enterParallel }
  let out := ex.plan.edgesFrom nd.index
  let children := out.map CompiledEdge.toIndex
  out.forM fun e => do
    applyMapping e.mapping
    enable e.toIndex
  insertOutput nd.index .null
  let region := ex.plan.collectReachableIndices children
  let bids := branchIds ex.plan order region
  if bids = [] then pure ()
  else
    modify fun s => { s with loopSkipped := s.loopSkipped ∪
      (bids.flatMap (branchGroup ex.plan order region)).toFinset }
    let s ← get
    let results := bids.map fun bid =>
      let group := branchGroup ex.plan order region bid
      (bid, runGroup (runNode (visit ++ [.branch nd.index bid])) ex.plan group
        (threadState s children group))
    modify fun s => { s with log := s.log ++ results.flatMap fun r => threadLog r.2 }
    match collectThreads results with
    | .error e => throw e
    | .ok threads => modify (joinThreads s.controlSatisfied threads)

/-! ### One node -/

/-- The opcode arms of `run_node` that always run to their end, without propagation. -/
def nodeArm (visit : List Frame) (nd : CompiledNode) : M Unit :=
  match nd.op with
  | .input => armInput nd
  | .calc => armCalc nd
  | .call => armCall ex nd
  | .decide => armDecide visit nd
  | .act => armAct ex nd
  | .switch => armSwitch ex nd
  | .wait => armWait nd
  | .merge => armMerge nd
  | .error => armError nd
  | .parallel | .loop => pure ()

/-- SWITCH, PARALLEL and LOOP enable their successors in their own arms. -/
def propagates (op : Opcode) : Bool :=
  match op with
  | .switch | .parallel | .loop => false
  | .input | .call | .calc | .decide | .act | .wait | .merge | .error => true

def propagate (plan : CompiledPlan) (nd : CompiledNode) : M Unit :=
  if propagates nd.op then propagateEdges plan nd else pure ()

/-- From the count to the active branch: what precedes the opcode arm. -/
def enterNode (visit : List Frame) (nd : CompiledNode) : M Unit := do
  countNode ex.plan
  checkMemory ex.plan
  modify fun s => { s with
    executionOrder := s.executionOrder ++ [nd.id]
    ctx := match nd.branchId with
      | some bid => s.ctx.setBranch bid
      | none => s.ctx.clearBranch }
  noteNode visit nd

/-- The opcode arm of a node and the propagation behind it, with `run_node` itself, which
branch threads call, as an argument. -/
def runArm (order : List Nat) (bodies : List (Nat × Finset Nat))
    (runNode : List Frame → CompiledNode → M NodeOutcome) (visit : List Frame)
    (pause : Option PausePolicy) (nd : CompiledNode) : M NodeOutcome :=
  match nd.op with
  | .loop => runLoop ex order bodies visit pause (0, 0) nd
  | .parallel => do
    armParallel ex order runNode visit nd
    pure .ok
  | _ => do
    nodeArm ex visit nd
    propagate ex.plan nd
    pure .ok

/-- The body of `run_node`. -/
def runNodeWith (order : List Nat) (bodies : List (Nat × Finset Nat))
    (runNode : List Frame → CompiledNode → M NodeOutcome) (visit : List Frame)
    (pause : Option PausePolicy) (nd : CompiledNode) : M NodeOutcome := do
  let s ← get
  if ready ex.plan bodies s nd then
    enterNode ex visit nd
    runArm ex order bodies runNode visit pause nd
  else pure .ok

/-- A PARALLEL node runs its branches one PARALLEL deeper; the nesting is bounded by
the number of nodes. -/
def runNode (order : List Nat) (bodies : List (Nat × Finset Nat)) :
    Nat → List Frame → Option PausePolicy → CompiledNode → M NodeOutcome
  | 0, _, _, _ => throw (.custom "parallel nesting too deep")
  | fuel + 1, visit, pause, nd =>
    runNodeWith ex order bodies (fun v => runNode order bodies fuel v none) visit pause nd

end Arms

/-! ### Whole runs -/

structure ExecutionResult where
  context : Context
  executionOrder : List Text
  nodeCount : Nat
  output : Option Value

structure Checkpoint where
  nodeCount : Nat
  position : Nat
  loopState : Option LoopState
  context : Context
  nodeOutputs : Nat → Option Value
  enabled : Finset Nat
  controlSatisfied : Nat → Nat
  loopSkipped : Finset Nat
  executionOrder : List Text
  output : Option Value

inductive ExecutionOutcome where
  | completed (result : ExecutionResult)
  | paused (checkpoint : Checkpoint)

/-- Where the main pass stopped. -/
inductive PassOutcome where
  | completed
  | paused (position : Nat) (ls : Option LoopState)

section Runs

variable (ex : Executor)

def minSupportedVersion : Nat := 2

def maxSupportedVersion : Nat := 4

def checkVersionCompatibility (v : Nat) : Except ExecutionError Unit :=
  if v < minSupportedVersion then
    .error (.versionMismatch (("IR version " : Text) ++ Text.ofNat v ++
      (" is too old. Minimum supported: 2. Recompile the plan." : Text)))
  else if maxSupportedVersion < v then
    .error (.versionMismatch (("IR version " : Text) ++ Text.ofNat v ++
      (" is too new. Maximum supported: 4. Upgrade the VM." : Text)))
  else .ok ()

def initialState (inputs : Context) : ExecState where
  ctx := inputs
  nodeOutputs := fun _ => none
  executionOrder := []
  enabled := ((ex.plan.nodes.filter fun nd =>
    !ex.plan.edges.any fun e => e.toIndex = nd.index).map CompiledNode.index).toFinset
  controlSatisfied := fun _ => 0
  loopSkipped := ∅
  nodeCount := 0
  output := none
  log := []

/-- The main pass from a position on. After the last node there is nothing to pause for. -/
def mainPass (order : List Nat) (policy : PausePolicy) : List Nat → Nat → M PassOutcome
  | [], _ => pure .completed
  | idx :: rest, position =>
    match ex.plan.getNode idx with
    | none => throw (.nodeNotFound (("index " : Text) ++ Text.ofNat idx))
    | some nd => do
      match ← runNode ex order ex.plan.identifyLoopBodies (ex.plan.nodes.length + 1) []
          (some policy) nd with
      | .paused ls => pure (.paused position (some ls))
      | .ok =>
        let s ← get
        if rest ≠ [] ∧ policy.shouldPause s.nodeCount nd.id then pure (.paused (position + 1) none)
        else mainPass order policy rest (position + 1)

def buildCheckpoint (s : ExecState) (position : Nat) (ls : Option LoopState) : Checkpoint where
  nodeCount := s.nodeCount
  position := position
  loopState := ls
  context := s.ctx
  nodeOutputs := s.nodeOutputs
  enabled := s.enabled
  controlSatisfied := s.controlSatisfied
  loopSkipped := s.loopSkipped
  executionOrder := s.executionOrder
  output := s.output

/-- The result of a segment, and the log of what it did. -/
structure Segment where
  result : Except ExecutionError ExecutionOutcome
  log : List Event

def finishPass : EStateM.Result ExecutionError ExecState PassOutcome → Segment
  | .ok .completed s => ⟨.ok (.completed ⟨s.ctx, s.executionOrder, s.nodeCount, s.output⟩), s.log⟩
  | .ok (.paused position ls) s => ⟨.ok (.paused (buildCheckpoint s position ls)), s.log⟩
  | .error e s => ⟨.error e, s.log⟩

def executeWith (inputs : Context) (policy : PausePolicy) : Segment :=
  match checkVersionCompatibility ex.plan.version with
  | .error e => ⟨.error e, []⟩
  | .ok () => match ex.plan.topologicalOrder with
    | .error e => ⟨.error e, []⟩
    | .ok order => finishPass (mainPass ex order policy order 0 (initialState ex inputs))

def execute (inputs : Context) : Segment := executeWith ex inputs PausePolicy.default

def resumeState (cp : Checkpoint) : ExecState where
  ctx := cp.context
  nodeOutputs := cp.nodeOutputs
  executionOrder := cp.executionOrder
  enabled := cp.enabled
  controlSatisfied := cp.controlSatisfied
  loopSkipped := cp.loopSkipped
  nodeCount := cp.nodeCount
  output := cp.output
  log := []

/-- Finish the loop the checkpoint was taken in, then go on behind it. -/
def resumePass (order : List Nat) (policy : PausePolicy) (cp : Checkpoint) : M PassOutcome :=
  match cp.loopState with
  | none => mainPass ex order policy (order.drop cp.position) cp.position
  | some ls =>
    match ex.plan.getNode ls.loopIndex with
    | none => throw (.nodeNotFound (("loop " : Text) ++ Text.ofNat ls.loopIndex))
    | some nd => do
      match ← runLoop ex order ex.plan.identifyLoopBodies [] (some policy)
          (ls.iteration, ls.bodyPosition) nd with
      | .paused ls' => pure (.paused cp.position (some ls'))
      | .ok => mainPass ex order policy (order.drop (cp.position + 1)) (cp.position + 1)

def resume (cp : Checkpoint) (policy : PausePolicy) : Segment :=
  match checkVersionCompatibility ex.plan.version with
  | .error e => ⟨.error e, []⟩
  | .ok () => match ex.plan.topologicalOrder with
    | .error e => ⟨.error e, []⟩
    | .ok order => finishPass (resumePass ex order policy cp (resumeState cp))

end Runs

end Tinypipe
