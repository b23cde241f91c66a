import Tinypipe.Compiler.Transform
import Tinypipe.Lib.Reach

/-! The static validation of a plan (`tinypipe-compiler/src/validator.rs`). -/

namespace Tinypipe

open Lib

structure ValidationError where
  nodeId : Text
  message : Text
deriving DecidableEq

namespace ExecutionPlan

variable (p : ExecutionPlan)

def outEdges (id : Text) : List Edge := p.edges.filter (fun e => e.fromId = id)

/-- Ids that repeat an earlier one. -/
def duplicateIds : List Text → List Text → List Text
  | _, [] => []
  | seen, id :: ids => if id ∈ seen then id :: duplicateIds seen ids else duplicateIds (id :: seen) ids

def duplicateErrors : List ValidationError :=
  (duplicateIds [] p.ids).map fun id => ⟨id, "duplicate node id"⟩

def danglingErrors : List ValidationError :=
  p.edges.flatMap fun e =>
    (if e.fromId ∈ p.ids then [] else
      [⟨e.fromId, ("edge references unknown source node `" : Text) ++ e.fromId ++ ['`']⟩]) ++
    (if e.toId ∈ p.ids then [] else
      [⟨e.toId, ("edge references unknown target node `" : Text) ++ e.toId ++ ['`']⟩])

def idsOf (op : Opcode) : List Text := (p.nodes.filter fun nd => nd.op = op).map Node.id

/-- Edges into a LOOP do not count as part of a cycle. -/
def cycleErrors : List ValidationError :=
  match p.orderOver (p.edges.filter fun e => e.toId ∉ p.idsOf .loop) with
  | .ok _ => []
  | .error msg => [⟨"<plan>", ("cycle detected: " : Text) ++ msg⟩]

def allArcs : List (Text × Text) := p.edges.map fun e => (e.fromId, e.toId)

def dataArcs : List (Text × Text) :=
  (p.edges.filter fun e => e.kind = .data).map fun e => (e.fromId, e.toId)

def roots : List Text := p.ids.filter fun id => !p.edges.any fun e => e.toId = id

def reachabilityErrors : List ValidationError :=
  let reachable := Reach.reachable p.allArcs p.roots
  (p.ids.filter (· ∉ reachable)).map fun id => ⟨id, "node is not reachable from any INPUT node"⟩

def isTerminalOpcode (op : Opcode) : Bool := op = .act || op = .error

def terminalIds : List Text := (p.nodes.filter fun nd => isTerminalOpcode nd.op).map Node.id

/-- What the unconditional data edges out of the LOOPs lead to, over data edges. -/
def loopBodyIds : Finset Text :=
  Reach.reachable p.dataArcs ((p.edges.filter fun e =>
    e.fromId ∈ p.idsOf .loop && e.condition.isNone && decide (e.kind = .data)).map Edge.toId)

def canReachAny (start : Text) (targets : Finset Text) : Bool :=
  decide (Reach.reachable p.allArcs [start] ∩ targets ≠ ∅)

def terminalErrors : List ValidationError :=
  let terminals := p.terminalIds
  let bodies := p.loopBodyIds
  let extended := (terminals ++ p.idsOf .loop).toFinset ∪ bodies
  (if terminals = [] then [⟨"<plan>", "plan has no terminal nodes (ACT or ERROR)"⟩] else []) ++
  (p.nodes.filter fun nd =>
    nd.id ∉ terminals && nd.id ∉ bodies && !(p.outEdges nd.id).isEmpty &&
      !p.canReachAny nd.id extended).map
    fun nd => ⟨nd.id, "node cannot reach any terminal node (ACT or ERROR)"⟩

end ExecutionPlan

def Opcode.debugName : Opcode → Text
  | .input => "Input"
  | .call => "Call"
  | .calc => "Calc"
  | .decide => "Decide"
  | .switch => "Switch"
  | .act => "Act"
  | .parallel => "Parallel"
  | .loop => "Loop"
  | .wait => "Wait"
  | .merge => "Merge"
  | .error => "Error"

def requiredArgs : Opcode → List Text
  | .input => ["name"]
  | .call => ["type", "target"]
  | .decide | .switch => ["condition"]
  | .act => ["type"]
  | .loop => ["max_iterations"]
  | .error => ["message"]
  | .calc | .parallel | .wait | .merge => []

def Node.hasArg (nd : Node) (key : Text) : Bool := nd.args.any fun a => a.key = key

def validateNodeArgs (nd : Node) : List ValidationError :=
  ((requiredArgs nd.op).filter fun key => !nd.hasArg key).map fun key =>
    ⟨nd.id, nd.op.debugName ++ (" node missing required argument `" : Text) ++ key ++ ['`']⟩

/-- The conditions on the edges out of a node, by its opcode. -/
def edgeErrors (out : List Edge) (nd : Node) : List ValidationError :=
  match nd.op with
  | .decide | .switch =>
    (if out.length < 2 then
      [⟨nd.id, ("branch node must have exactly 2 outgoing edges, got " : Text) ++
        Text.ofNat out.length⟩] else []) ++
    (if out.any (fun e => e.condition = some ("true" : Text)) then [] else
      [⟨nd.id, "branch node missing `true` condition edge"⟩]) ++
    (if out.any (fun e => e.condition = some ("false" : Text)) then [] else
      [⟨nd.id, "branch node missing `false` condition edge"⟩]) ++
    (out.filter fun e => e.condition.isNone).map fun e =>
      ⟨nd.id, ("branch edge to `" : Text) ++ e.toId ++ ("` missing condition" : Text)⟩
  | .loop =>
    if out.isEmpty then [⟨nd.id, "LOOP node must have at least one outgoing edge"⟩] else []
  | .parallel =>
    (if out.isEmpty then [⟨nd.id, "PARALLEL node must have at least one outgoing edge"⟩] else []) ++
    (out.filter fun e => e.condition.isSome).map fun e =>
      ⟨nd.id, ("PARALLEL edge to `" : Text) ++ e.toId ++ ("` should not have a condition" : Text)⟩
  | .input | .call | .calc | .act | .wait | .merge | .error =>
    ((out.filter fun e => e.kind = .data && e.condition.isSome).map fun e =>
      ⟨nd.id, ("non-branch data edge to `" : Text) ++ e.toId ++
        ("` should not have a condition" : Text)⟩) ++
    (out.filter fun e => e.kind = .control && e.condition.isSome).map fun e =>
      ⟨nd.id, ("non-branch control edge to `" : Text) ++ e.toId ++
        ("` should not have a condition" : Text)⟩

def inputErrors (nd : Node) : List ValidationError :=
  if nd.op = .input ∧ nd.hasArg "name" = false then
    [⟨nd.id, "INPUT node missing required `name` argument"⟩] else []

/-- The text of the `target` argument of a CALL. -/
def callTarget (nd : Node) : Option Text :=
  if nd.op = .call then
    match nd.args.find? fun a => a.key = ("target" : Text) with
    | some ⟨_, .string s⟩ => some s
    | _ => none
  else none

def subgraphTarget (nd : Node) : Option Text :=
  (callTarget nd).filter fun s => (Text.stripPrefix "subgraph:" s).isSome

def selfCycleErrors (deps : List Text) (nd : Node) : List ValidationError :=
  match subgraphTarget nd with
  | none => []
  | some target =>
    let name := Text.trimStartMatches "subgraph:" target
    if deps.any (Text.contains name) then
      [⟨nd.id, ("subgraph '" : Text) ++ name ++
        ("' may contain a self-cycle (found in subgraph_dependencies)" : Text)⟩]
    else []

def nestingErrors (p : ExecutionPlan) : List ValidationError :=
  let n := (p.nodes.filterMap subgraphTarget).length
  if p.metadata.maxRecursionDepth < n then
    [⟨"<plan>", ("subgraph nesting depth (" : Text) ++ Text.ofNat n ++
      (") exceeds max_recursion_depth (" : Text) ++ Text.ofNat p.metadata.maxRecursionDepth ++
      [')']⟩]
  else []

/-- The structural errors end the validation early: the other checks need valid ids. -/
def validate (p : ExecutionPlan) : Except (List ValidationError) Unit :=
  let structural := p.duplicateErrors ++ p.danglingErrors
  if structural ≠ [] then .error structural
  else
    let errors :=
      (if p.nodes = [] then [⟨"<plan>", "execution plan has zero nodes"⟩] else []) ++
      p.cycleErrors ++ p.reachabilityErrors ++ p.terminalErrors ++
      p.nodes.flatMap validateNodeArgs ++
      p.nodes.flatMap (fun nd => edgeErrors (p.outEdges nd.id) nd) ++
      p.nodes.flatMap inputErrors ++
      p.nodes.flatMap (selfCycleErrors p.metadata.subgraphDependencies) ++ nestingErrors p
    if errors = [] then .ok () else .error errors

end Tinypipe
