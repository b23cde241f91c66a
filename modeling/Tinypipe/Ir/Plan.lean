import Tinypipe.Api.Json
import Tinypipe.Lib.Kahn

/-! The execution plan (`tinypipe-ir/src/plan.rs`): nodes and edges by string id. -/

namespace Tinypipe

open Lib

inductive IrType where
  | string | int | float | bool | null | any
deriving DecidableEq

inductive ArgValue where
  | string (s : Text)
  | int (i : Int64)
  | float (f : F64)
  | bool (b : Bool)
  | null
  | array (items : List ArgValue)
  | object (m : List (Text × ArgValue))

structure Arg where
  key : Text
  value : ArgValue

inductive Opcode where
  | input | call | calc | decide | switch | act | parallel | loop | wait | merge | error
deriving DecidableEq

def Opcode.isPure : Opcode → Bool
  | .input | .calc | .decide | .switch | .wait | .merge => true
  | .call | .act | .parallel | .loop | .error => false

structure ToolDep where
  name : Text
  version : Text
  pure : Bool
  schemaHash : Text
deriving DecidableEq

structure Node where
  id : Text
  op : Opcode
  args : List Arg
  inferredType : Option IrType
  /-- the PARALLEL branch the node belongs to -/
  branchId : Option Nat
  /-- the title of the GROUP block the node was made in, for display only -/
  group : Option Text

inductive EdgeKind where
  | data | control
deriving DecidableEq

structure Edge where
  fromId : Text
  toId : Text
  condition : Option Text
  mapping : Option (List (Text × Text))
  priority : Option Int
  label : Option Text
  kind : EdgeKind

namespace Edge

def new (fromId toId : Text) : Edge := ⟨fromId, toId, none, none, none, none, .data⟩

def control (fromId toId : Text) : Edge := ⟨fromId, toId, none, none, none, none, .control⟩

def withCondition (fromId toId condition : Text) : Edge :=
  ⟨fromId, toId, some condition, none, none, none, .data⟩

end Edge

structure Metadata where
  compilerVersion : Text
  compiledAt : Text
  nodeCount : Nat
  edgeCount : Nat
  maxNodeExecutionCount : Nat
  maxContextMemoryBytes : Nat
  maxRecursionDepth : Nat
  maxExecutionTimeMs : Nat
  optimizations : List Text
  toolDeps : List ToolDep
  subgraphDependencies : List Text
  metaJson : Text

def Metadata.default : Metadata where
  compilerVersion := "0.1.0"
  compiledAt := ""
  nodeCount := 0
  edgeCount := 0
  maxNodeExecutionCount := 10000
  maxContextMemoryBytes := 10 * 1024 * 1024
  maxRecursionDepth := 5
  maxExecutionTimeMs := 30000
  optimizations := []
  toolDeps := []
  subgraphDependencies := []
  metaJson := ""

structure ExecutionPlan where
  version : Nat
  nodes : List Node
  edges : List Edge
  metadata : Metadata

namespace ExecutionPlan

def new (nodes : List Node) (edges : List Edge) : ExecutionPlan where
  version := 3
  nodes := nodes
  edges := edges
  metadata := { Metadata.default with nodeCount := nodes.length, edgeCount := edges.length }

def ids (p : ExecutionPlan) : List Text := p.nodes.map Node.id

/-- The endpoints of the edges into known nodes. -/
def arcs (p : ExecutionPlan) (edges : List Edge) : List (Text × Text) :=
  (edges.filter (fun e => e.toId ∈ p.ids)).map fun e => (e.fromId, e.toId)

/-- Kahn's algorithm on the ids, over a chosen list of edges. -/
def orderOver (p : ExecutionPlan) (edges : List Edge) : Except Text (List Text) :=
  let result := Kahn.sort p.ids (p.arcs edges)
  if result.length ≠ p.nodes.length then .error "Graph contains a cycle" else .ok result

def topologicalOrder (p : ExecutionPlan) : Except Text (List Text) := p.orderOver p.edges

end ExecutionPlan

mutual

/-- `serde_json::to_string` of an argument. -/
def ArgValue.toJsonText : ArgValue → Text
  | .string s => Json.quote s
  | .int i => Text.ofInt i.toInt
  | .float f => f.toJson
  | .bool b => if b then "true" else "false"
  | .null => "null"
  | .array items => '[' :: (Text.intercalate [','] (argItemsJson items) ++ [']'])
  | .object m => '{' :: (Text.intercalate [','] (argEntriesJson m) ++ ['}'])

def argItemsJson : List ArgValue → List Text
  | [] => []
  | v :: vs => ArgValue.toJsonText v :: argItemsJson vs

def argEntriesJson : List (Text × ArgValue) → List Text
  | [] => []
  | (k, v) :: es => (Json.quote k ++ ':' :: ArgValue.toJsonText v) :: argEntriesJson es

end

end Tinypipe
