import Tinypipe.Ir.Plan

/-! The compiled plan (`tinypipe-ir/src/compiled.rs`): the same graph over node
indices, which is what the executor walks. -/

namespace Tinypipe

open Lib

structure CompiledArg where
  key : Text
  value : Text
deriving DecidableEq

structure CompiledNode where
  index : Nat
  id : Text
  op : Opcode
  args : List CompiledArg
  inferredType : Option IrType
  branchId : Option Nat
  groupId : Option Nat
deriving DecidableEq

namespace CompiledNode

/-- The value of the first argument with the key. -/
def arg (nd : CompiledNode) (key : Text) : Option Text :=
  (nd.args.find? (fun a => a.key == key)).map CompiledArg.value

/-- The value of the first argument with either key. -/
def argEither (nd : CompiledNode) (key key' : Text) : Option Text :=
  (nd.args.find? (fun a => a.key == key || a.key == key')).map CompiledArg.value

end CompiledNode

structure CompiledEdge where
  fromIndex : Nat
  toIndex : Nat
  condition : Option Text
  mapping : Option (List (Text × Text))
  priority : Option Int
  label : Option Text
  kind : EdgeKind
deriving DecidableEq

structure CompiledPlan where
  version : Nat
  nodes : List CompiledNode
  edges : List CompiledEdge
  metadata : Metadata
  idMap : Option (List (Text × Nat))
  groups : List Text

def u32Max : Nat := 2 ^ 32 - 1

namespace CompiledPlan

def compileArg (a : Arg) : CompiledArg where
  key := a.key
  -- strings come quoted from the transform already; the other kinds are encoded
  value := match a.value with
    | .string s => s
    | other => other.toJsonText

/-- The index of a group title, added at the end when it is new. -/
def groupIndex (groups : List Text) (g : Text) : Nat × List Text :=
  if g ∈ groups then (groups.idxOf g, groups) else (groups.length, groups ++ [g])

def compileNodes : Nat → List Text → List Node → List CompiledNode × List Text
  | _, groups, [] => ([], groups)
  | index, groups, nd :: rest =>
    let (groupId, groups) := match nd.group with
      | some g => let (i, gs) := groupIndex groups g; (some i, gs)
      | none => (none, groups)
    let (cs, groups) := compileNodes (index + 1) groups rest
    ({ index := index, id := nd.id, op := nd.op, args := nd.args.map compileArg,
       inferredType := nd.inferredType, branchId := nd.branchId, groupId := groupId } :: cs, groups)

/-- The last index an id was inserted with. -/
def idToIndex (ids : List Text) : Dict Text Nat := Dict.ofList ids.zipIdx

def compileEdge (ids : Dict Text Nat) (e : Edge) : CompiledEdge where
  fromIndex := (ids.get e.fromId).getD u32Max
  toIndex := (ids.get e.toId).getD u32Max
  condition := e.condition
  mapping := e.mapping
  priority := e.priority
  label := e.label
  kind := e.kind

def fromExecutionPlan (p : ExecutionPlan) (optimizations : List Text) : CompiledPlan :=
  let ids := idToIndex p.ids
  let (nodes, groups) := compileNodes 0 [] p.nodes
  { version := 4
    nodes := nodes
    edges := p.edges.map (compileEdge ids)
    metadata := { p.metadata with optimizations := optimizations }
    idMap := some ids.entries
    groups := groups }

def getNode (p : CompiledPlan) (index : Nat) : Option CompiledNode := p.nodes[index]?

end CompiledPlan

end Tinypipe
