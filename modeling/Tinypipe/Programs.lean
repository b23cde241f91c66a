import Tinypipe.Compiler.Codegen
import Tinypipe.Vm.Executor

/-! Shorthand for writing programs and for running them against a small registry. -/

namespace Tinypipe

open Lib Ast

namespace Build

def name (x : Text) : Expr := .name x

def int (i : Int) : Expr := .constant (.int i)

def str (s : Text) : Expr := .constant (.str s)

def call (tool : Text) (params : List (Text × Expr)) : Expr :=
  .call (.name "call") [str tool] (params.map fun p => .mk (some p.1) p.2)

def range (args : List Expr) : Expr := .call (.name "range") args []

def compare (op : CmpOp) (a b : Expr) : Expr := .compare a [op] [b]

def add (a b : Expr) : Expr := .binOp a .add b

def assign (x : Text) (e : Expr) : Stmt := .assign [.name x] e

def forIn (x : Text) (iter : Expr) (body : List Stmt) : Stmt := .for (.name x) iter body []

def ret (e : Expr) : Stmt := .return (some e)

def group (title : Text) (body : List Stmt) : Stmt :=
  .with [⟨.call (.name "GROUP") [str title] [], none⟩] body

def parallel (branches : List Stmt) : Stmt := .with [⟨.call (.name "PARALLEL") [] [], none⟩] branches

/-- `def graph(params): body` -/
def graph (params : List Text) (body : List Stmt) : Module :=
  ⟨[.functionDef "graph" (.mk [] (params.map fun p => .mk p none none) [] none none) body [] none []]⟩

end Build

/-- Every tool answers with its own name; there are no subgraphs and no schemas. -/
def echo : Registry where
  dispatch := fun call _ => .ok (.string call.name)
  executeSubgraph := fun _ _ => .error "no such subgraph"
  latestSchemaHash := fun _ => .ok []

def Executor.of (plan : CompiledPlan) : Executor := ⟨plan, echo, 0⟩

def inputsOf (vars : List (Text × Value)) : Context := ⟨Dict.ofList vars, Dict.empty, none, none⟩

/-- Compile a program and run it. -/
def runProgram (m : Module) (inputs : Context) : Option Segment :=
  match compile 0 m with
  | .ok o => some (execute (Executor.of o.compiled) inputs)
  | .error _ => none

/-- Lower a program without optimizing it, and run it. -/
def runLowered (m : Module) (inputs : Context) : Option (Executor × Segment) :=
  match transform m with
  | .ok p =>
    let ex := Executor.of (CompiledPlan.fromExecutionPlan p [])
    some (ex, execute ex inputs)
  | .error _ => none

namespace Segment

/-- The nodes that were run, in order. -/
def visited (s : Segment) : List Nat := s.log.filterMap fun
  | .node _ i _ _ => some i
  | _ => none

/-- The tools that were dispatched, in order. -/
def dispatched (s : Segment) : List Text := s.log.filterMap fun
  | .dispatch (.tool call) => some call.name
  | _ => none

/-- The context writes, in order. -/
def writes (s : Segment) : List (Text × Value) := s.log.filterMap fun
  | .write key value => some (key, value)
  | _ => none

def output (s : Segment) : Option Value :=
  match s.result with
  | .ok (.completed r) => r.output
  | _ => none

def failed (s : Segment) : Bool :=
  match s.result with
  | .ok _ => false
  | .error _ => true

end Segment

end Tinypipe
