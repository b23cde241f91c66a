import Tinypipe.Compiler.Optimize
import Tinypipe.Compiler.Sanitizer
import Tinypipe.Ir.Compiled

/-! Code generation and the whole pipeline (`tinypipe-compiler/src/backend/codegen.rs`,
`lib.rs`). The time of the compilation is an argument. -/

namespace Tinypipe

open Lib

/-- The plan of a program: sanitize, then transform. -/
def transform (m : Ast.Module) : Except (List Text) ExecutionPlan := do
  sanitize m
  let e ← runTransform m
  pure e.build

structure CodegenOutput where
  compiled : CompiledPlan
  executionOrder : List Text
  optimizations : List Text

/-- The name and the version of a tool target. -/
def toolNameVersion (target : Text) : Text × Text :=
  let name := Text.trimStartMatches "tool:" target
  (Text.splitOnce ['@'] name).getD (name, "^0.0.0")

def toolDep (schemaHashes : Dict Text Text) (nd : Node) : Option ToolDep :=
  (callTarget nd).bind fun s =>
    if (Text.stripPrefix "subgraph:" s).isSome then none
    else
      let (name, version) := toolNameVersion s
      some ⟨name, version, nd.op.isPure, (schemaHashes.get name).getD []⟩

def codegenWithSchemaHashes (now : Nat) (p : ExecutionPlan) (schemaHashes : Dict Text Text) :
    Except Text CodegenOutput :=
  let (p, optimizations) := Optimize.optimizeAll p
  match p.topologicalOrder with
  | .error e => .error (("topological order failed: " : Text) ++ e)
  | .ok order =>
    let p := { p with metadata := { p.metadata with
      compiledAt := Text.ofNat now
      nodeCount := p.nodes.length
      edgeCount := p.edges.length
      optimizations := optimizations
      subgraphDependencies := p.nodes.filterMap subgraphTarget
      toolDeps := p.nodes.filterMap (toolDep schemaHashes) } }
    .ok ⟨CompiledPlan.fromExecutionPlan p optimizations, order, optimizations⟩

def codegen (now : Nat) (p : ExecutionPlan) : Except Text CodegenOutput :=
  codegenWithSchemaHashes now p Dict.empty

inductive CompileError where
  | transform (errors : List Text)
  | validation (errors : List ValidationError)
  | codegen (message : Text)

def compile (now : Nat) (m : Ast.Module) : Except CompileError CodegenOutput :=
  match transform m with
  | .error errors => .error (.transform errors)
  | .ok p => match validate p with
    | .error errors => .error (.validation errors)
    | .ok () => (codegen now p).mapError .codegen

end Tinypipe
