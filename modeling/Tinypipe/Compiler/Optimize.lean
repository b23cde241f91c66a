import Tinypipe.Compiler.Validator
import Tinypipe.Api.Types

/-! The optimizer (`tinypipe-compiler/src/backend/optimize.rs`): constant folding, dead
node elimination, calc fusion and multi-branch fusion. -/

namespace Tinypipe

open Lib

namespace Optimize

/-! ### Constant folding -/

def isAsciiAlpha (c : Char) : Bool := ('a' ≤ c && c ≤ 'z') || ('A' ≤ c && c ≤ 'Z')

def isWordChar (c : Char) : Bool := isAsciiAlpha c || Text.isDigit c || c == '_'

def isConstantExpression (expr : Text) : Bool := !expr.any isAsciiAlpha

/-- Two integers joined by the first occurrence of `op`, at neither end of the text. -/
def splitOperator (op : Char) (expr : Text) : Option (Int64 × Int64) :=
  match Text.splitOnce [op] expr with
  | some (l@(_ :: _), r@(_ :: _)) =>
    match Text.parseI64 (Text.trim l), Text.parseI64 (Text.trim r) with
    | some a, some b => some (a, b)
    | _, _ => none
  | _ => none

def checkedOp (op : Char) (a b : Int64) : Option Int64 :=
  if op = '+' then Value.checkedI64 (a.toInt + b.toInt)
  else if op = '-' then Value.checkedI64 (a.toInt - b.toInt)
  else if op = '*' then Value.checkedI64 (a.toInt * b.toInt)
  else if b = 0 then none
  else Value.checkedI64 (a.toInt.tdiv b.toInt)

def evalSimpleIntExpr (expr : Text) : Option Int64 :=
  let expr := Text.trim expr
  match Text.parseI64 expr with
  | some n => some n
  | none => ['+', '-', '*', '/'].findSome? fun op =>
      (splitOperator op expr).bind fun ab => checkedOp op ab.1 ab.2

def exprOf (nd : Node) : Option Text :=
  match nd.args.find? fun a => a.key = ("expr" : Text) with
  | some ⟨_, .string s⟩ => some s
  | _ => none

/-- The folded value of a constant CALC. -/
def foldedValue (nd : Node) : Option Int64 :=
  if nd.op = .calc then
    (exprOf nd).bind fun s => if isConstantExpression s then evalSimpleIntExpr s else none
  else none

/-- The folded expression first, then every other argument: `output` in particular. -/
def foldedArgs (v : Int64) (args : List Arg) : List Arg :=
  ⟨"expr", .string (Text.ofInt v.toInt)⟩ :: args.filter fun a => a.key ≠ ("expr" : Text)

def foldNode (nd : Node) : Node :=
  match foldedValue nd with
  | some v => { nd with args := foldedArgs v nd.args }
  | none => nd

def constantFolding (p : ExecutionPlan) : ExecutionPlan × Nat :=
  ({ p with nodes := p.nodes.map foldNode }, p.nodes.countP fun nd => (foldedValue nd).isSome)

/-! ### Dead node elimination -/

/-- The edges between kept nodes. -/
def keptEdges (nodes : List Node) (edges : List Edge) : List Edge :=
  let ids := nodes.map Node.id
  edges.filter fun e => e.fromId ∈ ids && e.toId ∈ ids

def deadNodeElimination (p : ExecutionPlan) : ExecutionPlan × Nat :=
  let live (nd : Node) : Bool := nd.op = .input || !nd.op.isPure ||
    p.edges.any fun e => e.fromId = nd.id || e.toId = nd.id
  let kept := p.nodes.filter live
  let removed := p.nodes.countP fun nd => !live nd
  if removed = 0 then ({ p with nodes := kept }, 0)
  else ({ p with nodes := kept, edges := keptEdges kept p.edges }, removed)

/-! ### Calc fusion -/

/-- The words of an expression that are not numbers. -/
def extractVariables (expr : Text) : List Text :=
  go [] expr
where
  word (current : Text) : List Text :=
    if current ≠ [] ∧ ¬ current.all Text.isDigit then [current] else []
  go : Text → Text → List Text
    | current, [] => word current
    | current, c :: cs => if isWordChar c then go (current ++ [c]) cs else word current ++ go [] cs

/-- Replace whole-word occurrences. `prev` is the character before this one, unless the
search started here; `skip` counts down the rest of an occurrence. -/
def replaceWords (var replacement : Text) : (skip : Nat) → (prev : Option Char) → Text → Text
  | _, _, [] => []
  | skip + 1, _, _ :: cs => replaceWords var replacement skip none cs
  | 0, prev, c :: cs =>
    if var.isPrefixOf (c :: cs) then
      if prev.any isWordChar then c :: replaceWords var replacement 0 none cs
      else if ((c :: cs).drop var.length).head?.any isWordChar then
        c :: replaceWords var replacement 0 none cs
      else '(' :: replacement ++ ')' :: replaceWords var replacement (var.length - 1) none cs
    else c :: replaceWords var replacement 0 (some c) cs

def replaceVarInExpr (expr var replacement : Text) : Text :=
  if Text.trim expr = var then '(' :: replacement ++ [')']
  else replaceWords var replacement 0 none expr

/-- The last CALC that writes a variable. -/
def definingNode (nodes : List Node) (var : Text) : Option Node :=
  nodes.reverse.find? fun nd => nd.op = .calc &&
    (match nd.args.find? fun a => a.key = ("output" : Text) with
      | some ⟨_, .string name⟩ => name == var
      | _ => false)

def consumerCount (nodes : List Node) (edges : List Edge) (id : Text) : Nat :=
  (keptEdges nodes edges).countP fun e => e.fromId = id

/-- The definition a variable of `nd` may be replaced by: it has `nd` as its only
consumer and does not mention the variable itself. -/
def inlinable (nodes : List Node) (edges : List Edge) (nd : Node) (var : Text) :
    Option (Text × Text) :=
  match definingNode nodes var with
  | none => none
  | some d =>
    if consumerCount nodes edges d.id = 1 ∧ edges.any (fun e => e.fromId = d.id && e.toId = nd.id) then
      match exprOf d with
      | some def_ => if var ∈ extractVariables def_ then none else some (d.id, def_)
      | none => none
    else none

/-- Inline the variables of an expression in turn; the ids are the definitions used. -/
def inlineVars (nodes : List Node) (edges : List Edge) (nd : Node) :
    List Text → Text → List Text → Text × List Text
  | [], expr, used => (expr, used)
  | var :: vars, expr, used =>
    match inlinable nodes edges nd var with
    | some (id, def_) =>
      let expr' := replaceVarInExpr expr var def_
      if expr' ≠ expr then
        inlineVars nodes edges nd vars expr' (if id ∈ used then used else used ++ [id])
      else inlineVars nodes edges nd vars expr used
    | none => inlineVars nodes edges nd vars expr used

def setExpr (expr : Text) : List Arg → List Arg
  | [] => []
  | a :: as => if a.key = ("expr" : Text) then ⟨a.key, .string expr⟩ :: as else a :: setExpr expr as

/-- One pass over the nodes: the new nodes and the ids of the inlined definitions. -/
def fusionPass (nodes : List Node) (edges : List Edge) :
    List Node → List Text → List Node × List Text
  | [], removed => ([], removed)
  | nd :: rest, removed =>
    if nd.id ∈ removed then fusionPass nodes edges rest removed
    else
      let (nd', removed') := match (if nd.op = .calc then exprOf nd else none) with
        | some expr =>
          if expr ≠ [] ∧ isConstantExpression expr = false then
            let (expr', used) := inlineVars nodes edges nd (extractVariables expr) expr []
            if used = [] then (nd, removed)
            else ({ nd with args := setExpr expr' nd.args },
              used.foldl (fun r id => if id ∈ r then r else r ++ [id]) removed)
          else (nd, removed)
        | none => (nd, removed)
      let (out, removed'') := fusionPass nodes edges rest removed'
      (nd' :: out, removed'')

/-- Passes until nothing changes; each pass that changes something removes a node. -/
def fuse (edges : List Edge) : Nat → List Node → Nat → List Node × Nat
  | 0, nodes, fused => (nodes, fused)
  | fuel + 1, nodes, fused =>
    let (out, removed) := fusionPass nodes edges nodes []
    if removed = [] then (nodes, fused)
    else fuse edges fuel (out.filter fun nd => nd.id ∉ removed) (fused + removed.length)

def calcFusion (p : ExecutionPlan) : ExecutionPlan × Nat :=
  let (nodes, fused) := fuse p.edges (p.nodes.length + 1) p.nodes 0
  ({ p with nodes := nodes, edges := keptEdges nodes p.edges }, fused)

/-! ### Multi-branch fusion -/

def sortTexts (ts : List Text) : List Text :=
  ts.insertionSort fun a b => a.map Char.toNat ≤ b.map Char.toNat

mutual

def argValueStr : ArgValue → Text
  | .string s => '"' :: s ++ ['"']
  | .int i => Text.ofInt i.toInt
  | .bool b => if b then "true" else "false"
  | .float f => f.toText
  | .null => "null"
  | .array items => '[' :: Text.intercalate [','] (argValueStrs items) ++ [']']
  | .object m => '{' :: Text.intercalate [','] (sortTexts (argEntryStrs m)) ++ ['}']

def argValueStrs : List ArgValue → List Text
  | [] => []
  | v :: vs => argValueStr v :: argValueStrs vs

def argEntryStrs : List (Text × ArgValue) → List Text
  | [] => []
  | (k, v) :: es => (k ++ ':' :: argValueStr v) :: argEntryStrs es

end

def signature (nd : Node) : Text :=
  Text.intercalate ['|'] (sortTexts (nd.args.map fun a => a.key ++ ':' :: argValueStr a.value))

/-- The CALL children of a PARALLEL with their signatures, in edge order. -/
def childCalls (p : ExecutionPlan) (par : Text) : List (Text × Text) :=
  (p.outEdges par).filterMap fun e =>
    match p.nodes.find? fun nd => nd.id = e.toId with
    | some nd => if nd.op = .call then some (signature nd, e.toId) else none
    | none => none

/-- Each call with the first earlier call of its signature. -/
def duplicates : List (Text × Text) → List (Text × Text) → List (Text × Text)
  | _, [] => []
  | seen, (sig, id) :: rest =>
    match seen.find? fun s => s.1 = sig with
    | some (_, keep) => (id, keep) :: duplicates seen rest
    | none => duplicates (seen ++ [(sig, id)]) rest

def redirectId (redirects : List (Text × Text)) (id : Text) : Text :=
  ((redirects.find? fun r => r.1 = id).map Prod.snd).getD id

def multiBranchFusion (p : ExecutionPlan) : ExecutionPlan × Nat :=
  let redirects := (p.idsOf .parallel).flatMap fun par => duplicates [] (childCalls p par)
  if redirects = [] then (p, 0)
  else
    ({ p with
      nodes := p.nodes.filter fun nd => nd.id ∉ redirects.map Prod.fst
      edges := p.edges.map fun e =>
        { e with fromId := redirectId redirects e.fromId, toId := redirectId redirects e.toId } },
     redirects.length)

def applied (name : Text) (count : Nat) : List Text :=
  if 0 < count then [name ++ ':' :: Text.ofNat count] else []

/-- All passes in order, with the names of those that did something. -/
def optimizeAll (p : ExecutionPlan) : ExecutionPlan × List Text :=
  let (p, folded) := constantFolding p
  let (p, dead) := deadNodeElimination p
  let (p, fused) := calcFusion p
  let (p, merged) := multiBranchFusion p
  (p, applied "constant_folding" folded ++ applied "dead_node_elimination" dead ++
    applied "calc_fusion" fused ++ applied "multi_branch_fusion" merged)

end Optimize

end Tinypipe
