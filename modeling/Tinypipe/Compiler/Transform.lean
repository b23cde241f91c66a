import Tinypipe.Compiler.Format

/-! The transformer (`tinypipe-compiler/src/transform.rs`): a sanitized syntax tree
becomes nodes and edges. An error is its message; source positions are not modelled.
Each node also records where in the statement nesting it was made, which no modelled
function reads. -/

namespace Tinypipe

open Lib Ast

/-- One level of the statement nesting around a node. -/
inductive Place where
  | branch (decide : Text) (taken : Bool)
  | body (loop : Text)
  | thread (parallel : Text) (bid : Nat)
  | case (switch : Text) (index : Nat)
deriving DecidableEq

structure TransformEngine where
  nodes : List Node
  edges : List Edge
  /-- each variable with the node that last wrote it -/
  varMap : Dict Text Text
  nextId : Nat
  currentBranch : Option Nat
  currentGroup : Option Text
  metaJson : Text
  errors : List Text
  /-- the nesting at this point, outermost first -/
  nesting : List Place
  origins : List (Text × List Place)

namespace TransformEngine

def new : TransformEngine where
  nodes := []
  edges := []
  varMap := Dict.empty
  nextId := 0
  currentBranch := none
  currentGroup := none
  metaJson := []
  errors := []
  nesting := []
  origins := []

def build (e : TransformEngine) : ExecutionPlan :=
  let plan := ExecutionPlan.new e.nodes e.edges
  { plan with metadata := { plan.metadata with metaJson := e.metaJson } }

end TransformEngine

abbrev Transformer := EStateM (List Text) TransformEngine

namespace Transformer

def nodeId (k : Nat) : Text := 'n' :: Text.ofNat k

def genId : Transformer Text := do
  let e ← get
  set { e with nextId := e.nextId + 1 }
  pure (nodeId e.nextId)

def pushNode (op : Opcode) (args : List Arg) : Transformer Text := do
  let id ← genId
  modify fun e => { e with
    nodes := e.nodes ++ [⟨id, op, args, none, e.currentBranch, e.currentGroup⟩]
    origins := e.origins ++ [(id, e.nesting)] }
  pure id

def addEdge (edge : Edge) : Transformer Unit := modify fun e => { e with edges := e.edges ++ [edge] }

def pushEdge (fromId toId : Text) : Transformer Unit := addEdge (Edge.new fromId toId)

def pushCondEdge (fromId toId condition : Text) : Transformer Unit :=
  addEdge (Edge.withCondition fromId toId condition)

def setVar (name id : Text) : Transformer Unit :=
  modify fun e => { e with varMap := e.varMap.set name id }

/-- The node that holds a variable; an unknown variable becomes an Input. -/
def resolveVar (name : Text) : Transformer Text := do
  let e ← get
  match e.varMap.get name with
  | some id => pure id
  | none => do
    let id ← pushNode .input [⟨"name", .string name⟩]
    setVar name id
    pure id

def error (msg : Text) : Transformer Unit := modify fun e => { e with errors := e.errors ++ [msg] }

/-- The recorded errors end the transform here, if there are any. -/
def checkErrors : Transformer Unit := do
  let e ← get
  if e.errors ≠ [] then throw e.errors

/-- Two fresh ids that name no node. -/
def noNodes : Transformer (Text × Text) := do
  let a ← genId
  let b ← genId
  pure (a, b)

def wireNames (target : Text) : List Text → Transformer Unit
  | [] => pure ()
  | name :: names => do
    let e ← get
    match e.varMap.get name with
    | some src => pushEdge src target
    | none => pure ()
    wireNames target names

def wireExprDependencies (e : Expr) (target : Text) : Transformer Unit :=
  wireNames target (exprNames e)

/-- The output argument of an assignment, on the node that computes the value. -/
def addOutput (id name : Text) : Transformer Unit :=
  modify fun e => { e with nodes := e.nodes.map fun nd =>
    if nd.id = id then { nd with args := nd.args ++ [⟨"output", .string name⟩] } else nd }

/-- A part of the program one level deeper in the nesting. -/
def inside {α : Type} (place : Place) (part : Transformer α) : Transformer α := do
  let e ← get
  set { e with nesting := e.nesting ++ [place] }
  let a ← part
  modify fun e' => { e' with nesting := e.nesting }
  pure a

/-! ### Expressions -/

def calcArgs (expr : Text) : List Arg := [⟨"expr", .string expr⟩]

def keywordArgs : List Keyword → List Arg
  | [] => []
  | .mk arg v :: ks => ⟨arg.getD [], .string (formatExpr v)⟩ :: keywordArgs ks

/-- The seconds of `sleep(..)`, as far as they are a literal. -/
def sleepSecs : List Expr → Int64
  | [] => 5
  | arg :: _ => (Text.parseI64 (formatExpr arg)).getD 1

def pushEdges (target : Text) : List Text → Transformer Unit
  | [] => pure ()
  | id :: ids => do
    pushEdge id target
    pushEdges target ids

mutual

/-- A call becomes a CALL, a WAIT or a CALC behind the nodes of its arguments; any
other expression is one CALC. -/
def transformExprToNode : Expr → Transformer Text
  | .call func args keywords =>
    match calleeNameStr func with
    | none => do
      error "dynamic calls are not supported in transform"
      genId
    | some name =>
      if name = ("call" : Text) ∨ name = ("act" : Text) then do
        let target := (args.head?.map formatExpr).getD []
        let id ← pushNode .call (⟨"type", .string name⟩ :: ⟨"target", .string target⟩ ::
          keywordArgs keywords)
        wireArgs id args
        wireKeywords id keywords
        pure id
      else if name = ("sleep" : Text) then do
        let id ← pushNode .wait [⟨"duration_secs", .int (sleepSecs args)⟩]
        wireArgs id args
        pure id
      else if name ∈ allowedBuiltins then do
        let ids ← transformArgs args
        let id ← pushNode .calc (calcArgs (name ++ '(' ::
          Text.intercalate [',', ' '] (formatExprs args) ++ [')']))
        pushEdges id ids
        pure id
      else do
        let id ← pushNode .calc (calcArgs (formatExpr (.call func args keywords)))
        wireArgs id args
        wireKeywords id keywords
        pure id
  | e => do
    let id ← pushNode .calc (calcArgs (formatExpr e))
    wireExprDependencies e id
    pure id

def wireArgs (target : Text) : List Expr → Transformer Unit
  | [] => pure ()
  | e :: es => do
    let id ← transformExprToNode e
    pushEdge id target
    wireArgs target es

def wireKeywords (target : Text) : List Keyword → Transformer Unit
  | [] => pure ()
  | .mk _ v :: ks => do
    let id ← transformExprToNode v
    pushEdge id target
    wireKeywords target ks

def transformArgs : List Expr → Transformer (List Text)
  | [] => pure []
  | e :: es => do
    let id ← transformExprToNode e
    let ids ← transformArgs es
    pure (id :: ids)

end

/-! ### Statements -/

def nameOf : Expr → Option Text
  | .name id => some id
  | _ => none

mutual

/-- A statement that stops the flow: a return, a raise, or an `if` made of such on
both sides. -/
def stmtIsTerminal : Stmt → Bool
  | .return _ | .raise _ _ => true
  | .if _ body orelse =>
    !body.isEmpty && !orelse.isEmpty && allTerminal body && allTerminal orelse
  | _ => false

def allTerminal : List Stmt → Bool
  | [] => true
  | s :: ss => stmtIsTerminal s && allTerminal ss

end

/-- How the statements of a block are chained. -/
inductive Chain where
  /-- control edges, except behind a terminal statement -/
  | control
  /-- data edges -/
  | data
  | unchained
deriving DecidableEq

/-- The first node of a block so far, its last node, and whether its last statement is
terminal. -/
structure Block where
  first : Option Text
  last : Option Text
  terminal : Bool

namespace Block

def empty : Block := ⟨none, none, false⟩

def next (b : Block) (first last : Text) (terminal : Bool) : Block :=
  ⟨some (b.first.getD first), some last, terminal⟩

end Block

def chainTo (chain : Chain) (b : Block) (first : Text) : Transformer Unit :=
  match b.last with
  | none => pure ()
  | some prev => match chain with
    | .control => if b.terminal then pure () else addEdge (Edge.control prev first)
    | .data => pushEdge prev first
    | .unchained => pure ()

/-- The label of a case; `none` is the default case, and the inner `none` of a pattern
that is not supported. -/
def caseCondition : Pattern → Option (Option Text)
  | .matchValue v => some (some (formatExpr v))
  | .matchSingleton c => some (some (formatConstant c))
  | .matchAs _ _ => some none
  | _ => none

/-- The number of a pattern's kind, as the discriminant prints. -/
def patternDiscriminant : Pattern → Nat
  | .matchValue _ => 0
  | .matchSingleton _ => 1
  | .matchSequence _ => 2
  | .matchMapping _ _ _ => 3
  | .matchClass _ _ _ _ => 4
  | .matchStar _ => 5
  | .matchAs _ _ => 6
  | .matchOr _ => 7

def unsupportedPattern (p : Pattern) : Text :=
  ("unsupported pattern type in match case: Discriminant(" : Text) ++
    Text.ofNat (patternDiscriminant p) ++ [')']

def pushSwitchEdge (switch first : Text) : Option Text → Transformer Unit
  | some c => pushCondEdge switch first c
  | none => pushEdge switch first

/-- The gates of a branch: its last node, then its first one when it is another. -/
def gateBranch (decide label : Text) (b : Block) : Transformer Unit := do
  match b.last with
  | some last => pushCondEdge decide last label
  | none => pure ()
  match b.first with
  | some first => if b.first ≠ b.last then pushCondEdge decide first label else pure ()
  | none => pure ()

/-- The keys of the current variable map that an earlier one lacks. -/
def newVars (before : Dict Text Text) : Transformer (List Text) := do
  let e ← get
  pure (e.varMap.keys.filter fun k => !before.contains k)

def setVarsTo (id : Text) : List Text → Transformer Unit
  | [] => pure ()
  | v :: vs => do
    setVar v id
    setVarsTo id vs

/-- An edge from a branch's last node to the MERGE, unless the branch is terminal. -/
def joinBranch (merge : Text) (terminal : Bool) (b : Block) : Transformer Unit :=
  match b.last with
  | some last => if terminal then pure () else pushEdge last merge
  | none => pure ()

/-- The end of an `if` whose branches are in place: a MERGE, unless all paths stop. -/
def closeIf (decide : Text) (body orelse : List Stmt) (bodyBlock orelseBlock : Block)
    (branchVars : List Text) : Transformer (Text × Text) := do
  let bodyTerminal := !body.isEmpty && allTerminal body
  let orelseTerminal := !orelse.isEmpty && allTerminal orelse
  if bodyTerminal && !orelse.isEmpty && orelseTerminal then pure (decide, decide)
  else do
    let merge ← pushNode .merge []
    joinBranch merge bodyTerminal bodyBlock
    joinBranch merge orelseTerminal orelseBlock
    -- without an else the false path leads to the MERGE, terminal body or not
    if orelse.isEmpty then pushCondEdge decide merge "false" else pure ()
    setVarsTo merge branchVars
    pure (decide, merge)

def pushAct (type : Text) : Transformer Text := pushNode .act [⟨"type", .string type⟩]

mutual

/-- The first and the last node of a statement. -/
def transformStmt : Stmt → Transformer (Text × Text)
  | .assign targets value => do
    checkErrors
    match targets with
    | [.name target] => do
      let id ← transformExprToNode value
      addOutput id target
      setVar target id
      pure (id, id)
    | [_] => do
      error "only simple variable names as assignment targets"
      noNodes
    | _ => do
      error "multi‑target assignment is not supported"
      noNodes
  | .annAssign target _ value => do
    checkErrors
    match nameOf target with
    | none => do
      error "only simple variable names as annotation targets"
      noNodes
    | some name => match value with
      | some v => do
        let id ← transformExprToNode v
        setVar name id
        pure (id, id)
      | none => do
        let id ← pushNode .input [⟨"name", .string name⟩]
        setVar name id
        pure (id, id)
  | .augAssign target op value => do
    checkErrors
    match nameOf target with
    | none => do
      error "only simple variable names for augmented assignment"
      noNodes
    | some name => do
      let targetId ← resolveVar name
      let rhs ← transformExprToNode value
      let id ← pushNode .calc
        [⟨"expr", .string (name ++ ' ' :: operatorText op ++ ' ' :: formatExpr value)⟩,
         ⟨"output", .string name⟩]
      pushEdge targetId id
      pushEdge rhs id
      setVar name id
      pure (id, id)
  | .expr value => do
    checkErrors
    let id ← transformExprToNode value
    pure (id, id)
  | .return value => do
    checkErrors
    match value with
    | some v => do
      let valId ← transformExprToNode v
      let id ← pushAct "return"
      pushEdge valId id
      pure (valId, id)
    | none => do
      let id ← pushAct "return"
      pure (id, id)
  | .if test body orelse => do
    checkErrors
    let condId ← transformExprToNode test
    let decide ← pushNode .decide [⟨"condition", .string (formatExpr test)⟩]
    pushEdge condId decide
    let beforeTrue ← get
    let bodyBlock ← inside (.branch decide true) (transformBlock .unchained Block.empty body)
    let trueVars ← newVars beforeTrue.varMap
    gateBranch decide "true" bodyBlock
    let beforeFalse ← get
    let orelseBlock ← inside (.branch decide false) (transformBlock .unchained Block.empty orelse)
    let falseVars ← newVars beforeFalse.varMap
    gateBranch decide "false" orelseBlock
    closeIf decide body orelse bodyBlock orelseBlock (trueVars ++ falseVars)
  | .for target iter body _ => do
    checkErrors
    let iterId ← transformExprToNode iter
    match nameOf target with
    | none => do
      error "loop target must be a simple variable"
      noNodes
    | some name => do
      let loop ← pushNode .loop [⟨"target", .string name⟩,
        ⟨"max_iterations", .int (Int64.ofInt (inferRangeMax iter))⟩]
      pushEdge iterId loop
      setVar name loop
      let b ← inside (.body loop) (transformBlock .control Block.empty body)
      match b.first with
      | some first => pushEdge loop first
      | none => pure ()
      pure (loop, loop)
  | .with items body => do
    checkErrors
    match items with
    | ⟨call, _⟩ :: _ =>
      if isNameCall call "PARALLEL" then do
        let par ← pushNode .parallel []
        transformThreads par 0 body
        pure (par, par)
      else if isNameCall call "GROUP" then do
        let e ← get
        set { e with currentGroup := some (groupTitleFromCall call) }
        let b ← transformBlock .data Block.empty body
        modify fun e' => { e' with currentGroup := e.currentGroup }
        let fallback ← genId
        pure (b.first.getD fallback, b.last.getD fallback)
      else do
        error "unsupported `with` statement"
        noNodes
    | [] => do
      error "unsupported `with` statement"
      noNodes
  | .match subject cases => do
    checkErrors
    let subjectId ← transformExprToNode subject
    let switch ← pushNode .switch [⟨"source", .string (formatExpr subject)⟩]
    pushEdge subjectId switch
    transformCases switch 0 false cases
    pure (switch, switch)
  | .pass => do
    checkErrors
    let id ← genId
    pure (id, id)
  | .break => do
    checkErrors
    let id ← pushAct "break"
    pure (id, id)
  | .continue => do
    checkErrors
    let id ← pushAct "continue"
    pure (id, id)
  | .raise _ _ => do
    checkErrors
    let id ← pushNode .error [⟨"message", .string "raised by code"⟩]
    pure (id, id)
  | .assert test _ => do
    checkErrors
    let testId ← transformExprToNode test
    let decide ← pushNode .decide
      [⟨"condition", .string (("not (" : Text) ++ formatExpr test ++ [')'])⟩]
    pushEdge testId decide
    pure (decide, decide)
  | .functionDef .. | .asyncFunctionDef .. | .classDef .. | .delete .. | .typeAlias ..
  | .asyncFor .. | .while .. | .asyncWith .. | .try .. | .tryStar .. | .import .. | .importFrom ..
  | .global .. | .nonlocal .. => do
    checkErrors
    error "unsupported statement in transform"
    let id ← genId
    pure (id, id)

def transformBlock (chain : Chain) : Block → List Stmt → Transformer Block
  | b, [] => pure b
  | b, s :: ss => do
    let ids ← transformStmt s
    chainTo chain b ids.1
    transformBlock chain (b.next ids.1 ids.2 (stmtIsTerminal s)) ss

/-- The statements of a PARALLEL block: each is a branch with its position as branch id. -/
def transformThreads (par : Text) : Nat → List Stmt → Transformer Unit
  | _, [] => pure ()
  | bid, s :: ss => do
    let e ← get
    set { e with currentBranch := some bid }
    let ids ← inside (.thread par bid) (transformStmt s)
    modify fun e' => { e' with currentBranch := e.currentBranch }
    pushEdge par ids.1
    transformThreads par (bid + 1) ss

/-- The cases of a SWITCH from a position on. Its edge leads to the first node of the
last statement of the case. -/
def transformCases (switch : Text) : Nat → Bool → List MatchCase → Transformer Unit
  | _, _, [] => pure ()
  | index, hasDefault, .mk pattern _ body :: cases => do
    match caseCondition pattern with
    | none => do
      error (unsupportedPattern pattern)
      transformCases switch (index + 1) hasDefault cases
    | some condition => do
      if condition.isNone && hasDefault then
        error "multiple default cases in match — only first is reachable"
      else pure ()
      let last ← inside (.case switch index) (transformCaseBody none body)
      match last with
      | some first => pushSwitchEdge switch first condition
      | none => pure ()
      transformCases switch (index + 1) (hasDefault || condition.isNone) cases

/-- The first node of the last statement of a case body. -/
def transformCaseBody : Option Text → List Stmt → Transformer (Option Text)
  | last, [] => pure last
  | _, s :: ss => do
    let ids ← transformStmt s
    transformCaseBody (some ids.1) ss

end

/-! ### The module -/

def scanMeta : List Stmt → Transformer Unit
  | [] => pure ()
  | .expr value :: ss => match extractMeta value with
    | some json => do
      let e ← get
      if e.metaJson ≠ [] then throw (e.errors ++ [("multiple `META(...)` blocks are not allowed" : Text)])
      set { e with metaJson := json }
      scanMeta ss
    | none => scanMeta ss
  | _ :: ss => scanMeta ss

/-- The parameters and the body of the first function called `graph`. -/
def graphFunction : List Stmt → Option (Arguments × List Stmt)
  | [] => none
  | .functionDef name args body _ _ _ :: ss =>
    if name = ("graph" : Text) then some (args, body) else graphFunction ss
  | _ :: ss => graphFunction ss

def pushInputs : List ArgDef → Transformer Unit
  | [] => pure ()
  | a :: as => do
    let id ← pushNode .input [⟨"name", .string a.arg⟩]
    setVar a.arg id
    pushInputs as

def transformModule (m : Module) : Transformer Unit := do
  scanMeta m.body
  match graphFunction m.body with
  | none => do
    let e ← get
    throw (e.errors ++ [("no `graph()` function found" : Text)])
  | some (args, body) => do
    pushInputs args.args
    pushInputs args.posonlyargs
    let _ ← transformBlock .control Block.empty body

end Transformer

/-- The engine at the end of a transform, or its errors. -/
def runTransform (m : Ast.Module) : Except (List Text) TransformEngine :=
  match Transformer.transformModule m TransformEngine.new with
  | .ok _ e => .ok e
  | .error errors _ => .error errors

end Tinypipe
