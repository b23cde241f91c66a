import Tinypipe.Compiler.Format

/-! The sanitizer (`tinypipe-compiler/src/sanitizer.rs`): a walk over the whole tree
that collects every violation. An error is its message. -/

namespace Tinypipe

open Lib Ast

structure SanitizerEngine where
  errors : List Text
  functionDepth : Nat
  loopDepth : Nat
  parallelDepth : Nat
  groupDepth : Nat
  topLevelNames : List Text

def SanitizerEngine.new : SanitizerEngine := ⟨[], 0, 0, 0, 0, []⟩

abbrev Sanitizer := StateM SanitizerEngine

namespace Sanitizer

def blockedBuiltins : List Text :=
  ["eval", "exec", "__import__", "open", "compile", "globals", "locals", "vars", "dir", "input",
   "exit", "quit", "breakpoint", "getattr", "setattr", "delattr", "hasattr", "memoryview",
   "bytearray", "super", "staticmethod", "classmethod", "property"]

def blockedMethods : List Text :=
  ["system", "popen", "Popen", "fork", "execve", "execvp", "execl", "spawn"]

def err (msg : Text) : Sanitizer Unit := modify fun e => { e with errors := e.errors ++ [msg] }

def attributeMethodName : Expr → Option Text
  | .attribute _ attr => some attr
  | _ => none

def isStr : Expr → Bool
  | .constant (.str _) => true
  | _ => false

def isDunder (name : Text) : Bool :=
  (Text.stripPrefix "__" name).isSome && (Text.stripPrefix "__" name.reverse).isSome

/-- The first rule a call breaks, if any. -/
def callViolation (func : Expr) (args : List Expr) : Option Text :=
  match calleeNameStr func with
  | none => some "dynamic calls are forbidden (use a static function name)"
  | some name =>
    if name ∈ blockedBuiltins then
      some ('`' :: name ++ ("()` is forbidden for security reasons" : Text))
    else if (attributeMethodName func).any (· ∈ blockedMethods) then
      some ('`' :: '.' :: name ++ ("()` method call is forbidden for security reasons" : Text))
    else if isDunder name then
      some (("dunder method `" : Text) ++ name ++ ("()` is forbidden" : Text))
    else if name ∈ (["META", "GROUP", "PARALLEL"] : List Text) then
      some ('`' :: name ++ ("` is a reserved DSL keyword (META(...) at module level, `with GROUP(\"...\"):`, `with PARALLEL() as p:`)" : Text))
    else if name ∈ (["call", "act"] : List Text) then
      if args.head?.any isStr then none
      else some ('`' :: name ++ ("()` first argument must be a string literal (e.g. `" : Text) ++
        name ++ ("(\"...\", ...)`)" : Text))
    else none

def isSlice : Expr → Bool
  | .slice _ _ _ => true
  | _ => false

/-- What an expression itself breaks, its parts aside. -/
def exprViolation : Expr → Option Text
  | .lambda _ _ => some "`lambda` is forbidden (use a named function or inline expression)"
  | .namedExpr _ _ => some "walrus operator `:=` is forbidden"
  | .yield _ => some "`yield` is forbidden (graph execution is synchronous)"
  | .yieldFrom _ => some "`yield from` is forbidden (graph execution is synchronous)"
  | .await _ => some "`await` is forbidden (use synchronous calls)"
  | .generatorExp _ _ => some "generator expression is forbidden (use a list + for loop)"
  | .listComp _ _ => some "list comprehension is forbidden (use a `for` loop)"
  | .setComp _ _ => some "set comprehension is forbidden (use a `for` loop)"
  | .dictComp _ _ _ => some "dict comprehension is forbidden (use a `for` loop)"
  | .joinedStr _ => some "f‑string is forbidden (use string concatenation or `.format()`)"
  | .formattedValue _ _ => some "f‑string value formatting is forbidden"
  | .call func args _ => callViolation func args
  | .subscript _ s =>
    if isSlice s then some "slicing (items[a:b]) is not supported — use a single index" else none
  | .starred _ => some "starred expression `*expr` is forbidden"
  | .constant _ | .name _ | .attribute _ _ | .boolOp _ _ | .binOp _ _ _ | .unaryOp _ _
  | .compare _ _ _ | .ifExp _ _ _ | .list _ | .tuple _ | .dict _ _ | .set _ | .slice _ _ _ => none

def report : Option Text → Sanitizer Unit
  | some msg => err msg
  | none => pure ()

mutual

def visitExpr : Expr → Sanitizer Unit
  | .boolOp op values => do
    report (exprViolation (.boolOp op values))
    visitExprs values
  | .namedExpr target value => do
    report (exprViolation (.namedExpr target value))
    visitExpr target
    visitExpr value
  | .binOp l op r => do
    report (exprViolation (.binOp l op r))
    visitExpr l
    visitExpr r
  | .unaryOp op e => do
    report (exprViolation (.unaryOp op e))
    visitExpr e
  | .lambda args body => do
    report (exprViolation (.lambda args body))
    visitArguments args
    visitExpr body
  | .ifExp test body orelse => do
    report (exprViolation (.ifExp test body orelse))
    visitExpr test
    visitExpr body
    visitExpr orelse
  | .dict keys values => do
    report (exprViolation (.dict keys values))
    visitKeys keys
    visitExprs values
  | .set elts => do
    report (exprViolation (.set elts))
    visitExprs elts
  | .listComp elt generators => do
    report (exprViolation (.listComp elt generators))
    visitExpr elt
    visitGenerators generators
  | .setComp elt generators => do
    report (exprViolation (.setComp elt generators))
    visitExpr elt
    visitGenerators generators
  | .dictComp key value generators => do
    report (exprViolation (.dictComp key value generators))
    visitExpr key
    visitExpr value
    visitGenerators generators
  | .generatorExp elt generators => do
    report (exprViolation (.generatorExp elt generators))
    visitExpr elt
    visitGenerators generators
  | .await v => do
    report (exprViolation (.await v))
    visitExpr v
  | .yield v => do
    report (exprViolation (.yield v))
    visitOption v
  | .yieldFrom v => do
    report (exprViolation (.yieldFrom v))
    visitExpr v
  | .compare l ops comparators => do
    report (exprViolation (.compare l ops comparators))
    visitExpr l
    visitExprs comparators
  | .call func args keywords => do
    report (exprViolation (.call func args keywords))
    visitExpr func
    visitExprs args
    visitKeywords keywords
  | .formattedValue v spec => do
    report (exprViolation (.formattedValue v spec))
    visitExpr v
    visitOption spec
  | .joinedStr values => do
    report (exprViolation (.joinedStr values))
    visitExprs values
  | .constant _ | .name _ => pure ()
  | .attribute v attr => do
    report (exprViolation (.attribute v attr))
    visitExpr v
  | .subscript v s => do
    report (exprViolation (.subscript v s))
    visitExpr v
    visitExpr s
  | .starred v => do
    report (exprViolation (.starred v))
    visitExpr v
  | .list elts => do
    report (exprViolation (.list elts))
    visitExprs elts
  | .tuple elts => do
    report (exprViolation (.tuple elts))
    visitExprs elts
  | .slice lower upper step => do
    report (exprViolation (.slice lower upper step))
    visitOption lower
    visitOption upper
    visitOption step

def visitExprs : List Expr → Sanitizer Unit
  | [] => pure ()
  | e :: es => do
    visitExpr e
    visitExprs es

def visitOption : Option Expr → Sanitizer Unit
  | some e => visitExpr e
  | none => pure ()

def visitKeys : List (Option Expr) → Sanitizer Unit
  | [] => pure ()
  | some k :: ks => do
    visitExpr k
    visitKeys ks
  | none :: ks => visitKeys ks

def visitKeywords : List Keyword → Sanitizer Unit
  | [] => pure ()
  | .mk _ v :: ks => do
    visitExpr v
    visitKeywords ks

def visitGenerators : List Comprehension → Sanitizer Unit
  | [] => pure ()
  | .mk target iter ifs :: gs => do
    visitExpr iter
    visitExpr target
    visitExprs ifs
    visitGenerators gs

def visitArgDefs : List ArgDef → Sanitizer Unit
  | [] => pure ()
  | .mk _ annotation default :: as => do
    visitOption annotation
    visitOption default
    visitArgDefs as

/-- `*args` and `**kwargs`: the annotation only. -/
def visitVariadic : Option ArgDef → Sanitizer Unit
  | some (.mk _ annotation _) => visitOption annotation
  | none => pure ()

def visitArguments : Arguments → Sanitizer Unit
  | .mk posonlyargs args kwonlyargs vararg kwarg => do
    visitArgDefs posonlyargs
    visitArgDefs args
    visitVariadic vararg
    visitArgDefs kwonlyargs
    visitVariadic kwarg

end

def recordAssignmentTarget : Expr → Sanitizer Unit
  | .name name => do
    let e ← get
    if 0 < e.parallelDepth ∧ name ∈ e.topLevelNames then
      err (("potential data race: `" : Text) ++ name ++ ("` is assigned inside `parallel()` but was also assigned in the outer scope (use a local variable instead)" : Text))
    else pure ()
    if e.parallelDepth = 0 ∧ name ∉ e.topLevelNames then
      modify fun e => { e with topLevelNames := e.topLevelNames ++ [name] }
    else pure ()
  | _ => pure ()

def recordAssignmentTargets : List Expr → Sanitizer Unit
  | [] => pure ()
  | t :: ts => do
    recordAssignmentTarget t
    recordAssignmentTargets ts

/-- The rule the item of `with GROUP(..)` breaks, if any. -/
def groupItemViolation (item : WithItem) : Option Text :=
  if item.optionalVars.isSome then some "`with GROUP(\"...\"):` does not support `as` binding"
  else match item.contextExpr with
    | .call _ [.constant (.str (_ :: _))] _ => none
    | .call _ [.constant (.str [])] _ => some "`GROUP` title must be a non-empty string literal"
    | .call _ _ _ =>
      some "`GROUP` expects exactly one string literal argument, e.g. `with GROUP(\"Seeding\"):`"
    | _ => none

mutual

def isMetaConstant : Expr → Bool
  | .constant _ => true
  | .unaryOp _ (.constant _) => true
  | .list elts | .tuple elts => allMetaConstant elts
  | _ => false

def allMetaConstant : List Expr → Bool
  | [] => true
  | e :: es => isMetaConstant e && allMetaConstant es

end

def checkMetaKeywords : List Keyword → Sanitizer Unit
  | [] => pure ()
  | .mk none _ :: ks => do
    err "`**kwargs` is forbidden in `META(...)`"
    checkMetaKeywords ks
  | .mk (some _) v :: ks => do
    if isMetaConstant v then pure ()
    else err "`META` values must be constant literals (strings, numbers, booleans, or lists of constants)"
    checkMetaKeywords ks

/-- An expression statement: `META(..)` has its own rules, anything else is visited. -/
def visitExprStmt (value : Expr) : Sanitizer Unit :=
  match value with
  | .call (.name id) args keywords =>
    if id = ("META" : Text) then do
      let e ← get
      if e.functionDepth ≠ 0 then
        err "`META(...)` is only allowed at module level, before `def graph`"
      else if !args.isEmpty then err "`META(...)` accepts keyword arguments only"
      else checkMetaKeywords keywords
    else do
      visitExpr value
      visitExpr value
  | _ => do
    -- once as a statement's value, once as a child
    visitExpr value
    visitExpr value

def visitItems : List WithItem → Sanitizer Unit
  | [] => pure ()
  | ⟨call, vars⟩ :: items => do
    visitExpr call
    visitOption vars
    visitItems items

def joined (names : List Text) : Text := Text.intercalate [',', ' '] names

mutual

def visitStmt : Stmt → Sanitizer Unit
  | .import names =>
    err (("import is forbidden (remove `import " : Text) ++ joined names ++ ['`', ')'])
  | .importFrom module _ =>
    err (("from‑import is forbidden (remove `from " : Text) ++ module.getD [] ++
      (" import ...`)" : Text))
  | .classDef name bases keywords body _ _ => do
    err (("class definition is forbidden (remove `class " : Text) ++ name ++ ['`', ')'])
    visitExprs bases
    visitKeywords keywords
    visitStmts body
  | .while test body orelse => do
    err "`while` is forbidden (use `for` with a bounded range)"
    visitExpr test
    visitStmts body
    visitStmts orelse
  | .try body handlers orelse finalbody => do
    err "`try`/`except` is forbidden (use the graph's ERROR mechanism)"
    visitStmts body
    visitHandlers handlers
    visitStmts orelse
    visitStmts finalbody
  | .tryStar body handlers orelse finalbody => do
    err "`try`/`except*` is forbidden (use the graph's ERROR mechanism)"
    visitStmts body
    visitHandlers handlers
    visitStmts orelse
    visitStmts finalbody
  | .asyncFunctionDef name _ body _ returns _ => do
    err (("`async def` is forbidden (remove `async` from `" : Text) ++ name ++ ['`', ')'])
    visitOption returns
    visitStmts body
  | .asyncFor target iter body orelse => do
    err "`async for` is forbidden"
    visitExpr target
    visitExpr iter
    visitStmts body
    visitStmts orelse
  | .asyncWith items body => do
    err "`async with` is forbidden"
    visitItems items
    visitStmts body
  | .global names =>
    err (("`global` is forbidden (remove `global " : Text) ++ joined names ++ ['`', ')'])
  | .nonlocal names =>
    err (("`nonlocal` is forbidden (remove `nonlocal " : Text) ++ joined names ++ ['`', ')'])
  | .match subject cases => do
    visitExpr subject
    visitCases cases
  | .with items body =>
    match items with
    | [item] =>
      if isNameCall item.contextExpr "PARALLEL" then do
        modify fun e => { e with parallelDepth := e.parallelDepth + 1 }
        visitStmts body
        modify fun e => { e with parallelDepth := e.parallelDepth - 1 }
      else if isNameCall item.contextExpr "GROUP" then do
        let e ← get
        if 0 < e.groupDepth then err "nested `with GROUP(...)` is forbidden"
        report (groupItemViolation item)
        modify fun e => { e with groupDepth := e.groupDepth + 1 }
        visitStmts body
        modify fun e => { e with groupDepth := e.groupDepth - 1 }
      else do
        err "`with` is forbidden except for `with PARALLEL() as p:` or `with GROUP(\"...\"):`"
        visitItems items
        visitStmts body
    | _ => do
      err "`with` is forbidden except for `with PARALLEL() as p:` or `with GROUP(\"...\"):`"
      visitItems items
      visitStmts body
  | .delete targets => do
    err "`del` is forbidden"
    visitExprs targets
  | .typeAlias name _ value => do
    err "`type` alias is forbidden"
    visitExpr name
    visitExpr value
  | .functionDef name _ body decorators returns _ => do
    let e ← get
    if 0 < e.functionDepth then err "nested function definitions are forbidden"
    else if name ≠ ("graph" : Text) then
      err (("only one function named `graph` is allowed (found `" : Text) ++ name ++ ['`', ')'])
    if !decorators.isEmpty then err "decorators are forbidden"
    modify fun e => { e with functionDepth := e.functionDepth + 1 }
    visitOption returns
    visitStmts body
    modify fun e => { e with functionDepth := e.functionDepth - 1 }
  | .return value => do
    let e ← get
    if e.functionDepth = 0 then err "`return` outside a function is forbidden"
    -- the value is visited here and again with the children
    visitOption value
    visitOption value
  | .for target iter body orelse => do
    modify fun e => { e with loopDepth := e.loopDepth + 1 }
    visitExpr target
    visitExpr iter
    visitStmts body
    visitStmts orelse
    modify fun e => { e with loopDepth := e.loopDepth - 1 }
  | .if test body orelse => do
    visitExpr test
    visitStmts body
    visitStmts orelse
  | .pass => pure ()
  | .break => do
    let e ← get
    if e.loopDepth = 0 then err "`break` outside a loop is forbidden"
  | .continue => do
    let e ← get
    if e.loopDepth = 0 then err "`continue` outside a loop is forbidden"
  | .raise exc cause => do
    visitOption exc
    visitOption cause
  | .assert test msg => do
    visitExpr test
    visitOption msg
  | .assign targets value => do
    recordAssignmentTargets targets
    visitExprs targets
    visitExpr value
  | .annAssign target annotation value => do
    recordAssignmentTarget target
    visitExpr target
    visitExpr annotation
    visitOption value
  | .augAssign target _ value => do
    recordAssignmentTarget target
    visitExpr target
    visitExpr value
  | .expr value => visitExprStmt value

def visitStmts : List Stmt → Sanitizer Unit
  | [] => pure ()
  | s :: ss => do
    visitStmt s
    visitStmts ss

def visitCases : List MatchCase → Sanitizer Unit
  | [] => pure ()
  | .mk _ guard body :: cases => do
    visitOption guard
    visitStmts body
    visitCases cases

def visitHandlers : List ExceptHandler → Sanitizer Unit
  | [] => pure ()
  | .mk type _ body :: hs => do
    visitOption type
    visitStmts body
    visitHandlers hs

end

end Sanitizer

def sanitize (m : Ast.Module) : Except (List Text) Unit :=
  let e := (Sanitizer.visitStmts m.body SanitizerEngine.new).2
  if e.errors = [] then .ok () else .error e.errors

end Tinypipe
