import Tinypipe.Ir.Compiled

/-! The expression evaluator of the VM (`tinypipe-vm/src/compiled_executor.rs`):
expressions are text, split at the first occurrence of an operator. -/

namespace Tinypipe

open Lib

def typeName : Value → Text
  | .null => "null"
  | .bool _ => "bool"
  | .int _ => "int"
  | .float _ => "float"
  | .string _ => "string"
  | .array _ => "array"
  | .object _ => "object"

def isTruthy : Value → Bool
  | .bool b => b
  | .null => false
  | .int i => i ≠ 0
  | .float f => !f.eq (F64.ofInt 0)
  | .string s => !s.isEmpty
  | .array _ | .object _ => true

def closeTo (x y : F64) : Bool := (x.sub y).abs.lt F64.epsilon

def valuesEqual : Value → Value → Bool
  | .null, .null => true
  | .bool x, .bool y => x == y
  | .int x, .int y => x == y
  | .float x, .float y => closeTo x y
  | .string x, .string y => x == y
  | .int x, .float y => closeTo (F64.ofInt x.toInt) y
  | .float x, .int y => closeTo x (F64.ofInt y.toInt)
  | _, _ => false

def compareValues (a b : Value) (cmp : F64 → F64 → Bool) : Bool :=
  match a.asF64, b.asF64 with
  | some x, some y => cmp x y
  | _, _ => false

def boolText (b : Bool) : Text := if b then "true" else "false"

/-- The text of a value in a string concatenation. -/
def concatPart : Value → Option Text
  | .null => none
  | .bool b => some (boolText b)
  | .int i => some (Text.ofInt i.toInt)
  | .float f => some f.toText
  | .string s => some s
  | .array _ | .object _ => none

def formatValue : Value → Text
  | .null => "null"
  | .bool b => boolText b
  | .int i => Text.ofInt i.toInt
  | .float f => f.toText
  | .string s => s
  | .array _ => "[...]"
  | .object _ => "{...}"

/-- Strip double quotes and backslashes at both ends. -/
def trimQuotes (t : Text) : Text := Text.trimMatches (fun c => c == '"' || c == '\\') t

def isConcatExpr (t : Text) : Bool := Text.contains ['"', ' ', '+'] t || Text.contains ['\'', ' ', '+'] t

def parseJsonValue (t : Text) : Value :=
  let s := Text.trim t
  if s.isEmpty then .null
  else match Json.fromStr s with
    | some j => jsonToTp j
    | none => .string s

def isOpening (c : Char) : Bool := c == '(' || c == '[' || c == '{'

def isClosing (c : Char) : Bool := c == ')' || c == ']' || c == '}'

def isQuote (c : Char) : Bool := c == '"' || c == '\''

/-- The text up to the bracket that closes the one just read, and the text after
it. Brackets inside quotes do not count. -/
def findMatchingBracket : Nat → Option Char → Text → Option (Text × Text)
  | _, _, [] => none
  | depth, some q, c :: cs =>
    (findMatchingBracket depth (if c = q then none else some q) cs).map fun p => (c :: p.1, p.2)
  | depth, none, c :: cs =>
    if isQuote c then (findMatchingBracket depth (some c) cs).map fun p => (c :: p.1, p.2)
    else if isOpening c then
      (findMatchingBracket (depth + 1) none cs).map fun p => (c :: p.1, p.2)
    else if isClosing c then
      if depth ≤ 1 then some ([], cs)
      else (findMatchingBracket (depth - 1) none cs).map fun p => (c :: p.1, p.2)
    else (findMatchingBracket depth none cs).map fun p => (c :: p.1, p.2)

/-- Split at the commas outside every bracket and quote; a blank last part is dropped. -/
def splitTopLevelCommas (t : Text) : List Text :=
  go 0 none [] t
where
  go (depth : Int) (quote : Option Char) (current : Text) : Text → List Text
    | [] => if (Text.trim current.reverse).isEmpty then [] else [current.reverse]
    | c :: cs =>
      match quote with
      | some q => go depth (if c = q then none else some q) (c :: current) cs
      | none =>
        if isQuote c then go depth (some c) (c :: current) cs
        else if isOpening c then go (depth + 1) none (c :: current) cs
        else if isClosing c then go (depth - 1) none (c :: current) cs
        else if c = ',' ∧ depth = 0 then current.reverse :: go depth none [] cs
        else go depth none (c :: current) cs

inductive Accessor where
  /-- `obj.field` -/
  | field (name : Text)
  /-- `obj[key]`, the key still to be evaluated -/
  | index (key : Text)

/-- The scan of `split_accessors`. `base` is the text read so far, in reverse, as
long as no accessor was found; `tail` is the text after the last accessor. -/
def scanAccessors : Nat → Int → Option Char → (base : Text) → (found : Option Text) →
    List Accessor → (tail : Text) → Text → Option (Option Text × List Accessor × Text)
  | 0, _, _, _, found, accs, tail, _ => some (found, accs, tail)
  | _ + 1, _, _, _, found, accs, tail, [] => some (found, accs, tail)
  | n + 1, depth, some q, base, found, accs, tail, c :: cs =>
    scanAccessors n depth (if c = q then none else some q) (c :: base) found accs tail cs
  | n + 1, depth, none, base, found, accs, tail, c :: cs =>
    if isQuote c then scanAccessors n depth (some c) (c :: base) found accs tail cs
    else if c = '[' ∧ depth = 0 ∧ base ≠ [] then
      match findMatchingBracket 1 none cs with
      | none => none
      | some (key, rest) =>
        if (Text.trim key).isEmpty then none
        else scanAccessors n depth none (c :: base) (found.or (some base.reverse))
          (accs ++ [.index key]) rest rest
    else if c = '.' ∧ depth = 0 ∧ base ≠ [] ∧ cs ≠ [] then
      let (name, rest) := cs.span (fun d => d != '.' && d != '[')
      let name := Text.trim name
      if name.isEmpty then none
      else scanAccessors n depth none (c :: base) (found.or (some base.reverse))
        (accs ++ [.field name]) rest rest
    else if isOpening c then scanAccessors n (depth + 1) none (c :: base) found accs tail cs
    else if isClosing c then scanAccessors n (depth - 1) none (c :: base) found accs tail cs
    else scanAccessors n depth none (c :: base) found accs tail cs

/-- Split into a base and a chain of accessors; `none` when there is no chain or
something follows it. -/
def splitAccessors (expr : Text) : Option (Text × List Accessor) :=
  match scanAccessors expr.length 0 none [] none [] [] expr with
  | some (some base, accs, tail) =>
    if !(Text.trim tail).isEmpty then none
    else
      let base := Text.trim base
      if base.isEmpty then none else some (base, accs)
  | _ => none

/-- The JSON or plain unquoting of an expression, and whether it was quoted. -/
def decodeQuoted (trimmed : Text) : Text × Bool :=
  match Json.fromStrString trimmed with
  | some s => (s, true)
  | none =>
    let quotedBy (q : Char) := trimmed.head? == some q && trimmed.getLast? == some q
    if 2 ≤ trimmed.length && (quotedBy '"' || quotedBy '\'') && !isConcatExpr trimmed then
      ((trimmed.drop 1).dropLast, true)
    else (trimmed, false)

def cannotEvaluate (expr : Text) : Text := ("cannot evaluate: " : Text) ++ expr

/-- The bound of `range(..)` with one, two or three integer arguments; the
subtraction wraps as the release build's does. -/
def rangeBound (expr : Text) (stepMessage : Text) : List Int64 → Except Text Value
  | [stop] => .ok (.int stop)
  | [start, stop] => .ok (.int (stop - start))
  | [start, stop, step] =>
    if 0 < step then .ok (.int (max (stop - start) 0 / step)) else .error stepMessage
  | _ => .error (cannotEvaluate expr)

def applyComparison (op : Text) (a b : Value) : Bool :=
  if op = ("==" : Text) then valuesEqual a b
  else if op = ("!=" : Text) then !valuesEqual a b
  else if op = (">" : Text) then compareValues a b F64.gt
  else if op = ("<" : Text) then compareValues a b F64.lt
  else if op = (">=" : Text) then compareValues a b F64.ge
  else if op = ("<=" : Text) then compareValues a b F64.le
  else false

def comparisonOps : List Text := [">=", "<=", "!=", "==", ">", "<"]

/-- The first comparison operator, in that order of preference, with two non-blank sides. -/
def splitComparison (expr : Text) : Option (Text × Text × Text) :=
  comparisonOps.findSome? fun op =>
    match Text.splitOnce op expr with
    | some (l, r) =>
      let left := Text.trim l
      let right := Text.trim r
      if !left.isEmpty && !right.isEmpty then some (op, left, right) else none
    | none => none

/-- `checked_add`, `checked_sub`, `checked_mul` and the guarded `checked_div`. -/
def arithmetic (op : Char) (a b : Int64) : Option Int64 :=
  if op = '+' then Value.checkedI64 (a.toInt + b.toInt)
  else if op = '-' then Value.checkedI64 (a.toInt - b.toInt)
  else if op = '*' then Value.checkedI64 (a.toInt * b.toInt)
  else if b ≠ 0 then Value.checkedI64 (a.toInt.tdiv b.toInt) else none

/-- The sides of the first `op`, unless it is the first or last character. -/
def splitBinary (op : Char) (expr : Text) : Option (Text × Text) :=
  match Text.splitOnce [op] expr with
  | some ([], _) | some (_, []) | none => none
  | some (l, r) => some (Text.trim l, Text.trim r)

def arrayGet (items : List Value) (i : Int) : Option Value :=
  let idx := if i < 0 then (items.length : Int) + i else i
  if idx < 0 then none else items[idx.toNat]?

section Eval

variable (ctx : Context) (outputs : Nat → Option Value)

/-- One accessor step on a value, given the evaluated subscript. `none` stands for
the failures that a quoted literal turns into its own text. -/
def accessField (name : Text) : Value → Option Value
  | .object m => Dict.find name m
  | .array items => match Text.parseUnsigned 64 name with
    | some i => items[i]?
    | none => none
  | _ => none

def accessIndex : Value → Value → Except Text Value
  | .array items, .int i =>
    match arrayGet items i.toInt with
    | some v => .ok v
    | none => .error (("subscript: index " : Text) ++ Text.ofInt i.toInt ++
        (" out of bounds (len " : Text) ++ Text.ofNat items.length ++ [')'])
  | .object m, .string k =>
    match Dict.find k m with
    | some v => .ok v
    | none => .error (("subscript: key \"" : Text) ++ k ++ ("\" not found" : Text))
  | .object m, .int i =>
    match Dict.find (Text.ofInt i.toInt) m with
    | some v => .ok v
    | none => .error (("subscript: key \"" : Text) ++ Text.ofInt i.toInt ++
        ("\" not found" : Text))
  | .array _, .string k =>
    .error (("subscript: array cannot be indexed by string \"" : Text) ++ k ++ ['"'])
  | .null, _ => .error "subscript: cannot subscript null"
  | v, _ => .error (("subscript: cannot subscript value of type " : Text) ++ typeName v)

/-- `resolve_numeric`, with the evaluator as an argument. -/
def resolveNumericWith (eval : Text → Except Text Value) (key : Text) : Option Int64 :=
  match Text.parseI64 key with
  | some n => some n
  | none =>
    match (ctx.get key).bind Value.asF64 with
    | some f => some f.toI64
    | none =>
      if key.elem '.' || key.elem '[' || key.elem '(' then
        match eval key with
        | .ok v => v.asF64.map F64.toI64
        | .error _ => none
      else none

/-- The binary operators in the order the evaluator tries them. -/
def binaryOps : List Char := ['+', '-', '*', '/']

/-- The first operator whose two sides are numeric and whose result fits. -/
def evalArithmetic (eval : Text → Except Text Value) (expr : Text) : Option Int64 :=
  binaryOps.findSome? fun op =>
    match splitBinary op expr with
    | some (l, r) =>
      match resolveNumericWith ctx eval l, resolveNumericWith ctx eval r with
      | some a, some b => arithmetic op a b
      | _, _ => none
    | none => none

/-- String concatenation at the first `+`, when both sides evaluate and one has a text. -/
def evalConcat (eval : Text → Except Text Value) (expr : Text) : Option Value :=
  match splitBinary '+' expr with
  | some (l, r) =>
    match eval l, eval r with
    | .ok a, .ok b =>
      match concatPart a, concatPart b with
      | none, none => none
      | sa, sb => some (.string (sa.getD [] ++ sb.getD []))
    | _, _ => none
  | none => none

/-- Follow an accessor chain. A failed step gives `quotedFail`; a subscript that does
not evaluate is an error. -/
def followAccessors (eval : Text → Except Text Value) (quotedFail : Text → Except Text Value)
    (expr : Text) : List Accessor → Value → Except Text Value
  | [], v => .ok v
  | .field name :: accs, v =>
    match accessField name v with
    | some v' => followAccessors eval quotedFail expr accs v'
    | none => quotedFail (cannotEvaluate expr)
  | .index key :: accs, v =>
    match eval key with
    | .error e => .error e
    | .ok k =>
      match accessIndex v k with
      | .ok v' => followAccessors eval quotedFail expr accs v'
      | .error msg => quotedFail msg

/-- The arguments of `range(..)` evaluated one by one. -/
def evalRangeArgs (eval : Text → Except Text Value) : List Text → Except Text (List Int64)
  | [] => .ok []
  | a :: as =>
    match eval a with
    | .error e => .error e
    | .ok (.int i) => (evalRangeArgs eval as).map (i :: ·)
    | .ok (.float f) => (evalRangeArgs eval as).map (f.toI64 :: ·)
    | .ok v => .error (("range() arguments must be integers, got: " : Text) ++ typeName v)

def evalRange (eval : Text → Except Text Value) (expr argsStr : Text) : Except Text Value :=
  let args := ((splitTopLevelCommas argsStr).map Text.trim).filter (fun a => !a.isEmpty)
  match args.mapM Text.parseI64 with
  | some nums => rangeBound expr (cannotEvaluate expr) nums
  | none =>
    match evalRangeArgs eval args with
    | .error e => .error e
    | .ok vals => rangeBound expr "range() step must be a positive integer" vals

def evalLen (eval : Text → Except Text Value) (arg : Text) : Except Text Value :=
  match eval arg with
  | .error e => .error e
  | .ok (.array a) => .ok (.int (Int64.ofNat a.length))
  | .ok (.string s) => .ok (.int (Int64.ofNat s.length))
  | .ok (.object m) => .ok (.int (Int64.ofNat m.length))
  | .ok v => .error (("len() requires an array, string or object, got: " : Text) ++ typeName v)

/-- The pairs of a dict literal, later keys over earlier ones. -/
def evalDict (eval : Text → Except Text Value) (expr : Text) :
    List Text → List (Text × Value) → Except Text Value
  | [], m => .ok (.object m)
  | pair :: pairs, m =>
    match Text.splitOnce [':'] pair with
    | none => .error (cannotEvaluate expr)
    | some (k, v) =>
      let key := trimQuotes (Text.trim k)
      if key.isEmpty then .error (cannotEvaluate expr)
      else match eval (Text.trim v) with
        | .error e => .error e
        | .ok value => evalDict eval expr pairs (Dict.put key value m)

/-- `f(..)` whose matching bracket is the last character, with the text between. -/
def wholeCall (name : Text) (expr : Text) : Option Text :=
  match Text.stripPrefix name expr with
  | some rest => match findMatchingBracket 1 none rest with
    | some (inner, []) => some inner
    | _ => none
  | none => none

def constant (expr : Text) : Option Value :=
  if expr = ("true" : Text) ∨ expr = ("True" : Text) then some (.bool true)
  else if expr = ("false" : Text) ∨ expr = ("False" : Text) then some (.bool false)
  else if expr = ("null" : Text) ∨ expr = ("None" : Text) then some .null
  else none

/-- What follows `not ` or `!`. -/
def stripNot (expr : Text) : Option Text :=
  (Text.stripPrefix "not " expr).or (Text.stripPrefix ['!'] expr)

/-- A name in the context (a leading `$` is dropped), or a node index among the outputs. -/
def lookupName (expr : Text) : Option Value :=
  let clean := (Text.stripPrefix ['$'] expr).getD expr
  (ctx.get clean).or ((Text.parseUnsigned 32 clean).bind outputs)

/-- The last branches of the evaluator: arithmetic, concatenation, accessors. -/
def evalCompound (eval : Text → Except Text Value) (wasQuoted : Bool) (expr : Text) :
    Except Text Value :=
  match evalArithmetic ctx eval expr with
  | some i => .ok (.int i)
  | none =>
    match evalConcat eval expr with
    | some v => .ok v
    | none =>
      let quotedFail (msg : Text) : Except Text Value :=
        if wasQuoted then .ok (.string expr) else .error msg
      match splitAccessors expr with
      | some (base, accs) =>
        match eval base with
        | .error _ => quotedFail (cannotEvaluate expr)
        | .ok v => followAccessors eval quotedFail expr accs v
      | none => quotedFail (cannotEvaluate expr)

/-- From the comparison operators on: comparison, number, name, compound expression. -/
def evalOperators (eval : Text → Except Text Value) (wasQuoted : Bool) (expr : Text) :
    Except Text Value :=
  match splitComparison expr with
  | some (op, left, right) =>
    match eval left with
    | .error e => .error e
    | .ok lv =>
      match eval right with
      | .error e => .error e
      | .ok rv => .ok (.bool (applyComparison op lv rv))
  | none =>
    match Text.parseI64 expr with
    | some n => .ok (.int n)
    | none =>
      match F64.parse expr with
      | some f => .ok (.float f)
      | none =>
        match lookupName ctx outputs expr with
        | some v => .ok v
        | none => evalCompound ctx eval wasQuoted expr

/-- The body of `eval_expression`, with the recursive call as an argument. -/
def evalStep (eval : Text → Except Text Value) (text : Text) : Except Text Value :=
  let trimmed := Text.trim text
  let (expr, wasQuoted) := decodeQuoted trimmed
  if expr.isEmpty then .ok .null
  else match wholeCall "range(" expr with
    | some argsStr => evalRange eval expr argsStr
    | none =>
      match (if wasQuoted then none else wholeCall "len(" expr).map Text.trim with
      | some (c :: arg) => evalLen eval (c :: arg)
      | _ =>
        match constant expr with
        | some v => .ok v
        | none =>
          if trimmed.head? == some '{' && trimmed.getLast? == some '}' then
            let inner := (trimmed.drop 1).dropLast
            if (Text.trim inner).isEmpty then .ok (.object [])
            else evalDict eval expr (splitTopLevelCommas inner) []
          else match stripNot expr with
            | some rest =>
              match eval (Text.trim rest) with
              | .error e => .error e
              | .ok v => .ok (.bool (!isTruthy v))
            | none => evalOperators ctx outputs eval wasQuoted expr

/-- Every recursive call is on a shorter text, so the length bounds the depth. -/
def evalFuel : Nat → Text → Except Text Value
  | 0, _ => .error "expression too deep"
  | n + 1, text => evalStep ctx outputs (evalFuel n) text

def evalExpression (text : Text) : Except Text Value := evalFuel ctx outputs (text.length + 1) text

def resolveNumeric (key : Text) : Option Int64 :=
  resolveNumericWith ctx (evalExpression ctx outputs) key

def resolveArgValue (valueStr : Text) : Value :=
  let s := Text.trim valueStr
  let quoted := s.head? == some '"' && s.getLast? == some '"'
  if quoted && !isConcatExpr s then .string (trimQuotes s)
  else
    let clean := trimQuotes s
    match ctx.get clean with
    | some v => v
    | none =>
      match (if isConcatExpr s then (evalExpression ctx outputs s).toOption else none) with
      | some v => v
      | none =>
        if quoted then .string clean
        else match Text.parseI64 s with
          | some n => .int n
          | none =>
            match F64.parse s with
            | some f => .float f
            | none =>
              if s = ("true" : Text) then .bool true
              else if s = ("false" : Text) then .bool false
              else if s = ("null" : Text) then .null
              else match ctx.get s with
                | some v => v
                | none =>
                  match evalExpression ctx outputs s with
                  | .ok v => v
                  | .error _ => .string s

end Eval

end Tinypipe
