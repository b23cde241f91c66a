import Tinypipe.Compiler.Ast
import Tinypipe.Ir.Plan

/-! Expressions as text, and the helpers of the transformer that only read the tree
(`tinypipe-compiler/src/transform.rs`). -/

namespace Tinypipe

open Lib Ast

def operatorText : Operator → Text
  | .add => "+"
  | .sub => "-"
  | .mult => "*"
  | .div => "/"
  | .mod => "%"
  | .pow => "**"
  | .lShift => "<<"
  | .rShift => ">>"
  | .bitOr => "|"
  | .bitXor => "^"
  | .bitAnd => "&"
  | .floorDiv => "//"
  | .matMult => "@"

def unaryText : UnaryOp → Text
  | .not => "not "
  | .uSub => "-"
  | .uAdd => "+"
  | .invert => "~"

def cmpText : CmpOp → Text
  | .eq => " == "
  | .notEq => " != "
  | .lt => " < "
  | .ltE => " <= "
  | .gt => " > "
  | .gtE => " >= "
  | .is => " is "
  | .isNot => " is not "
  | .in => " in "
  | .notIn => " not in "

def boolOpText : BoolOp → Text
  | .and => " and "
  | .or => " or "

mutual

def formatConstant : Constant → Text
  | .none => "None"
  | .bool b => if b then "true" else "false"
  | .int i => Text.ofInt i
  | .float f => f.toText
  | .complex re im => re.toText ++ '+' :: im.toText ++ ['j']
  | .str s => '"' :: s ++ ['"']
  | .bytes s => 'b' :: '"' :: s ++ ['"']
  | .ellipsis => "..."
  | .tuple items => '(' :: Text.intercalate [',', ' '] (formatConstants items) ++ [')']

def formatConstants : List Constant → List Text
  | [] => []
  | c :: cs => formatConstant c :: formatConstants cs

end

/-- The name a call is written with: a plain name, or the last attribute. -/
def calleeNameStr : Expr → Option Text
  | .name id => some id
  | .attribute _ attr => some attr
  | _ => none

def isNameCall (e : Expr) (name : Text) : Bool :=
  match e with
  | .call (.name id) _ _ => id == name
  | _ => false

mutual

def formatExpr : Expr → Text
  | .constant c => formatConstant c
  | .name id => id
  | .attribute v attr => formatExpr v ++ '.' :: attr
  | .subscript v s => formatExpr v ++ '[' :: formatExpr s ++ [']']
  | .call func args keywords =>
    (calleeNameStr func).getD ['?'] ++ '(' ::
      Text.intercalate [',', ' '] (formatExprs args ++ formatKeywords keywords) ++ [')']
  | .binOp l op r => formatExpr l ++ ' ' :: operatorText op ++ ' ' :: formatExpr r
  | .unaryOp op e => unaryText op ++ formatExpr e
  | .boolOp op values => Text.intercalate (boolOpText op) (formatExprs values)
  | .compare l ops comparators =>
    formatExpr l ++ Text.concat (List.zipWith (fun op t => cmpText op ++ t) ops
      (formatExprs comparators))
  | .ifExp test body orelse =>
    formatExpr body ++ (" if " : Text) ++ formatExpr test ++ (" else " : Text) ++ formatExpr orelse
  | .list elts => '[' :: Text.intercalate [',', ' '] (formatExprs elts) ++ [']']
  | .tuple elts => match formatExprs elts with
    | [t] => '(' :: t ++ [',', ')']
    | ts => '(' :: Text.intercalate [',', ' '] ts ++ [')']
  | .dict keys values =>
    '{' :: Text.intercalate [',', ' ']
      (List.zipWith (fun k v => k ++ ':' :: ' ' :: v) (formatKeys keys) (formatExprs values)) ++ ['}']
  | .set elts => '{' :: Text.intercalate [',', ' '] (formatExprs elts) ++ ['}']
  | .slice lower upper step =>
    formatOption [] lower ++ ':' :: formatOption [] upper ++ formatOption [':'] step
  | .joinedStr values => Text.concat (formatExprs values)
  | .formattedValue v _ => formatExpr v
  | .namedExpr target v => formatExpr target ++ (" := " : Text) ++ formatExpr v
  | .starred v => '*' :: formatExpr v
  | .lambda _ _ => "<lambda>"
  | .listComp elt _ => '[' :: formatExpr elt ++ (" for ...]" : Text)
  | .setComp elt _ => '{' :: formatExpr elt ++ (" for ...\x7d" : Text)
  | .dictComp k v _ => '{' :: formatExpr k ++ ':' :: ' ' :: formatExpr v ++ (" for ...\x7d" : Text)
  | .generatorExp elt _ => '(' :: formatExpr elt ++ (" for ...)" : Text)
  | .await v => ("await " : Text) ++ formatExpr v
  | .yield (some v) => ("yield " : Text) ++ formatExpr v
  | .yield none => "yield"
  | .yieldFrom v => ("yield from " : Text) ++ formatExpr v

def formatExprs : List Expr → List Text
  | [] => []
  | e :: es => formatExpr e :: formatExprs es

def formatKeywords : List Keyword → List Text
  | [] => []
  | .mk arg v :: ks => (arg.getD [] ++ '=' :: formatExpr v) :: formatKeywords ks

def formatKeys : List (Option Expr) → List Text
  | [] => []
  | some k :: ks => formatExpr k :: formatKeys ks
  | none :: ks => [] :: formatKeys ks

/-- An optional part with the text before it. -/
def formatOption (before : Text) : Option Expr → Text
  | some e => before ++ formatExpr e
  | none => []

end

mutual

/-- The names `wire_expr_dependencies` meets, in order. -/
def exprNames : Expr → List Text
  | .name id => [id]
  | .attribute v _ => exprNames v
  | .subscript v s => exprNames v ++ exprNames s
  | .call func args keywords => exprNames func ++ namesOf args ++ keywordNames keywords
  | .boolOp _ values => namesOf values
  | .binOp l _ r => exprNames l ++ exprNames r
  | .unaryOp _ e => exprNames e
  | .compare l _ comparators => exprNames l ++ namesOf comparators
  | .ifExp test body orelse => exprNames test ++ exprNames body ++ exprNames orelse
  | .list elts | .tuple elts | .set elts => namesOf elts
  | .dict keys values => keyNames keys ++ namesOf values
  | .joinedStr values => namesOf values
  | .formattedValue v _ => exprNames v
  | .starred v => exprNames v
  | .constant _ | .slice _ _ _ => []
  | .namedExpr _ _ | .lambda _ _ | .listComp _ _ | .setComp _ _ | .dictComp _ _ _
  | .generatorExp _ _ | .await _ | .yield _ | .yieldFrom _ => []

def namesOf : List Expr → List Text
  | [] => []
  | e :: es => exprNames e ++ namesOf es

def keywordNames : List Keyword → List Text
  | [] => []
  | .mk _ v :: ks => exprNames v ++ keywordNames ks

def keyNames : List (Option Expr) → List Text
  | [] => []
  | some k :: ks => exprNames k ++ keyNames ks
  | none :: ks => keyNames ks

end

def allowedBuiltins : List Text :=
  ["len", "range", "int", "str", "float", "bool", "list", "dict", "tuple", "set", "min", "max",
   "sum", "abs", "round", "print", "isinstance", "type", "reversed", "enumerate", "zip",
   "sorted", "any", "all"]

/-- The constant stop of `range(stop)`, else 100. -/
def inferRangeMax (e : Expr) : Int :=
  match e with
  | .call (.name id) [.constant (.int i)] _ =>
    if id = ("range" : Text) then
      if -2 ^ 63 ≤ i ∧ i < 2 ^ 63 then i else 100
    else 100
  | _ => 100

/-- The title of `with GROUP(..)`. -/
def groupTitleFromCall : Expr → Text
  | .call _ (.constant (.str s) :: _) _ => s
  | _ => []

def intJson (i : Int) : Json :=
  match Json.parseNumber (i < 0) (Text.ofNat i.natAbs) with
  | some (n, _) => .number n
  | none => .null

def floatJson (f : F64) : Json := if f.isFinite then .number (.float f) else .null

mutual

/-- `meta_expr_to_json`. A negative integer is encoded without its sign. -/
def metaExprToJson : Expr → Json
  | .constant c => match c with
    | .none => .null
    | .bool b => .bool b
    | .int i => intJson i
    | .float f => floatJson f
    | .str s => .string s
    | _ => .null
  | .unaryOp .uSub (.constant c) => match c with
    | .int i => intJson i
    | .float f => floatJson f.neg
    | _ => .null
  | .list elts | .tuple elts => .array (metaItems elts)
  | _ => .null

def metaItems : List Expr → List Json
  | [] => []
  | e :: es => metaExprToJson e :: metaItems es

end

namespace Json

def numberText : Number → Text
  | .posInt n => Text.ofNat n
  | .negInt i => Text.ofInt i
  | .float f => f.toJson

mutual

/-- `serde_json::Value::to_string` -/
def toText : Json → Text
  | .null => "null"
  | .bool b => if b then "true" else "false"
  | .number n => numberText n
  | .string s => quote s
  | .array items => '[' :: Text.intercalate [','] (itemTexts items) ++ [']']
  | .object m => '{' :: Text.intercalate [','] (entryTexts m) ++ ['}']

def itemTexts : List Json → List Text
  | [] => []
  | j :: js => toText j :: itemTexts js

def entryTexts : List (Text × Json) → List Text
  | [] => []
  | (k, j) :: es => (quote k ++ ':' :: toText j) :: entryTexts es

end

/-- Keys in ascending order of their code points, as `serde_json::Map` keeps them. -/
def sortKeys (m : List (Text × Json)) : List (Text × Json) :=
  m.insertionSort fun a b => a.1.map Char.toNat ≤ b.1.map Char.toNat

end Json

/-- The JSON of a module-level `META(..)`; `none` for any other expression. -/
def extractMeta (e : Expr) : Option Text :=
  match e with
  | .call (.name id) _ keywords =>
    if id = ("META" : Text) then
      let m := keywords.foldl (fun m kw => match kw with
        | .mk (some k) v => Dict.put k (metaExprToJson v) m
        | .mk none _ => m) []
      some (Json.toText (.object (Json.sortKeys m)))
    else none
  | _ => none

end Tinypipe
