import Tinypipe.Lib.Text
import Tinypipe.Lib.Float64

/-! The Python syntax tree the compiler works on (`rustpython_parser::ast`), without
source positions. A program here is a parsed module. -/

namespace Tinypipe.Ast

open Lib

inductive Constant where
  | none
  | bool (b : Bool)
  | str (s : Text)
  /-- the bytes, as their lossy UTF-8 text -/
  | bytes (s : Text)
  | int (i : Int)
  | tuple (items : List Constant)
  | float (f : F64)
  | complex (real imag : F64)
  | ellipsis

inductive BoolOp where
  | and | or
deriving DecidableEq

inductive Operator where
  | add | sub | mult | matMult | div | mod | pow | lShift | rShift | bitOr | bitXor | bitAnd
  | floorDiv
deriving DecidableEq

inductive UnaryOp where
  | invert | not | uAdd | uSub
deriving DecidableEq

inductive CmpOp where
  | eq | notEq | lt | ltE | gt | gtE | is | isNot | in | notIn
deriving DecidableEq

mutual

inductive Expr where
  | boolOp (op : BoolOp) (values : List Expr)
  | namedExpr (target value : Expr)
  | binOp (left : Expr) (op : Operator) (right : Expr)
  | unaryOp (op : UnaryOp) (operand : Expr)
  | lambda (args : Arguments) (body : Expr)
  | ifExp (test body orelse : Expr)
  | dict (keys : List (Option Expr)) (values : List Expr)
  | set (elts : List Expr)
  | listComp (elt : Expr) (generators : List Comprehension)
  | setComp (elt : Expr) (generators : List Comprehension)
  | dictComp (key value : Expr) (generators : List Comprehension)
  | generatorExp (elt : Expr) (generators : List Comprehension)
  | await (value : Expr)
  | yield (value : Option Expr)
  | yieldFrom (value : Expr)
  | compare (left : Expr) (ops : List CmpOp) (comparators : List Expr)
  | call (func : Expr) (args : List Expr) (keywords : List Keyword)
  | formattedValue (value : Expr) (formatSpec : Option Expr)
  | joinedStr (values : List Expr)
  | constant (value : Constant)
  | attribute (value : Expr) (attr : Text)
  | subscript (value slice : Expr)
  | starred (value : Expr)
  | name (id : Text)
  | list (elts : List Expr)
  | tuple (elts : List Expr)
  | slice (lower upper step : Option Expr)

inductive Comprehension where
  | mk (target iter : Expr) (ifs : List Expr)

inductive Keyword where
  | mk (arg : Option Text) (value : Expr)

inductive ArgDef where
  | mk (arg : Text) ( annotation default : Option Expr)

inductive Arguments where
  | mk (posonlyargs args kwonlyargs : List ArgDef) (vararg kwarg : Option ArgDef)

end

def Keyword.arg : Keyword → Option Text
  | mk a _ => a

def Keyword.value : Keyword → Expr
  | mk _ v => v

def ArgDef.arg : ArgDef → Text
  | mk a _ _ => a

def Arguments.args : Arguments → List ArgDef
  | mk _ as _ _ _ => as

def Arguments.posonlyargs : Arguments → List ArgDef
  | mk as _ _ _ _ => as

inductive Pattern where
  | matchValue (value : Expr)
  | matchSingleton (value : Constant)
  | matchSequence (patterns : List Pattern)
  | matchMapping (keys : List Expr) (patterns : List Pattern) (rest : Option Text)
  | matchClass (cls : Expr) (patterns : List Pattern) (kwdAttrs : List Text)
      (kwdPatterns : List Pattern)
  | matchStar (name : Option Text)
  | matchAs (pattern : Option Pattern) (name : Option Text)
  | matchOr (patterns : List Pattern)

structure WithItem where
  contextExpr : Expr
  optionalVars : Option Expr

inductive TypeParam where
  | typeVar (name : Text) (bound : Option Expr)
  | paramSpec (name : Text)
  | typeVarTuple (name : Text)

mutual

inductive Stmt where
  | functionDef (name : Text) (args : Arguments) (body : List Stmt) (decoratorList : List Expr)
      (returns : Option Expr) (typeParams : List TypeParam)
  | asyncFunctionDef (name : Text) (args : Arguments) (body : List Stmt)
      (decoratorList : List Expr) (returns : Option Expr) (typeParams : List TypeParam)
  | classDef (name : Text) (bases : List Expr) (keywords : List Keyword) (body : List Stmt)
      (decoratorList : List Expr) (typeParams : List TypeParam)
  | return (value : Option Expr)
  | delete (targets : List Expr)
  | assign (targets : List Expr) (value : Expr)
  | typeAlias (name : Expr) (typeParams : List TypeParam) (value : Expr)
  | augAssign (target : Expr) (op : Operator) (value : Expr)
  | annAssign (target annotation : Expr) (value : Option Expr)
  | for (target iter : Expr) (body orelse : List Stmt)
  | asyncFor (target iter : Expr) (body orelse : List Stmt)
  | while (test : Expr) (body orelse : List Stmt)
  | if (test : Expr) (body orelse : List Stmt)
  | with (items : List WithItem) (body : List Stmt)
  | asyncWith (items : List WithItem) (body : List Stmt)
  | match (subject : Expr) (cases : List MatchCase)
  | raise (exc cause : Option Expr)
  | try (body : List Stmt) (handlers : List ExceptHandler) (orelse finalbody : List Stmt)
  | tryStar (body : List Stmt) (handlers : List ExceptHandler) (orelse finalbody : List Stmt)
  | assert (test : Expr) (msg : Option Expr)
  | import (names : List Text)
  | importFrom (module : Option Text) (names : List Text)
  | global (names : List Text)
  | nonlocal (names : List Text)
  | expr (value : Expr)
  | pass
  | break
  | continue

inductive MatchCase where
  | mk (pattern : Pattern) (guard : Option Expr) (body : List Stmt)

inductive ExceptHandler where
  | mk (type : Option Expr) (name : Option Text) (body : List Stmt)

end

structure Module where
  body : List Stmt

end Tinypipe.Ast
