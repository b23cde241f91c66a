import Tinypipe.Api.Types

/-! The JSON texts the VM reads and writes: `serde_json`'s string and value
grammar, and the compact rendering of a value. -/

namespace Tinypipe

open Lib

namespace Json

inductive Number where
  | posInt (n : Nat)
  | negInt (i : Int)
  | float (f : F64)

end Json

/-- `serde_json::Value` -/
inductive Json where
  | null
  | bool (b : Bool)
  | number (n : Json.Number)
  | string (s : Text)
  | array (items : List Json)
  | object (m : List (Text × Json))

namespace Json

def isSpace (c : Char) : Bool := c == ' ' || c == '\n' || c == '\t' || c == '\r'

def hexDigit (c : Char) : Option Nat :=
  if '0' ≤ c ∧ c ≤ '9' then some (c.toNat - 48)
  else if 'a' ≤ c ∧ c ≤ 'f' then some (c.toNat - 87)
  else if 'A' ≤ c ∧ c ≤ 'F' then some (c.toNat - 55)
  else none

def hex4 (a b c d : Char) : Option Nat := do
  let a ← hexDigit a
  let b ← hexDigit b
  let c ← hexDigit c
  let d ← hexDigit d
  some (((a * 16 + b) * 16 + c) * 16 + d)

def simpleEscape : Char → Option Char
  | '"' => some '"'
  | '\\' => some '\\'
  | '/' => some '/'
  | 'b' => some (Char.ofNat 8)
  | 'f' => some (Char.ofNat 12)
  | 'n' => some '\n'
  | 'r' => some '\r'
  | 't' => some '\t'
  | _ => none

/-- The characters of a string up to its closing quote, and what follows the quote. -/
def stringBody : Text → Option (Text × Text)
  | [] => none
  | '"' :: rest => some ([], rest)
  | '\\' :: 'u' :: a :: b :: c :: d :: '\\' :: 'u' :: a' :: b' :: c' :: d' :: rest =>
    match hex4 a b c d with
    | none => none
    | some hi =>
      if 0xD800 ≤ hi ∧ hi < 0xDC00 then
        match hex4 a' b' c' d' with
        | some lo =>
          if 0xDC00 ≤ lo ∧ lo < 0xE000 then
            (stringBody rest).map fun p =>
              (Char.ofNat (0x10000 + (hi - 0xD800) * 1024 + (lo - 0xDC00)) :: p.1, p.2)
          else none
        | none => none
      else if 0xDC00 ≤ hi ∧ hi < 0xE000 then none
      else
        (stringBody ('\\' :: 'u' :: a' :: b' :: c' :: d' :: rest)).map fun p =>
          (Char.ofNat hi :: p.1, p.2)
  | '\\' :: 'u' :: a :: b :: c :: d :: rest =>
    match hex4 a b c d with
    | none => none
    | some n =>
      if 0xD800 ≤ n ∧ n < 0xE000 then none
      else (stringBody rest).map fun p => (Char.ofNat n :: p.1, p.2)
  | '\\' :: e :: rest =>
    match simpleEscape e with
    | some c => (stringBody rest).map fun p => (c :: p.1, p.2)
    | none => none
  | c :: rest =>
    if c.toNat < 0x20 ∨ c = '\\' then none
    else (stringBody rest).map fun p => (c :: p.1, p.2)

/-- `serde_json::from_str::<String>` -/
def fromStrString (t : Text) : Option Text :=
  match t.dropWhile isSpace with
  | '"' :: rest =>
    match stringBody rest with
    | some (s, tail) => if tail.all isSpace then some s else none
    | none => none
  | _ => none

/-- An unsigned JSON integer without superfluous leading zeros. -/
def wholePart (t : Text) : Option (Text × Text) :=
  match t.span Text.isDigit with
  | ([], _) => none
  | (['0'], rest) => some (['0'], rest)
  | ('0' :: _, _) => none
  | p => some p

/-- The fraction and the exponent, as written. -/
def fractionPart : Text → Option (Text × Text)
  | '.' :: rest => match rest.span Text.isDigit with
    | ([], _) => none
    | (ds, rest) => some ('.' :: ds, rest)
  | rest => some ([], rest)

def exponentPart : Text → Option (Text × Text)
  | e :: rest =>
    if e = 'e' ∨ e = 'E' then
      let (sign, rest) : Text × Text := match rest with
        | '+' :: r => ([], r)
        | '-' :: r => (['-'], r)
        | r => ([], r)
      match rest.span Text.isDigit with
      | ([], _) => none
      | (ds, rest) => some ('e' :: sign ++ ds, rest)
    else some ([], e :: rest)
  | [] => some ([], [])

/-- An integer is kept as one while it fits `u64` or `i64`; anything else is a
double, and one out of range is refused. -/
def parseNumber (neg : Bool) (t : Text) : Option (Number × Text) := do
  let (whole, rest) ← wholePart t
  let (frac, rest) ← fractionPart rest
  let (ex, rest) ← exponentPart rest
  let float := do
    let f ← F64.parseDecimal neg (whole ++ frac ++ ex)
    if f.isFinite then some (.float f, rest) else none
  if frac.isEmpty && ex.isEmpty then
    match Text.parseNat whole with
    | some n =>
      if !neg && n < 2 ^ 64 then some (.posInt n, rest)
      else if neg && n != 0 && n ≤ 2 ^ 63 then some (.negInt (-(n : Int)), rest)
      else float
    | none => none
  else float

def insertKey (k : Text) (v : Json) (m : List (Text × Json)) : List (Text × Json) := Dict.put k v m

mutual

/-- A value and the text after it. `depth` is `serde_json`'s recursion limit; the
first argument bounds the recursion by the length of the text. -/
def parseValue : Nat → Nat → Text → Option (Json × Text)
  | 0, _, _ => none
  | n + 1, depth, t =>
    match t.dropWhile isSpace with
    | 'n' :: 'u' :: 'l' :: 'l' :: rest => some (.null, rest)
    | 't' :: 'r' :: 'u' :: 'e' :: rest => some (.bool true, rest)
    | 'f' :: 'a' :: 'l' :: 's' :: 'e' :: rest => some (.bool false, rest)
    | '"' :: rest => (stringBody rest).map fun p => (.string p.1, p.2)
    | '-' :: rest => (parseNumber true rest).map fun p => (.number p.1, p.2)
    | '[' :: rest =>
      if depth ≤ 1 then none
      else match rest.dropWhile isSpace with
        | ']' :: rest => some (.array [], rest)
        | rest => (parseItems n (depth - 1) rest).map fun p => (.array p.1, p.2)
    | '{' :: rest =>
      if depth ≤ 1 then none
      else match rest.dropWhile isSpace with
        | '}' :: rest => some (.object [], rest)
        | rest => (parseMembers n (depth - 1) [] rest).map fun p => (.object p.1, p.2)
    | rest => (parseNumber false rest).map fun p => (.number p.1, p.2)

def parseItems : Nat → Nat → Text → Option (List Json × Text)
  | 0, _, _ => none
  | n + 1, depth, t =>
    match parseValue n depth t with
    | none => none
    | some (v, rest) =>
      match rest.dropWhile isSpace with
      | ']' :: rest => some ([v], rest)
      | ',' :: rest => (parseItems n depth rest).map fun p => (v :: p.1, p.2)
      | _ => none

def parseMembers : Nat → Nat → List (Text × Json) → Text → Option (List (Text × Json) × Text)
  | 0, _, _, _ => none
  | n + 1, depth, m, t =>
    match t.dropWhile isSpace with
    | '"' :: rest =>
      match stringBody rest with
      | none => none
      | some (k, rest) =>
        match rest.dropWhile isSpace with
        | ':' :: rest =>
          match parseValue n depth rest with
          | none => none
          | some (v, rest) =>
            match rest.dropWhile isSpace with
            | '}' :: rest => some (insertKey k v m, rest)
            | ',' :: rest => parseMembers n depth (insertKey k v m) rest
            | _ => none
        | _ => none
    | _ => none

end

/-- `serde_json::from_str::<serde_json::Value>` -/
def fromStr (t : Text) : Option Json :=
  match parseValue (2 * t.length + 2) 128 t with
  | some (v, rest) => if rest.all isSpace then some v else none
  | none => none

def escapeChar (c : Char) : Text :=
  if c = '"' then ['\\', '"']
  else if c = '\\' then ['\\', '\\']
  else if c = '\n' then ['\\', 'n']
  else if c = '\r' then ['\\', 'r']
  else if c = '\t' then ['\\', 't']
  else if c.toNat = 8 then ['\\', 'b']
  else if c.toNat = 12 then ['\\', 'f']
  else if c.toNat < 0x20 then
    ['\\', 'u', '0', '0', Nat.digitChar (c.toNat / 16), Nat.digitChar (c.toNat % 16)]
  else [c]

def quote (s : Text) : Text := '"' :: (s.flatMap escapeChar ++ ['"'])

end Json

namespace Value

mutual

/-- `serde_json::to_string` of a value. -/
def toJsonText : Value → Text
  | null => "null"
  | bool b => if b then "true" else "false"
  | int i => Text.ofInt i.toInt
  | float f => f.toJson
  | string s => Json.quote s
  | array items => '[' :: (Text.intercalate [','] (itemsJson items) ++ [']'])
  | object m => '{' :: (Text.intercalate [','] (entriesJson m) ++ ['}'])

def itemsJson : List Value → List Text
  | [] => []
  | v :: vs => toJsonText v :: itemsJson vs

def entriesJson : List (Text × Value) → List Text
  | [] => []
  | (k, v) :: es => (Json.quote k ++ ':' :: toJsonText v) :: entriesJson es

end

end Value

mutual

/-- `json_to_tp` -/
def jsonToTp : Json → Value
  | .null => .null
  | .bool b => .bool b
  | .number (.posInt n) =>
    if n < 2 ^ 63 then .int (Int64.ofNat n) else .float (F64.ofInt n)
  | .number (.negInt i) => .int (Int64.ofInt i)
  | .number (.float f) => .float f
  | .string s => .string s
  | .array items => .array (jsonItems items)
  | .object m => .object (jsonEntries m)

def jsonItems : List Json → List Value
  | [] => []
  | j :: js => jsonToTp j :: jsonItems js

def jsonEntries : List (Text × Json) → List (Text × Value)
  | [] => []
  | (k, j) :: es => (k, jsonToTp j) :: jsonEntries es

end

namespace Context

def entryBytes (e : Text × Value) : Nat := Text.utf8Len e.1 + Text.utf8Len e.2.toJsonText

def estimatedBytes (c : Context) : Nat :=
  (c.vars.entries.map entryBytes).sum +
    ((c.branchScopes.entries.map fun e => (e.2.vars.entries.map entryBytes).sum)).sum

end Context

end Tinypipe
