import Tinypipe.Compiler.Format
import Tinypipe.Server.Engine

/-! What the handler of published routes reads and writes (`tinypipe-server/src/routes.rs`): the
inputs in a query or a body, and JSON as bytes. -/

namespace Tinypipe

open Lib

/-! ### UTF-8 -/

namespace Utf8

def encode (t : Text) : List UInt8 := t.flatMap String.utf8EncodeChar

/-- The ranges of the bytes that follow a first byte. -/
def continuation (b : UInt8) : List (UInt8 × UInt8) :=
  if 0xC2 ≤ b ∧ b ≤ 0xDF then [(0x80, 0xBF)]
  else if b = 0xE0 then [(0xA0, 0xBF), (0x80, 0xBF)]
  else if b = 0xED then [(0x80, 0x9F), (0x80, 0xBF)]
  else if 0xE1 ≤ b ∧ b ≤ 0xEF then [(0x80, 0xBF), (0x80, 0xBF)]
  else if b = 0xF0 then [(0x90, 0xBF), (0x80, 0xBF), (0x80, 0xBF)]
  else if b = 0xF4 then [(0x80, 0x8F), (0x80, 0xBF), (0x80, 0xBF)]
  else if 0xF1 ≤ b ∧ b ≤ 0xF3 then [(0x80, 0xBF), (0x80, 0xBF), (0x80, 0xBF)]
  else []

/-- The number that a first byte begins. -/
def leading (b : UInt8) : Nat → Nat
  | 1 => b.toNat - 0xC0
  | 2 => b.toNat - 0xE0
  | _ => b.toNat - 0xF0

/-- The rest of a sequence, as far as it is there. -/
def follow : List (UInt8 × UInt8) → Nat → List UInt8 → Option Nat × List UInt8
  | [], n, rest => (some n, rest)
  | (lo, hi) :: more, n, b :: rest =>
    if lo ≤ b ∧ b ≤ hi then follow more (n * 64 + (b.toNat - 0x80)) rest else (none, b :: rest)
  | _ :: _, _, [] => (none, [])

/-- The characters, and `none` for every sequence that is none. The first argument bounds the
recursion by the number of bytes. -/
def chunks : Nat → List UInt8 → List (Option Char)
  | _, [] => []
  | 0, _ => []
  | n + 1, b :: rest =>
    if b < 0x80 then some (Char.ofNat b.toNat) :: chunks n rest
    else match continuation b with
      | [] => none :: chunks n rest
      | ranges =>
        let (code, rest) := follow ranges (leading b ranges.length) rest
        code.map Char.ofNat :: chunks n rest

/-- `String::from_utf8_lossy` -/
def decodeLossy (bytes : List UInt8) : Text :=
  (chunks bytes.length bytes).map fun c => c.getD (Char.ofNat 0xFFFD)

/-- `std::str::from_utf8` -/
def decode (bytes : List UInt8) : Option Text := (chunks bytes.length bytes).mapM id

end Utf8

/-! ### JSON -/

namespace Json

mutual

/-- A map keeps its entries in the order of their keys. -/
def ordered : Json → Json
  | null => null
  | bool b => bool b
  | number n => number n
  | string s => string s
  | array items => array (orderedItems items)
  | object m => object (sortKeys (orderedEntries m))

def orderedItems : List Json → List Json
  | [] => []
  | j :: js => ordered j :: orderedItems js

def orderedEntries : List (Text × Json) → List (Text × Json)
  | [] => []
  | (k, j) :: es => (k, ordered j) :: orderedEntries es

end

/-- `serde_json::to_vec` -/
def toVec (j : Json) : List UInt8 := Utf8.encode j.toText

/-- `serde_json::from_slice` -/
def fromSlice (bytes : List UInt8) : Option Json := ((Utf8.decode bytes).bind fromStr).map ordered

def get? (j : Json) (key : Text) : Option Json :=
  match j with
  | object m => Dict.find key m
  | _ => none

def asStr : Json → Option Text
  | string s => some s
  | _ => none

end Json

def numberOfI64 (i : Int64) : Json :=
  .number (if 0 ≤ i.toInt then .posInt i.toInt.toNat else .negInt i.toInt)

mutual

/-- `tp_to_json` -/
def tpToJson : Value → Json
  | .null => .null
  | .bool b => .bool b
  | .int i => numberOfI64 i
  | .float f => floatJson f
  | .string s => .string s
  | .array items => .array (tpItems items)
  | .object m => .object (tpEntries m)

def tpItems : List Value → List Json
  | [] => []
  | v :: vs => tpToJson v :: tpItems vs

def tpEntries : List (Text × Value) → List (Text × Json)
  | [] => []
  | (k, v) :: es => (k, tpToJson v) :: tpEntries es

end

/-! ### Query parameters -/

def hex (c : UInt8) : Option UInt8 :=
  if 0x30 ≤ c ∧ c ≤ 0x39 then some (c - 0x30)
  else if 0x61 ≤ c ∧ c ≤ 0x66 then some (c - 0x61 + 10)
  else if 0x41 ≤ c ∧ c ≤ 0x46 then some (c - 0x41 + 10)
  else none

/-- A `%` is decoded with two hexadecimal digits behind it, and stays otherwise. -/
def percentBytes : List UInt8 → List UInt8
  | 0x25 :: h :: l :: rest =>
    match hex h, hex l with
    | some h, some l => (h * 16 + l) :: percentBytes rest
    | _, _ => 0x25 :: percentBytes (h :: l :: rest)
  | b :: rest => (if b = 0x2B then 0x20 else b) :: percentBytes rest
  | [] => []

def percentDecode (s : Text) : Text := Utf8.decodeLossy (percentBytes (Utf8.encode s))

def parseScalar (s : Text) : Json :=
  if s = ("true" : Text) then .bool true
  else if s = ("false" : Text) then .bool false
  else if s = ("null" : Text) then .null
  else match Text.parseI64 s with
    | some n => numberOfI64 n
    | none => match F64.parse s with
      | some f => floatJson f
      | none => .string s

/-- `str::split` at one character. -/
def splitAt (sep : Char) : Text → List Text
  | [] => [[]]
  | c :: cs =>
    if c = sep then [] :: splitAt sep cs
    else match splitAt sep cs with
      | [] => [[c]]
      | part :: parts => (c :: part) :: parts

def queryPair (m : List (Text × Json)) (pair : Text) : List (Text × Json) :=
  if pair = [] then m
  else
    let (k, v) := match Text.splitOnce ['='] pair with
      | some (k, v) => (percentDecode k, percentDecode v)
      | none => (percentDecode pair, [])
    if k = [] then m else Json.insertKey k (parseScalar v) m

def queryEntries (raw : Text) : List (Text × Json) := (splitAt '&' raw).foldl queryPair []

def parseQuery (raw : Text) : Json := .object (Json.sortKeys (queryEntries raw))

theorem queryPair_keys {m : List (Text × Json)} (pair : Text)
    (h : (m.map Prod.fst).Nodup ∧ [] ∉ m.map Prod.fst) :
    ((queryPair m pair).map Prod.fst).Nodup ∧ [] ∉ (queryPair m pair).map Prod.fst := by
  rw [queryPair]
  split
  · exact h
  · split
    split
    · exact h
    case isFalse hk =>
      refine ⟨Dict.put_nodup _ _ h.1, fun hmem => ?_⟩
      rw [Json.insertKey, Dict.put_keys] at hmem
      split at hmem
      · exact h.2 hmem
      · rw [List.mem_append, List.mem_singleton] at hmem
        exact hmem.elim h.2 fun heq => hk heq.symm

theorem queryEntries_keys (raw : Text) :
    ((queryEntries raw).map Prod.fst).Nodup ∧ [] ∉ (queryEntries raw).map Prod.fst := by
  have hfold : ∀ (pairs : List Text) (m : List (Text × Json)),
      (m.map Prod.fst).Nodup ∧ [] ∉ m.map Prod.fst →
      ((pairs.foldl queryPair m).map Prod.fst).Nodup ∧ [] ∉ (pairs.foldl queryPair m).map Prod.fst := by
    intro pairs
    induction pairs with
    | nil => exact fun m h => h
    | cons pair pairs ih => exact fun m h => ih _ (queryPair_keys pair h)
  exact hfold _ [] ⟨List.nodup_nil, List.not_mem_nil⟩

/-- The inputs of a query are a map: no key is empty, and each stands once, in order. -/
theorem parseQuery_map (raw : Text) : ∃ m, parseQuery raw = .object m ∧
    (m.map Prod.fst).Nodup ∧ [] ∉ m.map Prod.fst ∧
      m.Pairwise fun a b => a.1.map Char.toNat ≤ b.1.map Char.toNat := by
  obtain ⟨hnodup, hnil⟩ := queryEntries_keys raw
  have hperm : (Json.sortKeys (queryEntries raw)).Perm (queryEntries raw) := List.perm_insertionSort _ _
  refine ⟨_, rfl, (hperm.map Prod.fst).nodup_iff.2 hnodup, fun hmem => ?_, ?_⟩
  · exact hnil ((hperm.map Prod.fst).mem_iff.1 hmem)
  · have : IsTrans (Text × Json) fun a b => a.1.map Char.toNat ≤ b.1.map Char.toNat :=
      ⟨fun _ _ _ => le_trans⟩
    have : Std.Total fun (a b : Text × Json) => a.1.map Char.toNat ≤ b.1.map Char.toNat :=
      ⟨fun _ _ => le_total _ _⟩
    exact List.pairwise_insertionSort (fun a b : Text × Json => a.1.map Char.toNat ≤ b.1.map Char.toNat) _

end Tinypipe
