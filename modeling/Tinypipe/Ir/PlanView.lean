import Tinypipe.Ir.Compiled
import Tinypipe.Lib.Casing
import Tinypipe.Lib.Float64
import Tinypipe.Lib.Frontier
import Tinypipe.Lib.Split

/-! The views of a compiled plan (`tinypipe-ir/src/plan_view.rs`): labels, the projection that leaves
the passthrough nodes out, and the summary of the groups. `none` is a panic, or a search that has not
ended; emission to mermaid and dot is left out. -/

namespace Tinypipe.PlanView

open Lib

inductive ViewLevel where
  | full | summary | layers
deriving DecidableEq

inductive Shape where
  | default | rounded | diamond | stadium
deriving DecidableEq

structure ViewNode where
  index : Nat
  label : Text
  shape : Shape
  groupId : Option Nat
deriving DecidableEq

structure ViewEdge where
  fromIndex : Nat
  toIndex : Nat
  label : Option Text
  control : Bool
deriving DecidableEq

def ViewEdge.ends (e : ViewEdge) : Nat × Nat := (e.fromIndex, e.toIndex)

structure ViewGraph where
  nodes : List ViewNode
  edges : List ViewEdge
  groups : List Text
deriving DecidableEq

/-! ### Hidden nodes -/

def trimQuotes (s : Text) : Text := Text.trimMatches (fun c => c == '"' || c == '\'' || c == '\\') s

def isAsciiAlphabetic (c : Char) : Bool := ('a' ≤ c && c ≤ 'z') || ('A' ≤ c && c ≤ 'Z')

def isSimpleValue (raw trimmed : Text) : Bool :=
  match Text.trim raw with
  | [] => false
  | q :: _ =>
    if q == '"' || q == '\'' then true
    else
      let t := Text.trim trimmed
      if (Text.parseI64 t).isSome || (F64.parse t).isSome then true
      else match t with
        | [] => false
        | c :: cs =>
          (isAsciiAlphabetic c || c == '_') &&
            cs.all fun c => isAsciiAlphabetic c || Text.isDigit c || c == '_' || c == '.'

/-- A calculation without an output whose expression is a constant or a name. -/
def isFeed (nd : CompiledNode) : Bool :=
  nd.op == .calc && !nd.args.any (fun a => a.key == ("output" : Text)) &&
    (let raw := (nd.arg ("expr" : Text)).getD []
     isSimpleValue raw (trimQuotes raw))

def hiddenNodes (plan : CompiledPlan) : Finset Nat := ((plan.nodes.filter isFeed).map CompiledNode.index).toFinset

/-! ### Labels -/

def arg (nd : CompiledNode) (key : Text) : Option Text := (nd.arg key).map trimQuotes

/-- The part of an identifier between two underscores, with its first letter in upper case. -/
def titlePart (u : Casing) (out : Text) : Text × Nat → Text
  | ([], _) => out
  | (first :: rest, i) => (if 0 < i then out ++ [' '] else out) ++ (u.upper first).headD first :: rest

def snakeToTitle (u : Casing) (s : Text) : Text := (s.splitOn '_').zipIdx.foldl (titlePart u) []

def humanizeSubgraph (u : Casing) (sub : Text) : Text := snakeToTitle u sub

def urlHost (url : Text) : Option Text :=
  (Text.splitOnce "://" url).bind fun x =>
    let authority := x.2.takeWhile fun c => !(c == '/' || c == '?' || c == '#')
    let host := (authority.splitOn '@').getLastD []
    if host = [] then none else some host

def callLabel (u : Casing) (nd : CompiledNode) : Text :=
  let target := (arg nd "target").getD []
  let kwArgs := (nd.args.filter fun a =>
    a.key != ("target" : Text) && a.key != ("type" : Text) && a.key != ("output" : Text)).map CompiledArg.key
  let base : Text := match Text.stripPrefix "subgraph:" target with
    | some sub => humanizeSubgraph u sub
    | none =>
      if target = ("http_request" : Text) then
        match urlHost ((arg nd "url").getD []) with
        | some host => "HTTP: " ++ host
        | none => "HTTP Request"
      else if target = [] then "Call"
      else snakeToTitle u target
  if kwArgs = [] then base else base ++ " (" ++ Text.intercalate ", " kwArgs ++ ")"

def isQuote (q : Char) (c : Char) : Bool := c == q

/-- The name of a field of a dict literal. -/
def fieldName (f : Text) : Text :=
  Text.trimMatches (isQuote '"') (Text.trimMatches (isQuote '\'') (Text.trim (f.takeWhile fun c => c != ':')))

/-- The summary of a dict literal with more than one field. -/
def dictSummary (t : Text) : Option Text :=
  if t.head? = some '\x7b' ∧ t.getLast? = some '\x7d' then
    let inner := t.tail.dropLast
    let fields := ((inner.splitOn ',').map Text.trim).filter fun f => f ≠ []
    if 1 < fields.length then some ("Summary (" ++ Text.intercalate ", " (fields.map fieldName) ++ ")") else none
  else none

/-- Fails where `&t[..48]` panics. -/
def shortenExpr (expr : Text) : Option Text :=
  let t := Text.trim expr
  match dictSummary t with
  | some summary => some summary
  | none =>
    if 48 < Text.utf8Len t then (Text.slicePrefix 48 t).map fun p => p ++ ['…']
    else some t

def shapeOf (nd : CompiledNode) : Shape :=
  match nd.op with
  | .loop | .decide | .switch => .diamond
  | .act => if (arg nd "type").getD [] = ("return" : Text) then .stadium else .default
  | .call => .rounded
  | .parallel | .merge | .wait => .diamond
  | _ => .default

def loopLabel (nd : CompiledNode) : Text :=
  let target := (arg nd "target").getD []
  let max := (arg nd "max_iterations").getD []
  if target = [] then "Loop (max " ++ max ++ ")" else "Loop: " ++ target ++ " (max " ++ max ++ ")"

def decideLabel (nd : CompiledNode) : Text :=
  let cond := ((arg nd "condition").or (arg nd "expr")).getD []
  if cond ≠ [] then cond ++ " ?"
  else
    let src := (arg nd "source").getD []
    let op := (arg nd "op").getD []
    let val := (arg nd "value").getD []
    if src ≠ [] then src ++ " " ++ op ++ " " ++ val ++ " ?" else "Decide"

def calcLabel (nd : CompiledNode) : Option Text :=
  let expr := (arg nd "expr").getD []
  match arg nd "output" with
  | some o => if expr ≠ [] then (shortenExpr expr).map fun s => o ++ " = " ++ s else some o
  | none => if expr ≠ [] then shortenExpr expr else some "Calc"

def semanticLabel (u : Casing) (nd : CompiledNode) : Option (Text × Shape) :=
  let label : Option Text := match nd.op with
    | .input => some ("Input: " ++ (arg nd "name").getD [])
    | .call => some (callLabel u nd)
    | .loop => some (loopLabel nd)
    | .decide => some (decideLabel nd)
    | .switch => some ("Switch on " ++ (arg nd "source").getD [])
    | .act =>
      let t := (arg nd "type").getD []
      some (if t = ("return" : Text) then "Return" else "Act " ++ t)
    | .parallel => some "Parallel"
    | .merge => some "Merge"
    | .wait => some ("Wait " ++ (arg nd "duration").getD [])
    | .error => some "Error"
    | .calc => calcLabel nd
  label.map fun l => (l, shapeOf nd)

/-! ### The projection -/

/-- The arcs of the plan. -/
def planArcs (plan : CompiledPlan) : List (Nat × Nat) := plan.edges.map fun e => (e.fromIndex, e.toIndex)

/-- The visible nodes before a node: itself, or what leads to it through hidden ones. -/
def visibleRoots (fuel : Nat) (plan : CompiledPlan) (hidden : Finset Nat) (idx : Nat) : Option (List Nat) :=
  Frontier.frontier hidden (Frontier.turned (planArcs plan)) fuel idx

def visibleLeaves (fuel : Nat) (plan : CompiledPlan) (hidden : Finset Nat) (idx : Nat) : Option (List Nat) :=
  Frontier.frontier hidden (planArcs plan) fuel idx

/-- The edges so far and the set of their ends. -/
structure Linking where
  edges : List ViewEdge
  seenAny : List (Nat × Nat)
  seen : seenAny.reverse = edges.map ViewEdge.ends
  distinct : seenAny.Nodup

namespace Linking

def empty : Linking := ⟨[], [], rfl, List.nodup_nil⟩

def insert (st : Linking) (e : ViewEdge) : Linking :=
  if h : e.ends ∈ st.seenAny then st
  else
    { edges := st.edges ++ [e]
      seenAny := e.ends :: st.seenAny
      seen := by rw [List.reverse_cons, st.seen, List.map_append, List.map_singleton]
      distinct := List.nodup_cons.2 ⟨h, st.distinct⟩ }

def pairs (st : Linking) : List (Nat × Nat) := st.edges.map ViewEdge.ends

end Linking

def linkEdge (e : CompiledEdge) (src : Nat) (st : Linking) (dst : Nat) : Linking :=
  let control := e.kind == .control
  if src = dst then st
  else if control ∧ (src, dst) ∈ st.seenAny then st
  else
    let label := ((e.condition.or e.label).map trimQuotes).filter fun s => s ≠ []
    st.insert { fromIndex := src, toIndex := dst, label := label, control := control }

/-- The targets are searched for again behind each source. -/
def linkRoots (leaves : Option (List Nat)) (e : CompiledEdge) : List Nat → Linking → Option Linking
  | [], st => some st
  | src :: roots, st => leaves.bind fun ls => linkRoots leaves e roots (ls.foldl (linkEdge e src) st)

def projectEdges (fuel : Nat) (plan : CompiledPlan) (hidden : Finset Nat) : List CompiledEdge → Linking → Option Linking
  | [], st => some st
  | e :: es, st =>
    (visibleRoots fuel plan hidden e.fromIndex).bind fun roots =>
      (linkRoots (visibleLeaves fuel plan hidden e.toIndex) e roots st).bind (projectEdges fuel plan hidden es)

def viewNodes (u : Casing) (hidden : Finset Nat) : List CompiledNode → Option (List ViewNode)
  | [] => some []
  | nd :: nds =>
    if nd.index ∈ hidden then viewNodes u hidden nds
    else
      (semanticLabel u nd).bind fun x =>
        (viewNodes u hidden nds).map fun rest =>
          { index := nd.index, label := x.1, shape := x.2, groupId := nd.groupId } :: rest

def project (u : Casing) (fuel : Nat) (plan : CompiledPlan) (hidden : Finset Nat) : Option ViewGraph :=
  (viewNodes u hidden plan.nodes).bind fun nodes =>
    (projectEdges fuel plan hidden plan.edges Linking.empty).map fun st =>
      { nodes := nodes, edges := st.edges, groups := plan.groups }

/-! ### The summary -/

def numberedTitle (title : Text) (ordinal : Nat) (numbered : Bool) : Text :=
  if numbered = false then title
  else if ((Text.trim title).head?.map Text.isDigit).getD false then title
  else Text.ofNat ordinal ++ ". " ++ title

def members (view : ViewGraph) (g : Nat) : List Nat :=
  (view.nodes.filter fun n => n.groupId = some g).map ViewNode.index

def groupNode (view : ViewGraph) : Text × Nat → ViewNode
  | (title, g) =>
    let label := numberedTitle title (g + 1) true
    let count := (members view g).length
    let noun : Text := if count = 1 then "step" else "steps"
    { index := u32Max - g % 2 ^ 32
      label := if 0 < count then label ++ " (" ++ Text.ofNat count ++ " " ++ noun ++ ")" else label
      shape := .rounded
      groupId := none }

def nodeGroup (view : ViewGraph) (idx : Nat) : Option Nat :=
  (view.nodes.find? fun n => n.index == idx).bind ViewNode.groupId

def summaryKey (view : ViewGraph) (idx : Nat) : Nat :=
  match nodeGroup view idx with
  | some g => u32Max - g
  | none => idx

def collapseEdge (view : ViewGraph) (st : Linking) (e : ViewEdge) : Linking :=
  let fromKey := summaryKey view e.fromIndex
  let toKey := summaryKey view e.toIndex
  if fromKey = toKey then st
  else st.insert { fromIndex := fromKey, toIndex := toKey, label := e.label, control := e.control }

def collapse (view : ViewGraph) : ViewGraph :=
  if view.groups = [] then { nodes := view.nodes, edges := view.edges, groups := [] }
  else
    { nodes := view.groups.zipIdx.map (groupNode view) ++ view.nodes.filter (fun n => n.groupId = none)
      edges := (view.edges.foldl (collapseEdge view) Linking.empty).edges
      groups := [] }

def buildView (u : Casing) (fuel : Nat) (plan : CompiledPlan) (level : ViewLevel) : Option ViewGraph :=
  (project u fuel plan (hiddenNodes plan)).map fun view =>
    match level with
    | .summary => collapse view
    | _ => view

end Tinypipe.PlanView
