import Tinypipe.Ir.Compiled

/-! The binary form of a compiled plan (`to_fb_bytes` and `from_fb_bytes` of
`tinypipe-ir/src/compiled.rs`) over the tables of `schemas/execution_plan.fbs`. A string
or a vector of a table may be absent; a scalar has a value. -/

namespace Tinypipe

open Lib

namespace Fb

structure CompiledArg where
  key : Option Text
  value : Option Text

structure MappingEntry where
  fromKey : Option Text
  toKey : Option Text

structure IdEntry where
  id : Option Text
  index : Nat

structure ToolDep where
  name : Option Text
  version : Option Text
  pure : Bool
  schemaHash : Option Text

/-- `op` and `inferredType` hold the numbers of the enumerations. -/
structure CompiledNode where
  index : Nat
  id : Option Text
  op : Nat
  args : Option (List CompiledArg)
  inferredType : Nat
  branchId : Nat
  groupId : Nat

structure CompiledEdge where
  fromIndex : Nat
  toIndex : Nat
  condition : Option Text
  mapping : Option (List MappingEntry)
  priority : Int
  label : Option Text
  kind : Nat

structure CompiledMetadata where
  compilerVersion : Option Text
  compiledAt : Option Text
  nodeCount : Nat
  edgeCount : Nat
  maxNodeExecutionCount : Nat
  maxContextMemoryBytes : Nat
  maxRecursionDepth : Nat
  maxExecutionTimeMs : Nat
  optimizations : Option (List Text)
  toolDeps : Option (List ToolDep)
  subgraphDependencies : Option (List Text)
  metaJson : Option Text

structure ExecutionPlan where
  version : Nat
  nodes : Option (List CompiledNode)
  edges : Option (List CompiledEdge)
  metadata : Option CompiledMetadata
  idMap : Option (List IdEntry)
  groups : Option (List Text)

end Fb

/-- The builder and the generated accessors of the FlatBuffers library: what has been
stored in the tables is read back. -/
structure FlatBuffers (Bytes : Type) where
  finish : Fb.ExecutionPlan → Bytes
  rootAs : Bytes → Except Text Fb.ExecutionPlan
  rootAs_finish : ∀ t, rootAs (finish t) = .ok t

/-- The tables as their own bytes. -/
def FlatBuffers.tables : FlatBuffers Fb.ExecutionPlan := ⟨id, .ok, fun _ => rfl⟩

/-! ### Writing -/

def Opcode.toFb : Opcode → Nat
  | .input => 0
  | .call => 1
  | .calc => 2
  | .decide => 3
  | .switch => 4
  | .act => 5
  | .parallel => 6
  | .loop => 7
  | .wait => 8
  | .merge => 9
  | .error => 10

def EdgeKind.toFb : EdgeKind → Nat
  | .data => 0
  | .control => 1

def IrType.toFb : Option IrType → Nat
  | none => 0
  | some .int => 1
  | some .float => 2
  | some .string => 3
  | some .bool => 4
  | some .null => 5
  | some .any => 6

def ToolDep.toFb (d : ToolDep) : Fb.ToolDep := ⟨some d.name, some d.version, d.pure, some d.schemaHash⟩

def CompiledArg.toFb (a : CompiledArg) : Fb.CompiledArg := ⟨some a.key, some a.value⟩

def CompiledNode.toFb (nd : CompiledNode) : Fb.CompiledNode where
  index := nd.index
  id := some nd.id
  op := nd.op.toFb
  args := some (nd.args.map CompiledArg.toFb)
  inferredType := IrType.toFb nd.inferredType
  branchId := nd.branchId.getD u32Max
  groupId := nd.groupId.getD u32Max

def CompiledEdge.toFb (e : CompiledEdge) : Fb.CompiledEdge where
  fromIndex := e.fromIndex
  toIndex := e.toIndex
  condition := e.condition
  mapping := e.mapping.map fun m => m.map fun kv => ⟨some kv.1, some kv.2⟩
  priority := e.priority.getD 0
  label := e.label
  kind := e.kind.toFb

def Metadata.toFb (m : Metadata) : Fb.CompiledMetadata where
  compilerVersion := some m.compilerVersion
  compiledAt := some m.compiledAt
  nodeCount := m.nodeCount
  edgeCount := m.edgeCount
  maxNodeExecutionCount := m.maxNodeExecutionCount
  maxContextMemoryBytes := m.maxContextMemoryBytes
  maxRecursionDepth := m.maxRecursionDepth
  maxExecutionTimeMs := m.maxExecutionTimeMs
  optimizations := some m.optimizations
  toolDeps := some (m.toolDeps.map ToolDep.toFb)
  subgraphDependencies := some m.subgraphDependencies
  metaJson := some m.metaJson

def CompiledPlan.toFb (p : CompiledPlan) : Fb.ExecutionPlan where
  version := p.version
  nodes := some (p.nodes.map CompiledNode.toFb)
  edges := some (p.edges.map CompiledEdge.toFb)
  metadata := some p.metadata.toFb
  idMap := p.idMap.map fun m => m.map fun e => ⟨some e.1, e.2⟩
  groups := some p.groups

def CompiledPlan.toFbBytes {Bytes : Type} (fb : FlatBuffers Bytes) (p : CompiledPlan) : Bytes :=
  fb.finish p.toFb

/-! ### Reading -/

/-- An opcode that is not known reads as INPUT. -/
def Opcode.ofFb : Nat → Opcode
  | 0 => .input
  | 1 => .call
  | 2 => .calc
  | 3 => .decide
  | 4 => .switch
  | 5 => .act
  | 6 => .parallel
  | 7 => .loop
  | 8 => .wait
  | 9 => .merge
  | 10 => .error
  | _ => .input

def EdgeKind.ofFb : Nat → EdgeKind
  | 0 => .data
  | 1 => .control
  | _ => .data

/-- Lists and maps read as `Any`. -/
def IrType.ofFb : Nat → Option IrType
  | 0 => none
  | 1 => some .int
  | 2 => some .float
  | 3 => some .string
  | 4 => some .bool
  | 5 => some .null
  | 6 => some .any
  | 7 => some .any
  | 8 => some .any
  | _ => none

/-- A scalar that stands for "absent" at one value. -/
def readSentinel {α : Type} [DecidableEq α] (sentinel v : α) : Option α :=
  if v = sentinel then none else some v

/-- A string that is absent when it is empty. -/
def readNonEmpty (s : Option Text) : Option Text := s.bind (readSentinel [])

def ToolDep.ofFb (d : Fb.ToolDep) : ToolDep :=
  ⟨d.name.getD [], d.version.getD [], d.pure, d.schemaHash.getD []⟩

def CompiledArg.ofFb (a : Fb.CompiledArg) : CompiledArg := ⟨a.key.getD [], a.value.getD []⟩

def CompiledNode.ofFb (nd : Fb.CompiledNode) : CompiledNode where
  index := nd.index
  id := nd.id.getD []
  op := Opcode.ofFb nd.op
  args := (nd.args.map fun as => as.map CompiledArg.ofFb).getD []
  inferredType := IrType.ofFb nd.inferredType
  branchId := readSentinel u32Max nd.branchId
  groupId := readSentinel u32Max nd.groupId

def CompiledEdge.ofFb (e : Fb.CompiledEdge) : CompiledEdge where
  fromIndex := e.fromIndex
  toIndex := e.toIndex
  condition := readNonEmpty e.condition
  mapping := e.mapping.map fun m => m.map fun kv => (kv.fromKey.getD [], kv.toKey.getD [])
  priority := readSentinel 0 e.priority
  label := readNonEmpty e.label
  kind := EdgeKind.ofFb e.kind

def Metadata.ofFb (m : Fb.CompiledMetadata) : Metadata where
  compilerVersion := m.compilerVersion.getD []
  compiledAt := m.compiledAt.getD []
  nodeCount := m.nodeCount
  edgeCount := m.edgeCount
  maxNodeExecutionCount := m.maxNodeExecutionCount
  maxContextMemoryBytes := m.maxContextMemoryBytes
  maxRecursionDepth := m.maxRecursionDepth
  maxExecutionTimeMs := m.maxExecutionTimeMs
  optimizations := m.optimizations.getD []
  toolDeps := (m.toolDeps.map fun ds => ds.map ToolDep.ofFb).getD []
  subgraphDependencies := m.subgraphDependencies.getD []
  metaJson := m.metaJson.getD []

def CompiledPlan.ofFb (t : Fb.ExecutionPlan) : Except Text CompiledPlan :=
  match t.metadata with
  | none => .error "FlatBuffers plan missing metadata"
  | some m => .ok {
      version := t.version
      nodes := (t.nodes.map fun ns => ns.map CompiledNode.ofFb).getD []
      edges := (t.edges.map fun es => es.map CompiledEdge.ofFb).getD []
      metadata := Metadata.ofFb m
      idMap := t.idMap.map fun m => m.map fun e => (e.id.getD [], e.index)
      groups := t.groups.getD [] }

def CompiledPlan.fromFbBytes {Bytes : Type} (fb : FlatBuffers Bytes) (bytes : Bytes) :
    Except Text CompiledPlan :=
  match fb.rootAs bytes with
  | .error e => .error (("FlatBuffers verification failed: " : Text) ++ e)
  | .ok t => CompiledPlan.ofFb t

/-! ### The round trip -/

/-- Forget the values the format stores as "absent". -/
def CompiledNode.clearSentinels (nd : CompiledNode) : CompiledNode :=
  { nd with
    branchId := nd.branchId.filter (· ≠ u32Max)
    groupId := nd.groupId.filter (· ≠ u32Max) }

def CompiledEdge.clearSentinels (e : CompiledEdge) : CompiledEdge :=
  { e with
    condition := e.condition.filter (· ≠ [])
    priority := e.priority.filter (· ≠ 0)
    label := e.label.filter (· ≠ []) }

def CompiledPlan.clearSentinels (p : CompiledPlan) : CompiledPlan :=
  { p with
    nodes := p.nodes.map CompiledNode.clearSentinels
    edges := p.edges.map CompiledEdge.clearSentinels }

/-- No optional field holds the value that stands for its absence. -/
structure CompiledPlan.NoSentinels (p : CompiledPlan) : Prop where
  nodes : ∀ nd ∈ p.nodes, nd.branchId ≠ some u32Max ∧ nd.groupId ≠ some u32Max
  edges : ∀ e ∈ p.edges, e.condition ≠ some [] ∧ e.priority ≠ some 0 ∧ e.label ≠ some []

@[simp] theorem Opcode.ofFb_toFb (op : Opcode) : Opcode.ofFb op.toFb = op := by
  cases op <;> rfl

@[simp] theorem EdgeKind.ofFb_toFb (k : EdgeKind) : EdgeKind.ofFb k.toFb = k := by
  cases k <;> rfl

@[simp] theorem IrType.ofFb_toFb (t : Option IrType) : IrType.ofFb (IrType.toFb t) = t := by
  cases t with
  | none => rfl
  | some t => cases t <;> rfl

section Sentinel

variable {α : Type} [DecidableEq α] (d : α) (x : Option α)

@[simp] theorem readSentinel_getD : readSentinel d (x.getD d) = x.filter (· ≠ d) := by
  cases x with
  | none => simp [readSentinel]
  | some v => by_cases hv : v = d <;> simp [readSentinel, Option.filter, hv]

theorem filter_ne_eq_self : x.filter (· ≠ d) = x ↔ x ≠ some d := by
  cases x with
  | none => simp
  | some v => by_cases hv : v = d <;> simp [Option.filter, hv]

end Sentinel

@[simp] theorem readNonEmpty_eq (s : Option Text) : readNonEmpty s = s.filter (· ≠ []) := by
  cases s with
  | none => rfl
  | some t => exact readSentinel_getD [] (some t)

theorem CompiledNode.ofFb_toFb (nd : CompiledNode) :
    CompiledNode.ofFb nd.toFb = nd.clearSentinels := by
  have hargs : nd.args.map (CompiledArg.ofFb ∘ CompiledArg.toFb) = nd.args :=
    List.map_id'' (fun _ => rfl) nd.args
  simp only [CompiledNode.ofFb, CompiledNode.toFb, Opcode.ofFb_toFb, IrType.ofFb_toFb,
    readSentinel_getD, Option.map_some, Option.getD_some, List.map_map, hargs]
  rfl

theorem CompiledEdge.ofFb_toFb (e : CompiledEdge) :
    CompiledEdge.ofFb e.toFb = e.clearSentinels := by
  have hmapping : (e.mapping.map fun m => m.map fun kv =>
      (⟨some kv.1, some kv.2⟩ : Fb.MappingEntry)).map (fun m => m.map fun kv =>
        (kv.fromKey.getD [], kv.toKey.getD [])) = e.mapping := by
    cases e.mapping with
    | none => rfl
    | some m =>
      rw [Option.map_some, Option.map_some, List.map_map]
      exact congrArg some (List.map_id'' (fun _ => rfl) m)
  simp only [CompiledEdge.ofFb, CompiledEdge.toFb, EdgeKind.ofFb_toFb, readSentinel_getD,
    readNonEmpty_eq, hmapping]
  rfl

theorem Metadata.ofFb_toFb (m : Metadata) : Metadata.ofFb m.toFb = m := by
  have hdeps : m.toolDeps.map (ToolDep.ofFb ∘ ToolDep.toFb) = m.toolDeps :=
    List.map_id'' (fun _ => rfl) m.toolDeps
  simp only [Metadata.ofFb, Metadata.toFb, Option.map_some, Option.getD_some, List.map_map, hdeps]

theorem CompiledPlan.ofFb_toFb (p : CompiledPlan) :
    CompiledPlan.ofFb p.toFb = .ok p.clearSentinels := by
  have hids : (p.idMap.map fun m => m.map fun e => (⟨some e.1, e.2⟩ : Fb.IdEntry)).map
      (fun m => m.map fun e => (e.id.getD [], e.index)) = p.idMap := by
    cases p.idMap with
    | none => rfl
    | some m =>
      rw [Option.map_some, Option.map_some, List.map_map]
      exact congrArg some (List.map_id'' (fun _ => rfl) m)
  have hnodes : CompiledNode.ofFb ∘ CompiledNode.toFb = CompiledNode.clearSentinels :=
    funext CompiledNode.ofFb_toFb
  have hedges : CompiledEdge.ofFb ∘ CompiledEdge.toFb = CompiledEdge.clearSentinels :=
    funext CompiledEdge.ofFb_toFb
  simp only [CompiledPlan.ofFb, CompiledPlan.toFb, Option.map_some, Option.getD_some, List.map_map,
    hnodes, hedges, hids, Metadata.ofFb_toFb]
  rfl

theorem CompiledNode.clearSentinels_eq_self (nd : CompiledNode) :
    nd.clearSentinels = nd ↔ nd.branchId ≠ some u32Max ∧ nd.groupId ≠ some u32Max := by
  cases nd
  simp only [CompiledNode.clearSentinels, CompiledNode.mk.injEq, true_and, filter_ne_eq_self]

theorem CompiledEdge.clearSentinels_eq_self (e : CompiledEdge) :
    e.clearSentinels = e ↔ e.condition ≠ some [] ∧ e.priority ≠ some 0 ∧ e.label ≠ some [] := by
  cases e
  simp only [CompiledEdge.clearSentinels, CompiledEdge.mk.injEq, true_and, and_true,
    filter_ne_eq_self]

theorem map_eq_self {α : Type} {f : α → α} {l : List α} : l.map f = l ↔ ∀ a ∈ l, f a = a := by
  induction l with
  | nil => simp
  | cons a l ih => simp [ih]

theorem CompiledPlan.clearSentinels_eq_self (p : CompiledPlan) :
    p.clearSentinels = p ↔ p.NoSentinels := by
  have hplan : p.clearSentinels = p ↔ p.nodes.map CompiledNode.clearSentinels = p.nodes ∧
      p.edges.map CompiledEdge.clearSentinels = p.edges := by
    cases p
    simp only [CompiledPlan.clearSentinels, CompiledPlan.mk.injEq, true_and, and_true]
  rw [hplan, map_eq_self, map_eq_self]
  constructor
  · rintro ⟨hn, he⟩
    exact ⟨fun nd h => nd.clearSentinels_eq_self.1 (hn nd h),
      fun e h => e.clearSentinels_eq_self.1 (he e h)⟩
  · intro h
    exact ⟨fun nd hnd => nd.clearSentinels_eq_self.2 (h.nodes nd hnd),
      fun e he => e.clearSentinels_eq_self.2 (h.edges e he)⟩

/-- A plan is read back but for the values that stand for "absent", and so as itself
when it has none. -/
theorem fb_round_trip {Bytes : Type} (fb : FlatBuffers Bytes) (p : CompiledPlan) :
    CompiledPlan.fromFbBytes fb (p.toFbBytes fb) = .ok p.clearSentinels ∧
      (CompiledPlan.fromFbBytes fb (p.toFbBytes fb) = .ok p ↔ p.NoSentinels) := by
  have h : CompiledPlan.fromFbBytes fb (p.toFbBytes fb) = .ok p.clearSentinels := by
    rw [CompiledPlan.fromFbBytes, CompiledPlan.toFbBytes, fb.rootAs_finish]
    exact CompiledPlan.ofFb_toFb p
  refine ⟨h, ?_⟩
  rw [h, Except.ok.injEq]
  exact CompiledPlan.clearSentinels_eq_self p

/-- An edge whose priority is given as the default one. -/
def defaultPriority : CompiledPlan where
  version := 4
  nodes := []
  edges := [⟨0, 1, none, none, some 0, none, .data⟩]
  metadata := Metadata.default
  idMap := none
  groups := []

theorem fb_round_trip_defaultPriority :
    CompiledPlan.fromFbBytes FlatBuffers.tables (defaultPriority.toFbBytes FlatBuffers.tables) ≠
      .ok defaultPriority := by
  rw [ne_eq, (fb_round_trip FlatBuffers.tables defaultPriority).2]
  exact fun h => (h.edges _ List.mem_cons_self).2.1 rfl

end Tinypipe
