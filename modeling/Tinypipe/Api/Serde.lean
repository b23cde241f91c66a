import Tinypipe.Api.JsonText

/-! The JSON forms that `serde` derives for scopes and contexts, and what is read back from them: the
same data, with every double read back from its own text. -/

namespace Tinypipe

open Lib

section Maps

variable {κ α : Type}

def traverseEntries (f : α → Option α) : List (κ × α) → Option (List (κ × α))
  | [] => some []
  | (k, a) :: es => (f a).bind fun a => (traverseEntries f es).map ((k, a) :: ·)

theorem traverseEntries_eq_some {f : α → Option α} : ∀ {es : List (κ × α)},
    traverseEntries f es = some es ↔ ∀ e ∈ es, f e.2 = some e.2
  | [] => by simp [traverseEntries]
  | (k, a) :: es => by
    rw [traverseEntries, List.forall_mem_cons, ← traverseEntries_eq_some, Option.bind_eq_some_iff]
    simp [Option.map_eq_some_iff]

theorem keys_traverseEntries {f : α → Option α} : ∀ {es es' : List (κ × α)}, traverseEntries f es = some es' →
    es'.map Prod.fst = es.map Prod.fst
  | [], _, h => by rw [← Option.some.inj h]
  | (k, a) :: es, es', h => by
    rw [traverseEntries, Option.bind_eq_some_iff] at h
    obtain ⟨b, -, hes⟩ := h
    obtain ⟨es'', hback, rfl⟩ := Option.map_eq_some_iff.1 hes
    rw [List.map_cons, List.map_cons, keys_traverseEntries hback]

variable [DecidableEq κ]

/-- Every value of a map is replaced, and none of its keys. -/
def traverseDict (f : α → Option α) (d : Dict κ α) : Option (Dict κ α) :=
  (traverseEntries f d.entries).map Dict.ofList

theorem ofList_entries (d : Dict κ α) : Dict.ofList d.entries = d := by
  have hset : ∀ (es : List (κ × α)) (m : Dict κ α), ((m.entries ++ es).map Prod.fst).Nodup →
      (es.foldl (fun m e => m.set e.1 e.2) m).entries = m.entries ++ es := by
    intro es
    induction es with
    | nil => exact fun m _ => (List.append_nil _).symm
    | cons e es ih =>
      intro m hm
      have hnew : m.get e.1 = none := by
        apply Dict.find_eq_none
        rw [List.map_append, List.nodup_append] at hm
        exact fun hk => hm.2.2 e.1 hk e.1 List.mem_cons_self rfl
      have hentries := Dict.entries_set_of_get_none hnew e.2
      rw [List.foldl_cons, ih _ (by rw [hentries, List.append_assoc]; exact hm), hentries, List.append_assoc]
      rfl
  exact Dict.ext (hset d.entries Dict.empty d.nodup)

theorem traverseDict_eq_some {f : α → Option α} {d : Dict κ α} :
    traverseDict f d = some d ↔ ∀ e ∈ d.entries, f e.2 = some e.2 := by
  rw [← traverseEntries_eq_some, traverseDict]
  constructor
  · intro h
    obtain ⟨es, hes, hd⟩ := Option.map_eq_some_iff.1 h
    have hnodup : (es.map Prod.fst).Nodup := by
      rw [keys_traverseEntries hes]
      exact d.nodup
    have hentries := ofList_entries (⟨es, hnodup⟩ : Dict κ α)
    rw [hes, ← hd, hentries]
  · intro h
    rw [h, Option.map_some, ofList_entries]

end Maps

namespace Json

section Codecs

variable {κ α : Type} (key : κ → Text) (ofKey : Text → Option κ) (enc : α → Json)
  (dec : Json → Option α) (f : α → Option α)

def ofUnsigned (n : Nat) : Json := .number (.posInt n)

/-- `u32`, `u64` or `usize`. -/
def asUnsigned (bits : Nat) : Json → Option Nat
  | number (.posInt n) => if n < 2 ^ bits then some n else none
  | _ => none

def asString : Json → Option Text
  | string s => some s
  | _ => none

/-- The key of a `HashMap<u32, _>`: a number in quotes. -/
def keyU32 (t : Text) : Option Nat :=
  match parseNumber false t with
  | some (.posInt n, []) => if n < 2 ^ 32 then some n else none
  | _ => none

def ofMap (d : Dict κ α) : Json := .object (d.entries.map fun e => (key e.1, enc e.2))

def asEntries : List (Text × Json) → Option (List (κ × α))
  | [] => some []
  | (k, j) :: es => (ofKey k).bind fun k => (dec j).bind fun a => (asEntries es).map ((k, a) :: ·)

def asMap [DecidableEq κ] : Json → Option (Dict κ α)
  | object m => (asEntries ofKey dec m).map Dict.ofList
  | _ => none

def ofOption : Option α → Json
  | some a => enc a
  | none => .null

def asOption : Json → Option (Option α)
  | null => some none
  | j => (dec j).map some

def ofList (items : List α) : Json := .array (items.map enc)

def asList : Json → Option (List α)
  | array items => items.mapM dec
  | _ => none

/-- A field that must be there. -/
def field (name : Text) (m : List (Text × Json)) : Option α := (Dict.find name m).bind dec

/-- A field of an `Option` type. -/
def optionalField (name : Text) (m : List (Text × Json)) : Option (Option α) :=
  asOption dec ((Dict.find name m).getD .null)

variable {key ofKey enc dec f}

theorem keyU32_ofNat {n : Nat} (hn : n < 2 ^ 32) : keyU32 (Text.ofNat n) = some n := by
  have hparse := parseNumber_append false (whole_ofNat n) .none .none fun c (hc : c ∈ ([] : Text).head?) => by cases hc
  rw [List.append_nil, List.append_nil, List.append_nil] at hparse
  have hnumber : numberOf false (Text.ofNat n) [] [] = some (.posInt n) := numberOf_nat (by omega)
  rw [keyU32, hparse, hnumber]
  exact if_pos hn

/-- The fields of an object are read back one after the other. -/
theorem rereadEntries_bind {β : Type} (k : Text) (j : Json) (es : List (Text × Json))
    (F : List (Text × Json) → Option β) :
    (rereadEntries ((k, j) :: es)).bind F = j.reread.bind fun j => (rereadEntries es).bind fun es =>
    F ((k, j) :: es) := by
  rw [rereadEntries, Option.bind_assoc]
  cases j.reread with
  | none => rfl
  | some j => exact Option.bind_map ..

theorem reread_object_bind {β : Type} (es : List (Text × Json)) (F : Json → Option β) :
    (object es).reread.bind F = (rereadEntries es).bind fun es => F (object es) := by
  rw [reread, Option.bind_map]
  rfl

theorem reread_ofMap [DecidableEq κ] {d : Dict κ α} (hkey : ∀ e ∈ d.entries, ofKey (key e.1) = some e.1)
    (hval : ∀ a, (enc a).reread.bind dec = f a) :
    (ofMap key enc d).reread.bind (asMap ofKey dec) = traverseDict f d := by
  have hentries : ∀ es : List (κ × α), (∀ e ∈ es, ofKey (key e.1) = some e.1) →
      (rereadEntries (es.map fun e => (key e.1, enc e.2))).bind (asEntries ofKey dec) = traverseEntries f es := by
    intro es
    induction es with
    | nil => exact fun _ => rfl
    | cons e es ih =>
      obtain ⟨k, a⟩ := e
      intro hes
      have hk : ofKey (key k) = some k := hes (k, a) List.mem_cons_self
      have hback := ih fun e he => hes e (List.mem_cons_of_mem _ he)
      rw [List.map_cons, rereadEntries, traverseEntries, ← hval a, ← hback]
      cases (enc a).reread with
      | none => rfl
      | some j =>
        cases rereadEntries (es.map fun e => (key e.1, enc e.2)) with
        | none => simp
        | some m =>
          rw [Option.bind_some, Option.map_some, Option.bind_some, asEntries, hk]
          rfl
  rw [ofMap, reread, traverseDict, ← hentries d.entries hkey]
  cases rereadEntries (d.entries.map fun e => (key e.1, enc e.2)) <;> rfl

theorem reread_ofOption {o : Option α} (hval : ∀ a, (enc a).reread.bind dec = f a)
    (hnull : ∀ a, (enc a).reread ≠ some .null) :
    (ofOption enc o).reread.bind (asOption dec) = o.elim (some none) fun a => (f a).map some := by
  cases o with
  | none => rfl
  | some a =>
    rw [ofOption, Option.elim_some, ← hval a]
    cases hj : (enc a).reread with
    | none => rfl
    | some j =>
      rw [Option.bind_some, Option.bind_some, asOption]
      rintro rfl
      exact hnull a hj

theorem reread_ofList {items : List α} (hval : ∀ a, (enc a).reread = some (enc a)) :
    (ofList enc items).reread = some (ofList enc items) := by
  have hitems : ∀ items : List α, rereadItems (items.map enc) = some (items.map enc) := by
    intro items
    induction items with
    | nil => rfl
    | cons a items ih => rw [List.map_cons, rereadItems, hval, ih]; rfl
  rw [ofList, reread, hitems]
  rfl

theorem asList_ofList {items : List α} (hval : ∀ a ∈ items, dec (enc a) = some a) :
    asList dec (ofList enc items) = some items := by
  rw [ofList, asList]
  induction items with
  | nil => rfl
  | cons a items ih =>
    rw [List.map_cons, List.mapM_cons, hval a List.mem_cons_self, ih fun a ha => hval a (List.mem_cons_of_mem _ ha)]
    rfl

theorem entriesLevel_lt {n : Nat} : ∀ {es : List (Text × Json)}, entriesLevel es < n ↔ 0 < n ∧ ∀ e ∈ es, e.2.level < n
  | [] => by simp [entriesLevel]
  | e :: es => by
    rw [entriesLevel, max_lt_iff, entriesLevel_lt, List.forall_mem_cons]
    tauto

theorem itemsLevel_lt {n : Nat} : ∀ {js : List Json}, itemsLevel js < n ↔ 0 < n ∧ ∀ j ∈ js, j.level < n
  | [] => by simp [itemsLevel]
  | j :: js => by
    rw [itemsLevel, max_lt_iff, itemsLevel_lt, List.forall_mem_cons]
    tauto

theorem level_object_lt {n : Nat} {es : List (Text × Json)} :
    (object es).level < n + 1 ↔ 0 < n ∧ ∀ e ∈ es, e.2.level < n := by
  rw [level, Nat.add_lt_add_iff_right, entriesLevel_lt]

theorem level_ofMap_lt {n : Nat} {d : Dict κ α} :
    (ofMap key enc d).level < n + 1 ↔ 0 < n ∧ ∀ e ∈ d.entries, (enc e.2).level < n := by
  rw [ofMap, level_object_lt, List.forall_mem_map]

theorem level_ofOption_lt {n : Nat} {o : Option α} :
    (ofOption enc o).level < n ↔ 0 < n ∧ ∀ a ∈ o, (enc a).level < n := by
  cases o with
  | none => simp [ofOption, level]
  | some a =>
    simp only [ofOption, Option.mem_some_iff, forall_eq']
    exact ⟨fun h => ⟨by omega, h⟩, And.right⟩

theorem level_ofList_lt {n : Nat} {items : List α} :
    (ofList enc items).level < n + 1 ↔ 0 < n ∧ ∀ a ∈ items, (enc a).level < n := by
  rw [ofList, level, Nat.add_lt_add_iff_right, itemsLevel_lt, List.forall_mem_map]

theorem asUnsigned_ofUnsigned {bits n : Nat} (h : n < 2 ^ bits) : asUnsigned bits (ofUnsigned n) = some n := if_pos h

theorem wf_ofMap {d : Dict κ α} (hkey : ∀ j k, key j = key k → j = k) (hval : ∀ e ∈ d.entries, (enc e.2).Wf) :
    (ofMap key enc d).Wf := by
  refine ⟨?_, ?_⟩
  · have hkeys : (d.entries.map fun e => (key e.1, enc e.2)).map Prod.fst = (d.entries.map Prod.fst).map key := by
      rw [List.map_map, List.map_map]
      rfl
    rw [hkeys]
    exact d.nodup.map fun j k h => hkey j k h
  · have hentries : ∀ es : List (κ × α), (∀ e ∈ es, (enc e.2).Wf) → EntriesWf (es.map fun e => (key e.1, enc e.2)) := by
      intro es
      induction es with
      | nil => exact fun _ => trivial
      | cons e es ih => exact fun hes => ⟨hes e List.mem_cons_self, ih fun e he => hes e (List.mem_cons_of_mem _ he)⟩
    exact hentries d.entries hval

theorem wf_ofOption {o : Option α} (hval : ∀ a ∈ o, (enc a).Wf) : (ofOption enc o).Wf := by
  cases o with
  | none => trivial
  | some a => exact hval a rfl

theorem wf_ofList {items : List α} (hval : ∀ a ∈ items, (enc a).Wf) : (ofList enc items).Wf := by
  have hitems : ∀ items : List α, (∀ a ∈ items, (enc a).Wf) → ItemsWf (items.map enc) := by
    intro items
    induction items with
    | nil => exact fun _ => trivial
    | cons a items ih => exact fun h => ⟨h a List.mem_cons_self, ih fun b hb => h b (List.mem_cons_of_mem _ hb)⟩
  exact hitems items hval

end Codecs

end Json


theorem ofNat_injective {m n : Nat} (h : Text.ofNat m = Text.ofNat n) : m = n := by
  have hm := Text.parseNat_ofNat m
  rw [h, Text.parseNat_ofNat] at hm
  exact (Option.some.inj hm).symm

/-! ### Scopes and contexts -/

namespace MergeStrategy

def toJson : MergeStrategy → Json
  | last => .string "Last"
  | first => .string "First"
  | min => .string "Min"
  | max => .string "Max"
  | concat => .string "Concat"
  | sum => .string "Sum"
  | avg => .string "Avg"

def ofJson : Json → Option MergeStrategy
  | .string s =>
    if s = ("Last" : Text) then some last
    else if s = ("First" : Text) then some first
    else if s = ("Min" : Text) then some min
    else if s = ("Max" : Text) then some max
    else if s = ("Concat" : Text) then some concat
    else if s = ("Sum" : Text) then some sum
    else if s = ("Avg" : Text) then some avg
    else none
  | _ => none

theorem reread_toJson (m : MergeStrategy) : m.toJson.reread.bind ofJson = some m := by
  cases m <;> decide

end MergeStrategy

namespace Value

/-- The derived `Deserialize` of the untagged enumeration. -/
def ofJson (j : Json) : Option Value := some (jsonToTp j)

theorem reread_bind_ofJson (v : Value) : v.toJson.reread.bind ofJson = v.reread := by
  rw [← reread_toJson]
  cases v.toJson.reread <;> rfl

end Value

/-- `HashMap<String, Value>` -/
def varsJson (d : Dict Text Value) : Json := Json.ofMap (fun k => k) Value.toJson d

def varsOfJson : Json → Option (Dict Text Value) := Json.asMap some Value.ofJson

def rereadVars : Dict Text Value → Option (Dict Text Value) := traverseDict Value.reread

def varsFloats (d : Dict Text Value) : List F64 := d.entries.flatMap fun e => e.2.floats

def VarsWf (d : Dict Text Value) : Prop := ∀ e ∈ d.entries, e.2.Wf

theorem reread_varsJson (d : Dict Text Value) : (varsJson d).reread.bind varsOfJson = rereadVars d :=
  Json.reread_ofMap (fun _ _ => rfl) Value.reread_bind_ofJson

theorem wf_varsJson {d : Dict Text Value} (h : VarsWf d) : (varsJson d).Wf :=
  Json.wf_ofMap (fun _ _ h => h) fun e he => Value.wf_toJson (h e he)

theorem rereadVars_eq_some {d : Dict Text Value} : rereadVars d = some d ↔ ∀ f ∈ varsFloats d, Value.ReadsBack f := by
  rw [rereadVars, traverseDict_eq_some, varsFloats, List.forall_mem_flatMap]
  exact forall₂_congr fun e _ => Value.reread_eq_some e.2

theorem level_varsJson_lt {d : Dict Text Value} {n : Nat} :
    (varsJson d).level < n + 1 ↔ 0 < n ∧ ∀ e ∈ d.entries, e.2.level < n := Json.level_ofMap_lt

namespace Scope

def toJson (s : Scope) : Json := .object
  [("variables", varsJson s.vars),
   ("merge_strategies", Json.ofMap (fun k => k) MergeStrategy.toJson s.mergeStrategies)]

def ofJson : Json → Option Scope
  | .object m => do
    let vars ← Json.field varsOfJson "variables" m
    let mergeStrategies ← Json.field (Json.asMap some MergeStrategy.ofJson) "merge_strategies" m
    some ⟨vars, mergeStrategies⟩
  | _ => none

def reread (s : Scope) : Option Scope := (rereadVars s.vars).map fun vars => { s with vars := vars }

def Wf (s : Scope) : Prop := VarsWf s.vars

theorem reread_toJson (s : Scope) : s.toJson.reread.bind ofJson = s.reread := by
  have hstrategies : (Json.ofMap (fun k => k) MergeStrategy.toJson s.mergeStrategies).reread.bind
      (Json.asMap some MergeStrategy.ofJson) = some s.mergeStrategies :=
    (Json.reread_ofMap (fun _ _ => rfl) MergeStrategy.reread_toJson).trans (traverseDict_eq_some.2 fun _ _ => rfl)
  obtain ⟨j, hj, hread⟩ := Option.bind_eq_some_iff.1 hstrategies
  have hfind : ∀ v, ofJson (.object [("variables", v), ("merge_strategies", j)]) = (varsOfJson v).bind fun vars =>
    (Json.asMap some MergeStrategy.ofJson j).bind fun mergeStrategies => some ⟨vars, mergeStrategies⟩ := fun _ => rfl
  rw [reread, ← reread_varsJson, toJson, Json.reread_object_bind, Json.rereadEntries_bind]
  cases (varsJson s.vars).reread with
  | none => rfl
  | some v =>
    rw [Option.bind_some, Option.bind_some, Json.rereadEntries_bind, hj, Option.bind_some, Json.rereadEntries,
      Option.bind_some, hfind, hread]
    cases varsOfJson v <;> rfl

theorem reread_ne_null (s : Scope) : s.toJson.reread ≠ some .null := by
  rw [toJson, Json.reread]
  intro h
  obtain ⟨m, -, hm⟩ := Option.map_eq_some_iff.1 h
  cases hm

theorem wf_toJson {s : Scope} (h : s.Wf) : s.toJson.Wf := by
  have hkeys : ([("variables" : Text), "merge_strategies"] : List Text).Nodup := by decide
  refine ⟨hkeys, wf_varsJson h, ?_, trivial⟩
  apply Json.wf_ofMap (fun _ _ h => h)
  intro e _
  cases e.2 <;> trivial

theorem reread_eq_some {s : Scope} : s.reread = some s ↔ ∀ f ∈ varsFloats s.vars, Value.ReadsBack f := by
  rw [← rereadVars_eq_some, reread, Option.map_eq_some_iff]
  constructor
  · rintro ⟨vars, hvars, heq⟩
    rw [hvars, ← heq]
  · exact fun h => ⟨s.vars, h, rfl⟩

theorem level_toJson_lt {s : Scope} {n : Nat} : s.toJson.level < n + 3 ↔ ∀ v ∈ s.vars.entries, v.2.level < n + 1 := by
  have hstrategies : ∀ n, (Json.ofMap (fun k => k) MergeStrategy.toJson s.mergeStrategies).level < n + 2 := by
    refine fun n => Json.level_ofMap_lt.2 ⟨n.succ_pos, fun e _ => ?_⟩
    cases e.2 <;> exact n.succ_pos
  rw [toJson, Json.level_object_lt, List.forall_mem_cons, List.forall_mem_singleton, level_varsJson_lt]
  have hn := hstrategies n
  constructor
  · exact fun h => h.2.1.2
  · exact fun h => ⟨by omega, ⟨by omega, h⟩, hn⟩

end Scope

namespace Context

def toJson (c : Context) : Json := .object
  [("variables", varsJson c.vars),
   ("branch_scopes", Json.ofMap Text.ofNat Scope.toJson c.branchScopes),
   ("parent_scope", Json.ofOption Scope.toJson c.parentScope),
   ("active_branch", Json.ofOption Json.ofUnsigned c.activeBranch)]

def ofJson : Json → Option Context
  | .object m => do
    let vars ← Json.field varsOfJson "variables" m
    let branchScopes ← Json.field (Json.asMap Json.keyU32 Scope.ofJson) "branch_scopes" m
    let parentScope ← Json.optionalField Scope.ofJson "parent_scope" m
    let activeBranch ← Json.optionalField (Json.asUnsigned 32) "active_branch" m
    some ⟨vars, branchScopes, parentScope, activeBranch⟩
  | _ => none

/-- The context with its doubles read back. -/
def reread (c : Context) : Option Context := do
  let vars ← rereadVars c.vars
  let branchScopes ← traverseDict Scope.reread c.branchScopes
  let parentScope ← c.parentScope.elim (some none) fun s => s.reread.map some
  some { c with vars := vars, branchScopes := branchScopes, parentScope := parentScope }

structure Wf (c : Context) : Prop where
  vars : VarsWf c.vars
  branchScopes : ∀ e ∈ c.branchScopes.entries, e.1 < 2 ^ 32 ∧ e.2.Wf
  parentScope : ∀ s ∈ c.parentScope, s.Wf
  activeBranch : ∀ b ∈ c.activeBranch, b < 2 ^ 32

/-- All doubles of a context. -/
def floats (c : Context) : List F64 :=
  varsFloats c.vars ++ (c.branchScopes.entries.flatMap (fun e => varsFloats e.2.vars) ++
    c.parentScope.toList.flatMap fun s => varsFloats s.vars)

theorem reread_toJson {c : Context} (h : c.Wf) : c.toJson.reread.bind ofJson = c.reread := by
  have hvars := reread_varsJson c.vars
  have hscopes : (Json.ofMap Text.ofNat Scope.toJson c.branchScopes).reread.bind (Json.asMap Json.keyU32 Scope.ofJson) =
      traverseDict Scope.reread c.branchScopes :=
    Json.reread_ofMap (fun e he => Json.keyU32_ofNat (h.branchScopes e he).1) Scope.reread_toJson
  have hparent := Json.reread_ofOption (o := c.parentScope) Scope.reread_toJson Scope.reread_ne_null
  have hactive : Json.asOption (Json.asUnsigned 32) (Json.ofOption Json.ofUnsigned c.activeBranch) =
      some c.activeBranch := by
    cases hb : c.activeBranch with
    | none => rfl
    | some b =>
      have hback := Json.asUnsigned_ofUnsigned (h.activeBranch b hb)
      exact congrArg (Option.map some) hback
  have hfields : ∀ v s p a, ofJson (.object [("variables", v), ("branch_scopes", s), ("parent_scope", p),
      ("active_branch", a)]) = (varsOfJson v).bind fun vars => (Json.asMap Json.keyU32 Scope.ofJson s).bind
        fun branchScopes => (Json.asOption Scope.ofJson p).bind fun parentScope =>
          (Json.asOption (Json.asUnsigned 32) a).bind fun activeBranch =>
            some ⟨vars, branchScopes, parentScope, activeBranch⟩ := fun _ _ _ _ => rfl
  have hself : (Json.ofOption Json.ofUnsigned c.activeBranch).reread =
      some (Json.ofOption Json.ofUnsigned c.activeBranch) := by
    cases c.activeBranch <;> rfl
  rw [reread, ← hvars, ← hscopes, ← hparent, toJson, Json.reread_object_bind, Json.rereadEntries_bind]
  cases (varsJson c.vars).reread with
  | none => rfl
  | some v =>
    rw [Option.bind_some, Json.rereadEntries_bind]
    cases (Json.ofMap Text.ofNat Scope.toJson c.branchScopes).reread with
    | none => exact (Option.bind_fun_none _).symm
    | some s =>
      rw [Option.bind_some, Json.rereadEntries_bind]
      cases (Json.ofOption Scope.toJson c.parentScope).reread with
      | none => simp only [Option.bind_none, Option.bind_fun_none, Option.bind_eq_bind]
      | some p =>
        rw [Option.bind_some, Json.rereadEntries_bind, hself, Option.bind_some, Json.rereadEntries, Option.bind_some,
          hfields, hactive]
        rfl

theorem wf_toJson {c : Context} (h : c.Wf) : c.toJson.Wf := by
  have hkeys : ([("variables" : Text), "branch_scopes", "parent_scope", "active_branch"] : List Text).Nodup := by decide
  refine ⟨hkeys, wf_varsJson h.vars, ?_, ?_, ?_, trivial⟩
  · exact Json.wf_ofMap (fun _ _ h => ofNat_injective h) fun e he => Scope.wf_toJson (h.branchScopes e he).2
  · exact Json.wf_ofOption fun s hs => Scope.wf_toJson (h.parentScope s hs)
  · exact Json.wf_ofOption fun b hb => (h.activeBranch b hb).trans (by decide)

theorem reread_eq_some {c : Context} : c.reread = some c ↔ ∀ f ∈ c.floats, Value.ReadsBack f := by
  have hscopes : traverseDict Scope.reread c.branchScopes = some c.branchScopes ↔
      ∀ f ∈ c.branchScopes.entries.flatMap (fun e => varsFloats e.2.vars), Value.ReadsBack f := by
    rw [traverseDict_eq_some, List.forall_mem_flatMap]
    exact forall₂_congr fun e _ => Scope.reread_eq_some
  have hparent : (c.parentScope.elim (some none) fun s => s.reread.map some) = some c.parentScope ↔
      ∀ f ∈ c.parentScope.toList.flatMap (fun s => varsFloats s.vars), Value.ReadsBack f := by
    cases c.parentScope with
    | none => simp
    | some s => simp [← Scope.reread_eq_some]
  rw [floats, List.forall_mem_append, List.forall_mem_append, ← rereadVars_eq_some, ← hscopes, ← hparent, reread]
  constructor
  · intro heq
    obtain ⟨vars, hvars, heq⟩ := Option.bind_eq_some_iff.1 heq
    obtain ⟨scopes, hscopes, heq⟩ := Option.bind_eq_some_iff.1 heq
    obtain ⟨parent, hparent, heq⟩ := Option.bind_eq_some_iff.1 heq
    have hc := Option.some.inj heq
    rw [hvars, hscopes, hparent, ← hc]
    exact ⟨rfl, rfl, rfl⟩
  · rintro ⟨hvars, hscopes, hparent⟩
    rw [hvars, hscopes, hparent]
    rfl

theorem level_toJson_lt {c : Context} {n : Nat} : c.toJson.level < n + 5 ↔
    (∀ e ∈ c.vars.entries, e.2.level < n + 3) ∧
      (∀ e ∈ c.branchScopes.entries, ∀ v ∈ e.2.vars.entries, v.2.level < n + 1) ∧
      ∀ s ∈ c.parentScope, ∀ v ∈ s.vars.entries, v.2.level < n + 2 := by
  have hactive : (Json.ofOption Json.ofUnsigned c.activeBranch).level < n + 4 :=
    Json.level_ofOption_lt.2 ⟨by omega, fun _ _ => Nat.succ_pos _⟩
  rw [toJson, Json.level_object_lt, List.forall_mem_cons, List.forall_mem_cons, List.forall_mem_cons,
    List.forall_mem_singleton, level_varsJson_lt, Json.level_ofMap_lt, Json.level_ofOption_lt]
  simp only [Scope.level_toJson_lt, hactive, and_true]
  constructor
  · exact fun h => ⟨h.2.1.2, h.2.2.1.2, h.2.2.2.2⟩
  · exact fun h => ⟨by omega, ⟨by omega, h.1⟩, ⟨by omega, h.2.1⟩, by omega, h.2.2⟩

end Context

end Tinypipe
