import Tinypipe.Compiler.Acyclic

/-! How `META(..)` is encoded (`meta_expr_to_json`, `tinypipe-compiler/src/transform.rs`), against the
JSON of the Python value of each literal that `is_meta_constant` accepts. -/

namespace Tinypipe

open Lib Ast

namespace Json

/-- An integer as JSON writes it, of any size. -/
def ofInteger (i : Int) : Json := .number (if 0 ≤ i then .posInt i.toNat else .negInt i)

/-- JSON has no infinities and no NaN. -/
def ofFloat (f : F64) : Option Json := if f.isFinite then some (.number (.float f)) else none

theorem wholePart_ofNat (n : Nat) : wholePart (Text.ofNat n) = some (Text.ofNat n, []) := by
  have hall : ∀ c ∈ Text.ofNat n, Text.isDigit c = true := fun c => Text.isDigit_of_mem_ofNat
  have hspan : (Text.ofNat n).span Text.isDigit = (Text.ofNat n, []) := by
    rw [List.span_eq_takeWhile_dropWhile, List.takeWhile_eq_self_iff.2 hall, List.dropWhile_eq_nil_iff.2 hall]
  rw [wholePart, hspan]
  rcases Text.ofNat_head n with hzero | ⟨c, cs, hcs, hc⟩
  · rw [hzero]
    rfl
  · rw [hcs]
    split
    · cases ‹(c :: cs, ([] : Text)) = ([], _)›
    · cases ‹(c :: cs, ([] : Text)) = (['0'], _)›
      exact absurd rfl hc
    · cases ‹(c :: cs, ([] : Text)) = ('0' :: _, _)›
      exact absurd rfl hc
    · rfl

/-- The digits of a number are an integer where it fits 64 bits, and else a double. -/
theorem parseNumber_ofNat (neg : Bool) (n : Nat) : parseNumber neg (Text.ofNat n) =
    if !neg && n < 2 ^ 64 then some (.posInt n, [])
    else if neg && n != 0 && n ≤ 2 ^ 63 then some (.negInt (-(n : Int)), [])
    else (F64.parseDecimal neg (Text.ofNat n ++ [] ++ [])).bind fun f =>
      if f.isFinite then some (.float f, []) else none := by
  simp only [parseNumber, wholePart_ofNat, fractionPart, exponentPart, Text.parseNat_ofNat, Option.bind_eq_bind,
    Option.bind_some, List.isEmpty_nil, Bool.and_self, if_true]

end Json

theorem intJson_eq (i : Int) : intJson i =
    ((Json.parseNumber (i < 0) (Text.ofNat i.natAbs)).map fun p => Json.number p.1).getD .null := by
  rw [intJson]
  cases Json.parseNumber (i < 0) (Text.ofNat i.natAbs) <;> rfl

/-- An integer that fits 64 bits is encoded as itself, any other as no integer. -/
theorem intJson_cases (i : Int) : (-2 ^ 63 ≤ i ∧ i < 2 ^ 64) ∧ intJson i = Json.ofInteger i ∨
    ¬ (-2 ^ 63 ≤ i ∧ i < 2 ^ 64) ∧ ∀ j, intJson i ≠ Json.ofInteger j := by
  have hfloat : ∀ (o : Option F64) (j : Int), ((o.bind fun f => if f.isFinite then
      some (Json.Number.float f, ([] : Text)) else none).map fun p => Json.number p.1).getD .null ≠ Json.ofInteger j := by
    intro o j
    rw [Json.ofInteger]
    cases o with
    | none => nofun
    | some f =>
      rw [Option.bind_some]
      by_cases hf : f.isFinite = true
      · rw [if_pos hf]
        split <;> nofun
      · rw [if_neg hf]
        nofun
  rw [intJson_eq, Json.parseNumber_ofNat]
  by_cases hneg : i < 0
  · have habs : -(i.natAbs : Int) = i := by omega
    have hne : (i.natAbs != 0) = true := bne_iff_ne.2 (by omega)
    rw [decide_eq_true hneg, hne]
    by_cases hfit : i.natAbs ≤ 2 ^ 63
    · simp only [decide_eq_true hfit, Bool.not_true, Bool.false_and, Bool.and_self, Bool.false_eq_true, if_false,
        if_true]
      rw [habs, Json.ofInteger, if_neg (by omega)]
      exact Or.inl ⟨by omega, rfl⟩
    · simp only [decide_eq_false hfit, Bool.not_true, Bool.false_and, Bool.and_false, Bool.false_eq_true, if_false]
      exact Or.inr ⟨by omega, hfloat _⟩
  · have habs : i.natAbs = i.toNat := by omega
    rw [decide_eq_false hneg]
    by_cases hfit : i.natAbs < 2 ^ 64
    · simp only [decide_eq_true hfit, Bool.not_false, Bool.and_self, if_true]
      rw [habs, Json.ofInteger, if_pos (by omega)]
      exact Or.inl ⟨by omega, rfl⟩
    · simp only [decide_eq_false hfit, Bool.and_false, Bool.false_and, Bool.false_eq_true, if_false]
      exact Or.inr ⟨by omega, hfloat _⟩

theorem Json.ofInteger_inj {i j : Int} (h : Json.ofInteger i = Json.ofInteger j) : i = j := by
  simp only [Json.ofInteger, Json.number.injEq] at h
  split at h <;> split at h
  · have hnat := Json.Number.posInt.inj h
    omega
  · cases h
  · cases h
  · exact Json.Number.negInt.inj h

theorem ofInteger_eq_intJson_iff (i j : Int) :
    Json.ofInteger j = intJson i ↔ j = i ∧ -2 ^ 63 ≤ i ∧ i < 2 ^ 64 := by
  rcases intJson_cases i with ⟨hfit, heq⟩ | ⟨hfit, hne⟩
  · rw [heq]
    exact ⟨fun h => ⟨Json.ofInteger_inj h, hfit⟩, fun h => by rw [h.1]⟩
  · exact iff_of_false (fun h => hne j h.symm) fun h => hfit h.2

/-! ### What a literal is -/

mutual

/-- Python's truth value of a constant. -/
def truthy : Constant → Bool
  | .none => false
  | .bool b => b
  | .str s | .bytes s => !s.isEmpty
  | .int i => i != 0
  | .tuple items => !items.isEmpty
  | .float f => f.magnitude != 0
  | .complex real imag => real.magnitude != 0 || imag.magnitude != 0
  | .ellipsis => true

/-- The JSON of a constant's value; `none` where JSON has no such value. -/
def constantJson : Constant → Option Json
  | .none => some .null
  | .bool b => some (.bool b)
  | .str s => some (.string s)
  | .int i => some (Json.ofInteger i)
  | .tuple items => (constantItems items).map .array
  | .float f => Json.ofFloat f
  | .bytes _ | .complex _ _ | .ellipsis => none

def constantItems : List Constant → Option (List Json)
  | [] => some []
  | c :: cs => (constantJson c).bind fun j => (constantItems cs).map (j :: ·)

end

/-- The JSON of a signed or negated constant; `none` also where Python raises an error. A boolean counts
as an integer. -/
def unaryJson : UnaryOp → Constant → Option Json
  | .not, c => some (.bool !truthy c)
  | .uAdd, .int i => some (Json.ofInteger i)
  | .uSub, .int i => some (Json.ofInteger (-i))
  | .invert, .int i => some (Json.ofInteger (-i - 1))
  | .uAdd, .bool b => some (Json.ofInteger b.toInt)
  | .uSub, .bool b => some (Json.ofInteger (-b.toInt))
  | .invert, .bool b => some (Json.ofInteger (-b.toInt - 1))
  | .uAdd, .float f => Json.ofFloat f
  | .uSub, .float f => Json.ofFloat f.neg
  | _, _ => none

mutual

/-- The JSON of the Python value of a literal. -/
def literalJson : Expr → Option Json
  | .constant c => constantJson c
  | .unaryOp op (.constant c) => unaryJson op c
  | .list elts | .tuple elts => (literalItems elts).map .array
  | _ => none

def literalItems : List Expr → Option (List Json)
  | [] => some []
  | e :: es => (literalJson e).bind fun j => (literalItems es).map (j :: ·)

end

/-- The constants that are encoded as they are. -/
def keptConstant : Constant → Bool
  | .none | .bool _ | .str _ => true
  | .int i => -2 ^ 63 ≤ i && i < 2 ^ 64
  | .float f => f.isFinite
  | .bytes _ | .tuple _ | .complex _ _ | .ellipsis => false

mutual

/-- The literals that are encoded as they are: of those with an operator only zero and finite doubles
behind a minus. -/
def keptLiteral : Expr → Bool
  | .constant c => keptConstant c
  | .unaryOp .uSub (.constant (.int i)) => i == 0
  | .unaryOp .uSub (.constant (.float f)) => f.neg.isFinite
  | .list elts | .tuple elts => keptLiterals elts
  | _ => false

def keptLiterals : List Expr → Bool
  | [] => true
  | e :: es => keptLiteral e && keptLiterals es

end

theorem ofFloat_eq_iff (f : F64) : Json.ofFloat f = some (floatJson f) ↔ f.isFinite = true := by
  rw [Json.ofFloat, floatJson]
  by_cases h : f.isFinite = true
  · simp [h]
  · simp [h]

theorem ofFloat_ne_null (f : F64) : Json.ofFloat f ≠ some .null := by
  rw [Json.ofFloat]
  split <;> nofun

theorem constantJson_eq_iff (c : Constant) :
    constantJson c = some (metaExprToJson (.constant c)) ↔ keptConstant c = true := by
  cases c with
  | none => exact iff_of_true rfl rfl
  | bool b => exact iff_of_true rfl rfl
  | str s => exact iff_of_true rfl rfl
  | bytes s => exact iff_of_false nofun nofun
  | complex real imag => exact iff_of_false nofun nofun
  | ellipsis => exact iff_of_false nofun nofun
  | float f => exact ofFloat_eq_iff f
  | int i =>
    simp only [constantJson, metaExprToJson, keptConstant, Option.some.injEq, Bool.and_eq_true, decide_eq_true_eq,
      ofInteger_eq_intJson_iff, true_and]
  | tuple items =>
    refine iff_of_false ?_ nofun
    rw [constantJson]
    cases constantItems items <;> nofun

theorem unaryJson_eq_iff (op : UnaryOp) (c : Constant) :
    unaryJson op c = some (metaExprToJson (.unaryOp op (.constant c))) ↔
      keptLiteral (.unaryOp op (.constant c)) = true := by
  cases op with
  | not => exact iff_of_false (by cases c <;> nofun) nofun
  | invert => exact iff_of_false (by cases c <;> nofun) nofun
  | uAdd =>
    refine iff_of_false ?_ nofun
    cases c with
    | float f => exact ofFloat_ne_null f
    | _ => nofun
  | uSub =>
    cases c with
    | float f => exact ofFloat_eq_iff f.neg
    | int i =>
      simp only [unaryJson, metaExprToJson, keptLiteral, Option.some.injEq, beq_iff_eq, ofInteger_eq_intJson_iff]
      omega
    | _ => exact iff_of_false nofun nofun

theorem array_eq_iff (es : List Expr) : (literalItems es).map Json.array = some (.array (metaItems es)) ↔
    literalItems es = some (metaItems es) := by
  cases literalItems es with
  | none => exact iff_of_false nofun nofun
  | some js => simp only [Option.map_some, Option.some.injEq, Json.array.injEq]

mutual

/-- The two recursions over a literal agree exactly on the literals that are kept. -/
theorem literalJson_eq_iff : ∀ e : Expr, literalJson e = some (metaExprToJson e) ↔ keptLiteral e = true
  | .constant c => constantJson_eq_iff c
  | .unaryOp op e => by
    cases e with
    | constant c => exact unaryJson_eq_iff op c
    | _ => cases op <;> exact iff_of_false nofun nofun
  | .list elts => (array_eq_iff elts).trans (literalItems_eq_iff elts)
  | .tuple elts => (array_eq_iff elts).trans (literalItems_eq_iff elts)
  | .boolOp .. | .namedExpr .. | .binOp .. | .lambda .. | .ifExp .. | .dict .. | .set .. | .listComp ..
  | .setComp .. | .dictComp .. | .generatorExp .. | .await .. | .yield .. | .yieldFrom .. | .compare ..
  | .call .. | .formattedValue .. | .joinedStr .. | .attribute .. | .subscript .. | .starred .. | .name ..
  | .slice .. => iff_of_false nofun nofun

theorem literalItems_eq_iff : ∀ es : List Expr, literalItems es = some (metaItems es) ↔ keptLiterals es = true
  | [] => iff_of_true rfl rfl
  | e :: es => by
    have he := literalJson_eq_iff e
    have hes := literalItems_eq_iff es
    rw [literalItems, metaItems, keptLiterals, Bool.and_eq_true, ← he, ← hes]
    cases literalJson e with
    | none => exact iff_of_false nofun fun h => nomatch h.1
    | some j =>
      cases literalItems es with
      | none => exact iff_of_false nofun fun h => nomatch h.2
      | some js => simp only [Option.bind_some, Option.map_some, Option.some.injEq, List.cons.injEq]

end

/-! ### The object -/

/-- The keyword arguments of a call, a later one of a name over an earlier one. -/
def metaEntries (ks : List Keyword) : List (Text × Expr) :=
  ks.foldl (fun m k => k.arg.elim m fun name => Dict.put name k.value m) []

/-- The keys in the order of the stored object. -/
def sortedEntries (ks : List Keyword) : List (Text × Expr) :=
  (metaEntries ks).insertionSort fun a b => a.1.map Char.toNat ≤ b.1.map Char.toNat

/-- The object that is stored for `META(..)`. -/
def metaObject (ks : List Keyword) : Json :=
  .object ((sortedEntries ks).map fun entry => (entry.1, metaExprToJson entry.2))

/-- The object of the Python values of the arguments of `META(..)`. -/
def literalObject (ks : List Keyword) : Option Json :=
  ((sortedEntries ks).mapM fun entry => (literalJson entry.2).map (entry.1, ·)).map .object

theorem put_map {α β γ : Type} [DecidableEq α] (f : β → γ) (k : α) (v : β) (m : List (α × β)) :
    Dict.put k (f v) (m.map fun entry => (entry.1, f entry.2)) = (Dict.put k v m).map fun entry => (entry.1, f entry.2) := by
  induction m with
  | nil => rfl
  | cons entry m ih =>
    obtain ⟨k', v'⟩ := entry
    by_cases h : k' = k
    · simp only [List.map_cons, Dict.put, if_pos h]
    · simp only [List.map_cons, Dict.put, if_neg h, ih]

theorem sortKeys_map (f : Expr → Json) (m : List (Text × Expr)) :
    Json.sortKeys (m.map fun entry => (entry.1, f entry.2)) =
      (m.insertionSort fun a b => a.1.map Char.toNat ≤ b.1.map Char.toNat).map fun entry => (entry.1, f entry.2) :=
  (List.map_insertionSort (fun a b : Text × Expr => a.1.map Char.toNat ≤ b.1.map Char.toNat)
    (fun a b : Text × Json => a.1.map Char.toNat ≤ b.1.map Char.toNat) (fun entry => (entry.1, f entry.2)) m
    fun _ _ _ _ => Iff.rfl).symm

theorem extractMeta_eq (args : List Expr) (ks : List Keyword) :
    extractMeta (.call (.name "META") args ks) = some (metaObject ks).toText := by
  rw [metaObject, sortedEntries, ← sortKeys_map, metaEntries]
  refine congrArg (fun m => some (Json.toText (.object (Json.sortKeys m)))) ?_
  change List.foldl _ (([] : List (Text × Expr)).map fun entry => (entry.1, metaExprToJson entry.2)) ks = _
  refine List.foldl_hom (fun m : List (Text × Expr) => m.map fun entry => (entry.1, metaExprToJson entry.2))
    fun m k => ?_
  obtain ⟨arg, v⟩ := k
  cases arg with
  | none => rfl
  | some name => exact put_map metaExprToJson name v m

/-- The object is the one of the literals exactly when every value is kept. -/
theorem literalObject_eq_iff (ks : List Keyword) :
    literalObject ks = some (metaObject ks) ↔ ∀ entry ∈ metaEntries ks, keptLiteral entry.2 = true := by
  have hmap : ∀ m : List (Text × Expr), (m.mapM fun entry => (literalJson entry.2).map (entry.1, ·)) =
      some (m.map fun entry => (entry.1, metaExprToJson entry.2)) ↔ ∀ entry ∈ m, keptLiteral entry.2 = true := by
    intro m
    induction m with
    | nil => exact iff_of_true rfl nofun
    | cons entry m ih =>
      rw [List.forall_mem_cons, ← ih, ← literalJson_eq_iff, List.mapM_cons]
      cases literalJson entry.2 with
      | none => exact iff_of_false nofun fun h => nomatch h.1
      | some j =>
        cases m.mapM fun entry => (literalJson entry.2).map (entry.1, ·) with
        | none => exact iff_of_false nofun fun h => nomatch h.2
        | some es => simp
  have hobject : ∀ (o : Option (List (Text × Json))) (es : List (Text × Json)),
      o.map Json.object = some (.object es) ↔ o = some es := by
    intro o es
    cases o <;> simp
  rw [literalObject, metaObject, hobject, hmap]
  exact forall_congr' fun entry => imp_congr_left (List.mem_insertionSort _)

/-! ### The plan -/

namespace Transformer

/-- A second `META` ends the transform, so a JSON that is there stays. -/
theorem scanMeta_keeps {ss : List Stmt} {e e' : TransformEngine} {u : Unit} (h : scanMeta ss e = .ok u e')
    (hset : e.metaJson ≠ []) : e'.metaJson = e.metaJson := by
  induction ss with
  | nil =>
    cases h
    rfl
  | cons s ss ih =>
    rcases scanMeta_cons h with ⟨value, json, -, -, hempty, -⟩ | ⟨-, hrest⟩
    · exact absurd hempty hset
    · exact ih hrest

theorem scanMeta_stores {ss : List Stmt} {e e' : TransformEngine} {u : Unit} {value : Expr} {json : Text}
    (h : scanMeta ss e = .ok u e') (hmem : .expr value ∈ ss) (hjson : extractMeta value = some json)
    (hne : json ≠ []) : e'.metaJson = json := by
  induction ss generalizing e with
  | nil => cases hmem
  | cons s ss ih =>
    rcases scanMeta_cons h with ⟨value', json', rfl, hjson', -, hrest⟩ | ⟨hnone, hrest⟩
    · rcases List.mem_cons.1 hmem with heq | hmem
      · cases heq
        cases hjson'.symm.trans hjson
        exact scanMeta_keeps hrest hne
      · exact ih hrest hmem
    · rcases List.mem_cons.1 hmem with rfl | hmem
      · cases (hnone value rfl).symm.trans hjson
      · exact ih hrest hmem

theorem scanMeta_none {ss : List Stmt} {e e' : TransformEngine} {u : Unit} (h : scanMeta ss e = .ok u e')
    (hnone : ∀ value, .expr value ∈ ss → extractMeta value = none) : e'.metaJson = e.metaJson := by
  induction ss with
  | nil =>
    cases h
    rfl
  | cons s ss ih =>
    rcases scanMeta_cons h with ⟨value, json, rfl, hjson, -, -⟩ | ⟨-, hrest⟩
    · cases (hnone value List.mem_cons_self).symm.trans hjson
    · exact ih hrest fun value hmem => hnone value (List.mem_cons_of_mem _ hmem)

end Transformer

/-- The JSON of the plan is the object of the `META(..)` of the program, and empty without one. -/
theorem transform_metaJson {m : Ast.Module} {p : ExecutionPlan} (h : transform m = .ok p) :
    (∀ args ks, .expr (.call (.name "META") args ks) ∈ m.body → p.metadata.metaJson = (metaObject ks).toText) ∧
    ((∀ value, .expr value ∈ m.body → extractMeta value = none) → p.metadata.metaJson = []) := by
  obtain ⟨-, e, htransform, rfl⟩ := transform_ok h
  obtain ⟨e', -, hscan, -, hsame⟩ := Transformer.transformModule_layout htransform
  refine ⟨fun args ks hmem => ?_, fun hnone => ?_⟩
  · exact hsame.trans (Transformer.scanMeta_stores hscan hmem (extractMeta_eq args ks) nofun)
  · exact hsame.trans (Transformer.scanMeta_none hscan hnone)

open Build in
/-- `META(a=-5, b=+5, c=not False, d=[1, -0])` -/
def signedKeywords : List Keyword :=
  [.mk (some "a") (.unaryOp .uSub (int 5)), .mk (some "b") (.unaryOp .uAdd (int 5)),
   .mk (some "c") (.unaryOp .not (.constant (.bool false))),
   .mk (some "d") (.list [int 1, .unaryOp .uSub (int 0)])]

open Build in
def signedMeta : Module := ⟨.expr (.call (.name "META") [] signedKeywords) :: (graph [] [ret (int 0)]).body⟩

end Tinypipe
