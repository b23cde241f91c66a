import Tinypipe.Api.JsonText
import Tinypipe.Compiler.Meta
import Tinypipe.Lib.Casing
import Tinypipe.Server.Deploy
import Tinypipe.Server.Publish

/-! How the server reads the route of a graph in META (`parse_route_config`, `tinypipe-server/src/meta.rs`),
and that what it reads is what stands in the code of the graph. -/

namespace Tinypipe

open Lib Lib.Stateful

/-! ### META -/

/-- What the reading of META takes from libraries: the mappings to upper and to lower case, of which the
second one is usual on ASCII, and the text of an error of `serde_json`. -/
structure MetaReader where
  casing : Casing
  toLowercase : Text → Text
  ascii : ∀ t : Text, (∀ c ∈ t, c.toNat < 128) → toLowercase t = t.map Text.lower
  jsonError : Text → Text

def httpKeys : List Text :=
  [("http_route" : Text), ("http_method" : Text), ("http_public" : Text), ("http_timeout_ms" : Text),
    ("http_cache_ttl" : Text)]

def isHttpKey (k : Text) : Bool := ("http_" : Text).isPrefixOf k

def reservedPaths : List Text := [("api" : Text), ("healthz" : Text), ("assets" : Text), ("static" : Text)]

def isAsciiAlphanumeric (c : Char) : Bool :=
  Text.isDigit c || (decide ('a' ≤ c) && decide (c ≤ 'z')) || (decide ('A' ≤ c) && decide (c ≤ 'Z'))

def isRouteChar (c : Char) : Bool :=
  isAsciiAlphanumeric c || c == '/' || c == '-' || c == '_' || c == '.' || c == '~'

/-- A key with `null` counts as missing. -/
def isMissing (m : List (Text × Json)) (k : Text) : Bool :=
  match Dict.find k m with
  | none | some .null => true
  | some _ => false

def sortNames (names : List Text) : List Text :=
  names.insertionSort fun a b => a.map Char.toNat ≤ b.map Char.toNat

namespace MetaReader

variable (reader : MetaReader)

def routePath : Option Json → Except Text Text
  | some (.string s) =>
    let path := (Text.trim s).dropWhile (· == '/')
    if path = [] then .error "`http_route` must not be empty"
    else if 128 < Text.utf8Len path then .error "`http_route` too long (max 128)"
    else if reservedPaths.any fun r => r.isPrefixOf (reader.toLowercase path) then
      .error (("`http_route` '/" : Text) ++ path ++
        ("' collides with a reserved path (api/healthz/assets/static)" : Text))
    else match path.find? fun c => !isRouteChar c with
      | some c => .error (("`http_route` '/" : Text) ++ path ++ ("' contains invalid character '" : Text) ++ [c] ++
          ("'" : Text))
      | none => .ok path
  | _ => .error "`http_route` must be a string"

def routeMethod : Option Json → Except Text RouteMethod
  | none | some .null => .error "`http_method` is required (no default; missing keys are reported above)"
  | some (.string s) =>
    let upper := reader.casing.toUppercase s
    match reqMethod upper with
    | some method => .ok method
    | none =>
      if upper = ("OPTIONS" : Text) then .error
        "`http_method` OPTIONS is served automatically as CORS preflight; publish a different method"
      else .error (("`http_method` must be GET, POST, PUT, PATCH, DELETE, HEAD or OPTIONS (got \"" : Text) ++ upper ++
        ("\")" : Text))
  | some _ => .error "`http_method` must be a string (GET, POST, PUT, PATCH, DELETE, HEAD or OPTIONS)"

def routePublic : Option Json → Except Text Bool
  | none | some .null => .ok false
  | some (.bool b) => .ok b
  | some (.string s) =>
    let lower := s.map Text.lower
    if lower ∈ [("true" : Text), ("1" : Text), ("yes" : Text), ("on" : Text)] then .ok true
    else if lower ∈ [("false" : Text), ("0" : Text), ("no" : Text), ("off" : Text), ([] : Text)] then .ok false
    else .error (("`http_public` must be a boolean (got \"" : Text) ++ lower ++ ("\")" : Text))
  | some _ => .error "`http_public` must be a boolean"

/-- A `u32`, as a number or as its text. -/
def routeU32 (key unit : Text) : Option Json → Except Text Nat
  | none | some .null => .ok 0
  | some (.number (.posInt v)) => bounded v
  | some (.number _) => .error (("`" : Text) ++ key ++ ("` must be a non-negative integer" : Text))
  | some (.string s) => match Text.parseUnsigned 64 (Text.trim s) with
    | some v => bounded v
    | none => .error (("`" : Text) ++ key ++ ("` must be an integer (got \"" : Text) ++ s ++ ("\")" : Text))
  | some _ => .error (("`" : Text) ++ key ++ ("` must be an integer (" : Text) ++ unit ++ (")" : Text))
where
  bounded (v : Nat) : Except Text Nat :=
    if u32Max < v then
      .error (("`" : Text) ++ key ++ ("` too large (max " : Text) ++ Text.ofNat u32Max ++ (")" : Text))
    else .ok v

/-- The entries of META: all of the `http_*` keys, or none. -/
def routeOf (m : List (Text × Json)) : Except Text (Option RouteConfig) :=
  let unknown := sortNames ((m.map Prod.fst).filter fun k => isHttpKey k && !httpKeys.contains k)
  if unknown ≠ [] then .error (("unknown http_* META keys: " : Text) ++ Text.intercalate ", " unknown)
  else if !(m.map Prod.fst).any isHttpKey then .ok none
  else
    let missing := httpKeys.filter (isMissing m)
    if missing ≠ [] then
      .error (("publishing requires all http_* keys (missing: " : Text) ++ Text.intercalate ", " missing ++
        (")" : Text))
    else do
      let path ← reader.routePath (Dict.find ("http_route" : Text) m)
      let method ← reader.routeMethod (Dict.find ("http_method" : Text) m)
      let isPublic ← routePublic (Dict.find ("http_public" : Text) m)
      let timeoutMs ← routeU32 "http_timeout_ms" "ms" (Dict.find ("http_timeout_ms" : Text) m)
      let cacheTtl ← routeU32 "http_cache_ttl" "seconds" (Dict.find ("http_cache_ttl" : Text) m)
      pure (some ⟨[], path, method, isPublic, timeoutMs, cacheTtl⟩)

/-- The route that a META text declares. -/
def declared (metaJson : Text) : Except Text (Option RouteConfig) :=
  if Text.trim metaJson = [] then .ok none
  else match Json.fromStr metaJson with
    | none => .error (("invalid META JSON: " : Text) ++ reader.jsonError metaJson)
    | some (.object m) => reader.routeOf m
    | some _ => .error "META must be a JSON object"

def parseRouteConfig (metaJson graphName : Text) : Except Text (Option RouteConfig) :=
  match reader.declared metaJson with
  | .ok r => .ok r
  | .error e => .error (("graph '" : Text) ++ graphName ++ ("': " : Text) ++ e)

end MetaReader

/-! ### What is declared -/

/-- A route that can be published. -/
structure RouteConfig.Valid (rc : RouteConfig) : Prop where
  path_ne_nil : rc.path ≠ []
  no_slash : rc.path.head? ≠ some '/'
  size : Text.utf8Len rc.path ≤ 128
  chars : ∀ c ∈ rc.path, isRouteChar c = true
  free : ∀ r ∈ reservedPaths, ¬r <+: rc.path.map Text.lower
  method : rc.method ≠ .options
  timeoutMs : rc.timeoutMs < 2 ^ 32
  cacheTtl : rc.cacheTtl < 2 ^ 32

theorem toNat_lt_of_isRouteChar {c : Char} (h : isRouteChar c = true) : c.toNat < 128 := by
  simp only [isRouteChar, isAsciiAlphanumeric, Text.isDigit, Bool.or_eq_true, Bool.and_eq_true, decide_eq_true_eq,
    beq_iff_eq, Char.le_def, UInt32.le_iff_toNat_le] at h
  have hlast : c.toNat ≤ 'z'.toNat ∨ c = '/' ∨ c = '-' ∨ c = '_' ∨ c = '.' ∨ c = '~' := by
    rcases h with ((((((h | h) | h) | h) | h) | h) | h) | h
    · exact Or.inl (h.2.trans (by decide))
    · exact Or.inl h.2
    · exact Or.inl (h.2.trans (by decide))
    all_goals simp only [h, true_or, or_true]
  rcases hlast with h | rfl | rfl | rfl | rfl | rfl
  · exact h.trans_lt (by decide)
  all_goals decide

namespace MetaReader

variable {reader : MetaReader}

theorem routePath_ok {j : Option Json} {path : Text} (h : reader.routePath j = .ok path) :
    path ≠ [] ∧ path.head? ≠ some '/' ∧ Text.utf8Len path ≤ 128 ∧ (∀ c ∈ path, isRouteChar c = true) ∧
      ∀ r ∈ reservedPaths, ¬r <+: path.map Text.lower := by
  unfold routePath at h
  split at h
  case h_1 s =>
    dsimp only at h
    split at h
    · cases h
    split at h
    · cases h
    split at h
    · cases h
    split at h
    · cases h
    rename_i hnil hsize hfree _ hfind
    cases h
    have hchars : ∀ c ∈ (Text.trim s).dropWhile (· == '/'), isRouteChar c = true := by
      intro c hc
      have := List.find?_eq_none.1 hfind c hc
      simpa using this
    refine ⟨hnil, fun hhead => ?_, Nat.le_of_not_lt hsize, hchars, fun r hr hpre => ?_⟩
    · have := List.head?_dropWhile_not (· == '/') (Text.trim s)
      rw [hhead] at this
      simp at this
    · apply hfree
      rw [List.any_eq_true]
      refine ⟨r, hr, ?_⟩
      rw [reader.ascii _ fun c hc => toNat_lt_of_isRouteChar (hchars c hc)]
      exact List.isPrefixOf_iff_prefix.2 hpre
  case h_2 => cases h

theorem reqMethod_ne_options {t : Text} {m : RouteMethod} (h : reqMethod t = some m) : m ≠ .options := by
  unfold reqMethod at h
  split_ifs at h <;> cases h <;> decide

theorem routeMethod_ok {j : Option Json} {m : RouteMethod} (h : reader.routeMethod j = .ok m) : m ≠ .options := by
  unfold routeMethod at h
  split at h
  · cases h
  · cases h
  · dsimp only at h
    split at h
    case h_1 method hmethod =>
      cases h
      exact reqMethod_ne_options hmethod
    case h_2 => split at h <;> cases h
  · cases h

theorem bounded_ok {key : Text} {v n : Nat} (h : routeU32.bounded key v = .ok n) : n < 2 ^ 32 := by
  unfold routeU32.bounded at h
  split at h
  · cases h
  case isFalse hv =>
    cases h
    unfold u32Max at hv
    omega

theorem routeU32_ok {key unit : Text} {j : Option Json} {n : Nat} (h : routeU32 key unit j = .ok n) : n < 2 ^ 32 := by
  unfold routeU32 at h
  split at h
  · cases h
    decide
  · cases h
    decide
  · exact bounded_ok h
  · cases h
  · split at h
    · exact bounded_ok h
    · cases h
  · cases h

theorem ok_of_bind {ε α β : Type} {x : Except ε α} {f : α → Except ε β} {b : β} (h : (x >>= f) = .ok b) :
    ∃ a, x = .ok a ∧ f a = .ok b := by
  cases x with
  | error e => cases h
  | ok a => exact ⟨a, rfl, h⟩

theorem routeOf_valid {m : List (Text × Json)} {rc : RouteConfig} (h : reader.routeOf m = .ok (some rc)) :
    rc.Valid ∧ rc.graphId = [] := by
  unfold routeOf at h
  dsimp only at h
  split at h
  · cases h
  split at h
  · cases h
  split at h
  · cases h
  obtain ⟨path, hpath, h⟩ := ok_of_bind h
  obtain ⟨method, hmethod, h⟩ := ok_of_bind h
  obtain ⟨isPublic, -, h⟩ := ok_of_bind h
  obtain ⟨timeoutMs, htimeout, h⟩ := ok_of_bind h
  obtain ⟨cacheTtl, httl, h⟩ := ok_of_bind h
  cases h
  obtain ⟨hnil, hslash, hsize, hchars, hfree⟩ := routePath_ok hpath
  exact ⟨⟨hnil, hslash, hsize, hchars, hfree, routeMethod_ok hmethod, routeU32_ok htimeout, routeU32_ok httl⟩, rfl⟩

theorem declared_valid {metaJson : Text} {rc : RouteConfig} (h : reader.declared metaJson = .ok (some rc)) :
    rc.Valid ∧ rc.graphId = [] := by
  unfold declared at h
  split at h
  · cases h
  split at h
  · cases h
  · exact routeOf_valid h
  · cases h

/-- The name of the graph stands in the errors only. -/
theorem parseRouteConfig_ok {metaJson name : Text} {r : Option RouteConfig} :
    reader.parseRouteConfig metaJson name = .ok r ↔ reader.declared metaJson = .ok r := by
  unfold parseRouteConfig
  cases reader.declared metaJson with
  | ok r' => exact Iff.rfl
  | error e => exact iff_of_false (fun h => by cases h) fun h => by cases h

end MetaReader

/-! ### Keys -/

theorem separator_not_mem (m : RouteMethod) : '\x01' ∉ m.asStr := by
  cases m <;> decide

theorem routeKey_inj {path path' : Text} {m m' : RouteMethod} (h : routeKey path m = routeKey path' m') :
    path = path' ∧ m = m' := by
  have hrev : m.asStr.reverse ++ '\x01' :: path.reverse = m'.asStr.reverse ++ '\x01' :: path'.reverse := by
    have := congrArg List.reverse h
    simpa [routeKey] using this
  have hcut := congrArg (Text.splitOnce ['\x01']) hrev
  rw [Text.splitOnce_append _ fun hmem => separator_not_mem m (List.mem_reverse.1 hmem),
    Text.splitOnce_append _ fun hmem => separator_not_mem m' (List.mem_reverse.1 hmem)] at hcut
  obtain ⟨hm, hp⟩ := Prod.mk.inj (Option.some.inj hcut)
  refine ⟨List.reverse_injective hp, ?_⟩
  have hm := List.reverse_injective hm
  revert hm
  cases m <;> cases m' <;> decide

/-! ### From the code to the route -/

theorem wf_intJson (i : Int) : (intJson i).Wf := by
  rw [intJson_eq, Json.parseNumber_ofNat]
  split
  case isTrue hsmall =>
    rw [Bool.and_eq_true, decide_eq_true_eq] at hsmall
    exact hsmall.2
  case isFalse =>
    split
    case isTrue hneg =>
      simp only [Bool.and_eq_true, decide_eq_true_eq, bne_iff_ne] at hneg
      have hnonzero := hneg.1.2
      have hbound := hneg.2
      exact ⟨by omega, by omega⟩
    case isFalse =>
      cases F64.parseDecimal (decide (i < 0)) (Text.ofNat i.natAbs ++ [] ++ []) with
      | none => exact trivial
      | some f =>
        rw [Option.bind_some]
        split <;> exact trivial

theorem wf_floatJson (f : F64) : (floatJson f).Wf := by
  rw [floatJson]
  split <;> exact trivial

mutual

theorem wf_metaExprToJson : ∀ e : Ast.Expr, (metaExprToJson e).Wf
  | .constant c => by
    cases c with
    | int i => exact wf_intJson i
    | float f => exact wf_floatJson f
    | _ => exact trivial
  | .unaryOp op e => by
    cases op <;> cases e <;> try exact trivial
    rename_i c
    cases c with
    | int i => exact wf_intJson i
    | float f => exact wf_floatJson f.neg
    | _ => exact trivial
  | .list elts => itemsWf_metaItems elts
  | .tuple elts => itemsWf_metaItems elts
  | .boolOp .. | .namedExpr .. | .binOp .. | .lambda .. | .ifExp .. | .dict .. | .set .. | .listComp ..
  | .setComp .. | .dictComp .. | .generatorExp .. | .await .. | .yield .. | .yieldFrom .. | .compare ..
  | .call .. | .formattedValue .. | .joinedStr .. | .attribute .. | .subscript .. | .starred .. | .name ..
  | .slice .. => trivial

theorem itemsWf_metaItems : ∀ es : List Ast.Expr, Json.ItemsWf (metaItems es)
  | [] => trivial
  | e :: es => ⟨wf_metaExprToJson e, itemsWf_metaItems es⟩

end

theorem nodup_metaEntries (ks : List Ast.Keyword) : ((metaEntries ks).map Prod.fst).Nodup := by
  have hfold : ∀ (ks : List Ast.Keyword) (m : List (Text × Ast.Expr)), (m.map Prod.fst).Nodup →
      ((ks.foldl (fun m k => k.arg.elim m fun name => Dict.put name k.value m) m).map Prod.fst).Nodup := by
    intro ks
    induction ks with
    | nil => exact fun _ hm => hm
    | cons k ks ih =>
      intro m hm
      refine ih _ ?_
      change ((k.arg.elim m fun name => Dict.put name k.value m).map Prod.fst).Nodup
      cases k.arg with
      | none => exact hm
      | some name => exact Dict.put_nodup name k.value hm
  exact hfold ks [] List.nodup_nil

theorem wf_metaObject (ks : List Ast.Keyword) : (metaObject ks).Wf := by
  have hentries : ∀ m : List (Text × Ast.Expr),
      Json.EntriesWf (m.map fun entry => (entry.1, metaExprToJson entry.2)) := by
    intro m
    induction m with
    | nil => exact trivial
    | cons entry m ih => exact ⟨wf_metaExprToJson entry.2, ih⟩
  refine ⟨?_, hentries _⟩
  rw [List.map_map]
  exact ((List.perm_insertionSort _ _).map Prod.fst).nodup_iff.2 (nodup_metaEntries ks)

namespace Optimize

theorem deadNodeElimination_metadata (p : ExecutionPlan) : (deadNodeElimination p).1.metadata = p.metadata := by
  unfold deadNodeElimination
  dsimp only
  split <;> rfl

theorem multiBranchFusion_metadata (p : ExecutionPlan) : (multiBranchFusion p).1.metadata = p.metadata := by
  unfold multiBranchFusion
  dsimp only
  split <;> rfl

/-- The passes work on the nodes and on the edges. -/
theorem optimizeAll_metadata (p : ExecutionPlan) : (optimizeAll p).1.metadata = p.metadata := by
  calc (optimizeAll p).1.metadata
    _ = (calcFusion (deadNodeElimination (constantFolding p).1).1).1.metadata := multiBranchFusion_metadata _
    _ = (deadNodeElimination (constantFolding p).1).1.metadata := rfl
    _ = (constantFolding p).1.metadata := deadNodeElimination_metadata _
    _ = p.metadata := rfl

end Optimize

theorem compile_metaJson {time : Nat} {m : Ast.Module} {o : CodegenOutput} (ho : compile time m = .ok o) :
    ∃ p, transform m = .ok p ∧ o.compiled.metadata.metaJson = p.metadata.metaJson := by
  unfold compile at ho
  cases hp : transform m with
  | error errors => simp [hp] at ho
  | ok p =>
    cases hv : validate p with
    | error errors => simp [hp, hv] at ho
    | ok u =>
      simp only [hp, hv, codegen, codegenWithSchemaHashes] at ho
      cases horder : (Optimize.optimizeAll p).1.topologicalOrder with
      | error e => simp [horder, Except.mapError] at ho
      | ok order =>
        simp only [horder, Except.mapError, Except.ok.injEq] at ho
        subst ho
        have hmeta : (Optimize.optimizeAll p).1.metadata.metaJson = p.metadata.metaJson := by
          rw [Optimize.optimizeAll_metadata]
        exact ⟨p, rfl, hmeta⟩

theorem fromFbBytes_toFbBytes {Bytes : Type} (fb : FlatBuffers Bytes) (p : CompiledPlan) :
    CompiledPlan.fromFbBytes fb (p.toFbBytes fb) = .ok p.clearSentinels := by
  rw [CompiledPlan.fromFbBytes, CompiledPlan.toFbBytes, fb.rootAs_finish]
  exact CompiledPlan.ofFb_toFb p

/-- The META of a plan is that of the code it stands for, whenever it was compiled. -/
theorem Toolchain.Runs.metaJson {Blob : Type} {t : Toolchain Blob} {code : Text} {plan : CompiledPlan}
    (h : t.Runs code plan) :
    ∃ m p, t.parse code = .ok m ∧ transform m = .ok p ∧ plan.metadata.metaJson = p.metadata.metaJson := by
  obtain ⟨bytes, ⟨time, hbuild⟩, hdecode⟩ := h
  rw [build] at hbuild
  cases hm : t.parse code with
  | error message => simp [hm] at hbuild
  | ok m =>
    cases ho : compile time m with
    | error e => simp [hm, ho] at hbuild
    | ok o =>
      simp only [hm, ho, Except.ok.injEq] at hbuild
      obtain ⟨p, hp, hmeta⟩ := compile_metaJson ho
      refine ⟨m, p, rfl, hp, ?_⟩
      rw [← hbuild, fromFbBytes_toFbBytes] at hdecode
      cases hdecode
      exact hmeta

theorem declared_toText (reader : MetaReader) {es : List (Text × Json)} (hwf : (Json.object es).Wf)
    (hlevel : (Json.object es).level < 128) (hread : (Json.object es).reread = some (.object es)) :
    reader.declared (Json.object es).toText = reader.routeOf es := by
  have hmem : '\x7b' ∈ (Json.object es).toText := List.mem_cons_self
  unfold MetaReader.declared
  rw [if_neg (Text.trim_ne_nil hmem rfl), Json.fromStr_toText hwf, if_pos hlevel, hread]

/-- The reader that knows the letters of ASCII only. -/
def asciiReader : MetaReader where
  casing := Casing.asciiOnly
  toLowercase t := t.map Text.lower
  ascii _ _ := rfl
  jsonError _ := []

open Build in
/-- `META(http_route="/hello", http_method="get", http_public="yes", http_timeout_ms=250, http_cache_ttl=60)` -/
def routedKeywords : List Ast.Keyword :=
  [.mk (some "http_route") (str "/hello"), .mk (some "http_method") (str "get"),
   .mk (some "http_public") (str "yes"), .mk (some "http_timeout_ms") (int 250),
   .mk (some "http_cache_ttl") (int 60)]

open Build in
def routedModule : Ast.Module :=
  ⟨.expr (.call (.name "META") [] routedKeywords) :: (graph [] [ret (int 0)]).body⟩

def routedTools : Toolchain Fb.ExecutionPlan := ⟨fun _ => .ok routedModule, FlatBuffers.tables⟩

end Tinypipe
