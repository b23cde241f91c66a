import Tinypipe.Api.JsonText
import Tinypipe.Env.Template
import Tinypipe.Vm.Literals
import Tinypipe.Vm.Provenance

/-! The variables a plan needs, as far as they can be told before it runs (`tinypipe-ir/src/env_deps.rs`),
and the tool that reads them (`tinypipe-tools/src/tools/env.rs`). -/

namespace Tinypipe

open Lib Environment Environment.Template

/-! ### The scan of a plan -/

/-- The string of a JSON literal. -/
def jsonStringLiteral (value : Text) : Option Text :=
  match Json.fromStr value with
  | some (.string s) => some s
  | _ => none

def collectEnvGetDeps (nd : CompiledNode) : List EnvDep :=
  match (nd.arg "key").bind jsonStringLiteral with
  | none => []
  | some key => [⟨key, nd.args.any fun a => a.key == "default"⟩]

def collectEnvTemplateDeps (nd : CompiledNode) : List EnvDep :=
  match (nd.arg "value").bind jsonStringLiteral with
  | none => []
  | some value => extractTemplateKeys value

/-- The target of a CALL, where it is a JSON string. -/
def literalTarget (nd : CompiledNode) : Option Text :=
  if nd.op = .call then (nd.arg "target").bind jsonStringLiteral else none

def nodeEnvDeps (nd : CompiledNode) : List EnvDep :=
  match literalTarget nd with
  | none => []
  | some target =>
    if target = "env.get" then collectEnvGetDeps nd
    else if target = "env.template" then collectEnvTemplateDeps nd
    else []

def scanPlanEnvDeps (plan : CompiledPlan) : List EnvDep := plan.nodes.flatMap nodeEnvDeps

def subgraphTargets (plan : CompiledPlan) : List Text :=
  plan.nodes.filterMap fun nd => (literalTarget nd).bind (Text.stripPrefix "subgraph:")

/-! ### Literals that are read alike

The scan reads an argument as JSON, and a run takes its quotes off. -/

/-- A text that JSON writes as it is, and that does not look like a concatenation. -/
def Verbatim (s : Text) : Prop := (∀ c ∈ s, Json.escapeChar c = [c]) ∧ isConcatExpr (quoted s) = false

instance (s : Text) : Decidable (Verbatim s) := inferInstanceAs (Decidable (_ ∧ _))

namespace Verbatim

variable {s : Text}

theorem quoted_eq_quote (h : Verbatim s) : quoted s = Json.quote s := by
  have hsame : s.flatMap Json.escapeChar = s := by
    rw [List.flatMap_congr h.1]
    exact List.flatMap_singleton' s
  rw [quoted_eq, Json.quote, hsame]

theorem plainEnds (h : Verbatim s) : PlainEnds s := by
  have hplain : ∀ c ∈ s, (c == '"' || c == '\\') = false := by
    intro c hc
    have hescape := h.1 c hc
    rw [Bool.or_eq_false_iff, beq_eq_false_iff_ne, beq_eq_false_iff_ne]
    constructor
    · rintro rfl
      revert hescape
      decide
    · rintro rfl
      revert hescape
      decide
  exact ⟨fun c hc => hplain c (List.mem_of_head? hc), fun c hc => hplain c (List.mem_of_getLast? hc)⟩

theorem trimQuotes (h : Verbatim s) : trimQuotes (quoted s) = s := by
  rw [trimQuotes_quoted, (trimQuotes_eq_self s).2 h.plainEnds]

theorem jsonStringLiteral (h : Verbatim s) : jsonStringLiteral (quoted s) = some s := by
  have hquote : quoted s = (Json.string s).toText := h.quoted_eq_quote
  have hread : Json.fromStr (Json.string s).toText = some (.string s) := by
    rw [Json.fromStr_toText (by trivial)]
    rfl
  rw [Tinypipe.jsonStringLiteral, hquote, hread]

theorem resolveArgValue (h : Verbatim s) (ctx : Context) (outputs : Nat → Option Value) :
    resolveArgValue ctx outputs (quoted s) = .string s := (resolveArgValue_quoted h.2).2 h.plainEnds

end Verbatim

/-! ### The tools -/

def Value.asStr : Value → Option Text
  | .string s => some s
  | _ => none

def envErrorText : EnvError → Text
  | .missingRequired key => ("required environment variable not found: " : Text) ++ key
  | .template message => ("template resolution failed: " : Text) ++ message

section Tools

variable {u : Casing}

def envGet (args : List Value) (kwargs : Dict Text Value) (env : Environment.Env u) : Except Text Value :=
  match ((kwargs.get "key").or args.head?).bind Value.asStr with
  | none => .error "env.get requires 'key' (kwarg or positional)"
  | some key =>
    match env.get key with
    | some v => .ok (.string v)
    | none =>
      match kwargs.get "default" with
      | some v => .ok v
      | none => .error (("env var '" : Text) ++ key ++ ("' not found" : Text))

def envTemplate (args : List Value) (kwargs : Dict Text Value) (env : Environment.Env u) : Except Text Value :=
  match ((kwargs.get "value").or args.head?).bind Value.asStr with
  | none => .error "env.template requires 'value'"
  | some value =>
    match (resolve env value).result with
    | .ok text => .ok (.string text)
    | .error e => .error (envErrorText e)

/-! ### What a scan knows of a call -/

/-- Its target is in quotes, and names no graph whose own name begins as a target does. -/
def CompiledNode.Readable (nd : CompiledNode) : Prop :=
  ∃ target, nd.arg "target" = some (quoted target) ∧ Verbatim target ∧
    ∀ name, Text.stripPrefix "subgraph:" target = some name → Text.stripPrefix "subgraph:" name = none

/-- The argument is given once, in quotes. -/
def CompiledNode.Gives (nd : CompiledNode) (key value : Text) : Prop :=
  (nd.args.filter fun a => a.key = key) = [⟨key, quoted value⟩] ∧ Verbatim value

variable {nd : CompiledNode}

theorem CompiledNode.Readable.target (h : nd.Readable) (hop : nd.op = .call) :
    literalTarget nd = some (callTargetOf nd) := by
  obtain ⟨target, harg, hverbatim, -⟩ := h
  have hcall : callTargetOf nd = target := by
    rw [callTargetOf, harg]
    exact hverbatim.trimQuotes
  rw [literalTarget, if_pos hop, harg, hcall]
  exact hverbatim.jsonStringLiteral

theorem trimStartMatches_once {pat s t : Text} (hpat : pat ≠ []) (h : Text.stripPrefix pat s = some t)
    (honce : Text.stripPrefix pat t = none) : Text.trimStartMatches pat s = t := by
  have hstop : ∀ n, Text.trimStartMatches.go pat n t = t := by
    intro n
    cases n with
    | zero => rfl
    | succ n =>
      have hnot : ¬(pat ≠ [] ∧ pat.isPrefixOf t) := by
        rintro ⟨-, hpre⟩
        rw [Text.stripPrefix, if_pos hpre] at honce
        cases honce
      rw [Text.trimStartMatches.go, if_neg hnot]
  rw [Text.stripPrefix] at h
  split at h
  case isFalse => cases h
  case isTrue hpre =>
    cases h
    cases s with
    | nil => exact absurd (List.prefix_nil.1 (List.isPrefixOf_iff_prefix.1 hpre)) hpat
    | cons c cs =>
      rw [Text.trimStartMatches, List.length_cons, Text.trimStartMatches.go, if_pos ⟨hpat, hpre⟩]
      exact hstop cs.length

/-- The graph that a CALL calls is one the scan has found. -/
theorem CompiledNode.Readable.subgraph (h : nd.Readable) {plan : CompiledPlan} (hnd : nd ∈ plan.nodes)
    (hop : nd.op = .call)
    (hsub : Text.stripPrefix "subgraph:" (callTargetOf nd) ≠ none) :
    Text.trimStartMatches "subgraph:" (callTargetOf nd) ∈ subgraphTargets plan := by
  obtain ⟨name, hname⟩ := Option.ne_none_iff_exists'.1 hsub
  have htarget := h.target hop
  obtain ⟨target, harg, hverbatim, honce⟩ := h
  have hcall : callTargetOf nd = target := by
    rw [callTargetOf, harg]
    exact hverbatim.trimQuotes
  rw [hcall] at hname htarget ⊢
  rw [trimStartMatches_once (by decide) hname (honce name hname), subgraphTargets, List.mem_filterMap]
  exact ⟨nd, hnd, by rw [htarget, Option.bind_some, hname]⟩

namespace CompiledNode.Gives

variable {key value : Text}

theorem mem (h : nd.Gives key value) : ⟨key, quoted value⟩ ∈ nd.args :=
  (List.mem_filter.1 (h.1 ▸ List.mem_singleton_self _)).1

theorem eq_of_mem (h : nd.Gives key value) {a : CompiledArg} (ha : a ∈ nd.args) (hkey : a.key = key) :
    a.value = quoted value := by
  have hmem : a ∈ nd.args.filter fun a => a.key = key := List.mem_filter.2 ⟨ha, decide_eq_true hkey⟩
  rw [h.1, List.mem_singleton] at hmem
  rw [hmem]

theorem literal (h : nd.Gives key value) : (nd.arg key).bind jsonStringLiteral = some value := by
  have hfirst : nd.args.find? (fun a => a.key == key) = some ⟨key, quoted value⟩ := by
    rw [← List.head?_filter]
    have hfilter := h.1
    simp only [beq_eq_decide] 
    rw [hfilter]
    rfl
  rw [arg, hfirst]
  exact h.2.jsonStringLiteral

theorem param (h : nd.Gives key value) {reserved : List Text} (hkey : key ∉ reserved) (ctx : Context)
    (outputs : Nat → Option Value) : (callParams nd reserved ctx outputs).get key = some (.string value) := by
  have hsome : ((callParams nd reserved ctx outputs).get key).isSome := by
    rw [callParams, Dict.isSome_get_ofList, List.map_map, List.mem_map]
    exact ⟨_, List.mem_filter.2 ⟨h.mem, decide_eq_true hkey⟩, rfl⟩
  obtain ⟨v, hv⟩ := Option.isSome_iff_exists.1 hsome
  obtain ⟨a, ha, heq⟩ := List.mem_map.1 (Dict.mem_of_get_ofList hv)
  obtain ⟨hname, hvalue⟩ := Prod.mk.inj heq
  rw [hv, ← hvalue, h.eq_of_mem (List.mem_filter.1 ha).1 hname, h.2.resolveArgValue]

end CompiledNode.Gives

/-! ### What a scan says of a run -/

/-- Every key that is needed is set. -/
def Sets (env : Environment.Env u) (deps : List EnvDep) : Prop :=
  ∀ d ∈ deps, d.optional = false → (env.get d.key).isSome

/-- A scope is looked up first, and what is outside it after. -/
theorem Environment.Env.isSome_get_scopedTo {env : Environment.Env u} {key : Text} (h : (env.get key).isSome)
    (module : Text) :
    ((env.scopedTo module).get key).isSome := by
  rw [Environment.Env.get, List.findSome?_isSome_iff] at h ⊢
  obtain ⟨i, hi, hsome⟩ := h
  rw [List.mem_reverse, List.mem_range] at hi
  refine ⟨i, ?_, ?_⟩
  · rw [List.mem_reverse, List.mem_range, Environment.Env.scopedTo, List.length_append]
    omega
  · rw [Environment.Env.scopedTo, List.take_append_of_le_length (by omega)]
    exact hsome

theorem Sets.scopedTo {env : Environment.Env u} {deps : List EnvDep} (h : Sets env deps) (module : Text) :
    Sets (env.scopedTo module) deps :=
  fun d hd hrequired => Environment.Env.isSome_get_scopedTo (h d hd hrequired) module

variable {env : Environment.Env u} {plan : CompiledPlan} {reserved : List Text}

/-- A lookup of a literal key finds the variable, or has a default. -/
theorem envGet_succeeds (hnd : nd ∈ plan.nodes) (hop : nd.op = .call) (hread : nd.Readable)
    (htarget : callTargetOf nd = ("env.get" : Text))
    {key : Text} (hkey : nd.Gives "key" key) (hsets : Sets env (scanPlanEnvDeps plan))
    (hreserved : reserved = topReserved ∨ reserved = bodyReserved)
    (ctx : Context) (outputs : Nat → Option Value) :
    ∃ v, envGet [] (callParams nd reserved ctx outputs) env = .ok v := by
  have hfree : ("key" : Text) ∉ reserved := by
    rcases hreserved with rfl | rfl <;> decide
  have hdep : (⟨key, nd.args.any fun a => a.key == "default"⟩ : EnvDep) ∈ scanPlanEnvDeps plan := by
    refine List.mem_flatMap.2 ⟨nd, hnd, ?_⟩
    rw [nodeEnvDeps, hread.target hop, htarget]
    dsimp only
    rw [if_pos rfl, collectEnvGetDeps, hkey.literal]
    exact List.mem_singleton_self _
  unfold envGet
  rw [hkey.param hfree ctx outputs]
  simp only [Option.some_or, Option.bind_some, Value.asStr]
  cases hget : env.get key with
  | some v => exact ⟨_, rfl⟩
  | none =>
    have hoptional : (nd.args.any fun a => a.key == ("default" : Text)) = true := by
      by_contra hnot
      have hsome := hsets _ hdep (Bool.eq_false_iff.2 hnot)
      rw [hget] at hsome
      cases hsome
    have hdefault : ((callParams nd reserved ctx outputs).get "default").isSome := by
      obtain ⟨a, ha, hname⟩ := List.any_eq_true.1 hoptional
      rw [callParams, Dict.isSome_get_ofList, List.map_map, List.mem_map]
      refine ⟨a, List.mem_filter.2 ⟨ha, ?_⟩, beq_iff_eq.1 hname⟩
      rw [beq_iff_eq.1 hname, decide_eq_true_eq]
      rcases hreserved with rfl | rfl <;> decide
    obtain ⟨v, hv⟩ := Option.isSome_iff_exists.1 hdefault
    exact ⟨v, by rw [hv]⟩

/-- A regular template has all it needs. -/
theorem envTemplate_succeeds (hnd : nd ∈ plan.nodes) (hop : nd.op = .call) (hread : nd.Readable)
    (htarget : callTargetOf nd = ("env.template" : Text)) {value : Text} (hvalue : nd.Gives "value" value)
    (hregular : Regular value)
    (hsets : Sets env (scanPlanEnvDeps plan)) (hreserved : reserved = topReserved ∨ reserved = bodyReserved)
    (ctx : Context) (outputs : Nat → Option Value) :
    ∃ v, envTemplate [] (callParams nd reserved ctx outputs) env = .ok v := by
  have hfree : ("value" : Text) ∉ reserved := by
    rcases hreserved with rfl | rfl <;> decide
  have hdeps : ∀ d ∈ extractTemplateKeys value, d ∈ scanPlanEnvDeps plan := by
    refine fun d hd => List.mem_flatMap.2 ⟨nd, hnd, ?_⟩
    rw [nodeEnvDeps, hread.target hop, htarget]
    dsimp only
    rw [if_neg (by decide), if_pos rfl, collectEnvTemplateDeps, hvalue.literal]
    exact hd
  unfold envTemplate
  rw [hvalue.param hfree ctx outputs]
  simp only [Option.some_or, Option.bind_some, Value.asStr]
  cases hresult : (resolve env value).result with
  | ok text => exact ⟨_, rfl⟩
  | error e =>
    obtain ⟨⟨n, p⟩, hmem, hp⟩ := (runs_resolve env value).error e hresult
    cases p with
    | literal c => cases hp
    | escape => cases hp
    | placeholder m spec =>
      have herror : (resolveSpec env spec).2 = .error e := hp
      obtain ⟨rfl, -⟩ := resolveSpec_error herror
      have hsome := hsets _ (hdeps _ ((agreement_of_regular hregular env).required _ hresult)) rfl
      obtain ⟨v, hv⟩ := resolveSpec_of_isSome hsome
      rw [hv] at herror
      cases herror

end Tools

end Tinypipe
