import Tinypipe.Lib.Recency
import Tinypipe.Lib.Runs
import Tinypipe.Server.Publish

/-! The cache of the plans of `POST /api/run` (`tinypipe-server/src/state.rs`, `api.rs`). The hash of
a code is only its address: the entry keeps the code. -/

namespace Tinypipe

open Lib

/-- `DYNAMIC_PLAN_CAPACITY` -/
def dynamicPlanCapacity : Nat := 64

structure DynamicPlanEntry where
  lastAccess : Nat
  code : Text
  plan : CompiledPlan

abbrev DynamicPlans := Dict UInt64 DynamicPlanEntry

/-- The keys of the entries with the earliest instant. -/
def DynamicPlans.oldest (plans : DynamicPlans) : List UInt64 :=
  let earliest (e : UInt64 × DynamicPlanEntry) : Bool :=
    plans.entries.all fun d => e.2.lastAccess ≤ d.2.lastAccess
  (plans.entries.filter earliest).map Prod.fst

/-- A request, the instant that the clock reads when its plan is inserted, and which of several
equally old entries the map's iteration meets first. -/
structure RunReq where
  code : Text
  now : Nat
  pick : Nat

def RunReq.key (req : RunReq) : UInt64 := fnv1a (Utf8.encode req.code)

/-- `cache_dynamic_plan` -/
def DynamicPlans.cacheDynamicPlan (plans : DynamicPlans) (req : RunReq) (plan : CompiledPlan) : DynamicPlans :=
  let plans :=
    if dynamicPlanCapacity ≤ plans.entries.length then
      match plans.oldest[req.pick % plans.oldest.length]? with
      | some k => plans.erase k
      | none => plans
    else plans
  plans.set req.key ⟨req.now, req.code, plan⟩

def DynamicPlans.compileAndCache (compile : Text → Except Text CompiledPlan) (plans : DynamicPlans) (req : RunReq) :
    Except Text CompiledPlan × DynamicPlans :=
  match compile req.code with
  | .ok plan => (.ok plan, plans.cacheDynamicPlan req plan)
  | .error e => (.error (("compile failed: " : Text) ++ e), plans)

/-- `run_dynamic`, up to the plan that it runs. -/
def DynamicPlans.runDynamic (compile : Text → Except Text CompiledPlan) (plans : DynamicPlans) (req : RunReq) :
    Except Text CompiledPlan × DynamicPlans :=
  match plans.get req.key with
  | some entry => if entry.code = req.code then (.ok entry.plan, plans) else plans.compileAndCache compile req
  | none => plans.compileAndCache compile req

/-- The cache and the keys that were run or inserted so far, the latest first. -/
structure DynamicRuns where
  plans : DynamicPlans
  uses : List UInt64

namespace DynamicRuns

def new : DynamicRuns := ⟨Dict.empty, []⟩

def serve (compile : Text → Except Text CompiledPlan) (s : DynamicRuns) (req : RunReq) : DynamicRuns :=
  let served := s.plans.runDynamic compile req
  { plans := served.2
    uses := if served.1.isOk then req.key :: s.uses else s.uses }

/-- What a least-recently-used cache promises of one request. -/
structure Lru (compile : Text → Except Text CompiledPlan) (s : DynamicRuns) (req : RunReq) : Prop where
  bounded : (s.serve compile req).plans.entries.length ≤ dynamicPlanCapacity
  exact : (s.plans.runDynamic compile req).1 = (compile req.code).mapError (("compile failed: " : Text) ++ ·)
  evicts : ∀ k ∈ s.plans.keys, k ∉ (s.serve compile req).plans.keys →
    dynamicPlanCapacity ≤ s.plans.entries.length ∧ req.key ∉ s.plans.keys ∧
      ∀ j ∈ s.plans.keys, s.uses.idxOf j ≤ s.uses.idxOf k

/-- The requests the cache treats as such a cache would: only the newest entry is run again, no
colliding code comes to a full cache, and the clock moves between two insertions. -/
def Orderly (s : DynamicRuns) (req : RunReq) : Prop :=
  match s.plans.get req.key with
  | some entry =>
    if entry.code = req.code then ∀ d ∈ s.plans.entries, d.2.lastAccess ≤ entry.lastAccess
    else s.plans.entries.length < dynamicPlanCapacity ∧ ∀ d ∈ s.plans.entries, d.2.lastAccess < req.now
  | none => ∀ d ∈ s.plans.entries, d.2.lastAccess < req.now

instance (s : DynamicRuns) (req : RunReq) : Decidable (s.Orderly req) :=
  match h : s.plans.get req.key with
  | some entry => by
    unfold Orderly
    rw [h]
    infer_instance
  | none => by
    unfold Orderly
    rw [h]
    infer_instance

/-- No request breaks this, in whatever order they come. -/
structure Sound (compile : Text → Except Text CompiledPlan) (s : DynamicRuns) : Prop where
  bounded : s.plans.entries.length ≤ dynamicPlanCapacity
  compiled : ∀ k e, s.plans.get k = some e → compile e.code = .ok e.plan

/-- The instants of the entries tell which of two was used before the other. -/
def Sorted (s : DynamicRuns) : Prop := Follows DynamicPlanEntry.lastAccess s.uses s.plans

end DynamicRuns

/-! ### One request -/

namespace DynamicPlans

variable {compile : Text → Except Text CompiledPlan} {plans : DynamicPlans} {req : RunReq}

theorem mem_oldest {k : UInt64} : k ∈ plans.oldest ↔
    ∃ e, plans.get k = some e ∧ ∀ j d, plans.get j = some d → e.lastAccess ≤ d.lastAccess := by
  simp [oldest, Dict.get_eq_some_iff]

theorem oldest_ne_nil (h : plans.entries ≠ []) : plans.oldest ≠ [] := by
  cases hmin : plans.entries.argmin fun e => e.2.lastAccess with
  | none => exact absurd (List.argmin_eq_none.1 hmin) h
  | some e =>
    have he : plans.get e.1 = some e.2 := Dict.get_eq_some_iff.2 (List.argmin_mem hmin)
    have hle : ∀ j d, plans.get j = some d → e.2.lastAccess ≤ d.lastAccess := by
      intro j d hd
      have hmem : (j, d) ∈ plans.entries := Dict.get_eq_some_iff.1 hd
      exact List.le_of_mem_argmin (f := fun e => e.2.lastAccess) hmem hmin
    exact List.ne_nil_of_mem (mem_oldest.2 ⟨e.2, he, hle⟩)

/-- There is room, or one of the oldest entries makes it. -/
theorem cacheDynamicPlan_cases (plans : DynamicPlans) (req : RunReq) (plan : CompiledPlan) :
    (plans.entries.length < dynamicPlanCapacity ∧
      plans.cacheDynamicPlan req plan = plans.set req.key ⟨req.now, req.code, plan⟩) ∨
    ∃ k e, dynamicPlanCapacity ≤ plans.entries.length ∧ plans.get k = some e ∧
      (∀ j d, plans.get j = some d → e.lastAccess ≤ d.lastAccess) ∧
      plans.cacheDynamicPlan req plan = (plans.erase k).set req.key ⟨req.now, req.code, plan⟩ := by
  rw [cacheDynamicPlan]
  by_cases hfull : dynamicPlanCapacity ≤ plans.entries.length
  · right
    have hpos : 0 < plans.oldest.length := by
      refine List.length_pos_iff.2 (oldest_ne_nil fun hnil => ?_)
      rw [hnil] at hfull
      exact absurd hfull (by decide)
    have hpick := List.getElem?_eq_getElem (Nat.mod_lt req.pick hpos)
    obtain ⟨e, he, hmin⟩ := mem_oldest.1 (List.getElem_mem (Nat.mod_lt req.pick hpos))
    exact ⟨_, e, hfull, he, hmin, by rw [if_pos hfull, hpick]⟩
  · exact Or.inl ⟨by omega, by rw [if_neg hfull]⟩

/-- What a request does: run the plan of its own code again, compile it and insert it, or fail. -/
theorem runDynamic_cases (compile : Text → Except Text CompiledPlan) (plans : DynamicPlans) (req : RunReq) :
    (∃ e, plans.get req.key = some e ∧ e.code = req.code ∧ plans.runDynamic compile req = (.ok e.plan, plans)) ∨
    (∀ e, plans.get req.key = some e → e.code ≠ req.code) ∧
      ((∃ plan, compile req.code = .ok plan ∧
          plans.runDynamic compile req = (.ok plan, plans.cacheDynamicPlan req plan)) ∨
        ∃ err, compile req.code = .error err ∧
          plans.runDynamic compile req = (.error (("compile failed: " : Text) ++ err), plans)) := by
  have hcompile : (∃ plan, compile req.code = .ok plan ∧
        plans.compileAndCache compile req = (.ok plan, plans.cacheDynamicPlan req plan)) ∨
      ∃ err, compile req.code = .error err ∧
        plans.compileAndCache compile req = (.error (("compile failed: " : Text) ++ err), plans) := by
    rw [compileAndCache]
    cases hc : compile req.code with
    | ok plan => exact Or.inl ⟨plan, rfl, rfl⟩
    | error err => exact Or.inr ⟨err, rfl, rfl⟩
  have hmiss : (∀ e, plans.get req.key = some e → e.code ≠ req.code) →
      plans.runDynamic compile req = plans.compileAndCache compile req := by
    intro hne
    rw [runDynamic]
    cases hget : plans.get req.key with
    | none => rfl
    | some e => exact if_neg (hne e hget)
  by_cases hhit : ∃ e, plans.get req.key = some e ∧ e.code = req.code
  · obtain ⟨e, he, hcode⟩ := hhit
    refine Or.inl ⟨e, he, hcode, ?_⟩
    rw [runDynamic, he]
    exact if_pos hcode
  · have hne : ∀ e, plans.get req.key = some e → e.code ≠ req.code := fun e he hcode => hhit ⟨e, he, hcode⟩
    rw [hmiss hne]
    exact Or.inr ⟨hne, hcompile⟩

theorem cacheDynamicPlan_length (h : plans.entries.length ≤ dynamicPlanCapacity) (plan : CompiledPlan) :
    (plans.cacheDynamicPlan req plan).entries.length ≤ dynamicPlanCapacity := by
  have hset : ∀ (m : DynamicPlans) (e : DynamicPlanEntry), m.entries.length < dynamicPlanCapacity →
      (m.set req.key e).entries.length ≤ dynamicPlanCapacity := by
    intro m e hlt
    by_cases hk : req.key ∈ m.keys
    · rw [Dict.length_set_of_mem hk]
      omega
    · rw [Dict.length_set_of_not_mem hk]
      omega
  rcases cacheDynamicPlan_cases plans req plan with ⟨hlt, heq⟩ | ⟨k, e, -, hk, -, heq⟩
  · rw [heq]
    exact hset plans _ hlt
  · rw [heq]
    have hlt := Dict.length_erase_lt (Dict.mem_keys.2 ⟨e, Dict.get_eq_some_iff.1 hk⟩)
    exact hset _ _ (by omega)

end DynamicPlans

/-! ### Runs of the server -/

namespace DynamicRuns

variable {compile : Text → Except Text CompiledPlan} {s : DynamicRuns} {req : RunReq}

theorem Orderly.newest (h : s.Orderly req) {e : DynamicPlanEntry} (he : s.plans.get req.key = some e)
    (hcode : e.code = req.code) : ∀ j d, s.plans.get j = some d → d.lastAccess ≤ e.lastAccess := by
  rw [Orderly, he] at h
  dsimp only at h
  rw [if_pos hcode] at h
  exact fun j d hd => h (j, d) (Dict.get_eq_some_iff.1 hd)

theorem Orderly.later (h : s.Orderly req) (hne : ∀ e, s.plans.get req.key = some e → e.code ≠ req.code) :
    (∀ j d, s.plans.get j = some d → d.lastAccess < req.now) ∧
      (req.key ∈ s.plans.keys → s.plans.entries.length < dynamicPlanCapacity) := by
  rw [Orderly] at h
  cases he : s.plans.get req.key with
  | none =>
    rw [he] at h
    refine ⟨fun j d hd => h (j, d) (Dict.get_eq_some_iff.1 hd), fun hkey => ?_⟩
    obtain ⟨e, hmem⟩ := Dict.mem_keys.1 hkey
    rw [Dict.get_eq_some_iff.2 hmem] at he
    cases he
  | some e =>
    rw [he] at h
    dsimp only at h
    rw [if_neg (hne e he)] at h
    exact ⟨fun j d hd => h.2 (j, d) (Dict.get_eq_some_iff.1 hd), fun _ => h.1⟩

theorem sound_new (compile : Text → Except Text CompiledPlan) : Sound compile new where
  bounded := by decide
  compiled k e h := by simp [new] at h

theorem Sound.erase (h : Sound compile s) (k : UInt64) {j : UInt64} {e : DynamicPlanEntry}
    (hj : (s.plans.erase k).get j = some e) : compile e.code = .ok e.plan := by
  rw [Dict.get_eq_some_iff, Dict.mem_entries_erase] at hj
  exact h.compiled j e (Dict.get_eq_some_iff.2 hj.2)

theorem sound_serve (h : Sound compile s) (req : RunReq) : Sound compile (s.serve compile req) := by
  rcases DynamicPlans.runDynamic_cases compile s.plans req with
    ⟨e, -, -, heq⟩ | ⟨-, ⟨plan, hplan, heq⟩ | ⟨err, -, heq⟩⟩
  · rw [serve, heq]
    exact ⟨h.bounded, h.compiled⟩
  · refine ⟨?_, fun j e hj => ?_⟩
    · rw [serve, heq]
      exact DynamicPlans.cacheDynamicPlan_length h.bounded plan
    · rw [serve, heq] at hj
      dsimp only at hj
      -- the inserted entry, or one of those that stay
      rcases DynamicPlans.cacheDynamicPlan_cases s.plans req plan with ⟨-, hcache⟩ | ⟨k, -, -, -, -, hcache⟩
      all_goals
        rw [hcache, Dict.get_set] at hj
        by_cases hkey : req.key = j
      · rw [if_pos hkey, Option.some.injEq] at hj
        exact hj ▸ hplan
      · rw [if_neg hkey] at hj
        exact h.compiled j e hj
      · rw [if_pos hkey, Option.some.injEq] at hj
        exact hj ▸ hplan
      · rw [if_neg hkey] at hj
        exact h.erase k hj
  · rw [serve, heq]
    exact h

/-- A request keeps the order, whatever it does to the cache. -/
theorem sorted_serve (h : s.Sorted) (horder : s.Orderly req) : (s.serve compile req).Sorted := by
  rcases DynamicPlans.runDynamic_cases compile s.plans req with
    ⟨e, he, hcode, heq⟩ | ⟨hne, ⟨plan, -, heq⟩ | ⟨err, -, heq⟩⟩
  · rw [serve, heq]
    exact Follows.touch h he (horder.newest he hcode)
  · obtain ⟨hlater, -⟩ := horder.later hne
    rw [serve, heq, Sorted]
    dsimp only
    rcases DynamicPlans.cacheDynamicPlan_cases s.plans req plan with ⟨-, hcache⟩ | ⟨k, -, -, -, -, hcache⟩
    · rw [hcache]
      exact Follows.set h fun j d hd _ => hlater j d hd
    · rw [hcache]
      refine (Follows.erase h k).set fun j d hd _ => ?_
      rw [Dict.get_eq_some_iff, Dict.mem_entries_erase] at hd
      exact hlater j d (Dict.get_eq_some_iff.2 hd.2)
  · rw [serve, heq]
    exact h

/-- The entry that leaves has the earliest instant, and with it the earliest use. -/
theorem evicts_serve (h : s.Sorted) (horder : s.Orderly req) {k : UInt64} (hk : k ∈ s.plans.keys)
    (hgone : k ∉ (s.serve compile req).plans.keys) :
    dynamicPlanCapacity ≤ s.plans.entries.length ∧ req.key ∉ s.plans.keys ∧
      ∀ j ∈ s.plans.keys, s.uses.idxOf j ≤ s.uses.idxOf k := by
  rcases DynamicPlans.runDynamic_cases compile s.plans req with
    ⟨e, -, -, heq⟩ | ⟨hne, ⟨plan, -, heq⟩ | ⟨err, -, heq⟩⟩
  · rw [serve, heq] at hgone
    exact absurd hk hgone
  · obtain ⟨-, hroom⟩ := horder.later hne
    rw [serve, heq] at hgone
    dsimp only at hgone
    have hstays : ∀ m : DynamicPlans, k ∈ m.keys → k ∈ (m.set req.key ⟨req.now, req.code, plan⟩).keys := by
      intro m hm
      obtain ⟨v, hv⟩ := Dict.mem_keys.1 hm
      by_cases hkey : k = req.key
      · exact Dict.mem_keys.2 ⟨_, Dict.mem_entries_set.2 (Or.inl (by rw [hkey]))⟩
      · exact Dict.mem_keys.2 ⟨v, Dict.mem_entries_set.2 (Or.inr ⟨hkey, hv⟩)⟩
    rcases DynamicPlans.cacheDynamicPlan_cases s.plans req plan with ⟨-, hcache⟩ | ⟨o, e, hfull, ho, hmin, hcache⟩
    · rw [hcache] at hgone
      exact absurd (hstays s.plans hk) hgone
    · rw [hcache] at hgone
      have hkey : k = o := by
        by_contra hko
        obtain ⟨v, hv⟩ := Dict.mem_keys.1 hk
        exact hgone (hstays _ (Dict.mem_keys.2 ⟨v, Dict.mem_entries_erase.2 ⟨hko, hv⟩⟩))
      subst hkey
      refine ⟨hfull, fun hkey => ?_, fun j hj => ?_⟩
      · have hlt := hroom hkey
        omega
      · obtain ⟨d, hd⟩ := Dict.mem_keys.1 hj
        have hget : s.plans.get j = some d := Dict.get_eq_some_iff.2 hd
        exact (h.order k e j d ho hget).1 (hmin j d hget)
  · rw [serve, heq] at hgone
    exact absurd hk hgone

theorem exact_serve (h : Sound compile s) (req : RunReq) : (s.plans.runDynamic compile req).1 =
    (compile req.code).mapError (("compile failed: " : Text) ++ ·) := by
  rcases DynamicPlans.runDynamic_cases compile s.plans req with
    ⟨e, he, hcode, heq⟩ | ⟨-, ⟨plan, hplan, heq⟩ | ⟨err, herr, heq⟩⟩
  · rw [heq, ← hcode, h.compiled _ _ he]
    rfl
  · rw [heq, hplan]
    rfl
  · rw [heq, herr]
    rfl

/-- In every run the cache stays within its capacity and a request runs the plan of its own code. In
a run of orderly requests, what is evicted is what a least-recently-used cache would evict. -/
theorem dynamic_plans_lru (compile : Text → Except Text CompiledPlan) (requests : List RunReq) :
    Runs.Along (serve compile) (fun s req =>
      (s.serve compile req).plans.entries.length ≤ dynamicPlanCapacity ∧
        (s.plans.runDynamic compile req).1 =
          (compile req.code).mapError (("compile failed: " : Text) ++ ·)) new requests ∧
    (Runs.Along (serve compile) Orderly new requests →
      Runs.Along (serve compile) (Lru compile) new requests) := by
  constructor
  · intro before req _
    have hsound : Sound compile (before.foldl (serve compile) new) :=
      Runs.always_of_step (I := Sound compile) (fun _ req h => sound_serve h req) (sound_new compile) before
    exact ⟨(sound_serve hsound req).bounded, exact_serve hsound req⟩
  · intro horderly
    refine Runs.along_of_step (I := fun s => Sound compile s ∧ s.Sorted) ?_ ?_ ⟨sound_new compile, ?_⟩ horderly
    · exact fun s req h horder => ⟨sound_serve h.1 req, sorted_serve h.2 horder⟩
    · exact fun s req h horder =>
        ⟨(sound_serve h.1 req).bounded, exact_serve h.1 req, fun k => evicts_serve h.2 horder⟩
    · exact Follows.empty _

/-! ### A run entry is not refreshed -/

def emptyPlan : CompiledPlan where
  version := 4
  nodes := []
  edges := []
  metadata := Metadata.default
  idMap := none
  groups := []

/-- A request for the `n`-th of many codes. -/
def request (n now : Nat) : RunReq := ⟨("def graph():\n    return " : Text) ++ Text.ofNat n, now, 0⟩

/-- As many codes as there is room for. -/
def fill : List RunReq := (List.range dynamicPlanCapacity).map fun n => request n (n + 1)

/-- The newest code runs again, then one more comes. -/
theorem dynamic_plans_lru_newest_again : Runs.Along (serve fun _ => .ok emptyPlan)
    (Lru fun _ => .ok emptyPlan) new (fill ++ [request 63 65, request 64 66]) :=
  (dynamic_plans_lru _ _).2 (by decide +kernel)

/-- The first code runs again just before one more comes, and is evicted all the same. -/
theorem dynamic_plans_evicts_newest_use :
    ¬∀ (compile : Text → Except Text CompiledPlan) (requests : List RunReq),
      requests.Pairwise (fun a b => a.now < b.now) → Runs.Along (serve compile) (Lru compile) new requests := by
  intro h
  have hlru := h (fun _ => .ok emptyPlan) (fill ++ [request 0 65, request 64 66]) (by decide +kernel)
    (fill ++ [request 0 65]) (request 64 66) (by simp)
  obtain ⟨-, -, hleast⟩ := hlru.evicts (request 0 0).key (by decide +kernel) (by decide +kernel)
  have hsecond := hleast (request 1 0).key (by decide +kernel)
  revert hsecond
  decide +kernel

end DynamicRuns

end Tinypipe
