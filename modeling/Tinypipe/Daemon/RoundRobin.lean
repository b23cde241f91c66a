import Tinypipe.Daemon.Workers
import Tinypipe.Lib.Turns

/-! The turns of the workers of a group (`get_next_worker`, `tinypipe-daemon/src/lib.rs`). The
counter wraps at the word size, past every number of workers that does not divide it. -/

namespace Tinypipe

open Lib Lib.Turns

namespace WorkerGroup

/-- `fetch_add` wraps. -/
def wordSize : Nat := 2 ^ 64

/-- The index a call reads, and the group behind it; without workers the counter stays. -/
def nextIndex (g : WorkerGroup) : Option (Nat × WorkerGroup) :=
  if g.workers = [] then none
  else some (g.nextIdx % g.workers.length, { g with nextIdx := (g.nextIdx + 1) % wordSize })

/-- The indices that `k` calls in a row read. -/
def indices : Nat → WorkerGroup → List Nat
  | 0, _ => []
  | k + 1, g =>
    match g.nextIndex with
    | some (i, g') => i :: indices k g'
    | none => []

inductive GroupOp where
  | add (worker : Text)
  | remove (worker : Text)
  | next

def step (g : WorkerGroup) : GroupOp → WorkerGroup
  | .add worker => g.add worker
  | .remove worker => g.removeWorker worker
  | .next => (g.nextIndex.map Prod.snd).getD g

/-- The group behind any operations. -/
def after (g : WorkerGroup) (ops : List GroupOp) : WorkerGroup := ops.foldl step g

/-- The calls read an index of a worker, and there is one unless the group is empty. -/
structure InRange (g : WorkerGroup) : Prop where
  index : ∀ i g', g.nextIndex = some (i, g') → i < g.workers.length ∧ g.workers[i]? = g.getNextWorker
  empty : g.nextIndex = none ↔ g.workers = []

/-- Each worker gets its share of `k` calls in a row, rounded down or up. -/
def FairCalls (k : Nat) (g : WorkerGroup) : Prop := Fair g.workers.length k fun i => (g.indices k).count i

variable {g : WorkerGroup}

theorem nextIndex_cons (hne : g.workers ≠ []) : g.nextIndex =
    some (g.nextIdx % g.workers.length, { g with nextIdx := (g.nextIdx + 1) % wordSize }) := by
  rw [nextIndex, if_neg hne]

theorem inRange (g : WorkerGroup) : g.InRange := by
  by_cases hne : g.workers = []
  · have hnone : g.nextIndex = none := by rw [nextIndex, if_pos hne]
    refine ⟨fun i g' h => ?_, by simp [hnone, hne]⟩
    rw [hnone] at h
    cases h
  · refine ⟨fun i g' h => ?_, by simp [nextIndex_cons hne, hne]⟩
    rw [nextIndex_cons hne] at h
    obtain ⟨rfl, rfl⟩ := Prod.mk.inj (Option.some.inj h)
    exact ⟨Nat.mod_lt _ (List.length_pos_iff.2 hne), rfl⟩

theorem step_counter (h : g.nextIdx < wordSize) (op : GroupOp) : (g.step op).nextIdx < wordSize := by
  cases op with
  | add worker => exact h
  | remove worker => exact h
  | next =>
    by_cases hne : g.workers = []
    · rw [step, nextIndex, if_pos hne]
      exact h
    · rw [step, nextIndex_cons hne]
      exact Nat.mod_lt _ (by decide)

theorem after_counter (ops : List GroupOp) : ∀ {g : WorkerGroup}, g.nextIdx < wordSize →
    (g.after ops).nextIdx < wordSize := by
  induction ops with
  | nil => exact fun h => h
  | cons op ops ih => exact fun h => ih (step_counter h op)

/-- The calls follow the counter. -/
theorem indices_eq (k : Nat) : ∀ {g : WorkerGroup}, g.workers ≠ [] → g.nextIdx < wordSize →
    g.indices k = (List.range k).map fun j => (g.nextIdx + j) % wordSize % g.workers.length := by
  induction k with
  | zero => exact fun _ _ => rfl
  | succ k ih =>
    intro g hne hcounter
    have hrest := ih (g := { g with nextIdx := (g.nextIdx + 1) % wordSize }) hne (Nat.mod_lt _ (by decide))
    have hfirst : (g.nextIdx + 0) % wordSize = g.nextIdx := Nat.mod_eq_of_lt hcounter
    rw [indices, nextIndex_cons hne]
    dsimp only
    rw [hrest, List.range_succ_eq_map, List.map_cons, List.map_map, hfirst]
    refine congrArg _ (List.map_congr_left fun j _ => ?_)
    rw [Function.comp, Nat.mod_add_mod, Nat.succ_eq_one_add, Nat.add_assoc]

theorem count_indices (hne : g.workers ≠ []) (hcounter : g.nextIdx < wordSize) (k i : Nat) :
    (g.indices k).count i = share wordSize g.workers.length g.nextIdx k i := by
  rw [indices_eq k hne hcounter, share, Nat.count, List.count, List.countP_map]
  refine List.countP_congr fun j _ => ?_
  simp

/-- Whatever operations came before: no call reads past the workers, and a run of calls is fair
exactly if the counter does not skew it where it wraps. -/
theorem fair_calls_iff {start : WorkerGroup} (hcounter : start.nextIdx < wordSize) (ops : List GroupOp)
    (hne : (start.after ops).workers ≠ []) (k : Nat) : (start.after ops).InRange ∧
      ((start.after ops).FairCalls k ↔
        Unskewed wordSize (start.after ops).workers.length (start.after ops).nextIdx k) := by
  refine ⟨inRange _, ?_⟩
  have hbelow := after_counter ops hcounter
  rw [FairCalls, ← fair_share_iff k (List.length_pos_iff.2 hne) hbelow]
  refine iff_of_eq (congrArg _ (funext fun i => ?_))
  exact count_indices hne hbelow k i

/-- Three workers in front of the wrap: the first one gets both calls. -/
theorem wrap_unfair : ¬∀ (g : WorkerGroup) (k : Nat), g.workers ≠ [] → g.nextIdx < wordSize → g.FairCalls k := by
  intro h
  have hfair := h ⟨["a", "b", "c"], 2 ^ 64 - 1⟩ 2 (by decide) (by decide)
  exact absurd ((hfair 0 (by decide)).2) (by decide +kernel)

theorem fair_calls_iff_three :
    ((⟨["a", "b", "c"], 5⟩ : WorkerGroup).after [.remove "b", .next, .add "d"]).InRange ∧
      (((⟨["a", "b", "c"], 5⟩ : WorkerGroup).after [.remove "b", .next, .add "d"]).FairCalls 4 ↔
        Unskewed wordSize ((⟨["a", "b", "c"], 5⟩ : WorkerGroup).after [.remove "b", .next, .add "d"]).workers.length
          ((⟨["a", "b", "c"], 5⟩ : WorkerGroup).after [.remove "b", .next, .add "d"]).nextIdx 4) :=
  fair_calls_iff (by decide) _ (by decide +kernel) 4

end WorkerGroup

end Tinypipe
