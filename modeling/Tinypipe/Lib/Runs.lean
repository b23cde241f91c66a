import Mathlib

/-! Runs of a step function over a list of moves: what holds in every state that is reached, and
what every move meets when it is made. -/

namespace Lib.Runs

variable {σ μ : Type} {step : σ → μ → σ}

/-- In every state of the run. -/
def Always (step : σ → μ → σ) (P : σ → Prop) (s : σ) (moves : List μ) : Prop :=
  ∀ before, before <+: moves → P (before.foldl step s)

/-- Of every move, in the state in which it is made. -/
def Along (step : σ → μ → σ) (C : σ → μ → Prop) (s : σ) (moves : List μ) : Prop :=
  ∀ before move, before ++ [move] <+: moves → C (before.foldl step s) move

theorem along_nil {C : σ → μ → Prop} (s : σ) : Along step C s [] := by
  intro before move hpre
  exact absurd (List.eq_nil_of_prefix_nil hpre) (by simp)

theorem along_cons {C : σ → μ → Prop} {s : σ} {move : μ} {moves : List μ} :
    Along step C s (move :: moves) ↔ C s move ∧ Along step C (step s move) moves := by
  constructor
  · intro h
    refine ⟨h [] move (by simp), fun before m hpre => ?_⟩
    exact h (move :: before) m (List.cons_prefix_cons.2 ⟨rfl, hpre⟩)
  · rintro ⟨hhead, htail⟩ before m hpre
    cases before with
    | nil =>
      obtain ⟨rfl, -⟩ := List.cons_prefix_cons.1 hpre
      exact hhead
    | cons first before =>
      rw [List.cons_append, List.cons_prefix_cons] at hpre
      obtain ⟨rfl, hrest⟩ := hpre
      exact htail before m hrest

instance decidableAlong {C : σ → μ → Prop} [∀ s move, Decidable (C s move)] :
    (moves : List μ) → (s : σ) → Decidable (Along step C s moves)
  | [], s => isTrue (along_nil s)
  | move :: moves, s =>
    have : Decidable (Along step C (step s move) moves) := decidableAlong moves (step s move)
    decidable_of_iff (C s move ∧ Along step C (step s move) moves) along_cons.symm

theorem always_of_step {I : σ → Prop} (hstep : ∀ s move, I s → I (step s move)) {s : σ} (hs : I s)
    (moves : List μ) : I (moves.foldl step s) := by
  induction moves generalizing s with
  | nil => exact hs
  | cons move moves ih => exact ih (hstep s move hs)

/-- A property that a move keeps exactly under a condition holds throughout a run exactly if every
move of the run meets the condition. -/
theorem always_iff_along {I P : σ → Prop} {C : σ → μ → Prop}
    (hinv : ∀ s move, I s → I (step s move))
    (hstep : ∀ s move, I s → P s → (P (step s move) ↔ C s move)) {s : σ} (hI : I s) (hP : P s)
    (moves : List μ) : Always step P s moves ↔ Along step C s moves := by
  constructor
  · intro h before move hpre
    have hnext := h _ hpre
    rw [List.foldl_append] at hnext
    refine (hstep _ move (always_of_step hinv hI before) (h _ ?_)).1 hnext
    exact (List.prefix_append before [move]).trans hpre
  · intro h before hpre
    induction before using List.reverseRecOn with
    | nil => exact hP
    | append_singleton before move ih =>
      have hbefore := ih ((List.prefix_append before [move]).trans hpre)
      rw [List.foldl_append]
      exact (hstep _ move (always_of_step hinv hI before) hbefore).2 (h before move hpre)

/-- What a move brings about under a condition, from an invariant that it keeps under that
condition. -/
theorem along_of_step {I : σ → Prop} {C R : σ → μ → Prop}
    (hinv : ∀ s move, I s → C s move → I (step s move)) (hstep : ∀ s move, I s → C s move → R s move)
    {s : σ} (hI : I s) {moves : List μ} (hC : Along step C s moves) : Along step R s moves := by
  induction moves generalizing s with
  | nil => exact along_nil s
  | cons move moves ih =>
    obtain ⟨hhead, htail⟩ := along_cons.1 hC
    exact along_cons.2 ⟨hstep s move hI hhead, ih (hinv s move hI hhead) htail⟩

/-- A property of the state and the moves so far, from what one move does to it. -/
theorem along_run {I : σ → Prop} {R : List μ → σ → Prop} (hinv : ∀ s move, I s → I (step s move))
    {s : σ} (hI : I s) (hR : R [] s)
    (hstep : ∀ before t move, before.foldl step s = t → I t → R before t → R (before ++ [move]) (step t move))
    (moves : List μ) : R moves (moves.foldl step s) := by
  induction moves using List.reverseRecOn with
  | nil => exact hR
  | append_singleton before move ih =>
    rw [List.foldl_append]
    exact hstep before _ move rfl (always_of_step hinv hI before) ih

end Lib.Runs
