import Tinypipe.Lib.Script

/-! Scripts that are interleaved on one state, and contracts for them: what a script relies on
the others to do between its statements, what it guarantees of its own, and an invariant that
all of them keep. -/

namespace Lib

/-- The terms under which a script works. -/
structure Contract (ℓ σ : Type) where
  inv : σ → Prop
  /-- What the others may do. -/
  rely : σ → σ → Prop
  /-- What a statement of the script does. -/
  guar : σ → σ → Prop
  /-- In which states a statement is executed, or fails. -/
  allowed : ℓ → Option Text → σ → Prop
  refl : ∀ s, rely s s
  trans : ∀ s t u, rely s t → rely t u → rely s u

namespace Script

variable {ℓ ε σ α β : Type} {c : Contract ℓ σ} {s t : σ}

/-- From `s` on the script keeps to its contract, and ends with `post`. -/
def Safe (c : Contract ℓ σ) (post : Except ε α → σ → Prop) : Script ℓ ε σ α → σ → Prop
  | done r, s => ∀ t, c.rely s t → post r t
  | step label write next failed, s => ∀ t, c.rely s t → c.inv t →
    (c.allowed label none t → c.inv (write t) ∧ c.guar t (write t) ∧ Safe c post (next t) (write t)) ∧
      ∀ e, c.allowed label (some e) t → Safe c post (failed e) t

/-- What the others do does not break a contract. -/
theorem Safe.of_rely {post : Except ε α → σ → Prop} {x : Script ℓ ε σ α} (h : Safe c post x s)
    (hr : c.rely s t) : Safe c post x t := by
  cases x with
  | done r => exact fun u hu => h u (c.trans s t u hr hu)
  | step label write next failed => exact fun u hu => h u (c.trans s t u hr hu)

theorem Safe.mono {post post' : Except ε α → σ → Prop} {x : Script ℓ ε σ α} (h : Safe c post x s)
    (hpost : ∀ r t, post r t → post' r t) : Safe c post' x s := by
  induction x generalizing s with
  | done r => exact fun t ht => hpost r t (h t ht)
  | step label write next failed ihnext ihfailed =>
    intro t ht hinv
    obtain ⟨hok, herror⟩ := h t ht hinv
    refine ⟨fun hallowed => ?_, fun e he => ihfailed e (herror e he)⟩
    obtain ⟨hinv', hguar, hnext⟩ := hok hallowed
    exact ⟨hinv', hguar, ihnext t hnext⟩

theorem Safe.bind {post : Except ε β → σ → Prop} {x : Script ℓ ε σ α} {f : α → Script ℓ ε σ β}
    (h : Safe c (fun r t => match r with
      | .ok a => Safe c post (f a) t
      | .error e => ∀ u, c.rely t u → post (.error e) u) x s) : Safe c post (x >>= f) s := by
  induction x generalizing s with
  | done r =>
    cases r with
    | ok a => exact h s (c.refl s)
    | error e => exact fun t ht => h s (c.refl s) t ht
  | step label write next failed ihnext ihfailed =>
    intro t ht hinv
    obtain ⟨hok, herror⟩ := h t ht hinv
    refine ⟨fun hallowed => ?_, fun e he => ihfailed e (herror e he)⟩
    obtain ⟨hinv', hguar, hnext⟩ := hok hallowed
    exact ⟨hinv', hguar, ihnext t hnext⟩

end Script

/-- Scripts at work on one state. -/
structure Threads (ℓ ε σ α : Type) where
  shared : σ
  programs : Nat → Script ℓ ε σ α

namespace Threads

variable {ℓ ε σ α : Type}

/-- The next statement of a script, which fails when the move says so. -/
def step (t : Threads ℓ ε σ α) (move : Nat × Option Text) : Threads ℓ ε σ α :=
  match t.programs move.1 with
  | .done _ => t
  | .step _ write next failed => match move.2 with
    | none => ⟨write t.shared, Function.update t.programs move.1 (next t.shared)⟩
    | some e => ⟨t.shared, Function.update t.programs move.1 (failed e)⟩

section

variable {t : Threads ℓ ε σ α} {i : Nat} {label : ℓ} {write : σ → σ} {next : σ → Script ℓ ε σ α}
  {failed : Text → Script ℓ ε σ α}

theorem step_done {r : Except ε α} (h : t.programs i = .done r) (fault : Option Text) :
    t.step (i, fault) = t := by
  simp only [step, h]

theorem step_ok (h : t.programs i = .step label write next failed) :
    t.step (i, none) = ⟨write t.shared, Function.update t.programs i (next t.shared)⟩ := by
  simp only [step, h]

theorem step_fails (h : t.programs i = .step label write next failed) (e : Text) :
    t.step (i, some e) = ⟨t.shared, Function.update t.programs i (failed e)⟩ := by
  simp only [step, h]

end

def runs (t : Threads ℓ ε σ α) (moves : List (Nat × Option Text)) : Threads ℓ ε σ α := moves.foldl step t

/-- A script that does not move stays where it is. -/
theorem runs_other {i : Nat} : ∀ {moves : List (Nat × Option Text)} {t : Threads ℓ ε σ α},
    (∀ move ∈ moves, move.1 ≠ i) → (t.runs moves).programs i = t.programs i
  | [], _, _ => rfl
  | move :: moves, t, h => by
    have hrest : ((t.step move).runs moves).programs i = (t.step move).programs i :=
      runs_other fun m hm => h m (List.mem_cons_of_mem _ hm)
    rw [runs, List.foldl_cons, ← runs, hrest, step]
    split
    · rfl
    · split <;> exact Function.update_of_ne (h move (List.mem_cons_self ..)).symm ..

/-- The statement that comes next is one that is allowed now. -/
def Allowed (allowed : Nat → ℓ → Option Text → σ → Prop) (t : Threads ℓ ε σ α)
    (move : Nat × Option Text) : Prop :=
  match t.programs move.1 with
  | .done _ => True
  | .step label _ _ _ => allowed move.1 label move.2 t.shared

/-- Every move of a run is allowed when it is made. -/
def Along (allowed : Nat → ℓ → Option Text → σ → Prop) :
    Threads ℓ ε σ α → List (Nat × Option Text) → Prop
  | _, [] => True
  | t, move :: moves => t.Allowed allowed move ∧ Along allowed (t.step move) moves

instance decidableAllowed {allowed : Nat → ℓ → Option Text → σ → Prop}
    [∀ i label fault s, Decidable (allowed i label fault s)] (t : Threads ℓ ε σ α) (move : Nat × Option Text) :
    Decidable (t.Allowed allowed move) :=
  match h : t.programs move.1 with
  | .done _ => isTrue (by simp only [Allowed, h])
  | .step label _ _ _ => decidable_of_iff (allowed move.1 label move.2 t.shared) (by simp only [Allowed, h])

instance decidableAlong {allowed : Nat → ℓ → Option Text → σ → Prop}
    [∀ i label fault s, Decidable (allowed i label fault s)] : ∀ (moves : List (Nat × Option Text))
    (t : Threads ℓ ε σ α), Decidable (t.Along allowed moves)
  | [], _ => isTrue trivial
  | move :: moves, t =>
    have : Decidable ((t.step move).Along allowed moves) := decidableAlong moves (t.step move)
    inferInstanceAs (Decidable (t.Allowed allowed move ∧ Along allowed (t.step move) moves))

/-- `Along`, for conditions that a program decides. -/
def check (p : ℓ → Option Text → σ → Bool) : Threads ℓ ε σ α → List (Nat × Option Text) → Bool
  | _, [] => true
  | t, move :: moves =>
    (match t.programs move.1 with
      | .done _ => true
      | .step label _ _ _ => p label move.2 t.shared) && check p (t.step move) moves

theorem along_of_check {allowed : Nat → ℓ → Option Text → σ → Prop} {p : ℓ → Option Text → σ → Bool}
    (hp : ∀ i label fault s, p label fault s → allowed i label fault s) {t : Threads ℓ ε σ α}
    {moves : List (Nat × Option Text)} (h : t.check p moves) : t.Along allowed moves := by
  induction moves generalizing t with
  | nil => exact trivial
  | cons move moves ih =>
    rw [check, Bool.and_eq_true] at h
    refine ⟨?_, ih h.2⟩
    unfold Allowed
    cases hprogram : t.programs move.1 with
    | done r => exact trivial
    | step label write next failed =>
      rw [hprogram] at h
      exact hp _ _ _ _ h.1

/-- All scripts are under contract, and the invariant holds. -/
structure Bound (c : Nat → Contract ℓ σ) (post : Nat → Except ε α → σ → Prop) (t : Threads ℓ ε σ α) :
    Prop where
  inv : ∀ i, (c i).inv t.shared
  safe : ∀ i, (t.programs i).Safe (c i) (post i) t.shared

/-- The contracts of different scripts fit together. -/
structure Compatible (c : Nat → Contract ℓ σ) : Prop where
  inv : ∀ i j s, (c i).inv s → (c j).inv s
  guar : ∀ i j, i ≠ j → ∀ s t, (c i).inv s → (c i).guar s t → (c j).rely s t

variable {c : Nat → Contract ℓ σ} {post : Nat → Except ε α → σ → Prop} {t : Threads ℓ ε σ α}

theorem Bound.step (hc : Compatible c) (ht : t.Bound c post) {move : Nat × Option Text}
    (hallowed : t.Allowed (fun i => (c i).allowed) move) : (t.step move).Bound c post := by
  obtain ⟨i, fault⟩ := move
  have hsafe := ht.safe i
  cases hp : t.programs i with
  | done r =>
    rw [step_done hp]
    exact ht
  | step label write next failed =>
    simp only [Allowed, hp] at hallowed
    rw [hp] at hsafe
    obtain ⟨hok, herror⟩ := hsafe t.shared ((c i).refl _) (ht.inv i)
    cases fault with
    | none =>
      obtain ⟨hinv, hguar, hnext⟩ := hok hallowed
      rw [step_ok hp]
      refine ⟨fun j => hc.inv i j _ hinv, fun j => ?_⟩
      dsimp only
      by_cases hj : j = i
      · subst hj
        rw [Function.update_self]
        exact hnext
      · rw [Function.update_of_ne hj]
        exact (ht.safe j).of_rely (hc.guar i j (Ne.symm hj) _ _ (ht.inv i) hguar)
    | some e =>
      rw [step_fails hp]
      refine ⟨ht.inv, fun j => ?_⟩
      dsimp only
      by_cases hj : j = i
      · subst hj
        rw [Function.update_self]
        exact herror e hallowed
      · rw [Function.update_of_ne hj]
        exact ht.safe j

/-- A run of allowed moves keeps all contracts. -/
theorem Bound.runs (hc : Compatible c) (ht : t.Bound c post) {moves : List (Nat × Option Text)}
    (halong : t.Along (fun i => (c i).allowed) moves) : (t.runs moves).Bound c post := by
  induction moves generalizing t with
  | nil => exact ht
  | cons move moves ih => exact ih (ht.step hc halong.1) halong.2

/-- What a script that has ended has achieved. -/
theorem Bound.ended (ht : t.Bound c post) {i : Nat} {r : Except ε α} (hp : t.programs i = .done r) :
    post i r t.shared := by
  have hsafe := ht.safe i
  rw [hp] at hsafe
  exact hsafe _ ((c i).refl _)

end Threads

end Lib
