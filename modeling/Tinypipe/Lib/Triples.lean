import Tinypipe.Lib.Stateful

/-! Pre- and postconditions for computations with a state and an exception. A triple says how
a computation ends from the states of the precondition: normally in `Q`, with its value, or
with an error in `E`. `zoom` runs a computation on a part of the state. -/

namespace Lib.Stateful

variable {ε ε' σ τ α β : Type}

def Triple (P : σ → Prop) (x : EStateM ε σ α) (Q : α → σ → Prop) (E : ε → σ → Prop) : Prop :=
  ∀ s, P s → match x s with
    | .ok a t => Q a t
    | .error e t => E e t

/-- A computation on a part of the state. -/
def zoom (part : σ → τ) (put : τ → σ → σ) (x : EStateM ε τ α) : EStateM ε σ α := fun s =>
  match x (part s) with
  | .ok a t => .ok a (put t s)
  | .error e t => .error e (put t s)

namespace Triple

variable {P : σ → Prop} {Q : α → σ → Prop} {E : ε → σ → Prop} {x : EStateM ε σ α}

theorem ok (h : Triple P x Q E) {s t : σ} {a : α} (hs : P s) (hx : x s = .ok a t) : Q a t := by
  have := h s hs
  rwa [hx] at this

theorem error (h : Triple P x Q E) {s t : σ} {e : ε} (hs : P s) (hx : x s = .error e t) : E e t := by
  have := h s hs
  rwa [hx] at this

theorem of_finalState {R : σ → Prop} (h : ∀ s, P s → R (finalState (x s))) :
    Triple P x (fun _ => R) fun _ => R := by
  intro s hs
  have hfinal := h s hs
  cases hx : x s with
  | ok a t => rwa [hx] at hfinal
  | error e t => rwa [hx] at hfinal

theorem finalState {R : σ → Prop} (h : Triple P x (fun _ => R) fun _ => R) {s : σ} (hs : P s) :
    R (finalState (x s)) := by
  cases hx : x s with
  | ok a t => exact h.ok hs hx
  | error e t => exact h.error hs hx

theorem pure {a : α} (h : ∀ s, P s → Q a s) : Triple P (pure a) Q E := h

theorem throw {e : ε} (h : ∀ s, P s → E e s) : Triple P (throw e) Q E := h

theorem modify {f : σ → σ} {Q : PUnit → σ → Prop} (h : ∀ s, P s → Q ⟨⟩ (f s)) :
    Triple P (modify f) Q E := h

theorem bind {R : β → σ → Prop} {y : EStateM ε σ β} {f : β → EStateM ε σ α} (hy : Triple P y R E)
    (hf : ∀ b, Triple (R b) (f b) Q E) : Triple P (y >>= f) Q E := by
  intro s hs
  rw [bind_apply]
  cases h : y s with
  | ok b t => exact hf b t (hy.ok hs h)
  | error e t => exact hy.error hs h

theorem get_bind {f : σ → EStateM ε σ α} (h : ∀ s, P s → Triple (fun t => t = s) (f s) Q E) :
    Triple P (get >>= f) Q E := fun s hs => h s hs s rfl

theorem conseq {P' : σ → Prop} {Q' : α → σ → Prop} {E' : ε → σ → Prop} (h : Triple P' x Q' E')
    (hp : ∀ s, P s → P' s) (hq : ∀ a s, Q' a s → Q a s) (he : ∀ e s, E' e s → E e s) :
    Triple P x Q E := by
  intro s hs
  cases hx : x s with
  | ok a t => exact hq a t (h.ok (hp s hs) hx)
  | error e t => exact he e t (h.error (hp s hs) hx)

theorem ite {c : Prop} [Decidable c] {y : EStateM ε σ α} (hx : c → Triple P x Q E)
    (hy : ¬c → Triple P y Q E) : Triple P (if c then x else y) Q E := by
  split
  case isTrue hc => exact hx hc
  case isFalse hc => exact hy hc

/-- As `bind`, where the second part may use where the first one started. -/
theorem bind_from {R : β → σ → Prop} {y : EStateM ε σ β} {f : β → EStateM ε σ α}
    (hy : Triple P y R E) (hf : ∀ s b t, P s → y s = .ok b t → Triple (R b) (f b) Q E) :
    Triple P (y >>= f) Q E := by
  intro s hs
  rw [bind_apply]
  cases h : y s with
  | ok b t => exact hf s b t hs h t (hy.ok hs h)
  | error e t => exact hy.error hs h

theorem of_exists {ι : Sort*} {P : ι → σ → Prop} (h : ∀ i, Triple (P i) x Q E) :
    Triple (fun s => ∃ i, P i s) x Q E := by
  rintro s ⟨i, hs⟩
  exact h i s hs

/-- Facts that do not depend on the state. -/
theorem assume {p : Prop} (h : p → Triple P x Q E) : Triple (fun s => p ∧ P s) x Q E :=
  fun s hs => h hs.1 s hs.2

theorem attempt {Q : Except ε α → σ → Prop} {E : ε' → σ → Prop}
    (h : Triple P x (fun a => Q (.ok a)) fun e => Q (.error e)) :
    Triple P (attempt x : EStateM ε' σ (Except ε α)) Q E := by
  intro s hs
  cases hx : x s with
  | ok a t =>
    rw [attempt_of_ok hx]
    exact h.ok hs hx
  | error e t =>
    rw [attempt_of_error hx]
    exact h.error hs hx

/-- What is known of a value is known where it is returned. -/
theorem attempt_ok {p : α → Prop} {R : σ → Prop} {E : ε' → σ → Prop}
    (h : Triple P x (fun a s => p a ∧ R s) fun _ => R) :
    Triple P (Stateful.attempt x : EStateM ε' σ (Except ε α))
      (fun r s => (∀ a, r = .ok a → p a) ∧ R s) E := by
  refine Triple.attempt (h.conseq (fun _ hs => hs) (fun a s hs => ⟨fun a' ha => ?_, hs.2⟩)
    fun e s hs => ⟨fun a' ha => ?_, hs⟩)
  · cases ha
    exact hs.1
  · cases ha

theorem adaptExcept {f : ε → ε'} {E : ε' → σ → Prop} (h : Triple P x Q fun e => E (f e)) :
    Triple P (EStateM.adaptExcept f x) Q E := by
  intro s hs
  rw [EStateM.adaptExcept]
  cases hx : x s with
  | ok a t => exact h.ok hs hx
  | error e t => exact h.error hs hx

theorem zoom {part : σ → τ} {put : τ → σ → σ} {y : EStateM ε τ α}
    (h : ∀ s, P s → Triple (fun t => t = part s) y (fun a t => Q a (put t s)) fun e t => E e (put t s)) :
    Triple P (zoom part put y) Q E := by
  intro s hs
  rw [Stateful.zoom]
  cases hy : y (part s) with
  | ok a t => exact (h s hs).ok rfl hy
  | error e t => exact (h s hs).error rfl hy

end Triple

end Lib.Stateful
