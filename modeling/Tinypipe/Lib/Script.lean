import Tinypipe.Lib.Stateful
import Tinypipe.Lib.Text

/-! Scripts: computations cut into statements that are atomic on their own, any of which may
fail. -/

namespace Lib

open Stateful

inductive Script (ℓ ε σ α : Type) where
  | done (result : Except ε α)
  /-- A statement: what it writes, what follows, and what follows if it fails. -/
  | step (label : ℓ) (write : σ → σ) (next : σ → Script ℓ ε σ α) (failed : Text → Script ℓ ε σ α)

namespace Script

variable {ℓ ε σ α β : Type}

def bind : Script ℓ ε σ α → (α → Script ℓ ε σ β) → Script ℓ ε σ β
  | done (.ok a), f => f a
  | done (.error e), _ => done (.error e)
  | step label write next failed, f =>
    step label write (fun s => (next s).bind f) fun e => (failed e).bind f

instance : Monad (Script ℓ ε σ) where
  pure a := done (.ok a)
  bind := bind

def throw (e : ε) : Script ℓ ε σ α := done (.error e)

theorem pure_bind (a : α) (f : α → Script ℓ ε σ β) : (pure a >>= f : Script ℓ ε σ β) = f a := rfl

theorem throw_bind (e : ε) (f : α → Script ℓ ε σ β) : (throw e >>= f : Script ℓ ε σ β) = throw e := rfl

theorem step_bind (label : ℓ) (write : σ → σ) (next : σ → Script ℓ ε σ α)
    (failed : Text → Script ℓ ε σ α) (f : α → Script ℓ ε σ β) :
    (step label write next failed >>= f) = step label write (next · >>= f) (failed · >>= f) := rfl

theorem bind_pure (x : Script ℓ ε σ α) : x >>= (pure : α → Script ℓ ε σ α) = x := by
  induction x with
  | done r => cases r <;> rfl
  | step label write next failed ihnext ihfailed =>
    rw [step_bind]
    exact congrArg₂ _ (funext fun s => ihnext s) (funext fun e => ihfailed e)

theorem bind_assoc {γ : Type} (x : Script ℓ ε σ α) (f : α → Script ℓ ε σ β) (g : β → Script ℓ ε σ γ) :
    (x >>= f >>= g) = x >>= fun a => f a >>= g := by
  induction x with
  | done r => cases r <;> rfl
  | step label write next failed ihnext ihfailed =>
    rw [step_bind, step_bind, step_bind]
    exact congrArg₂ _ (funext fun s => ihnext s) (funext fun e => ihfailed e)

/-- The script on a part of a larger state. `put` writes the part back behind a statement. -/
def zoom {τ : Type} (get : τ → σ) (put : ℓ → σ → τ → τ) : Script ℓ ε σ α → Script ℓ ε τ α
  | done r => done r
  | step label write next failed =>
    step label (fun t => put label (write (get t)) t) (fun t => (next (get t)).zoom get put)
      fun e => (failed e).zoom get put

theorem zoom_bind {τ : Type} (get : τ → σ) (put : ℓ → σ → τ → τ) (x : Script ℓ ε σ α)
    (f : α → Script ℓ ε σ β) :
    (x >>= f).zoom get put = x.zoom get put >>= fun a => (f a).zoom get put := by
  induction x with
  | done r => cases r <;> rfl
  | step label write next failed ihnext ihfailed =>
    rw [step_bind, zoom, zoom, step_bind]
    exact congrArg₂ _ (funext fun t => ihnext (get t)) (funext fun e => ihfailed e)

/-! ### Alone -/

/-- With the statements that `faults` names failing. A failed statement writes nothing. -/
def run (faults : ℓ → Option Text) : Script ℓ ε σ α → EStateM ε σ α
  | done (.ok a), s => .ok a s
  | done (.error e), s => .error e s
  | step label write next failed, s =>
    match faults label with
    | some e => run faults (failed e) s
    | none => run faults (next s) (write s)

def noFaults : ℓ → Option Text := fun _ => none

variable (faults : ℓ → Option Text)

theorem run_pure (a : α) (s : σ) : run faults (pure a : Script ℓ ε σ α) s = .ok a s := rfl

theorem run_throw (e : ε) (s : σ) : run faults (throw e : Script ℓ ε σ α) s = .error e s := rfl

theorem run_step_of_none {label : ℓ} (h : faults label = none) (write : σ → σ) (next : σ → Script ℓ ε σ α)
    (failed : Text → Script ℓ ε σ α) (s : σ) :
    run faults (step label write next failed) s = run faults (next s) (write s) := by
  rw [run, h]

theorem run_step_of_some {label : ℓ} {e : Text} (h : faults label = some e) (write : σ → σ)
    (next : σ → Script ℓ ε σ α) (failed : Text → Script ℓ ε σ α) (s : σ) :
    run faults (step label write next failed) s = run faults (failed e) s := by
  rw [run, h]

theorem run_bind (x : Script ℓ ε σ α) (f : α → Script ℓ ε σ β) :
    run faults (x >>= f) = (run faults x >>= fun a => run faults (f a)) := by
  funext s
  induction x generalizing s with
  | done r => cases r <;> rfl
  | step label write next failed ihnext ihfailed =>
    rw [step_bind, bind_apply]
    cases h : faults label with
    | some e =>
      rw [run_step_of_some faults h, run_step_of_some faults h]
      exact ihfailed e s
    | none =>
      rw [run_step_of_none faults h, run_step_of_none faults h]
      exact ihnext s (write s)

end Script

end Lib
