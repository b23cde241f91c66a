import Mathlib

/-! Rules for computations with a state and an exception that keeps the state
(`EStateM`). `Steps R` relates the state before a computation to the state after it,
however it ends, `Ends Rok Rerr` has a relation for each end; `Runs R` adds that the
computation always ends normally; `Extends` is a relation for lists that grow; `Returns P`
is about the values it returns; `Commutes f` says that a change of the state that the
computation does not look at can be made before or after. -/

namespace Lib.Stateful

variable {ε σ α β : Type}

@[simp] theorem pure_apply (a : α) (s : σ) : (pure a : EStateM ε σ α) s = .ok a s := rfl

@[simp] theorem get_apply (s : σ) : (get : EStateM ε σ σ) s = .ok s s := rfl

@[simp] theorem set_apply (t s : σ) : (set t : EStateM ε σ PUnit) s = .ok ⟨⟩ t := rfl

@[simp] theorem modify_apply (f : σ → σ) (s : σ) :
    (modify f : EStateM ε σ PUnit) s = .ok ⟨⟩ (f s) := rfl

@[simp] theorem throw_apply (e : ε) (s : σ) : (throw e : EStateM ε σ α) s = .error e s := rfl

theorem bind_apply (x : EStateM ε σ α) (f : α → EStateM ε σ β) (s : σ) :
    (x >>= f) s = match x s with
      | .ok a t => f a t
      | .error e t => .error e t := rfl

@[simp] theorem map_apply (f : α → β) (x : EStateM ε σ α) (s : σ) :
    (f <$> x) s = match x s with
      | .ok a t => .ok (f a) t
      | .error e t => .error e t := rfl

theorem bind_of_ok {x : EStateM ε σ α} {s t : σ} {a : α} (f : α → EStateM ε σ β)
    (h : x s = .ok a t) : (x >>= f) s = f a t := by
  rw [bind_apply, h]

theorem bind_of_error {x : EStateM ε σ α} {s t : σ} {e : ε} (f : α → EStateM ε σ β)
    (h : x s = .error e t) : (x >>= f) s = .error e t := by
  rw [bind_apply, h]

theorem bind_congr {x y : EStateM ε σ α} {s t : σ} (h : x s = y t) (f : α → EStateM ε σ β) :
    (x >>= f) s = (y >>= f) t := by
  rw [bind_apply, bind_apply, h]

@[simp] theorem get_bind (f : σ → EStateM ε σ β) (s : σ) : ((get >>= f) : EStateM ε σ β) s = f s s :=
  rfl

@[simp] theorem modify_bind (g : σ → σ) (f : PUnit → EStateM ε σ β) (s : σ) :
    (((modify g : EStateM ε σ PUnit) >>= f) : EStateM ε σ β) s = f ⟨⟩ (g s) := rfl

@[simp] theorem pure_bind_apply (a : α) (f : α → EStateM ε σ β) (s : σ) :
    ((pure a : EStateM ε σ α) >>= f) s = f a s := rfl

@[simp] theorem throw_bind (e : ε) (f : α → EStateM ε σ β) (s : σ) :
    ((throw e : EStateM ε σ α) >>= f) s = .error e s := rfl

@[simp] theorem forM_nil (f : α → EStateM ε σ PUnit) (s : σ) :
    ([].forM f : EStateM ε σ PUnit) s = .ok ⟨⟩ s := rfl

theorem forM_cons (f : α → EStateM ε σ PUnit) (a : α) (l : List α) (s : σ) :
    ((a :: l).forM f : EStateM ε σ PUnit) s = (f a >>= fun _ => l.forM f) s := rfl

/-- A sequence that ends normally does so through a middle state. -/
theorem bind_ok {x : EStateM ε σ α} {f : α → EStateM ε σ β} {s u : σ} {b : β}
    (h : (x >>= f) s = .ok b u) : ∃ a t, x s = .ok a t ∧ f a t = .ok b u := by
  rw [bind_apply] at h
  cases hx : x s with
  | ok a t => rw [hx] at h; exact ⟨a, t, rfl, h⟩
  | error e t => rw [hx] at h; cases h

/-- The state a computation leaves behind. -/
def finalState : EStateM.Result ε σ α → σ
  | .ok _ t => t
  | .error _ t => t

/-- The outcome of a computation as a value. -/
def attempt {ε' : Type} (x : EStateM ε σ α) : EStateM ε' σ (Except ε α) := fun s =>
  match x s with
  | .ok a t => .ok (.ok a) t
  | .error e t => .ok (.error e) t

theorem attempt_of_ok {ε' : Type} {x : EStateM ε σ α} {s t : σ} {a : α} (h : x s = .ok a t) :
    (attempt x : EStateM ε' σ (Except ε α)) s = .ok (.ok a) t := by
  rw [attempt, h]

theorem attempt_of_error {ε' : Type} {x : EStateM ε σ α} {s t : σ} {e : ε} (h : x s = .error e t) :
    (attempt x : EStateM ε' σ (Except ε α)) s = .ok (.error e) t := by
  rw [attempt, h]

theorem finalState_adaptExcept {ε' : Type} (f : ε → ε') (x : EStateM ε σ α) (s : σ) :
    finalState (EStateM.adaptExcept f x s) = finalState (x s) := by
  rw [EStateM.adaptExcept]
  cases x s <;> rfl

/-! ### Relations between the states before and after -/

section Steps

variable {R : σ → σ → Prop}

def Steps (R : σ → σ → Prop) (x : EStateM ε σ α) : Prop := ∀ s, R s (finalState (x s))

theorem Steps.ok {x : EStateM ε σ α} (hx : Steps R x) {s t : σ} {a : α} (h : x s = .ok a t) :
    R s t := by
  simpa [h, finalState] using hx s

theorem Steps.error {x : EStateM ε σ α} (hx : Steps R x) {s t : σ} {e : ε}
    (h : x s = .error e t) : R s t := by
  simpa [h, finalState] using hx s

theorem Steps.pure [Std.Refl R] (a : α) : Steps R (pure a : EStateM ε σ α) := fun s => refl_of R s

theorem Steps.throw [Std.Refl R] (e : ε) : Steps R (throw e : EStateM ε σ α) := fun s => refl_of R s

theorem Steps.get [Std.Refl R] : Steps R (get : EStateM ε σ σ) := fun s => refl_of R s

theorem Steps.modify {f : σ → σ} (h : ∀ s, R s (f s)) : Steps R (modify f : EStateM ε σ PUnit) := h

/-- Rules for a sequence whose parts have relations of their own. -/
theorem Steps.seq {R₁ R₂ : σ → σ → Prop} {x : EStateM ε σ α} {f : α → EStateM ε σ β}
    (hstop : ∀ s t, R₁ s t → R s t) (hcomp : ∀ s t u, R₁ s t → R₂ t u → R s u)
    (hx : Steps R₁ x) (hf : ∀ a, Steps R₂ (f a)) : Steps R (x >>= f) := by
  intro s
  rw [bind_apply]
  cases h : x s with
  | ok a t => exact hcomp _ _ _ (hx.ok h) (hf a t)
  | error e t => exact hstop _ _ (hx.error h)

theorem Steps.bind [IsTrans σ R] {x : EStateM ε σ α} {f : α → EStateM ε σ β} (hx : Steps R x)
    (hf : ∀ a, Steps R (f a)) : Steps R (x >>= f) :=
  Steps.seq (fun _ _ h => h) (fun _ _ _ => trans_of R) hx hf

theorem Steps.mono {R₁ : σ → σ → Prop} {x : EStateM ε σ α} (h : ∀ s t, R₁ s t → R s t)
    (hx : Steps R₁ x) : Steps R x := fun s => h _ _ (hx s)

theorem Steps.get_bind {f : σ → EStateM ε σ β} (hf : ∀ s, Steps R (f s)) :
    Steps R (MonadState.get >>= f) := fun s => hf s s

theorem Steps.map {x : EStateM ε σ α} (hx : Steps R x) (f : α → β) :
    Steps R (f <$> x) := by
  intro s
  rw [map_apply]
  cases h : x s with
  | ok a t => exact hx.ok h
  | error e t => exact hx.error h

theorem Steps.ite {c : Prop} [Decidable c] {x y : EStateM ε σ α} (hx : Steps R x)
    (hy : Steps R y) : Steps R (if c then x else y) := by
  split
  · exact hx
  · exact hy

theorem Steps.forM_mem [Std.Refl R] [IsTrans σ R] {f : α → EStateM ε σ PUnit} {l : List α}
    (hf : ∀ a ∈ l, Steps R (f a)) : Steps R (l.forM f) := by
  induction l with
  | nil => exact Steps.pure _
  | cons a l ih => exact Steps.bind (hf a List.mem_cons_self) fun _ => ih fun b hb => hf b (List.mem_cons_of_mem _ hb)

theorem Steps.forM [Std.Refl R] [IsTrans σ R]
    {f : α → EStateM ε σ PUnit} (hf : ∀ a, Steps R (f a)) (l : List α) : Steps R (l.forM f) :=
  Steps.forM_mem fun a _ => hf a

end Steps

/-! ### Different relations for a normal end and an error -/

section Ends

variable {Rok Rerr : σ → σ → Prop}

def Ends (Rok Rerr : σ → σ → Prop) (x : EStateM ε σ α) : Prop :=
  ∀ s, (∃ a t, x s = .ok a t ∧ Rok s t) ∨ ∃ e t, x s = .error e t ∧ Rerr s t

theorem Ends.ok {x : EStateM ε σ α} (hx : Ends Rok Rerr x) {s t : σ} {a : α}
    (h : x s = .ok a t) : Rok s t := by
  rcases hx s with ⟨a', t', h', hr⟩ | ⟨e, t', h', -⟩
  · rw [h] at h'
    cases h'
    exact hr
  · rw [h] at h'
    cases h'

theorem Ends.error {x : EStateM ε σ α} (hx : Ends Rok Rerr x) {s t : σ} {e : ε}
    (h : x s = .error e t) : Rerr s t := by
  rcases hx s with ⟨a', t', h', -⟩ | ⟨e', t', h', hr⟩
  · rw [h] at h'
    cases h'
  · rw [h] at h'
    cases h'
    exact hr

theorem Steps.ends {R : σ → σ → Prop} {x : EStateM ε σ α} (hx : Steps R x)
    (hok : ∀ s t, R s t → Rok s t) (herr : ∀ s t, R s t → Rerr s t) : Ends Rok Rerr x := by
  intro s
  cases h : x s with
  | ok a t => exact Or.inl ⟨a, t, rfl, hok s t (hx.ok h)⟩
  | error e t => exact Or.inr ⟨e, t, rfl, herr s t (hx.error h)⟩

theorem Ends.steps {R : σ → σ → Prop} {x : EStateM ε σ α} (hx : Ends Rok Rerr x)
    (hok : ∀ s t, Rok s t → R s t) (herr : ∀ s t, Rerr s t → R s t) : Steps R x := by
  intro s
  rcases hx s with ⟨a, t, h, hst⟩ | ⟨e, t, h, hst⟩
  · rw [h]
    exact hok s t hst
  · rw [h]
    exact herr s t hst

theorem Ends.pure [Std.Refl Rok] (a : α) : Ends Rok Rerr (pure a : EStateM ε σ α) :=
  fun s => Or.inl ⟨a, s, rfl, refl_of Rok s⟩

theorem Ends.throw [Std.Refl Rerr] (e : ε) : Ends Rok Rerr (throw e : EStateM ε σ α) :=
  fun s => Or.inr ⟨e, s, rfl, refl_of Rerr s⟩

theorem Ends.seq {R₁ R₂ E₁ E₂ : σ → σ → Prop} {x : EStateM ε σ α} {f : α → EStateM ε σ β}
    (hcomp : ∀ s t u, R₁ s t → R₂ t u → Rok s u) (hstop : ∀ s t, E₁ s t → Rerr s t)
    (hlate : ∀ s t u, R₁ s t → E₂ t u → Rerr s u) (hx : Ends R₁ E₁ x)
    (hf : ∀ a, Ends R₂ E₂ (f a)) : Ends Rok Rerr (x >>= f) := by
  intro s
  rcases hx s with ⟨a, t, h, hst⟩ | ⟨e, t, h, hst⟩
  · rw [bind_of_ok _ h]
    rcases hf a t with ⟨b, u, h', htu⟩ | ⟨e, u, h', htu⟩
    · exact Or.inl ⟨b, u, h', hcomp s t u hst htu⟩
    · exact Or.inr ⟨e, u, h', hlate s t u hst htu⟩
  · exact Or.inr ⟨e, t, bind_of_error _ h, hstop s t hst⟩

theorem Ends.mono {R₁ E₁ : σ → σ → Prop} {x : EStateM ε σ α} (hok : ∀ s t, R₁ s t → Rok s t)
    (herr : ∀ s t, E₁ s t → Rerr s t) (hx : Ends R₁ E₁ x) : Ends Rok Rerr x := by
  intro s
  rcases hx s with ⟨a, t, h, hst⟩ | ⟨e, t, h, hst⟩
  · exact Or.inl ⟨a, t, h, hok s t hst⟩
  · exact Or.inr ⟨e, t, h, herr s t hst⟩

theorem Ends.get_bind {f : σ → EStateM ε σ β} (hf : ∀ s, Ends Rok Rerr (f s)) :
    Ends Rok Rerr (MonadState.get >>= f) := fun s => hf s s

theorem Ends.ite {c : Prop} [Decidable c] {x y : EStateM ε σ α} (hx : Ends Rok Rerr x)
    (hy : Ends Rok Rerr y) : Ends Rok Rerr (if c then x else y) := by
  split
  · exact hx
  · exact hy

end Ends

/-! ### A relation for each value -/

section EndsAs

variable {Rok : α → σ → σ → Prop} {Rerr : σ → σ → Prop}

/-- `Ends` with a relation that depends on the value of the normal end. -/
def EndsAs (Rok : α → σ → σ → Prop) (Rerr : σ → σ → Prop) (x : EStateM ε σ α) : Prop :=
  ∀ s, (∃ a t, x s = .ok a t ∧ Rok a s t) ∨ ∃ e t, x s = .error e t ∧ Rerr s t

theorem EndsAs.pure [Std.Refl (Rok a)] : EndsAs Rok Rerr (pure a : EStateM ε σ α) :=
  fun s => Or.inl ⟨a, s, rfl, refl_of (Rok a) s⟩

theorem EndsAs.throw [Std.Refl Rerr] (e : ε) : EndsAs Rok Rerr (throw e : EStateM ε σ α) :=
  fun s => Or.inr ⟨e, s, rfl, refl_of Rerr s⟩

theorem EndsAs.seq {R₁ : β → σ → σ → Prop} {R₂ : β → α → σ → σ → Prop} {E₁ : σ → σ → Prop}
    {E₂ : β → σ → σ → Prop} {x : EStateM ε σ β} {f : β → EStateM ε σ α}
    (hcomp : ∀ b a s t u, R₁ b s t → R₂ b a t u → Rok a s u) (hstop : ∀ s t, E₁ s t → Rerr s t)
    (hlate : ∀ b s t u, R₁ b s t → E₂ b t u → Rerr s u) (hx : EndsAs R₁ E₁ x)
    (hf : ∀ b, EndsAs (R₂ b) (E₂ b) (f b)) : EndsAs Rok Rerr (x >>= f) := by
  intro s
  rcases hx s with ⟨b, t, h, hst⟩ | ⟨e, t, h, hst⟩
  · rw [bind_of_ok _ h]
    rcases hf b t with ⟨a, u, h', htu⟩ | ⟨e, u, h', htu⟩
    · exact Or.inl ⟨a, u, h', hcomp b a s t u hst htu⟩
    · exact Or.inr ⟨e, u, h', hlate b s t u hst htu⟩
  · exact Or.inr ⟨e, t, bind_of_error _ h, hstop s t hst⟩

theorem EndsAs.get_bind {f : σ → EStateM ε σ α} (hf : ∀ s, EndsAs Rok Rerr (f s)) :
    EndsAs Rok Rerr (MonadState.get >>= f) := fun s => hf s s

theorem EndsAs.ite {c : Prop} [Decidable c] {x y : EStateM ε σ α} (hx : EndsAs Rok Rerr x)
    (hy : EndsAs Rok Rerr y) : EndsAs Rok Rerr (if c then x else y) := by
  split
  · exact hx
  · exact hy

end EndsAs

/-! ### Growing a list -/

section Extends

variable {ω : Type} {log : σ → List ω} {P : List ω → Prop}

/-- The list grows at its end by a part with a property. -/
def Extends (log : σ → List ω) (P : List ω → Prop) (s t : σ) : Prop :=
  ∃ l, log t = log s ++ l ∧ P l

theorem Extends.mono {Q : List ω → Prop} {s t : σ} (h : Extends log P s t)
    (hpq : ∀ l, P l → Q l) : Extends log Q s t := by
  obtain ⟨l, hl, hp⟩ := h
  exact ⟨l, hl, hpq l hp⟩

theorem Extends.append {Q S : List ω → Prop} {s t u : σ} (h : Extends log P s t)
    (h' : Extends log Q t u) (hpq : ∀ l l', P l → Q l' → S (l ++ l')) : Extends log S s u := by
  obtain ⟨l, hl, hp⟩ := h
  obtain ⟨l', hl', hq⟩ := h'
  exact ⟨l ++ l', by rw [hl', hl, List.append_assoc], hpq l l' hp hq⟩

/-- A property of lists that concatenation keeps. -/
class Concat (P : List ω → Prop) : Prop where
  nil : P []
  append : ∀ l l', P l → P l' → P (l ++ l')

theorem Extends.same [Concat P] {s t : σ} (h : log t = log s) : Extends log P s t :=
  ⟨[], by rw [h, List.append_nil], Concat.nil⟩

instance [Concat P] : Std.Refl (Extends log P) := ⟨fun _ => Extends.same rfl⟩

instance [Concat P] : IsTrans σ (Extends log P) :=
  ⟨fun _ _ _ h h' => h.append h' Concat.append⟩

instance (E : ω → Prop) : Concat (fun l => ∀ e ∈ l, E e) :=
  ⟨by simp, fun l l' h h' e he => (List.mem_append.1 he).elim (h e) (h' e)⟩

end Extends

/-! ### Computations that always end normally -/

section Runs

variable {R : σ → σ → Prop}

def Runs (R : σ → σ → Prop) (x : EStateM ε σ PUnit) : Prop := ∀ s, ∃ t, x s = .ok ⟨⟩ t ∧ R s t

theorem Runs.pure [Std.Refl R] : Runs R (pure ⟨⟩ : EStateM ε σ PUnit) :=
  fun s => ⟨s, rfl, refl_of R s⟩

theorem Runs.modify {f : σ → σ} (h : ∀ s, R s (f s)) : Runs R (modify f : EStateM ε σ PUnit) :=
  fun s => ⟨f s, rfl, h s⟩

theorem Runs.bind [IsTrans σ R] {x y : EStateM ε σ PUnit} (hx : Runs R x) (hy : Runs R y) :
    Runs R (x >>= fun _ => y) := by
  intro s
  obtain ⟨t, ht, hst⟩ := hx s
  obtain ⟨u, hu, htu⟩ := hy t
  exact ⟨u, by rw [bind_of_ok _ ht, hu], trans_of R hst htu⟩

theorem Runs.get_bind {k : σ → EStateM ε σ PUnit} (h : ∀ s, Runs R (k s)) :
    Runs R (get >>= k) := fun s => h s s

theorem Runs.ite {c : Prop} [Decidable c] {x y : EStateM ε σ PUnit} (hx : Runs R x)
    (hy : Runs R y) : Runs R (if c then x else y) := by
  split
  · exact hx
  · exact hy

theorem Runs.forM [Std.Refl R] [IsTrans σ R] {f : α → EStateM ε σ PUnit} {l : List α}
    (h : ∀ a ∈ l, Runs R (f a)) : Runs R (l.forM f) := by
  induction l with
  | nil => exact Runs.pure
  | cons a l ih => exact Runs.bind (h a (by simp)) (ih fun b hb => h b (by simp [hb]))

end Runs

/-! ### What a computation returns -/

section Returns

variable {P : α → Prop}

/-- Every value the computation ends normally with satisfies `P`. -/
def Returns (P : α → Prop) (x : EStateM ε σ α) : Prop := ∀ s a t, x s = .ok a t → P a

theorem Returns.pure {a : α} (h : P a) : Returns P (pure a : EStateM ε σ α) := by
  rintro s b t ⟨⟩
  exact h

theorem Returns.throw (e : ε) : Returns P (throw e : EStateM ε σ α) := by
  rintro s b t ⟨⟩

theorem Returns.bind {x : EStateM ε σ β} {f : β → EStateM ε σ α} {Q : β → Prop}
    (hx : Returns Q x) (hf : ∀ b, Q b → Returns P (f b)) : Returns P (x >>= f) := by
  intro s a u h
  obtain ⟨b, t, hb, ha⟩ := bind_ok h
  exact hf b (hx s b t hb) t a u ha

theorem Returns.bind_any {x : EStateM ε σ β} {f : β → EStateM ε σ α}
    (hf : ∀ b, Returns P (f b)) : Returns P (x >>= f) :=
  Returns.bind (Q := fun _ => True) (fun _ _ _ _ => trivial) fun b _ => hf b

theorem Returns.ite {c : Prop} [Decidable c] {x y : EStateM ε σ α} (hx : Returns P x)
    (hy : Returns P y) : Returns P (if c then x else y) := by
  split
  · exact hx
  · exact hy

end Returns

/-! ### What a computation throws -/

section Throws

variable {E : ε → Prop}

/-- Every error the computation ends with satisfies `E`. -/
def Throws (E : ε → Prop) (x : EStateM ε σ α) : Prop := ∀ s e t, x s = .error e t → E e

theorem Throws.pure (a : α) : Throws E (pure a : EStateM ε σ α) := by
  rintro s e t ⟨⟩

theorem Throws.throw {e : ε} (h : E e) : Throws E (throw e : EStateM ε σ α) := by
  rintro s e' t ⟨⟩
  exact h

theorem Throws.modify (f : σ → σ) : Throws E (modify f : EStateM ε σ PUnit) := by
  rintro s e t ⟨⟩

theorem Throws.bind {x : EStateM ε σ β} {f : β → EStateM ε σ α} (hx : Throws E x)
    (hf : ∀ b, Throws E (f b)) : Throws E (x >>= f) := by
  intro s e u h
  rw [bind_apply] at h
  cases hb : x s with
  | ok b t =>
    rw [hb] at h
    exact hf b t e u h
  | error e' t =>
    rw [hb] at h
    cases h
    exact hx s _ _ hb

theorem Throws.get_bind {f : σ → EStateM ε σ α} (hf : ∀ s, Throws E (f s)) :
    Throws E (MonadState.get >>= f) := fun s => hf s s

theorem Throws.map {x : EStateM ε σ β} (hx : Throws E x) (f : β → α) : Throws E (f <$> x) := by
  intro s e u h
  rw [map_apply] at h
  cases hb : x s with
  | ok b t => rw [hb] at h; cases h
  | error e' t =>
    rw [hb] at h
    cases h
    exact hx s _ _ hb

theorem Throws.ite {c : Prop} [Decidable c] {x y : EStateM ε σ α} (hx : Throws E x)
    (hy : Throws E y) : Throws E (if c then x else y) := by
  split
  · exact hx
  · exact hy

theorem Throws.forM {f : α → EStateM ε σ PUnit} (hf : ∀ a, Throws E (f a)) (l : List α) :
    Throws E (l.forM f) := by
  induction l with
  | nil => exact Throws.pure _
  | cons a l ih => exact Throws.bind (hf a) fun _ => ih

end Throws

/-! ### States that a computation does not tell apart -/

section Commutes

/-- Apply a state change to the state a result carries. -/
def mapState (f : σ → σ) : EStateM.Result ε σ α → EStateM.Result ε σ α
  | .ok a t => .ok a (f t)
  | .error e t => .error e (f t)

@[simp] theorem mapState_ok (f : σ → σ) (a : α) (t : σ) :
    mapState f (.ok a t : EStateM.Result ε σ α) = .ok a (f t) := rfl

@[simp] theorem mapState_error (f : σ → σ) (e : ε) (t : σ) :
    mapState f (.error e t : EStateM.Result ε σ α) = .error e (f t) := rfl

variable {f : σ → σ}

def Commutes (f : σ → σ) (x : EStateM ε σ α) : Prop := ∀ s, x (f s) = mapState f (x s)

theorem Commutes.pure (a : α) : Commutes f (pure a : EStateM ε σ α) := fun _ => rfl

theorem Commutes.throw (e : ε) : Commutes f (throw e : EStateM ε σ α) := fun _ => rfl

theorem Commutes.modify {g : σ → σ} (h : ∀ s, g (f s) = f (g s)) :
    Commutes f (modify g : EStateM ε σ PUnit) := by
  intro s
  simp [h]

theorem Commutes.bind {x : EStateM ε σ α} {k : α → EStateM ε σ β} (hx : Commutes f x)
    (hk : ∀ a, Commutes f (k a)) : Commutes f (x >>= k) := by
  intro s
  rw [bind_apply, bind_apply, hx s]
  cases x s with
  | ok a t => exact hk a t
  | error e t => rfl

/-- Reading the state, when the continuation does not use what `f` changes. -/
theorem Commutes.get_bind {k : σ → EStateM ε σ β} (hf : ∀ s, k (f s) = k s)
    (hk : ∀ s, Commutes f (k s)) : Commutes f (get >>= k) := by
  intro s
  rw [Stateful.get_bind, Stateful.get_bind, hf s]
  exact hk s s

theorem Commutes.ite {c : Prop} [Decidable c] {x y : EStateM ε σ α} (hx : Commutes f x)
    (hy : Commutes f y) : Commutes f (if c then x else y) := by
  split
  · exact hx
  · exact hy

theorem Commutes.forM {k : α → EStateM ε σ PUnit} (hk : ∀ a, Commutes f (k a)) (l : List α) :
    Commutes f (l.forM k) := by
  induction l with
  | nil => exact Commutes.pure _
  | cons a l ih => exact Commutes.bind (hk a) fun _ => ih

end Commutes

end Lib.Stateful
