import Mathlib

/-! A list is cut at a separator, but only where a state that is carried along the list allows it. What the
pieces are, and which lists of pieces come back once they are joined. -/

namespace Lib

structure Cutter (α σ : Type) where
  next : σ → α → σ
  sep : α
  /-- In these states the separator cuts. -/
  free : σ → Bool

namespace Cutter

variable {α σ : Type} (C : Cutter α σ)

def run (s : σ) (l : List α) : σ := l.foldl C.next s

@[simp] theorem run_nil (s : σ) : C.run s [] = s := rfl

@[simp] theorem run_cons (s : σ) (a : α) (l : List α) : C.run s (a :: l) = C.run (C.next s a) l := rfl

@[simp] theorem run_append (s : σ) (l l' : List α) : C.run s (l ++ l') = C.run (C.run s l) l' := List.foldl_append

def join (ps : List (List α)) : List α := [C.sep].intercalate ps

@[simp] theorem join_singleton (p : List α) : C.join [p] = p := by simp [join, List.intercalate]

theorem join_cons (p : List α) {ps : List (List α)} (h : ps ≠ []) : C.join (p :: ps) = p ++ C.sep :: C.join ps := by
  obtain ⟨q, qs, rfl⟩ := List.exists_cons_of_ne_nil h
  simp [join, List.intercalate]

@[simp] theorem join_cons_cons (p q : List α) (ps : List (List α)) :
    C.join (p :: q :: ps) = p ++ C.sep :: C.join (q :: ps) := C.join_cons p (List.cons_ne_nil q ps)

theorem prefix_join (p : List α) (ps : List (List α)) : p <+: C.join (p :: ps) := by
  cases ps with
  | nil => rw [join_singleton]
  | cons q qs =>
    rw [join_cons_cons]
    exact List.prefix_append p _

theorem join_append {ps qs : List (List α)} (hps : ps ≠ []) (hqs : qs ≠ []) :
    C.join (ps ++ qs) = C.join ps ++ C.sep :: C.join qs := by
  induction ps with
  | nil => exact absurd rfl hps
  | cons p ps ih =>
    cases ps with
    | nil => rw [List.singleton_append, C.join_cons p hqs, join_singleton]
    | cons q ps =>
      rw [List.cons_append, C.join_cons p (by simp), ih (by simp), join_cons_cons, List.append_assoc,
        List.cons_append]

variable [DecidableEq α]

def pieces : σ → List α → List (List α)
  | _, [] => [[]]
  | s, a :: l =>
    if a = C.sep ∧ C.free s then [] :: pieces (C.next s a) l else (pieces (C.next s a) l).modifyHead (a :: ·)

theorem pieces_ne_nil (s : σ) (l : List α) : C.pieces s l ≠ [] := by
  induction l generalizing s with
  | nil => exact List.cons_ne_nil _ _
  | cons a l ih =>
    rw [pieces]
    split
    · exact List.cons_ne_nil _ _
    · rw [Ne, List.modifyHead_eq_nil_iff]
      exact ih _

theorem pieces_cons_free {s : σ} (h : C.free s = true) (l : List α) :
    C.pieces s (C.sep :: l) = [] :: C.pieces (C.next s C.sep) l := by
  rw [pieces, if_pos ⟨rfl, h⟩]

/-- A character that does not cut goes to the piece that follows. -/
theorem pieces_cons {s : σ} {a : α} (h : ¬(a = C.sep ∧ C.free s)) (l : List α) :
    ∃ p ps, C.pieces (C.next s a) l = p :: ps ∧ C.pieces s (a :: l) = (a :: p) :: ps := by
  obtain ⟨p, ps, hps⟩ := List.exists_cons_of_ne_nil (C.pieces_ne_nil (C.next s a) l)
  refine ⟨p, ps, hps, ?_⟩
  rw [pieces, if_neg h, hps, List.modifyHead_cons]

theorem join_pieces (s : σ) (l : List α) : C.join (C.pieces s l) = l := by
  induction l generalizing s with
  | nil => exact C.join_singleton []
  | cons a l ih =>
    by_cases hcut : a = C.sep ∧ C.free s
    · obtain ⟨rfl, hfree⟩ := hcut
      rw [C.pieces_cons_free hfree, C.join_cons _ (C.pieces_ne_nil _ l), ih, List.nil_append]
    · obtain ⟨p, ps, hps, heq⟩ := C.pieces_cons hcut l
      have hrest := ih (C.next s a)
      rw [hps] at hrest
      rw [heq]
      cases ps with
      | nil =>
        rw [join_singleton] at hrest ⊢
        rw [hrest]
      | cons q ps =>
        rw [join_cons_cons] at hrest ⊢
        rw [List.cons_append, hrest]

theorem pieces_append {s : σ} {u : List α} (h : C.free (C.run s u) = true) (v : List α) :
    C.pieces s (u ++ C.sep :: v) = C.pieces s u ++ C.pieces (C.next (C.run s u) C.sep) v := by
  induction u generalizing s with
  | nil => exact C.pieces_cons_free h v
  | cons a u ih =>
    rw [List.cons_append, pieces, pieces, ih h]
    split
    · rfl
    · obtain ⟨p, ps, hps⟩ := List.exists_cons_of_ne_nil (C.pieces_ne_nil (C.next s a) u)
      rw [hps]
      rfl

/-- Between two pieces stands a separator that the state lets cut. -/
theorem free_of_pieces {s : σ} {l : List α} {ps qs : List (List α)} (h : C.pieces s l = ps ++ qs) (hps : ps ≠ [])
    (hqs : qs ≠ []) : C.free (C.run s (C.join ps)) = true := by
  induction l generalizing s ps with
  | nil =>
    have hlen := congrArg List.length h
    have hp := List.length_pos_iff.2 hps
    have hq := List.length_pos_iff.2 hqs
    rw [pieces, List.length_append, List.length_singleton] at hlen
    omega
  | cons a l ih =>
    obtain ⟨p, ps, rfl⟩ := List.exists_cons_of_ne_nil hps
    by_cases hcut : a = C.sep ∧ C.free s
    · obtain ⟨rfl, hfree⟩ := hcut
      rw [C.pieces_cons_free hfree, List.cons_append] at h
      obtain ⟨rfl, hrest⟩ := List.cons.inj h
      cases ps with
      | nil => exact hfree
      | cons q ps =>
        rw [join_cons_cons, List.nil_append, run_cons]
        exact ih hrest (List.cons_ne_nil q ps)
    · obtain ⟨p', ps', hps', heq⟩ := C.pieces_cons hcut l
      rw [heq, List.cons_append] at h
      obtain ⟨rfl, rfl⟩ := List.cons.inj h
      have hjoin : C.join ((a :: p') :: ps) = a :: C.join (p' :: ps) := by
        cases ps with
        | nil => simp
        | cons q ps => simp
      rw [hjoin, run_cons]
      have hsplit : C.pieces (C.next s a) l = (p' :: ps) ++ qs := hps'
      exact ih hsplit (List.cons_ne_nil p' ps)

/-- The separators that cut are those between two pieces. -/
theorem free_iff_between (s : σ) (u v : List α) : C.free (C.run s u) = true ↔
    ∃ ps qs, ps ≠ [] ∧ qs ≠ [] ∧ C.pieces s (u ++ C.sep :: v) = ps ++ qs ∧ C.join ps = u ∧ C.join qs = v := by
  constructor
  · intro h
    exact ⟨_, _, C.pieces_ne_nil s u, C.pieces_ne_nil _ v, C.pieces_append h v, C.join_pieces s u,
      C.join_pieces _ v⟩
  · rintro ⟨ps, qs, hps, hqs, h, rfl, -⟩
    exact C.free_of_pieces h hps hqs

/-! ### Pieces that come back -/

/-- No separator in it cuts. -/
def Whole (s : σ) (p : List α) : Prop := C.pieces s p = [p]

instance (s : σ) (p : List α) : Decidable (C.Whole s p) := inferInstanceAs (Decidable (C.pieces s p = [p]))

theorem whole_iff {s : σ} {p : List α} :
    C.Whole s p ↔ ∀ u v, p = u ++ C.sep :: v → C.free (C.run s u) = false := by
  constructor
  · rintro h u v rfl
    rw [← Bool.not_eq_true]
    intro hfree
    obtain ⟨ps, qs, hps, hqs, heq, -, -⟩ := (C.free_iff_between s u v).1 hfree
    have hlen := congrArg List.length (h.symm.trans heq)
    have hp := List.length_pos_iff.2 hps
    have hq := List.length_pos_iff.2 hqs
    rw [List.length_append, List.length_singleton] at hlen
    omega
  · intro h
    obtain ⟨q, qs, hqs⟩ := List.exists_cons_of_ne_nil (C.pieces_ne_nil s p)
    have hjoin := C.join_pieces s p
    rw [Whole]
    cases qs with
    | nil => rwa [hqs, join_singleton, ← List.singleton_inj, ← hqs] at hjoin
    | cons r qs =>
      rw [hqs, join_cons_cons] at hjoin
      have hsplit : C.pieces s p = [q] ++ r :: qs := hqs
      have hfree := C.free_of_pieces hsplit (List.cons_ne_nil _ _) (List.cons_ne_nil _ _)
      rw [join_singleton, h q _ hjoin.symm] at hfree
      cases hfree

/-- Every piece is whole, and after each but the last the separator cuts. -/
def Apart : σ → List (List α) → Prop
  | _, [] => True
  | s, [p] => C.Whole s p
  | s, p :: ps => C.Whole s p ∧ C.free (C.run s p) = true ∧ Apart (C.next (C.run s p) C.sep) ps

theorem apart_cons {s : σ} {p : List α} {ps : List (List α)} (h : ps ≠ []) : C.Apart s (p :: ps) ↔
    C.Whole s p ∧ C.free (C.run s p) = true ∧ C.Apart (C.next (C.run s p) C.sep) ps := by
  obtain ⟨q, qs, rfl⟩ := List.exists_cons_of_ne_nil h
  rfl

theorem pieces_join_iff {s : σ} {ps : List (List α)} (h : ps ≠ []) : C.pieces s (C.join ps) = ps ↔ C.Apart s ps := by
  induction ps generalizing s with
  | nil => exact absurd rfl h
  | cons p ps ih =>
    cases ps with
    | nil =>
      rw [join_singleton]
      exact Iff.rfl
    | cons q qs =>
      rw [C.apart_cons (List.cons_ne_nil q qs), ← ih (List.cons_ne_nil q qs)]
      constructor
      · intro heq
        have hsplit : C.pieces s (C.join (p :: q :: qs)) = [p] ++ q :: qs := heq
        have hfree := C.free_of_pieces hsplit (List.cons_ne_nil _ _) (List.cons_ne_nil _ _)
        rw [join_singleton] at hfree
        rw [join_cons_cons, C.pieces_append hfree] at heq
        obtain ⟨r, rs, hrs⟩ := List.exists_cons_of_ne_nil (C.pieces_ne_nil s p)
        have hjoin := C.join_pieces s p
        rw [hrs] at heq hjoin
        obtain ⟨rfl, hrest⟩ := List.cons.inj heq
        -- the first piece is already all of `r`
        have hnil : rs = [] := by
          by_contra hne
          have hlen := congrArg List.length ((C.join_cons r hne).symm.trans hjoin)
          rw [List.length_append, List.length_cons] at hlen
          omega
        subst hnil
        exact ⟨hrs, hfree, hrest⟩
      · rintro ⟨hwhole, hfree, hrest⟩
        rw [join_cons_cons, C.pieces_append hfree, hwhole, hrest, List.singleton_append]

end Cutter

end Lib
