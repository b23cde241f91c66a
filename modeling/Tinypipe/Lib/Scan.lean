import Tinypipe.Lib.Text

/-! A scanner reads a text piece by piece, each from the place where the one before it ended. A place
is told by the number of characters from it to the end. -/

namespace Lib.Scan

variable {α : Type} {next : Text → Option (α × Text)}

/-- The pieces with their places. The first argument bounds the recursion by the length of the text. -/
def scan (next : Text → Option (α × Text)) : Nat → Text → List (Nat × α)
  | 0, _ => []
  | n + 1, s =>
    match next s with
    | none => []
    | some (x, rest) => (s.length, x) :: scan next n rest

def scanAll (next : Text → Option (α × Text)) (s : Text) : List (Nat × α) := scan next s.length s

/-- Every piece has a character. -/
def Shrinks (next : Text → Option (α × Text)) : Prop := ∀ s x rest, next s = some (x, rest) → rest.length < s.length

theorem Shrinks.nil (h : Shrinks next) : next [] = none := by
  cases hn : next [] with
  | none => rfl
  | some p => exact absurd (h [] p.1 p.2 hn) (Nat.not_lt_zero _)

theorem scan_eq (h : Shrinks next) {n m : Nat} {s : Text} (hn : s.length ≤ n) (hm : s.length ≤ m) :
    scan next n s = scan next m s := by
  induction n generalizing m s with
  | zero =>
    obtain rfl : s = [] := List.eq_nil_of_length_eq_zero (Nat.le_zero.1 hn)
    cases m with
    | zero => rfl
    | succ m => rw [scan, scan, h.nil]
  | succ n ih =>
    cases m with
    | zero =>
      obtain rfl : s = [] := List.eq_nil_of_length_eq_zero (Nat.le_zero.1 hm)
      rw [scan, scan, h.nil]
    | succ m =>
      rw [scan, scan]
      cases hs : next s with
      | none => rfl
      | some p =>
        have hlt := h s p.1 p.2 hs
        exact congrArg _ (ih (by omega) (by omega))

theorem scanAll_none {s : Text} (hs : next s = none) : scanAll next s = [] := by
  rw [scanAll]
  cases s with
  | nil => rfl
  | cons c cs => rw [List.length_cons, scan, hs]

theorem scanAll_some (h : Shrinks next) {s rest : Text} {x : α} (hs : next s = some (x, rest)) :
    scanAll next s = (s.length, x) :: scanAll next rest := by
  have hlt := h s x rest hs
  obtain ⟨n, hn⟩ : ∃ n, s.length = n + 1 := ⟨s.length - 1, by omega⟩
  rw [scanAll, hn, scan, hs, hn]
  exact congrArg _ (scan_eq h (by omega) le_rfl)

theorem place_le (h : Shrinks next) {n : Nat} {x : α} : ∀ {s : Text}, (n, x) ∈ scanAll next s → n ≤ s.length := by
  intro s
  induction hlen : s.length using Nat.strong_induction_on generalizing s with
  | _ k ih =>
    intro hmem
    cases hs : next s with
    | none =>
      rw [scanAll_none hs] at hmem
      cases hmem
    | some p =>
      have hlt := h s p.1 p.2 hs
      rw [scanAll_some h hs, List.mem_cons, Prod.mk.injEq] at hmem
      rcases hmem with ⟨rfl, -⟩ | hmem
      · exact hlen.le
      · have hle := ih p.2.length (by omega) rfl hmem
        omega

end Lib.Scan
