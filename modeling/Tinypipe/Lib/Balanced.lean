import Tinypipe.Lib.Text

/-! Brackets. A text is balanced if every closing bracket in it has an opening one; a scan that counts
how deep it is finds the end of the longest balanced text. -/

namespace Lib

variable {o c : Char}

inductive Balanced (o c : Char) : Text → Prop
  | nil : Balanced o c []
  | plain {d : Char} {t : Text} : d ≠ o → d ≠ c → Balanced o c t → Balanced o c (d :: t)
  | nested {s t : Text} : Balanced o c s → Balanced o c t → Balanced o c (o :: (s ++ c :: t))

/-- What stands before the bracket that closes, and what behind it. -/
def closing (o c : Char) : Nat → Text → Option (Text × Text)
  | _, [] => none
  | depth, d :: t =>
    if d = o then (closing o c (depth + 1) t).map fun p => (d :: p.1, p.2)
    else if d = c then
      if depth = 1 then some ([], t) else (closing o c (depth - 1) t).map fun p => (d :: p.1, p.2)
    else (closing o c depth t).map fun p => (d :: p.1, p.2)

/-- Balanced texts, one more than there are closing brackets between them. -/
inductive Levels (o c : Char) : Nat → Text → Prop
  | last {s : Text} : Balanced o c s → Levels o c 0 s
  | more {d : Nat} {s t : Text} : Balanced o c s → Levels o c d t → Levels o c (d + 1) (s ++ c :: t)

theorem Levels.plain {d : Char} (ho : d ≠ o) (hc : d ≠ c) {n : Nat} {t : Text} (h : Levels o c n t) :
    Levels o c n (d :: t) := by
  cases h with
  | last hs => exact .last (.plain ho hc hs)
  | more hs ht => exact .more (.plain ho hc hs) ht

theorem Levels.nested {n : Nat} {s t : Text} (hs : Balanced o c s) (h : Levels o c n t) :
    Levels o c n (o :: (s ++ c :: t)) := by
  cases h with
  | last ht => exact .last (.nested hs ht)
  | more ht hu =>
    have hmore := Levels.more (.nested hs ht) hu
    rwa [List.cons_append, List.append_assoc] at hmore

theorem closing_eq {n : Nat} {t s r : Text} (h : closing o c (n + 1) t = some (s, r)) :
    t = s ++ c :: r ∧ Levels o c n s := by
  induction t generalizing n s with
  | nil => cases h
  | cons d t ih =>
    rw [closing] at h
    split at h
    case isTrue ho =>
      obtain ⟨⟨s', r'⟩, hclosing, heq⟩ := Option.map_eq_some_iff.1 h
      obtain ⟨rfl, rfl⟩ := Prod.mk.inj heq
      obtain ⟨rfl, hlevels⟩ := ih hclosing
      refine ⟨rfl, ?_⟩
      subst ho
      cases hlevels with
      | more hs ht => exact ht.nested hs
    case isFalse ho =>
      split at h
      case isTrue hc =>
        subst hc
        cases n with
        | zero =>
          cases h
          exact ⟨rfl, .last .nil⟩
        | succ n =>
          rw [if_neg (by omega)] at h
          obtain ⟨⟨s', r'⟩, hclosing, heq⟩ := Option.map_eq_some_iff.1 h
          obtain ⟨rfl, rfl⟩ := Prod.mk.inj heq
          obtain ⟨rfl, hlevels⟩ := ih hclosing
          exact ⟨rfl, .more .nil hlevels⟩
      case isFalse hc =>
        obtain ⟨⟨s', r'⟩, hclosing, heq⟩ := Option.map_eq_some_iff.1 h
        obtain ⟨rfl, rfl⟩ := Prod.mk.inj heq
        obtain ⟨rfl, hlevels⟩ := ih hclosing
        exact ⟨rfl, hlevels.plain ho hc⟩

/-- A balanced text is read over at any depth. -/
theorem Balanced.closing_append (hoc : o ≠ c) {s : Text} (h : Balanced o c s) {n : Nat} (hn : 0 < n) (t : Text) :
    closing o c n (s ++ t) = (closing o c n t).map fun p => (s ++ p.1, p.2) := by
  induction h generalizing n t with
  | nil =>
    rw [List.nil_append]
    cases closing o c n t <;> rfl
  | plain ho hc _ ih =>
    rw [List.cons_append, closing, if_neg ho, if_neg hc, ih hn, Option.map_map]
    rfl
  | nested _ _ ihs iht =>
    rw [List.cons_append, closing, if_pos rfl, List.append_assoc, ihs (Nat.succ_pos n), List.cons_append, closing,
      if_neg (Ne.symm hoc), if_pos rfl, if_neg (by omega), Nat.succ_sub_one, iht hn, Option.map_map, Option.map_map,
      Option.map_map]
    congr 1
    funext p
    simp

/-- The bracket that closes stands behind a balanced text. -/
theorem closing_eq_some_iff (hoc : o ≠ c) {t s r : Text} :
    closing o c 1 t = some (s, r) ↔ t = s ++ c :: r ∧ Balanced o c s := by
  constructor
  · intro h
    obtain ⟨heq, hlevels⟩ := closing_eq h
    cases hlevels with
    | last hs => exact ⟨heq, hs⟩
  · rintro ⟨rfl, hs⟩
    rw [hs.closing_append hoc Nat.one_pos, closing, if_neg (Ne.symm hoc), if_pos rfl, if_pos rfl, Option.map_some,
      List.append_nil]

end Lib
