import Tinypipe.Lib.Text

/-! Splitting a text at the first occurrence of a pattern, or after a number of bytes: what the parts are. -/

namespace Lib.Text

/-- Before the first occurrence the pattern does not end. -/
theorem splitOnce_eq_some_iff {pat t l r : Text} (hpat : pat ≠ []) :
    splitOnce pat t = some (l, r) ↔ t = l ++ (pat ++ r) ∧ ¬pat <:+: l ++ pat.dropLast := by
  obtain ⟨p, ps, rfl⟩ := List.exists_cons_of_ne_nil hpat
  have hlen : (p :: ps).dropLast.length + 1 = (p :: ps).length := by simp
  constructor
  · intro h
    refine ⟨by rw [splitOnce_eq h, List.append_assoc], ?_⟩
    induction t generalizing l with
    | nil => cases h
    | cons c cs ih =>
      rw [splitOnce] at h
      split at h
      case isTrue =>
        cases h
        intro hin
        have hle := hin.length_le
        rw [List.nil_append] at hle
        omega
      case isFalse hpre =>
        obtain ⟨⟨l', r'⟩, hcs, heq⟩ := Option.map_eq_some_iff.1 h
        obtain ⟨rfl, rfl⟩ := Prod.mk.inj heq
        rw [List.cons_append, List.infix_cons_iff, not_or]
        refine ⟨fun hin => hpre (List.isPrefixOf_iff_prefix.2 ?_), ih hcs⟩
        rw [splitOnce_eq hcs]
        refine hin.trans (List.cons_prefix_cons.2 ⟨rfl, ?_⟩)
        rw [List.append_assoc]
        exact List.prefix_append_right_inj _ |>.2 ((List.dropLast_prefix _).trans (List.prefix_append _ _))
  · rintro ⟨rfl, h⟩
    induction l with
    | nil =>
      rw [List.nil_append, List.cons_append, splitOnce, if_pos (List.isPrefixOf_iff_prefix.2 ?_)]
      · rw [← List.cons_append, List.drop_left]
      · rw [← List.cons_append]
        exact List.prefix_append _ _
    | cons c cs ih =>
      rw [List.cons_append, List.infix_cons_iff, not_or] at h
      rw [List.cons_append, splitOnce, ih h.2, if_neg]
      · rfl
      · intro hpre
        refine h.1 (List.prefix_of_prefix_length_le (List.isPrefixOf_iff_prefix.1 hpre) ?_ ?_)
        · rw [List.cons_prefix_cons]
          exact ⟨rfl, List.prefix_append_right_inj _ |>.2 ((List.dropLast_prefix _).trans (List.prefix_append _ _))⟩
        · have hlong : (c :: (cs ++ (p :: ps).dropLast)).length = cs.length + (p :: ps).dropLast.length + 1 := by
            rw [List.length_cons, List.length_append]
          omega

theorem splitOnce_eq_none_iff {pat t : Text} (hpat : pat ≠ []) : splitOnce pat t = none ↔ ¬pat <:+: t := by
  rw [← contains_iff_infix hpat, contains, Bool.not_eq_true, Option.isSome_eq_false_iff, Option.isNone_iff_eq_none]

/-- A pair whose second character does not stand in what follows. -/
theorem pair_infix_append {a b : Char} {s t : Text} (hb : b ∉ t) : [a, b] <:+: s ++ t ↔ [a, b] <:+: s := by
  refine ⟨fun h => ?_, fun h => h.trans (List.prefix_append s t).isInfix⟩
  obtain ⟨l, r, heq⟩ := h
  rcases List.append_eq_append_iff.1 heq with ⟨m, hs, -⟩ | ⟨m, hl, ht⟩
  · exact ⟨l, m, hs.symm⟩
  · cases m using List.reverseRecOn with
    | nil => exact ⟨l, [], by rw [hl, List.append_nil, List.append_nil]⟩
    | append_singleton m c =>
      have hlast : b = c := by
        have h := congrArg List.getLast? hl
        simpa using h
      exact absurd (by rw [ht, hlast]; simp) hb

/-! ### Around a character -/

theorem append_cut {c : Char} {s t l r : Text} (h : s ++ t = l ++ c :: r) :
    (∃ m, l = s ++ m ∧ t = m ++ c :: r) ∨ ∃ m, s = l ++ c :: m := by
  rcases List.append_eq_append_iff.1 h with ⟨m, hl, ht⟩ | ⟨m, hs, hr⟩
  · exact .inl ⟨m, hl, ht⟩
  · cases m with
    | nil =>
      rw [List.append_nil] at hs
      refine .inl ⟨[], ?_, ?_⟩
      · rw [hs, List.append_nil]
      · exact hr.symm
    | cons d ds =>
      obtain ⟨rfl, -⟩ := List.cons.inj hr
      exact .inr ⟨ds, hs⟩

theorem infix_append_cons {pat t u : Text} {c : Char} (hc : c ∉ pat) :
    pat <:+: t ++ c :: u ↔ pat <:+: t ∨ pat <:+: u := by
  constructor
  · intro h
    induction t with
    | nil =>
      rcases List.infix_cons_iff.1 h with hfront | hinfix
      · cases pat with
        | nil => exact .inr (List.nil_infix)
        | cons p ps => exact absurd ((List.cons_prefix_cons.1 hfront).1 ▸ List.mem_cons_self) hc
      · exact .inr hinfix
    | cons d ds ih =>
      rw [List.cons_append, List.infix_cons_iff] at h
      rcases h with ⟨r, hr⟩ | hinfix
      · rw [← List.cons_append] at hr
        rcases append_cut hr with ⟨m, hm, -⟩ | ⟨m, hm⟩
        · exact .inl ⟨[], m, hm.symm⟩
        · exact absurd (hm ▸ List.mem_append_right (d :: ds) List.mem_cons_self) hc
      · exact (ih hinfix).imp_left fun hin => hin.trans (List.suffix_cons d ds).isInfix
  · rintro (h | h)
    · exact List.infix_append_of_infix_left h
    · exact List.infix_append_of_infix_right (h.trans (List.suffix_cons c u).isInfix)

/-! ### Prefixes by bytes -/

/-- `&t[..n]`, unless that cuts inside a character or is out of range. -/
def slicePrefix : Nat → Text → Option Text
  | 0, _ => some []
  | _ + 1, [] => none
  | n + 1, c :: cs => if c.utf8Size ≤ n + 1 then (slicePrefix (n + 1 - c.utf8Size) cs).map (c :: ·) else none

theorem utf8Len_cons (c : Char) (t : Text) : utf8Len (c :: t) = c.utf8Size + utf8Len t := by
  simp [utf8Len]

theorem utf8Len_pos (c : Char) (t : Text) : 0 < utf8Len (c :: t) := by
  have := Char.utf8Size_pos c
  rw [utf8Len_cons]
  omega

/-- The slice is the prefix of that many bytes. -/
theorem slicePrefix_eq_some_iff {n : Nat} {t p : Text} : slicePrefix n t = some p ↔ p <+: t ∧ utf8Len p = n := by
  induction t generalizing n p with
  | nil =>
    cases n with
    | zero =>
      simp only [slicePrefix, Option.some.injEq, List.prefix_nil]
      constructor
      · rintro rfl
        exact ⟨rfl, rfl⟩
      · exact fun h => h.1.symm
    | succ n =>
      simp only [slicePrefix, reduceCtorEq, List.prefix_nil, false_iff, not_and]
      rintro rfl
      simp [utf8Len]
  | cons c cs ih =>
    have hsize := Char.utf8Size_pos c
    cases n with
    | zero =>
      cases p with
      | nil => simp [slicePrefix, utf8Len]
      | cons d ds =>
        have := utf8Len_pos d ds
        simp only [slicePrefix, Option.some.injEq, reduceCtorEq, false_iff, not_and]
        omega
    | succ n =>
      rw [slicePrefix]
      cases p with
      | nil =>
        split <;> simp [utf8Len]
      | cons d ds =>
        rw [List.cons_prefix_cons, utf8Len_cons]
        split
        case isTrue hle =>
          rw [Option.map_eq_some_iff]
          constructor
          · rintro ⟨q, hq, heq⟩
            obtain ⟨rfl, rfl⟩ := List.cons.inj heq
            obtain ⟨hpre, hlen⟩ := ih.1 hq
            exact ⟨⟨rfl, hpre⟩, by omega⟩
          · rintro ⟨⟨rfl, hpre⟩, hlen⟩
            exact ⟨ds, ih.2 ⟨hpre, by omega⟩, rfl⟩
        case isFalse hgt =>
          simp only [reduceCtorEq, false_iff, not_and]
          rintro ⟨rfl, -⟩
          omega

end Lib.Text
