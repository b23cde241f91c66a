import Tinypipe.Lib.Text

/-! The uppercase mapping of the standard library, and blanks around a text. The tables of Unicode
are not written out: a mapping is any that is the usual one on ASCII, leaves what it returns as it is
and makes no blank. -/

namespace Lib

structure Casing where
  upper : Char → Text
  ascii : ∀ c : Char, c.toNat < 128 → upper c = [c.toUpper]
  nonempty : ∀ c, upper c ≠ []
  idempotent : ∀ c, ∀ d ∈ upper c, upper d = [d]
  solid : ∀ c, Text.isBlank c = false → ∀ d ∈ upper c, Text.isBlank d = false

namespace Casing

/-- `str::to_uppercase` -/
def toUppercase (u : Casing) (t : Text) : Text := t.flatMap u.upper

theorem toUppercase_idem (u : Casing) (t : Text) : u.toUppercase (u.toUppercase t) = u.toUppercase t := by
  have hfix : ∀ s : Text, (∀ d ∈ s, u.upper d = [d]) → u.toUppercase s = s := by
    intro s
    induction s with
    | nil => exact fun _ => rfl
    | cons d ds ih =>
      intro h
      rw [toUppercase, List.flatMap_cons, h d List.mem_cons_self, List.singleton_append]
      exact congrArg _ (ih fun e he => h e (List.mem_cons_of_mem _ he))
  refine hfix _ fun d hd => ?_
  obtain ⟨c, -, hdc⟩ := List.mem_flatMap.1 hd
  exact u.idempotent c d hdc

/-- The mapping that knows the letters of ASCII only. -/
def asciiOnly : Casing where
  upper c := [c.toUpper]
  ascii _ _ := rfl
  nonempty _ := List.cons_ne_nil _ _
  idempotent c d hd := by
    rw [List.mem_singleton.1 hd, Char.toUpper_toUpper_eq_toUpper]
  solid c hc d hd := by
    rw [List.mem_singleton.1 hd]
    by_cases hlower : c.isLower = true
    · have hrange : 97 ≤ c.toNat ∧ c.toNat ≤ 122 := by
        simpa [Char.isLower, UInt32.le_iff_toNat_le] using hlower
      have hvalid : (c.toNat - 32).isValidChar := Or.inl (by omega)
      have hnat : c.toUpper.toNat = c.toNat - 32 := by
        rw [Char.toUpper_eq_of_isLower hlower, Char.toNat_ofNat, if_pos hvalid]
      simp only [Text.isBlank, hnat, Bool.or_eq_false_iff, Bool.and_eq_false_iff, decide_eq_false_iff_not,
        beq_eq_false_iff_ne]
      omega
    · rw [Char.toUpper_eq_of_not_isLower hlower]
      exact hc

end Casing

namespace Text

/-- By the characters of the text, not by those there are. -/
instance decidableAll (p : Char → Prop) [DecidablePred p] (t : Text) : Decidable (∀ c ∈ t, p c) :=
  List.decidableBAll p t

/-- Blanks of one line. -/
def Spaces (t : Text) : Prop := ∀ c ∈ t, isBlank c = true ∧ c ≠ '\n'

instance (t : Text) : Decidable (Spaces t) :=
  inferInstanceAs (Decidable (∀ c ∈ t, isBlank c = true ∧ c ≠ '\n'))

theorem trim_blanks_append {b : Text} (h : ∀ c ∈ b, isBlank c = true) (t : Text) : trim (b ++ t) = trim t := by
  induction b with
  | nil => rfl
  | cons c cs ih =>
    rw [List.cons_append, trim_cons_blank (h c List.mem_cons_self)]
    exact ih fun d hd => h d (List.mem_cons_of_mem _ hd)

theorem trim_append_blanks {b : Text} (h : ∀ c ∈ b, isBlank c = true) (t : Text) : trim (t ++ b) = trim t := by
  induction b using List.reverseRecOn with
  | nil => rw [List.append_nil]
  | append_singleton cs c ih =>
    rw [← List.append_assoc, trim_append_blank (h c (by simp))]
    exact ih fun d hd => h d (List.mem_append_left _ hd)

theorem trim_trimEnd (t : Text) : trim (trimEnd t) = trim t := by
  have hsplit : trimEnd t ++ (t.reverse.takeWhile isBlank).reverse = t := by
    rw [trimEnd, ← List.reverse_append, List.takeWhile_append_dropWhile, List.reverse_reverse]
  have hblank : ∀ c ∈ (t.reverse.takeWhile isBlank).reverse, isBlank c = true :=
    fun c hc => List.mem_takeWhile_imp (List.mem_reverse.1 hc)
  rw [← trim_append_blanks hblank (trimEnd t), hsplit]

/-- Between two characters that are no blanks nothing is trimmed. -/
theorem trim_solid {d c : Char} (hd : isBlank d = false) (hc : isBlank c = false) (l t : Text) :
    trim (d :: (l ++ c :: t)) = d :: (l ++ c :: trimEnd t) := by
  have hstart : trimStart (d :: (l ++ c :: t)) = (d :: l) ++ c :: t :=
    List.dropWhile_cons_of_neg (by rw [hd]; exact Bool.false_ne_true)
  rw [trim, hstart, trimEnd_append hc]
  rfl

theorem trim_eq_self_of_solid {t : Text} (h : ∀ c ∈ t, isBlank c = false) : trim t = t :=
  trim_eq_self (fun c hc => h c (List.mem_of_head? hc)) fun c hc => h c (List.mem_of_getLast? hc)

theorem trim_eq_self_iff {t : Text} : trim t = t ↔ (∀ c, t.head? = some c → isBlank c = false) ∧
    ∀ c, t.getLast? = some c → isBlank c = false :=
  trimMatches_eq_self

theorem Spaces.blank {t : Text} (h : Spaces t) : ∀ c ∈ t, isBlank c = true := fun c hc => (h c hc).1

theorem Spaces.not_mem {t : Text} (h : Spaces t) {c : Char} (hc : isBlank c = false) : c ∉ t := by
  intro hmem
  rw [(h c hmem).1] at hc
  cases hc

end Text

end Lib
