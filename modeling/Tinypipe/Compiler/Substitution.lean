import Tinypipe.Compiler.Optimize
import Tinypipe.Lib.Marks

/-! Which occurrences of a variable the optimizer replaces (`replace_var_in_expr`,
`tinypipe-compiler/src/backend/optimize.rs`). The loop keeps only the text behind the last cut, so
that it tells a word by less than what stands around it, and it does not know of string literals. -/

namespace Tinypipe

open Lib Lib.Marks

namespace Optimize

/-! ### The loop -/

/-- `rest[..=pos]` and `rest[pos + 1..]`, where `before` ends and `var` starts at `pos`; a cut inside a
character panics. -/
def cutBehind (before var after : Text) : Option (Text × Text) :=
  match var with
  | c :: cs => if c.utf8Size = 1 then some (before ++ [c], cs ++ after) else none
  | [] => none

/-- `none` stands for a panic, and for a loop that has not ended. -/
def replaceLoop (var replacement : Text) : Nat → (rest result : Text) → Option Text
  | 0, _, _ => none
  | fuel + 1, rest, result =>
    match Text.splitOnce var rest with
    | none => some (result ++ rest)
    | some (before, after) =>
      if before.getLast?.any isWordChar || after.head?.any isWordChar then
        (cutBehind before var after).bind fun cut => replaceLoop var replacement fuel cut.2 (result ++ cut.1)
      else replaceLoop var replacement fuel after (result ++ before ++ '(' :: replacement ++ [')'])

def replaceVarLoop (fuel : Nat) (expr var replacement : Text) : Option Text :=
  if Text.trim expr = var then some ('(' :: replacement ++ [')'])
  else replaceLoop var replacement fuel expr []

/-- What `extract_variables` finds. -/
def IsName (var : Text) : Prop := var ≠ [] ∧ ∀ c ∈ var, isWordChar c

instance (var : Text) : Decidable (IsName var) :=
  decidable_of_iff (var ≠ [] ∧ var.all isWordChar = true) (and_congr_right fun _ => List.all_eq_true)

theorem isName_extractVariables {expr var : Text} (h : var ∈ extractVariables expr) : IsName var := by
  have hword : ∀ {current : Text}, (∀ c ∈ current, isWordChar c) → var ∈ extractVariables.word current →
      IsName var := by
    intro current hcurrent hmem
    rw [extractVariables.word] at hmem
    split at hmem
    case isTrue hne =>
      rw [List.mem_singleton.1 hmem]
      exact ⟨hne.1, hcurrent⟩
    case isFalse => cases hmem
  have hgo : ∀ (expr current : Text), (∀ c ∈ current, isWordChar c) → var ∈ extractVariables.go current expr →
      IsName var := by
    intro expr
    induction expr with
    | nil => exact fun current hcurrent hmem => hword hcurrent hmem
    | cons c cs ih =>
      intro current hcurrent hmem
      rw [extractVariables.go] at hmem
      split at hmem
      case isTrue hc =>
        refine ih _ (fun d hd => ?_) hmem
        rcases List.mem_append.1 hd with hd | hd
        · exact hcurrent d hd
        · rw [List.mem_singleton.1 hd]
          exact hc
      case isFalse =>
        rcases List.mem_append.1 hmem with hmem | hmem
        · exact hword hcurrent hmem
        · exact ih [] (by simp) hmem
  exact hgo expr [] (by simp) h

section Loop

variable {var replacement : Text}

theorem utf8Size_of_word {c : Char} (h : isWordChar c) : c.utf8Size = 1 := by
  rw [Char.utf8Size_eq_one_iff, UInt32.le_iff_toNat_le]
  rw [isWordChar, isAsciiAlpha, Text.isDigit] at h
  simp only [Bool.or_eq_true, Bool.and_eq_true, decide_eq_true_eq, beq_iff_eq, Char.le_def,
    UInt32.le_iff_toNat_le] at h
  rcases h with ((⟨-, h⟩ | ⟨-, h⟩) | ⟨-, h⟩) | rfl
  · exact Nat.le_trans h (by decide)
  · exact Nat.le_trans h (by decide)
  · exact Nat.le_trans h (by decide)
  · decide

theorem replaceWords_none {rest : Text} (h : Text.splitOnce var rest = none) (prev : Option Char) :
    replaceWords var replacement 0 prev rest = rest := by
  induction rest generalizing prev with
  | nil => rw [replaceWords]
  | cons c cs ih =>
    rw [Text.splitOnce] at h
    split at h
    case isTrue => cases h
    case isFalse hpre =>
      rw [replaceWords, if_neg hpre, ih (Option.map_eq_none_iff.1 h)]

/-- The rest of an occurrence is passed over. -/
theorem replaceWords_skip (pre rest : Text) :
    replaceWords var replacement pre.length none (pre ++ rest) = replaceWords var replacement 0 none rest := by
  induction pre with
  | nil => rfl
  | cons c cs ih => rw [List.length_cons, List.cons_append, replaceWords, ih]

/-- Up to the first occurrence the text stays. -/
theorem replaceWords_some {v : Char} {vs rest before after : Text} (hvar : var = v :: vs)
    (h : Text.splitOnce var rest = some (before, after)) (prev : Option Char) :
    replaceWords var replacement 0 prev rest =
      if (before.getLast?.or prev).any isWordChar || after.head?.any isWordChar then
        before ++ v :: replaceWords var replacement 0 none (vs ++ after)
      else before ++ '(' :: replacement ++ ')' :: replaceWords var replacement 0 none after := by
  induction rest generalizing before prev with
  | nil =>
    rw [hvar] at h
    cases h
  | cons c cs ih =>
    rw [Text.splitOnce] at h
    split at h
    case isTrue hpre =>
      cases h
      have hsplit := append_drop_of_isPrefixOf hpre
      generalize hafter : (c :: cs).drop var.length = after at hsplit
      rw [hvar, List.cons_append] at hsplit
      obtain ⟨rfl, rfl⟩ := List.cons.inj hsplit
      rw [replaceWords, if_pos hpre, hafter, List.getLast?_nil, Option.none_or]
      have hskip : replaceWords var replacement (var.length - 1) none (vs ++ after) =
          replaceWords var replacement 0 none after := by
        rw [hvar, List.length_cons, Nat.add_sub_cancel, ← hvar]
        exact replaceWords_skip vs after
      by_cases hprev : prev.any isWordChar = true
      · rw [if_pos hprev, hprev, Bool.true_or, if_pos rfl]
        rfl
      · rw [if_neg hprev]
        rw [Bool.not_eq_true] at hprev
        rw [hprev, Bool.false_or]
        split
        · rfl
        · rw [hskip]
          rfl
    case isFalse hpre =>
      obtain ⟨p, hp, heq⟩ := Option.map_eq_some_iff.1 h
      obtain ⟨rfl, rfl⟩ := Prod.mk.inj heq
      have hprev : ((c :: p.1).getLast?.or prev) = p.1.getLast?.or (some c) := by
        rw [List.getLast?_cons, Option.some_or]
        cases p.1.getLast? <;> rfl
      rw [replaceWords, if_neg hpre, ih hp (some c), hprev]
      split <;> rfl

/-- The loop ends, whatever the replacement: each round leaves less of the text. -/
theorem replaceLoop_eq (hname : IsName var) (fuel : Nat) : ∀ (rest result : Text), rest.length < fuel →
    replaceLoop var replacement fuel rest result = some (result ++ replaceWords var replacement 0 none rest) := by
  obtain ⟨v, vs, hvar⟩ := List.exists_cons_of_ne_nil hname.1
  have hsize : v.utf8Size = 1 := utf8Size_of_word (hname.2 v (hvar ▸ List.mem_cons_self))
  induction fuel with
  | zero => exact fun _ _ h => absurd h (Nat.not_lt_zero _)
  | succ fuel ih =>
    intro rest result hlt
    rw [replaceLoop]
    cases hsplit : Text.splitOnce var rest with
    | none =>
      dsimp only
      rw [replaceWords_none hsplit]
    | some p =>
      obtain ⟨before, after⟩ := p
      have hlength := congrArg List.length (Text.splitOnce_eq hsplit)
      rw [List.length_append, List.length_append, hvar, List.length_cons] at hlength
      dsimp only
      rw [replaceWords_some hvar hsplit, Option.or_none]
      split
      case isTrue =>
        have hcut : cutBehind before var after = some (before ++ [v], vs ++ after) := by
          rw [hvar]
          exact if_pos hsize
        rw [hcut, Option.bind_some, ih _ _ (by rw [List.length_append]; omega)]
        simp
      case isFalse =>
        rw [ih _ _ (by omega)]
        simp

theorem replaceVarLoop_eq (hname : IsName var) {fuel : Nat} {expr : Text} (h : expr.length < fuel) :
    replaceVarLoop fuel expr var replacement = some (replaceVarInExpr expr var replacement) := by
  rw [replaceVarLoop, replaceVarInExpr, replaceLoop_eq hname fuel expr [] h]
  split <;> rfl

end Loop

/-! ### The occurrences it replaces -/

/-- No word goes on behind the occurrence, and none in front of it unless `var` repeats one character
and the word goes on with it. -/
def wordHere (var before after : Text) : Bool :=
  (!after.head?.any isWordChar) && before.getLast?.all fun c => !isWordChar c || var.all (· == c)

section Occurrences

variable {var replacement : Text}

/-- An occurrence one place further on is one here if `var` repeats the character in between. -/
theorem isPrefixOf_cons_iff {c : Char} {cs : Text} (h : var <+: cs) : var <+: c :: cs ↔ var.all (· == c) = true := by
  have hall : var.all (· == c) = true ↔ var = List.replicate var.length c := by
    rw [List.all_eq_true, List.eq_replicate_iff]
    simp
  rw [hall]
  constructor
  · intro hcons
    -- `var` is a prefix of itself moved on by `c`.
    have hshift : var <+: c :: var := by
      refine List.prefix_of_prefix_length_le hcons ?_ (by simp)
      exact (List.cons_prefix_cons).2 ⟨rfl, h⟩
    clear h hcons hall
    induction var with
    | nil => rfl
    | cons d ds ih =>
      obtain ⟨rfl, hds⟩ := List.cons_prefix_cons.1 hshift
      rw [List.length_cons, List.replicate_succ, ← ih hds]
  · intro hrep
    have hone : var <+: c :: var := by
      rw [hrep, ← List.replicate_succ]
      exact ⟨[c], (List.replicate_succ').symm⟩
    exact hone.trans (List.cons_prefix_cons.2 ⟨rfl, h⟩)

theorem not_prefix_of_head {rest : Text} (hname : IsName var) (h : rest.head?.any isWordChar = false) :
    ¬var <+: rest := by
  obtain ⟨v, vs, rfl⟩ := List.exists_cons_of_ne_nil hname.1
  rintro ⟨tail, rfl⟩
  have hv := hname.2 v List.mem_cons_self
  rw [List.cons_append, List.head?_cons, Option.any_some, hv] at h
  cases h

/-- What the loop remembers of the text in front tells as much as that text. -/
def Aligned (var : Text) (skip : Nat) (prev : Option Char) (before rest : Text) : Prop :=
  match skip with
  | 0 => var <+: rest →
    prev.any isWordChar = !before.getLast?.all fun c => !isWordChar c || var.all (· == c)
  | skip + 1 => (rest.drop (skip + 1)).head?.any isWordChar = false

theorem replaceWords_eq (hname : IsName var) (rest : Text) : ∀ (skip : Nat) (prev : Option Char) (before : Text),
    Aligned var skip prev before rest → replaceWords var replacement skip prev rest =
      replaceAt (wordHere var) var ('(' :: replacement ++ [')']) skip before rest := by
  have hblind : ∀ {skip : Nat} {before rest : Text}, (rest.drop skip).head?.any isWordChar = false →
      Aligned var skip none before rest := by
    intro skip before rest h
    cases skip with
    | zero => exact fun hpre => absurd hpre (not_prefix_of_head hname h)
    | succ skip => exact h
  induction rest with
  | nil =>
    intro skip prev before _
    cases skip <;> rfl
  | cons c cs ih =>
    intro skip prev before hal
    cases skip with
    | succ skip => exact ih skip none (before ++ [c]) (hblind hal)
    | zero =>
      by_cases hpre : var.isPrefixOf (c :: cs)
      · have hpre' : var <+: c :: cs := List.isPrefixOf_iff_prefix.1 hpre
        have hnext : Aligned var 0 none (before ++ [c]) cs := by
          intro hcs
          have hsame := (isPrefixOf_cons_iff hcs).1 hpre'
          rw [List.getLast?_concat, Option.all_some, hsame, Bool.or_true]
          rfl
        have hleft := hal hpre'
        rw [replaceWords, if_pos hpre, replaceAt, hpre, Bool.true_and, wordHere, hleft]
        cases hword : before.getLast?.all fun c => !isWordChar c || var.all (· == c)
        · rw [Bool.and_false, if_pos (by rfl), if_neg Bool.false_ne_true, ih 0 none _ hnext]
        · rw [if_neg (by exact Bool.false_ne_true), Bool.and_true]
          cases hright : ((c :: cs).drop var.length).head?.any isWordChar
          · have hrest : (cs.drop (var.length - 1)).head?.any isWordChar = false := by
              obtain ⟨n, hn⟩ := Nat.exists_eq_succ_of_ne_zero (mt List.length_eq_zero_iff.1 hname.1)
              rw [hn] at hright ⊢
              exact hright
            rw [if_neg Bool.false_ne_true, if_pos (by rfl), ih _ none (before ++ [c]) (hblind hrest)]
            simp
          · rw [if_pos rfl, if_neg (by exact Bool.false_ne_true), ih 0 none _ hnext]
      · have hnext : Aligned var 0 (some c) (before ++ [c]) cs := by
          intro hcs
          have hdiff : var.all (· == c) = false := by
            rw [← Bool.not_eq_true, ← isPrefixOf_cons_iff hcs, ← List.isPrefixOf_iff_prefix]
            exact hpre
          rw [List.getLast?_concat, Option.all_some, hdiff, Bool.or_false, Bool.not_not, Option.any_some]
        rw [Bool.not_eq_true] at hpre
        rw [replaceWords, hpre, if_neg Bool.false_ne_true, replaceAt, hpre, Bool.false_and,
          if_neg Bool.false_ne_true, ih 0 (some c) _ hnext]

theorem replaceWords_eq_replaceAt (hname : IsName var) (expr : Text) : replaceWords var replacement 0 none expr =
    replaceAt (wordHere var) var ('(' :: replacement ++ [')']) 0 [] expr :=
  replaceWords_eq hname expr 0 none [] fun _ => rfl

theorem apart_wordHere (hname : IsName var) : Apart (wordHere var) var := by
  intro before after hword x y hsplit
  by_contra hinside
  rw [not_or, Nat.not_le] at hinside
  -- The character behind the first place would stand in the second one, and be a word character.
  have hlen : 0 < x.length := List.length_pos_iff.2 hinside.1
  have hlength := congrArg List.length hsplit
  simp only [List.length_append] at hlength
  have hat : (var ++ after)[var.length]? = (x ++ var ++ y)[var.length]? := by rw [hsplit]
  rw [List.getElem?_append_right (Nat.le_refl _), Nat.sub_self, List.append_assoc,
    List.getElem?_append_right hinside.2.le, List.getElem?_append_left (by omega)] at hat
  have hlt : var.length - x.length < var.length := by omega
  rw [List.getElem?_eq_getElem hlt, ← List.head?_eq_getElem?] at hat
  have hc := hname.2 _ (List.getElem_mem hlt)
  rw [wordHere, hat, Option.any_some, hc] at hword
  cases hword

end Occurrences

/-! ### The references -/

def quoteStep (quote : Option Char) (c : Char) : Option Char :=
  match quote with
  | none => if c = '"' ∨ c = '\'' then some c else none
  | some q => if c = q then none else some q

/-- The quote of the string literal that is open behind a text. -/
def openQuote (before : Text) : Option Char := before.foldl quoteStep none

/-- A whole identifier, outside string literals and not behind a dot. `letter` are the characters of
identifiers. -/
def isReference (letter : Char → Bool) (before after : Text) : Bool :=
  (openQuote before).isNone && (!before.getLast?.any letter) && (!after.head?.any letter) &&
    (Text.trimEnd before).getLast? != some '.'

/-- The expression with every reference replaced. -/
def substituted (letter : Char → Bool) (expr var replacement : Text) : Text :=
  replaceAt (isReference letter) var ('(' :: replacement ++ [')']) 0 [] expr

section References

variable {letter : Char → Bool} {var replacement : Text}

theorem any_isWordChar_of_letter (hword : ∀ c, isWordChar c → letter c) {o : Option Char}
    (h : o.any letter = false) : o.any isWordChar = false := by
  cases o with
  | none => rfl
  | some c =>
    rw [Option.any_some] at h ⊢
    rw [← Bool.not_eq_true] at h ⊢
    exact mt (hword c) h

theorem wordHere_of_isReference (hword : ∀ c, isWordChar c → letter c) {before after : Text}
    (h : isReference letter before after = true) : wordHere var before after = true := by
  simp only [isReference, Bool.and_eq_true, Bool.not_eq_true'] at h
  obtain ⟨⟨⟨-, hleft⟩, hright⟩, -⟩ := h
  rw [wordHere, any_isWordChar_of_letter hword hright]
  have hlast := any_isWordChar_of_letter hword hleft
  cases hb : before.getLast? with
  | none => rfl
  | some c =>
    rw [hb, Option.any_some] at hlast
    rw [Option.all_some, hlast]
    rfl

theorem trimStart_append {c : Char} (hc : Text.isBlank c = false) (u s : Text) :
    Text.trimStart (u ++ c :: s) = Text.trimStart u ++ c :: s := by
  rw [Text.trimStart, Text.trimStart, List.dropWhile_append, List.dropWhile_cons_of_neg (by simp [hc])]
  split
  case isTrue hnil => rw [List.isEmpty_iff.1 hnil, List.nil_append]
  case isFalse => rfl

/-- Different solid characters behind the same text. -/
theorem trim_ne {a b : Char} (ha : Text.isBlank a = false) (hb : Text.isBlank b = false) (hab : a ≠ b)
    (u x y : Text) : Text.trim (u ++ a :: x) ≠ Text.trim (u ++ b :: y) := by
  rw [Text.trim, Text.trim, trimStart_append ha, trimStart_append hb, Text.trimEnd_append ha,
    Text.trimEnd_append hb]
  intro h
  exact hab (List.cons.inj (List.append_cancel_left h)).1

/-- Only what stands around a text with solid ends is trimmed. -/
theorem trim_around {c d : Char} {m w : Text} (hw : w = c :: m) (hlast : w.getLast? = some d)
    (hc : Text.isBlank c = false) (hd : Text.isBlank d = false) (b a : Text) :
    Text.trim (b ++ w ++ a) = Text.trimStart b ++ w ++ Text.trimEnd a := by
  obtain ⟨init, hinit⟩ := List.getLast?_eq_some_iff.1 hlast
  have hstart : Text.trimStart (b ++ w ++ a) = Text.trimStart b ++ w ++ a := by
    rw [hw, List.append_assoc, List.cons_append, trimStart_append hc, List.append_assoc, List.cons_append]
  rw [Text.trim, hstart, hinit, ← List.append_assoc, List.append_assoc _ [d] a, List.singleton_append,
    Text.trimEnd_append hd]
  simp

theorem not_blank_of_word {c : Char} (h : isWordChar c) : Text.isBlank c = false := by
  have hsize : c.toNat < 128 := by
    have := (Char.utf8Size_eq_one_iff.1 (utf8Size_of_word h))
    exact Nat.lt_succ_of_le (UInt32.le_iff_toNat_le.1 this)
  have hlow : 48 ≤ c.toNat := by
    rw [isWordChar, isAsciiAlpha, Text.isDigit] at h
    simp only [Bool.or_eq_true, Bool.and_eq_true, decide_eq_true_eq, beq_iff_eq, Char.le_def,
      UInt32.le_iff_toNat_le] at h
    rcases h with ((⟨h, -⟩ | ⟨h, -⟩) | ⟨h, -⟩) | rfl
    · exact Nat.le_trans (by decide) h
    · exact Nat.le_trans (by decide) h
    · exact Nat.le_trans (by decide) h
    · decide
  rw [← Bool.not_eq_true, Text.isBlank]
  simp only [Bool.or_eq_true, Bool.and_eq_true, decide_eq_true_eq, beq_iff_eq]
  omega

theorem trim_around_name (hname : IsName var) (b a : Text) :
    Text.trim (b ++ var ++ a) = Text.trimStart b ++ var ++ Text.trimEnd a := by
  obtain ⟨v, vs, hvar⟩ := List.exists_cons_of_ne_nil hname.1
  have hlast := List.getLast?_eq_some_getLast hname.1
  exact trim_around hvar hlast (not_blank_of_word (hname.2 v (hvar ▸ List.mem_cons_self)))
    (not_blank_of_word (hname.2 _ (List.getLast_mem hname.1))) b a

theorem blank_of_trim_eq (hname : IsName var) {b a : Text} (h : Text.trim (b ++ var ++ a) = var) :
    Text.trimStart b = [] ∧ Text.trimEnd a = [] := by
  rw [trim_around_name hname] at h
  have hlength := congrArg List.length h
  simp only [List.length_append] at hlength
  exact ⟨List.eq_nil_of_length_eq_zero (by omega), List.eq_nil_of_length_eq_zero (by omega)⟩

theorem all_blank_of_trimStart {b : Text} (h : Text.trimStart b = []) : ∀ c ∈ b, Text.isBlank c = true :=
  List.dropWhile_eq_nil_iff.1 h

theorem all_blank_of_trimEnd {a : Text} (h : Text.trimEnd a = []) : ∀ c ∈ a, Text.isBlank c = true := by
  rw [Text.trimEnd, List.reverse_eq_nil_iff, List.dropWhile_eq_nil_iff] at h
  exact fun c hc => h c (List.mem_reverse.2 hc)

theorem openQuote_blank {b : Text} (h : ∀ c ∈ b, Text.isBlank c = true) : openQuote b = none := by
  rw [openQuote]
  induction b with
  | nil => rfl
  | cons c cs ih =>
    have hc : ¬(c = '"' ∨ c = '\'') := by
      have := h c List.mem_cons_self
      rintro (rfl | rfl)
      · cases this
      · cases this
    rw [List.foldl_cons, quoteStep, if_neg hc]
    exact ih fun d hd => h d (List.mem_cons_of_mem _ hd)

/-- Between blanks a variable is a reference. -/
theorem isReference_blank (hblank : ∀ c, Text.isBlank c → letter c = false) {b a : Text}
    (hb : Text.trimStart b = []) (ha : Text.trimEnd a = []) : isReference letter b a = true := by
  have hb' := all_blank_of_trimStart hb
  have ha' := all_blank_of_trimEnd ha
  have hend : Text.trimEnd b = [] := by
    rw [Text.trimEnd, List.reverse_eq_nil_iff, List.dropWhile_eq_nil_iff]
    exact fun c hc => hb' c (List.mem_reverse.1 hc)
  have hleft : b.getLast?.any letter = false := by
    cases hlast : b.getLast? with
    | none => rfl
    | some c => exact hblank c (hb' c (List.mem_of_getLast? hlast))
  have hright : a.head?.any letter = false := by
    cases hhead : a.head? with
    | none => rfl
    | some c => exact hblank c (ha' c (List.mem_of_head? hhead))
  rw [isReference, openQuote_blank hb', hleft, hright, hend]
  rfl

/-- Where the loop takes references only, it replaces the references. -/
theorem replaceWords_of_references (hname : IsName var) (hword : ∀ c, isWordChar c → letter c) {expr : Text}
    (h : ∀ b a, expr = b ++ var ++ a → wordHere var b a = true → isReference letter b a = true) :
    replaceWords var replacement 0 none expr = substituted letter expr var replacement := by
  rw [replaceWords_eq_replaceAt hname, substituted]
  refine replaceAt_congr expr 0 [] fun b a hsplit => ?_
  rw [List.nil_append, Bool.eq_iff_iff]
  exact ⟨h b a hsplit, wordHere_of_isReference hword⟩

theorem trim_parenthesized (replacement b a : Text) :
    Text.trim (b ++ ('(' :: replacement ++ [')']) ++ a) =
      Text.trimStart b ++ ('(' :: replacement ++ [')']) ++ Text.trimEnd a :=
  trim_around (List.cons_append ..) List.getLast?_concat (by decide) (by decide) b a

/-- The expression is the variable. -/
theorem trim_substituted_alone (hname : IsName var) (hword : ∀ c, isWordChar c → letter c)
    (hblank : ∀ c, Text.isBlank c → letter c = false) {expr : Text} (h : Text.trim expr = var) :
    Text.trim (substituted letter expr var replacement) = '(' :: replacement ++ [')'] := by
  have hrefs : ∀ b a, expr = b ++ var ++ a → wordHere var b a = true → isReference letter b a = true := by
    rintro b a rfl -
    obtain ⟨hb, ha⟩ := blank_of_trim_eq hname h
    exact isReference_blank hblank hb ha
  obtain ⟨v, vs, hvar⟩ := List.exists_cons_of_ne_nil hname.1
  cases hsplit : Text.splitOnce var expr with
  | none =>
    have hcontains : Text.contains var expr = true := by
      have hstart : Text.trim expr <+: Text.trimStart expr := by
        rw [Text.trim, Text.trimEnd, ← List.reverse_suffix, List.reverse_reverse]
        exact List.dropWhile_suffix _
      rw [Text.contains_iff_infix hname.1, ← h]
      exact hstart.isInfix.trans (List.dropWhile_suffix _).isInfix
    rw [Text.contains, hsplit] at hcontains
    cases hcontains
  | some p =>
    obtain ⟨b, a⟩ := p
    have hexpr := Text.splitOnce_eq hsplit
    rw [hexpr] at h
    obtain ⟨hb, ha⟩ := blank_of_trim_eq hname h
    have hnone : Text.splitOnce var a = none := by
      rw [hvar]
      refine Text.splitOnce_eq_none_of_head fun hmem => ?_
      have hv := not_blank_of_word (hname.2 v (hvar ▸ List.mem_cons_self))
      rw [all_blank_of_trimEnd ha v hmem] at hv
      cases hv
    have href := isReference_blank hblank hb ha
    have hhere : wordHere var b a = true := wordHere_of_isReference hword href
    simp only [isReference, Bool.and_eq_true, Bool.not_eq_true'] at href
    obtain ⟨⟨⟨-, hleft⟩, hright⟩, -⟩ := href
    rw [← replaceWords_of_references hname hword hrefs, replaceWords_some hvar hsplit, Option.or_none,
      any_isWordChar_of_letter hword hleft, any_isWordChar_of_letter hword hright, Bool.false_or,
      if_neg Bool.false_ne_true, replaceWords_none hnone]
    have htrim := trim_parenthesized replacement b a
    rw [hb, ha, List.nil_append, List.append_nil] at htrim
    rw [← htrim]
    simp

end References

/-- The loop ends for every replacement. It replaces the references and nothing else exactly if every
occurrence it takes is a reference. -/
theorem substitution_exact {letter : Char → Bool} (hword : ∀ c, isWordChar c → letter c)
    (hblank : ∀ c, Text.isBlank c → letter c = false) {var : Text} (hname : IsName var)
    (expr replacement : Text) :
    (∀ fuel, expr.length < fuel →
      replaceVarLoop fuel expr var replacement = some (replaceVarInExpr expr var replacement)) ∧
    (Text.trim (replaceVarInExpr expr var replacement) = Text.trim (substituted letter expr var replacement) ↔
      ∀ before after, expr = before ++ var ++ after → wordHere var before after = true →
        isReference letter before after = true) := by
  refine ⟨fun fuel hfuel => replaceVarLoop_eq hname hfuel, ?_⟩
  rw [replaceVarInExpr]
  by_cases halone : Text.trim expr = var
  · rw [if_pos halone, trim_substituted_alone hname hword hblank halone]
    refine iff_of_true ?_ ?_
    · have := trim_parenthesized replacement [] []
      rw [List.nil_append, List.append_nil] at this
      exact this.trans (List.append_nil _)
    · rintro before after rfl -
      obtain ⟨hb, ha⟩ := blank_of_trim_eq hname halone
      exact isReference_blank hblank hb ha
  · rw [if_neg halone]
    constructor
    · intro heq before after hsplit hhere
      by_contra hno
      rw [Bool.not_eq_true] at hno
      obtain ⟨v, vs, hvar⟩ := List.exists_cons_of_ne_nil hname.1
      have hv := hname.2 v (hvar ▸ List.mem_cons_self)
      obtain ⟨u, x, y, hx, hy⟩ := @replaceAt_differs _ _ _ _ _ ('(' :: replacement ++ [')']) _ _ hvar
        (apart_wordHere hname) (fun _ _ => wordHere_of_isReference hword) expr 0 [] _ _ hsplit (Nat.zero_le _) hhere hno
      rw [replaceWords_eq_replaceAt hname, substituted, hx, hy, List.append_assoc] at heq
      refine trim_ne (by decide) (not_blank_of_word hv) ?_ u _ y heq
      rintro rfl
      cases hv
    · intro hrefs
      rw [replaceWords_of_references hname hword hrefs]

/-- `x` in a string literal is replaced as the variable is. -/
theorem substitution_in_literal : ¬∀ (letter : Char → Bool), (∀ c, isWordChar c → letter c) →
    (∀ c, Text.isBlank c → letter c = false) → ∀ expr var replacement, IsName var →
      Text.trim (replaceVarInExpr expr var replacement) = Text.trim (substituted letter expr var replacement) := by
  intro h
  have heq := h isWordChar (fun _ hc => hc) (fun c hc => ?_) "\"x\" + x" "x" "1" (by decide +kernel)
  · exact absurd heq (by decide +kernel)
  · rw [← Bool.not_eq_true]
    intro hw
    rw [not_blank_of_word hw] at hc
    cases hc

theorem substitution_exact_vv :
    (∀ fuel, ("vv + v * w.v" : Text).length < fuel →
      replaceVarLoop fuel "vv + v * w.v" "v" "v + 1" = some (replaceVarInExpr "vv + v * w.v" "v" "v + 1")) ∧
    (Text.trim (replaceVarInExpr "vv + v * w.v" "v" "v + 1") =
        Text.trim (substituted isWordChar "vv + v * w.v" "v" "v + 1") ↔
      ∀ before after, ("vv + v * w.v" : Text) = before ++ "v" ++ after → wordHere "v" before after = true →
        isReference isWordChar before after = true) := by
  refine substitution_exact (fun _ hc => hc) (fun c hc => ?_) (by decide +kernel) _ _
  rw [← Bool.not_eq_true]
  intro hw
  rw [not_blank_of_word hw] at hc
  cases hc

end Optimize

end Tinypipe
