import Tinypipe.Lib.Split
import Tinypipe.Vm.Scalars

/-! The scan for accessors (`split_accessors` and `find_matching_bracket` of
`tinypipe-vm/src/compiled_executor.rs`): what a name with fields and subscripts behind it is split into, and
that `eval_expression` makes nothing of one that breaks off in a bracket. -/

namespace Tinypipe

open Lib

/-! ### Brackets and quotes -/

/-- The brackets and the quotes. -/
def delimiters : List Char := ['"', '\'', '(', '[', '{', ')', ']', '\x7d']

theorem no_delimiter {p : Char → Bool} (hp : delimiters.all (fun d => !p d) = true) {c : Char} (hc : p c = true) :
    isQuote c = false ∧ isOpening c = false ∧ isClosing c = false := by
  have hne : ∀ d ∈ delimiters, c ≠ d := by
    rintro d hd rfl
    have hd' := List.all_eq_true.1 hp c hd
    rw [hc] at hd'
    cases hd'
  simp only [delimiters, List.forall_mem_cons] at hne
  obtain ⟨hdouble, hsingle, hround, hsquare, hcurly, hround', hsquare', hcurly', -⟩ := hne
  simp [isQuote, isOpening, isClosing, *]

/-- The depth and the open quote behind a text, unless it closes the bracket it is in. -/
def bracketState : Nat → Option Char → Text → Option (Nat × Option Char)
  | depth, quote, [] => some (depth, quote)
  | depth, some q, c :: cs => bracketState depth (if c = q then none else some q) cs
  | depth, none, c :: cs =>
    if isQuote c then bracketState depth (some c) cs
    else if isOpening c then bracketState (depth + 1) none cs
    else if isClosing c then (if depth ≤ 1 then none else bracketState (depth - 1) none cs)
    else bracketState depth none cs

/-- Every bracket and every quote of the text is closed in it. -/
def Balanced (t : Text) : Prop := bracketState 1 none t = some (1, none)

instance (t : Text) : Decidable (Balanced t) := inferInstanceAs (Decidable (_ = _))

theorem bracketState_append (depth : Nat) (quote : Option Char) (t u : Text) :
    bracketState depth quote (t ++ u) = (bracketState depth quote t).bind fun s => bracketState s.1 s.2 u := by
  induction t generalizing depth quote with
  | nil => cases u <;> rfl
  | cons c cs ih =>
    cases quote with
    | some q =>
      rw [List.cons_append, bracketState, bracketState]
      exact ih depth _
    | none =>
      rw [List.cons_append, bracketState, bracketState]
      split
      · exact ih depth _
      · split
        · exact ih _ _
        · split
          · split
            · rfl
            · exact ih _ _
          · exact ih _ _

/-- A text that stays in its bracket is read over. -/
theorem findMatchingBracket_append {depth depth' : Nat} {quote quote' : Option Char} {t : Text}
    (h : bracketState depth quote t = some (depth', quote')) (u : Text) :
    findMatchingBracket depth quote (t ++ u) =
      (findMatchingBracket depth' quote' u).map fun p => (t ++ p.1, p.2) := by
  induction t generalizing depth quote with
  | nil =>
    have heq : some (depth, quote) = some (depth', quote') := by
      rw [← h]
      cases quote <;> rfl
    cases heq
    rw [List.nil_append]
    cases findMatchingBracket depth' quote' u <;> rfl
  | cons c cs ih =>
    have hmap : ∀ o : Option (Text × Text), (o.map fun p => (cs ++ p.1, p.2)).map (fun p => (c :: p.1, p.2)) =
        o.map fun p => (c :: cs ++ p.1, p.2) := fun o => by cases o <;> rfl
    cases quote with
    | some q =>
      rw [bracketState] at h
      rw [List.cons_append, findMatchingBracket, ih h, hmap]
    | none =>
      rw [bracketState] at h
      rw [List.cons_append, findMatchingBracket]
      split at h
      case isTrue hquote => rw [if_pos hquote, ih h, hmap]
      case isFalse hquote =>
        rw [if_neg hquote]
        split at h
        case isTrue hopen => rw [if_pos hopen, ih h, hmap]
        case isFalse hopen =>
          rw [if_neg hopen]
          split at h
          case isTrue hclose =>
            split at h
            · cases h
            case isFalse hdepth => rw [if_pos hclose, if_neg hdepth, ih h, hmap]
          case isFalse hclose => rw [if_neg hclose, ih h, hmap]

/-- Without its closing bracket a text has no match. -/
theorem findMatchingBracket_unclosed {depth : Nat} {quote : Option Char} {t : Text}
    (h : (bracketState depth quote t).isSome) : findMatchingBracket depth quote t = none := by
  obtain ⟨⟨depth', quote'⟩, hstate⟩ := Option.isSome_iff_exists.1 h
  have happend := findMatchingBracket_append hstate []
  rw [List.append_nil] at happend
  rw [happend]
  cases quote' <;> rfl

/-- One level deeper the same brackets are open. -/
theorem bracketState_deeper {depth depth' : Nat} {quote quote' : Option Char} {t : Text} (hdepth : 1 ≤ depth)
    (h : bracketState depth quote t = some (depth', quote')) :
    bracketState (depth + 1) quote t = some (depth' + 1, quote') := by
  induction t generalizing depth quote with
  | nil =>
    have heq : some (depth, quote) = some (depth', quote') := by
      rw [← h]
      cases quote <;> rfl
    cases heq
    cases quote' <;> rfl
  | cons c cs ih =>
    cases quote with
    | some q =>
      rw [bracketState] at h ⊢
      exact ih hdepth h
    | none =>
      rw [bracketState] at h ⊢
      split at h
      case isTrue hquote => rw [if_pos hquote, ih hdepth h]
      case isFalse hquote =>
        rw [if_neg hquote]
        split at h
        case isTrue hopen => rw [if_pos hopen, ih (by omega) h]
        case isFalse hopen =>
          rw [if_neg hopen]
          split at h
          case isTrue hclose =>
            split at h
            · cases h
            case isFalse hdeep =>
              rw [if_pos hclose, if_neg (by omega)]
              have hpred : depth + 1 - 1 = depth - 1 + 1 := by omega
              rw [hpred]
              exact ih (by omega) h
          case isFalse hclose => rw [if_neg hclose, ih hdepth h]

namespace Balanced

theorem nil : Balanced [] := rfl

theorem append {t u : Text} (ht : Balanced t) (hu : Balanced u) : Balanced (t ++ u) := by
  rw [Balanced, bracketState_append, ht]
  exact hu

theorem bracketed {t : Text} (ht : Balanced t) : Balanced ('[' :: (t ++ [']'])) := by
  have hdeep : bracketState 2 none t = some (2, none) := bracketState_deeper (le_refl 1) ht
  have hopen : bracketState 1 none ('[' :: (t ++ [']'])) = bracketState 2 none (t ++ [']']) := rfl
  rw [Balanced, hopen, bracketState_append, hdeep]
  rfl

theorem plain {t : Text} (h : ∀ c ∈ t, isQuote c = false ∧ isOpening c = false ∧ isClosing c = false) :
    Balanced t := by
  induction t with
  | nil => rfl
  | cons c cs ih =>
    obtain ⟨hquote, hopen, hclose⟩ := h c List.mem_cons_self
    rw [Balanced, bracketState, hquote, hopen, hclose]
    exact ih fun d hd => h d (List.mem_cons_of_mem c hd)

/-- The closing bracket behind a balanced text is the matching one. -/
theorem closes {t : Text} (ht : Balanced t) (rest : Text) :
    findMatchingBracket 1 none (t ++ ']' :: rest) = some (t, rest) := by
  have hclose : findMatchingBracket 1 none (']' :: rest) = some ([], rest) := rfl
  rw [findMatchingBracket_append ht, hclose, Option.map_some, List.append_nil]

theorem prefix_unclosed {t u : Text} (ht : Balanced (t ++ u)) : (bracketState 1 none t).isSome := by
  rw [Balanced, bracketState_append] at ht
  cases h : bracketState 1 none t with
  | none =>
    rw [h] at ht
    cases ht
  | some s => rfl

end Balanced

theorem unclosed_prefix {t u : Text} (h : (bracketState 1 none (t ++ u)).isSome) :
    (bracketState 1 none t).isSome := by
  rw [bracketState_append] at h
  cases hstate : bracketState 1 none t with
  | none =>
    rw [hstate] at h
    cases h
  | some s => rfl

/-! ### The scan of a chain -/

namespace Accessor

/-- The accessor as it is written. -/
def text : Accessor → Text
  | field name => '.' :: name
  | index key => '[' :: (key ++ [']'])

/-- A field name, or a key whose brackets and quotes are closed in it. -/
def Closed : Accessor → Prop
  | field name => isIdentifier name = true
  | index key => Balanced key ∧ Text.trim key ≠ []

end Accessor

def accessorTexts (accs : List Accessor) : Text := accs.flatMap Accessor.text

/-- What follows an accessor: another one, or nothing. -/
def Follows (t : Text) : Prop := ∀ c cs, t = c :: cs → c = '.' ∨ c = '['

theorem follows_accessorTexts (accs : List Accessor) {rest : Text} (h : Follows rest) :
    Follows (accessorTexts accs ++ rest) := by
  cases accs with
  | nil => exact h
  | cons a as =>
    intro c cs heq
    cases a with
    | field name =>
      cases heq
      exact .inl rfl
    | index key =>
      cases heq
      exact .inr rfl

theorem span_name {name rest : Text} (hname : isIdentifier name = true) (h : Follows rest) :
    (name ++ rest).span (fun d => d != '.' && d != '[') = (name, rest) := by
  have hchars : ∀ c ∈ name, (c != '.' && c != '[') = true := by
    intro c hc
    have hne : ∀ d, isNameChar d = false → c ≠ d := by
      rintro d hd rfl
      exact not_mem_name hd ⟨name, hname⟩ hc
    simp [hne '.' (by decide), hne '[' (by decide)]
  rw [List.span_eq_takeWhile_dropWhile, List.takeWhile_append_of_pos hchars, List.dropWhile_append_of_pos hchars]
  cases rest with
  | nil => simp
  | cons c cs =>
    have hstop : (c != '.' && c != '[') = false := by
      rcases h c cs rfl with rfl | rfl <;> decide
    simp [hstop]

/-- One accessor is read, and the scan goes on behind it. -/
theorem scanAccessors_accessor {n : Nat} {base : Text} {found : Option Text} {accs : List Accessor} {tail : Text}
    {a : Accessor} (ha : a.Closed) (hbase : base ≠ []) {rest : Text} (hrest : Follows rest) :
    ∃ c, scanAccessors (n + 1) 0 none base found accs tail (a.text ++ rest) =
      scanAccessors n 0 none (c :: base) (found.or (some base.reverse)) (accs ++ [a]) rest rest := by
  cases a with
  | field name =>
    have hne : name ≠ [] := by
      obtain ⟨c, cs, hcs, -⟩ := Identifier.head ⟨name, ha⟩
      exact fun h => absurd (hcs.symm.trans h) (List.cons_ne_nil c cs)
    have htrim : Text.trim name = name := trim_name ⟨name, ha⟩
    refine ⟨'.', ?_⟩
    rw [Accessor.text, List.cons_append, scanAccessors, if_neg (by decide), if_neg (by simp),
      if_pos ⟨rfl, rfl, hbase, by simp [hne]⟩, span_name ha hrest]
    dsimp only
    rw [htrim, List.isEmpty_eq_false_iff.2 hne, if_neg Bool.false_ne_true]
  | index key =>
    refine ⟨'[', ?_⟩
    have htext : (Accessor.index key).text ++ rest = '[' :: (key ++ ']' :: rest) := by
      simp [Accessor.text]
    rw [htext, scanAccessors, if_neg (by decide), if_pos ⟨rfl, rfl, hbase⟩, ha.1.closes rest]
    dsimp only
    rw [List.isEmpty_eq_false_iff.2 ha.2, if_neg Bool.false_ne_true]

/-- Behind the first accessor the text that is left is the tail. -/
theorem scanAccessors_chain {b : Text} {rest : Text} (hrest : Follows rest) : ∀ {more : List Accessor} {n : Nat}
    {base : Text} {accs : List Accessor}, (∀ a ∈ more, a.Closed) → base ≠ [] →
    (accessorTexts more ++ rest).length ≤ n →
    ∃ m base', rest.length ≤ m ∧ base' ≠ [] ∧
      scanAccessors n 0 none base (some b) accs (accessorTexts more ++ rest) (accessorTexts more ++ rest) =
        scanAccessors m 0 none base' (some b) (accs ++ more) rest rest := by
  intro more
  induction more with
  | nil =>
    intro n base accs _ hbase hlen
    exact ⟨n, base, hlen, hbase, by rw [List.append_nil]; rfl⟩
  | cons a as ih =>
    intro n base accs hclosed hbase hlen
    rw [List.forall_mem_cons] at hclosed
    have htexts : accessorTexts (a :: as) ++ rest = a.text ++ (accessorTexts as ++ rest) := by
      rw [accessorTexts, List.flatMap_cons, List.append_assoc]
      rfl
    have hpos : 0 < a.text.length := by
      cases a <;> exact Nat.succ_pos _
    rw [htexts, List.length_append] at hlen
    obtain ⟨n, rfl⟩ : ∃ k, n = k + 1 := ⟨n - 1, by omega⟩
    rw [htexts]
    obtain ⟨c, hstep⟩ := @scanAccessors_accessor n base (some b) accs (a.text ++ (accessorTexts as ++ rest)) a
      hclosed.1 hbase _ (follows_accessorTexts as hrest)
    obtain ⟨m, base', hm, hbase', hscan⟩ := @ih n (c :: base) (accs ++ [a]) hclosed.2 (List.cons_ne_nil c base)
      (by omega)
    refine ⟨m, base', hm, hbase', ?_⟩
    rw [hstep, Option.some_or, hscan, List.append_assoc, List.singleton_append]

theorem scanAccessors_name {rest tail : Text} {n : Nat} : ∀ {t base : Text}, (∀ c ∈ t, isNameChar c = true) →
    scanAccessors (n + t.length) 0 none base none [] tail (t ++ rest) =
      scanAccessors n 0 none (t.reverse ++ base) none [] tail rest := by
  intro t
  induction t with
  | nil =>
    intro base _
    rfl
  | cons c cs ih =>
    intro base h
    rw [List.forall_mem_cons] at h
    have hne : ∀ d, isNameChar d = false → c ≠ d := by
      rintro d hd rfl
      rw [h.1] at hd
      cases hd
    obtain ⟨hquote, hopen, hclose⟩ := no_delimiter (p := isNameChar) rfl h.1
    have hstep : scanAccessors (n + (c :: cs).length) 0 none base none [] tail (c :: cs ++ rest) =
        scanAccessors (n + cs.length) 0 none (c :: base) none [] tail (cs ++ rest) := by
      rw [List.length_cons, ← Nat.add_assoc, List.cons_append, scanAccessors]
      simp only [hquote, hopen, hclose, hne '[' (by decide), hne '.' (by decide), Bool.false_eq_true, false_and,
        if_false]
    rw [hstep, ih h.2, List.reverse_cons, List.append_assoc, List.singleton_append]

/-- The name, the accessors, and what is left. -/
theorem scanAccessors_whole (x : Identifier) {accs : List Accessor} (hne : accs ≠ []) (h : ∀ a ∈ accs, a.Closed)
    {rest : Text} (hrest : Follows rest) : ∃ m base, rest.length ≤ m ∧ base ≠ [] ∧
      scanAccessors (x.1 ++ (accessorTexts accs ++ rest)).length 0 none [] none [] []
        (x.1 ++ (accessorTexts accs ++ rest)) = scanAccessors m 0 none base (some x.1) accs rest rest := by
  obtain ⟨a, as, rfl⟩ := List.exists_cons_of_ne_nil hne
  rw [List.forall_mem_cons] at h
  have htexts : accessorTexts (a :: as) ++ rest = a.text ++ (accessorTexts as ++ rest) := by
    rw [accessorTexts, List.flatMap_cons, List.append_assoc]
    rfl
  have hpos : 0 < a.text.length := by
    cases a <;> exact Nat.succ_pos _
  have hbase : x.1.reverse ++ [] ≠ [] := by
    obtain ⟨c, cs, hcs, -⟩ := x.head
    simp [hcs]
  obtain ⟨n, hn⟩ : ∃ n, (a.text ++ (accessorTexts as ++ rest)).length = n + 1 :=
    Nat.exists_eq_succ_of_ne_zero (by rw [List.length_append]; omega)
  have hlen : (x.1 ++ (a.text ++ (accessorTexts as ++ rest))).length = n + 1 + x.1.length := by
    rw [List.length_append, hn, Nat.add_comm]
  obtain ⟨c, hstep⟩ := @scanAccessors_accessor n (x.1.reverse ++ []) none [] [] a h.1 hbase _
    (follows_accessorTexts as hrest)
  rw [List.length_append] at hn
  obtain ⟨m, base, hm, hne', hscan⟩ := @scanAccessors_chain x.1 rest hrest as n (c :: (x.1.reverse ++ [])) [a] h.2
    (List.cons_ne_nil _ _) (by omega)
  refine ⟨m, base, hm, hne', ?_⟩
  rw [htexts, hlen, scanAccessors_name x.chars, hstep, Option.none_or, List.append_nil, List.reverse_reverse,
    List.nil_append, ← List.append_nil x.1.reverse, hscan, List.singleton_append]

theorem splitAccessors_chain (x : Identifier) {accs : List Accessor} (hne : accs ≠ []) (h : ∀ a ∈ accs, a.Closed) :
    splitAccessors (x.1 ++ accessorTexts accs) = some (x.1, accs) := by
  have hfollows : Follows [] := by
    rintro c cs ⟨⟩
  obtain ⟨m, base, -, -, hscan⟩ := scanAccessors_whole x hne h hfollows
  have hend : scanAccessors m 0 none base (some x.1) accs [] [] = some (some x.1, accs, []) := by
    cases m <;> rfl
  have hx : (Text.trim x.1).isEmpty = false := by
    obtain ⟨c, cs, hcs, -⟩ := x.head
    rw [trim_name, hcs]
    rfl
  rw [List.append_nil] at hscan
  rw [splitAccessors, hscan, hend]
  dsimp only
  rw [hx, trim_name]
  rfl

/-- A bracket that is not closed leaves no chain. -/
theorem splitAccessors_unclosed (x : Identifier) {accs : List Accessor} (h : ∀ a ∈ accs, a.Closed) {q : Text}
    (hq : (bracketState 1 none q).isSome) : splitAccessors (x.1 ++ (accessorTexts accs ++ '[' :: q)) = none := by
  have hnone : ∀ {m : Nat} {base : Text} {found : Option Text} {accs : List Accessor} {tail : Text},
      base ≠ [] → scanAccessors (m + 1) 0 none base found accs tail ('[' :: q) = none := by
    intro m base found accs tail hbase
    rw [scanAccessors, if_neg (by decide), if_pos ⟨rfl, rfl, hbase⟩, findMatchingBracket_unclosed hq]
  have hbase : x.1.reverse ++ [] ≠ [] := by
    obtain ⟨c, cs, hcs, -⟩ := x.head
    simp [hcs]
  have hscan : scanAccessors (x.1 ++ (accessorTexts accs ++ '[' :: q)).length 0 none [] none [] []
      (x.1 ++ (accessorTexts accs ++ '[' :: q)) = none := by
    cases accs with
    | nil =>
      have hlen : (x.1 ++ (accessorTexts [] ++ '[' :: q)).length = q.length + 1 + x.1.length := by
        simp [accessorTexts]
        omega
      rw [hlen, scanAccessors_name x.chars]
      exact hnone hbase
    | cons a as =>
      have hfollows : Follows ('[' :: q) := by
        intro c cs heq
        exact .inr (List.cons.inj heq).1.symm
      obtain ⟨m, base, hm, hne, hscan⟩ := scanAccessors_whole x (List.cons_ne_nil a as) h hfollows
      rw [List.length_cons] at hm
      obtain ⟨m, rfl⟩ : ∃ k, m = k + 1 := ⟨m - 1, by omega⟩
      rw [hscan]
      exact hnone hne
  rw [splitAccessors, hscan]

/-! ### Texts that begin with a name -/

/-- No bound name looks like a chain. -/
def Context.Flat (ctx : Context) : Prop := ∀ name v, ctx.get name = some v → '.' ∉ name ∧ '[' ∉ name

theorem Context.Flat.get_eq_none {ctx : Context} (h : ctx.Flat) {t : Text} {c : Char} (hc : c = '.' ∨ c = '[')
    (hmem : c ∈ t) : ctx.get t = none := by
  cases hget : ctx.get t with
  | none => rfl
  | some v =>
    obtain ⟨hdot, hbracket⟩ := h t v hget
    rcases hc with rfl | rfl
    · exact absurd hmem hdot
    · exact absurd hmem hbracket

def NoComparison (t : Text) : Prop := ∀ op ∈ comparisonOps, Text.contains op t = false

theorem NoComparison.splitComparison {t : Text} (h : NoComparison t) : splitComparison t = none := by
  rw [Tinypipe.splitComparison, List.findSome?_eq_none_iff]
  intro op hop
  have hnone : Text.splitOnce op t = none := by
    have hcontains := h op hop
    rwa [Text.contains, Option.isSome_eq_false_iff, Option.isNone_iff_eq_none] at hcontains
  rw [hnone]

section

variable {ctx : Context} {outputs : Nat → Option Value}

theorem parseI64_word {c : Char} (hc : c = '.' ∨ c = '[') {t : Text} (hmem : c ∈ t) : Text.parseI64 t = none := by
  cases hn : Text.parseI64 t with
  | none => rfl
  | some n =>
    obtain ⟨i, hi⟩ := Text.parseI64_parseSigned hn
    obtain ⟨d, ds, rfl, hd, hds⟩ := Text.parseSigned_digits hi
    have hnot : ¬(Text.isDigit c = true ∨ c = '+' ∨ c = '-') := by
      rcases hc with rfl | rfl <;> decide
    rcases List.mem_cons.1 hmem with rfl | hmem
    · exact absurd hd hnot
    · exact absurd (.inl (hds c hmem)) hnot

theorem lookupName_word (x : Identifier) {c : Char} (hc : c = '.' ∨ c = '[') (u : Text) (hctx : ctx.Flat) :
    lookupName ctx outputs (x.1 ++ c :: u) = none := by
  obtain ⟨d, ds, hds, hd, -⟩ := x.head
  have hmem : c ∈ x.1 ++ c :: u := List.mem_append_right _ List.mem_cons_self
  have hdollar : Text.stripPrefix ['$'] (x.1 ++ c :: u) = none := by
    rw [hds, List.cons_append, Text.stripPrefix, if_neg]
    intro hpre
    obtain ⟨rest, hrest⟩ := List.isPrefixOf_iff_prefix.1 hpre
    rw [← (List.cons.inj hrest).1] at hd
    cases hd
  have hdigit : Text.isDigit c = false := by
    rcases hc with rfl | rfl <;> decide
  have hindex : Text.parseUnsigned 32 (x.1 ++ c :: u) = none := by
    rw [hds]
    exact Text.parseUnsigned_eq_none (List.mem_append_right _ List.mem_cons_self) hdigit
  rw [lookupName, hdollar, Option.getD_none, hctx.get_eq_none hc hmem, hindex]
  rfl

/-- Behind its name a chain or the beginning of one goes to the operators. -/
theorem evalExpression_word (x : Identifier) {c : Char} (hc : c = '.' ∨ c = '[') {u : Text}
    (htrim : Text.trim (x.1 ++ c :: u) = x.1 ++ c :: u) : evalExpression ctx outputs (x.1 ++ c :: u) =
      evalOperators ctx outputs (evalExpression ctx outputs) false (x.1 ++ c :: u) := by
  obtain ⟨d, ds, hds, hd, -⟩ := x.head
  have hname : isNameChar c = false := by
    rcases hc with rfl | rfl <;> decide
  have htext : x.1 ++ c :: u = d :: (ds ++ c :: u) := by
    rw [hds]
    rfl
  have hcall : ∀ {name : Text}, c ∉ name → '(' ∈ name → wholeCall name (x.1 ++ c :: u) = none := fun hnot hparen =>
    wholeCall_word hnot hparen x u
  have hrange : wholeCall "range(" (x.1 ++ c :: u) = none := by
    rcases hc with rfl | rfl <;> exact hcall (by decide) (by decide)
  have hlen : wholeCall "len(" (x.1 ++ c :: u) = none := by
    rcases hc with rfl | rfl <;> exact hcall (by decide) (by decide)
  have hconstant : constant (x.1 ++ c :: u) = none := constant_word hname x u
  rw [evalExpression_unfold, evalStep_operators htext hd htrim hrange hlen (stripNot_word hname x u), hconstant,
    Option.elim_none]

/-- It is neither a number nor a bound name: the accessors are looked for. -/
theorem evalOperators_word (x : Identifier) {c : Char} (hc : c = '.' ∨ c = '[') {u : Text} (hctx : ctx.Flat)
    (hcompare : splitComparison (x.1 ++ c :: u) = none) :
    evalOperators ctx outputs (evalExpression ctx outputs) false (x.1 ++ c :: u) =
      evalCompound ctx (evalExpression ctx outputs) false (x.1 ++ c :: u) := by
  obtain ⟨d, ds, hds, hd, hdigit⟩ := x.head
  have hmem : c ∈ x.1 ++ c :: u := List.mem_append_right _ List.mem_cons_self
  have hne : ∀ e, isNameChar e = false → d ≠ e := by
    rintro e he rfl
    rw [hd] at he
    cases he
  have hfloat : F64.parse (x.1 ++ c :: u) = none := by
    rw [hds, List.cons_append] at hmem ⊢
    refine F64.parse_eq_none_of_head hdigit (hne '.' (by decide)) (hne '+' (by decide)) (hne '-' (by decide)) hmem ?_ ?_
    · rcases hc with rfl | rfl <;> decide
    · rcases hc with rfl | rfl <;> decide
  rw [evalOperators, hcompare, parseI64_word hc hmem, hfloat]
  dsimp only
  rw [lookupName_word x hc u hctx]

end

/-! ### Cutting a chain -/

/-- A chain that breaks off in a bracket. -/
def Unclosed (t : Text) : Prop :=
  ∃ (x : Identifier) (accs : List Accessor) (q : Text), t = x.1 ++ (accessorTexts accs ++ '[' :: q) ∧
    (∀ a ∈ accs, a.Closed) ∧ (bracketState 1 none q).isSome

/-- A character that only stands inside a bracket of a chain. -/
def isInner (c : Char) : Bool := !isNameChar c && c != '.' && c != '[' && c != ']'

theorem isInner_iff {c : Char} : isInner c = true ↔ isNameChar c = false ∧ c ≠ '.' ∧ c ≠ '[' ∧ c ≠ ']' := by
  simp [isInner, and_assoc]

theorem Accessor.cut {a : Accessor} (ha : a.Closed) {c : Char} (hc : isInner c = true) {l r : Text}
    (h : a.text = l ++ c :: r) : ∃ q, l = '[' :: q ∧ (bracketState 1 none q).isSome := by
  obtain ⟨hname, hdot, hopen, hclose⟩ := isInner_iff.1 hc
  have hmem : c ∈ a.text := h ▸ List.mem_append_right l List.mem_cons_self
  cases a with
  | field name =>
    rw [text, List.mem_cons] at hmem
    rcases hmem with hmem | hmem
    · exact absurd hmem hdot
    · exact absurd hmem (not_mem_name hname ⟨name, ha⟩)
  | index key =>
    have hcons : '[' :: (key ++ [']']) = l ++ c :: r := h
    cases l with
    | nil => exact absurd (List.cons.inj hcons).1.symm hopen
    | cons d ds =>
      obtain ⟨rfl, htail⟩ := List.cons.inj hcons
      rcases Text.append_cut htail with ⟨m, -, hm⟩ | ⟨m, hm⟩
      · have hin : c ∈ [']'] := hm ▸ List.mem_append_right m List.mem_cons_self
        exact absurd (List.mem_singleton.1 hin) hclose
      · refine ⟨ds, rfl, ?_⟩
        have hkey : Balanced (ds ++ c :: m) := hm ▸ ha.1
        exact hkey.prefix_unclosed

theorem cut_accessors {c : Char} (hc : isInner c = true) {tail : Text}
    (htail : ∀ l r, tail = l ++ c :: r → ∃ q, l = '[' :: q ∧ (bracketState 1 none q).isSome)
    {accs : List Accessor} (haccs : ∀ a ∈ accs, a.Closed) {l r : Text} (h : accessorTexts accs ++ tail = l ++ c :: r) :
    ∃ before q, (∀ a ∈ before, a.Closed) ∧ l = accessorTexts before ++ '[' :: q ∧ (bracketState 1 none q).isSome := by
  induction accs generalizing l with
  | nil =>
    obtain ⟨q, hl, hq⟩ := htail l r h
    exact ⟨[], q, by simp, hl, hq⟩
  | cons a as ih =>
    rw [List.forall_mem_cons] at haccs
    have htexts : a.text ++ (accessorTexts as ++ tail) = l ++ c :: r := by
      rw [← h, accessorTexts, accessorTexts, List.flatMap_cons, List.append_assoc]
    rcases Text.append_cut htexts with ⟨m, hl, hm⟩ | ⟨m, hm⟩
    · obtain ⟨before, q, hbefore, hm, hq⟩ := ih haccs.2 hm
      refine ⟨a :: before, q, List.forall_mem_cons.2 ⟨haccs.1, hbefore⟩, ?_, hq⟩
      rw [hl, hm, accessorTexts, accessorTexts, List.flatMap_cons, List.append_assoc]
    · obtain ⟨q, hl, hq⟩ := Accessor.cut haccs.1 hc hm
      exact ⟨[], q, by simp, hl, hq⟩

theorem cut_word {c : Char} (hc : isInner c = true) (x : Identifier) {t l r : Text} (h : x.1 ++ t = l ++ c :: r) :
    ∃ m, l = x.1 ++ m ∧ t = m ++ c :: r := by
  rcases Text.append_cut h with hcut | ⟨m, hm⟩
  · exact hcut
  · have hmem : c ∈ x.1 := hm ▸ List.mem_append_right l List.mem_cons_self
    exact absurd hmem (not_mem_name (isInner_iff.1 hc).1 x)

/-- What stands before an inner character of a chain is not closed. -/
theorem unclosed_of_chain {c : Char} (hc : isInner c = true) (x : Identifier) {accs : List Accessor}
    (haccs : ∀ a ∈ accs, a.Closed) {l r : Text} (h : x.1 ++ accessorTexts accs = l ++ c :: r) : Unclosed l := by
  obtain ⟨m, rfl, hm⟩ := cut_word hc x h
  have hnil : ∀ l r, ([] : Text) = l ++ c :: r → ∃ q, l = '[' :: q ∧ (bracketState 1 none q).isSome := by
    intro l r heq
    exact absurd heq (by simp)
  obtain ⟨before, q, hbefore, rfl, hq⟩ := cut_accessors hc hnil haccs (by rw [List.append_nil, hm])
  exact ⟨x, before, q, rfl, hbefore, hq⟩

theorem Unclosed.cut {c : Char} (hc : isInner c = true) {t l r : Text} (h : Unclosed t) (ht : t = l ++ c :: r) :
    Unclosed l := by
  obtain ⟨x, accs, q, rfl, haccs, hq⟩ := h
  obtain ⟨m, rfl, hm⟩ := cut_word hc x ht
  have htail : ∀ l r, '[' :: q = l ++ c :: r → ∃ p, l = '[' :: p ∧ (bracketState 1 none p).isSome := by
    intro l r heq
    cases l with
    | nil => exact absurd (List.cons.inj heq).1.symm (isInner_iff.1 hc).2.2.1
    | cons d ds =>
      obtain ⟨rfl, rfl⟩ := List.cons.inj heq
      exact ⟨ds, rfl, unclosed_prefix hq⟩
  obtain ⟨before, p, hbefore, rfl, hp⟩ := cut_accessors hc htail haccs hm
  exact ⟨x, before, p, rfl, hbefore, hp⟩

theorem trim_word (x : Identifier) (t : Text) : Text.trim (x.1 ++ t) = Text.trimEnd (x.1 ++ t) := by
  obtain ⟨c, cs, hcs, hc, -⟩ := x.head
  rw [Text.trim, Text.trimStart, hcs, List.cons_append, List.dropWhile_cons_of_neg]
  rw [not_isBlank_of_isNameChar hc]
  exact Bool.false_ne_true

theorem trimEnd_prefix (t : Text) : Text.trimEnd t <+: t := by
  rw [Text.trimEnd, ← List.reverse_suffix, List.reverse_reverse]
  exact List.dropWhile_suffix _

theorem Unclosed.trim {t : Text} (h : Unclosed t) : Unclosed (Text.trim t) := by
  obtain ⟨x, accs, q, rfl, haccs, hq⟩ := h
  refine ⟨x, accs, Text.trimEnd q, ?_, haccs, ?_⟩
  · rw [trim_word, ← List.append_assoc, Text.trimEnd_append (by decide), List.append_assoc]
  · obtain ⟨blanks, hblanks⟩ := trimEnd_prefix q
    rw [← hblanks] at hq
    exact unclosed_prefix hq

theorem Unclosed.mem {t : Text} (h : Unclosed t) : '[' ∈ t := by
  obtain ⟨x, accs, q, rfl, -, -⟩ := h
  simp

/-- The name of a chain that is not closed, and the character behind it. -/
theorem Unclosed.head {t : Text} (h : Unclosed t) :
    ∃ (x : Identifier) (c : Char) (u : Text), t = x.1 ++ c :: u ∧ (c = '.' ∨ c = '[') := by
  obtain ⟨x, accs, q, rfl, -, -⟩ := h
  cases accs with
  | nil => exact ⟨x, '[', q, rfl, .inr rfl⟩
  | cons a as =>
    cases a with
    | field name => exact ⟨x, '.', name ++ accessorTexts as ++ '[' :: q, by simp [accessorTexts, Accessor.text], .inl rfl⟩
    | index key =>
      exact ⟨x, '[', key ++ ']' :: (accessorTexts as ++ '[' :: q), by simp [accessorTexts, Accessor.text], .inr rfl⟩

theorem Unclosed.splitAccessors {t : Text} (h : Unclosed t) : splitAccessors t = none := by
  obtain ⟨x, accs, q, rfl, haccs, hq⟩ := h
  exact splitAccessors_unclosed x haccs hq

/-! ### A chain that is not closed is an error -/

theorem binaryOps_inner : ∀ op ∈ binaryOps, isInner op = true := by
  rw [binaryOps]
  simp only [List.forall_mem_cons]
  exact ⟨by decide, by decide, by decide, by decide, by simp⟩

theorem splitBinary_cut {op : Char} {t l r : Text} (h : splitBinary op t = some (l, r)) :
    ∃ l' r', t = l' ++ op :: r' ∧ l = Text.trim l' := by
  rw [splitBinary] at h
  split at h
  · cases h
  · cases h
  · cases h
  case h_4 l' r' hl hr heq =>
    cases h
    refine ⟨l', r', ?_, rfl⟩
    have hsplit := Text.splitOnce_eq heq
    rwa [List.append_assoc] at hsplit

theorem splitComparison_cut {t op l r : Text} (h : splitComparison t = some (op, l, r)) :
    ∃ (c : Char) (l' r' : Text), isInner c = true ∧ t = l' ++ c :: r' ∧ l = Text.trim l' := by
  rw [splitComparison_eq] at h
  obtain ⟨op', hop, hat⟩ := List.exists_of_findSome?_eq_some h
  have hinner : ∃ c cs, op' = c :: cs ∧ isInner c = true := by
    rw [comparisonOps_eq] at hop
    simp only [List.mem_cons, List.not_mem_nil, or_false] at hop
    rcases hop with rfl | rfl | rfl | rfl | rfl | rfl
    all_goals exact ⟨_, _, rfl, by decide⟩
  obtain ⟨c, cs, rfl, hc⟩ := hinner
  rw [comparisonAt] at hat
  split at hat
  case h_1 l' r' heq =>
    split at hat
    · cases hat
      refine ⟨c, l', cs ++ r', hc, ?_, rfl⟩
      have hsplit := Text.splitOnce_eq heq
      rwa [List.append_assoc] at hsplit
    · cases hat
  case h_2 => cases hat

section

variable {ctx : Context} {outputs : Nat → Option Value}

variable (ctx) in
/-- No operator takes a left side that is an error and not a name. -/
theorem evalCompound_of_error (eval : Text → Except Text Value) {t : Text}
    (h : ∀ op ∈ binaryOps, ∀ l r, t = l ++ op :: r →
      ctx.get (Text.trim l) = none ∧ Text.parseI64 (Text.trim l) = none ∧ (eval (Text.trim l)).toOption = none) :
    evalArithmetic ctx eval t = none ∧ evalConcat eval t = none := by
  have herror : ∀ {u : Text}, (eval u).toOption = none → ∃ msg, eval u = .error msg := by
    intro u hu
    cases heval : eval u with
    | error msg => exact ⟨msg, rfl⟩
    | ok v =>
      rw [heval] at hu
      cases hu
  constructor
  · rw [evalArithmetic, List.findSome?_eq_none_iff]
    intro op hop
    split
    case h_2 => rfl
    case h_1 l r hsplit =>
      obtain ⟨l', r', ht, rfl⟩ := splitBinary_cut hsplit
      obtain ⟨hget, hint, heval⟩ := h op hop l' r' ht
      obtain ⟨msg, hmsg⟩ := herror heval
      have hleft : resolveNumericWith ctx eval (Text.trim l') = none := by
        rw [resolveNumericWith, hint, hget, hmsg]
        simp
      rw [hleft]
  · rw [evalConcat]
    split
    case h_2 => rfl
    case h_1 l r hsplit =>
      obtain ⟨l', r', ht, rfl⟩ := splitBinary_cut hsplit
      obtain ⟨msg, hmsg⟩ := herror (h '+' (by decide) l' r' ht).2.2
      rw [hmsg]

theorem Unclosed.get_eq_none {t : Text} (h : Unclosed t) (hctx : ctx.Flat) :
    ctx.get t = none ∧ Text.parseI64 t = none :=
  ⟨hctx.get_eq_none (.inr rfl) h.mem, parseI64_word (.inr rfl) h.mem⟩

theorem eval_unclosed (hctx : ctx.Flat) {t : Text} (h : Unclosed t) :
    (evalExpression ctx outputs t).toOption = none := by
  induction hn : t.length using Nat.strong_induction_on generalizing t with
  | _ n ih =>
    -- the text as the evaluator sees it
    obtain ⟨s, hs, htrim, hunclosed, hlen⟩ : ∃ s, evalExpression ctx outputs t = evalExpression ctx outputs s ∧
        Text.trim s = s ∧ Unclosed s ∧ s.length ≤ t.length :=
      ⟨Text.trim t, (evalExpression_trim t).symm, Text.trim_trim t, h.trim, Text.trim_length t⟩
    have hshort : ∀ {c : Char} {l r : Text}, isInner c = true → s = l ++ c :: r →
        Unclosed (Text.trim l) ∧ (evalExpression ctx outputs (Text.trim l)).toOption = none := by
      intro c l r hc heq
      have hcut := (hunclosed.cut hc heq).trim
      have htriml := Text.trim_length l
      have hl : l.length < s.length := by
        rw [heq, List.length_append, List.length_cons]
        omega
      exact ⟨hcut, ih _ (by omega) hcut rfl⟩
    obtain ⟨x, c, u, hword, hc⟩ := hunclosed.head
    rw [hs, hword, evalExpression_word x hc (by rw [← hword]; exact htrim)]
    cases hcompare : splitComparison s with
    | some q =>
      obtain ⟨op, l, r⟩ := q
      obtain ⟨d, l', r', hd, heq, rfl⟩ := splitComparison_cut hcompare
      have hleft := (hshort hd heq).2
      rw [← hword, evalOperators, hcompare]
      dsimp only
      cases hl : evalExpression ctx outputs (Text.trim l') with
      | error msg => rfl
      | ok v =>
        rw [hl] at hleft
        cases hleft
    | none =>
      rw [evalOperators_word x hc hctx (by rw [← hword]; exact hcompare), ← hword]
      obtain ⟨harithmetic, hconcat⟩ := evalCompound_of_error ctx (evalExpression ctx outputs)
        fun op hop l r heq => by
          obtain ⟨hleft, heval⟩ := hshort (binaryOps_inner op hop) heq
          exact ⟨(hleft.get_eq_none hctx).1, (hleft.get_eq_none hctx).2, heval⟩
      rw [evalCompound, harithmetic, hconcat, hunclosed.splitAccessors]
      rfl

end

end Tinypipe
