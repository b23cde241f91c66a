import Tinypipe.Lib.Rounding
import Tinypipe.Vm.Arithmetic

/-! What an operator between two variables comes to (`eval_expression`, `resolve_numeric`,
`values_equal` and `compare_values` of `tinypipe-vm/src/compiled_executor.rs`). Every operand of
an arithmetic operator and of an order comparison becomes a double on the way. -/

namespace Tinypipe

open Lib

/-- Two variables with an operator between them, as the compiler prints it. -/
def between (x : Identifier) (op : Text) (y : Identifier) : Text := x.1 ++ ' ' :: (op ++ ' ' :: y.1)

def isOperator (c : Char) : Bool :=
  c == '+' || c == '-' || c == '*' || c == '/' || c == '<' || c == '>' || c == '=' || c == '!'

section Reading

variable {ctx : Context} {outputs : Nat → Option Value} {eval : Text → Except Text Value}
  {x y : Identifier} {op : Text}

theorem mem_between {c : Char} (hop : ∀ c ∈ op, isOperator c) (h : c ∈ between x op y) :
    isNameChar c ∨ c = ' ' ∨ isOperator c := by
  rw [between, List.mem_append, List.mem_cons, List.mem_append, List.mem_cons] at h
  rcases h with h | h | h | h | h
  · exact Or.inl (x.chars c h)
  · exact Or.inr (Or.inl h)
  · exact Or.inr (Or.inr (hop c h))
  · exact Or.inr (Or.inl h)
  · exact Or.inl (y.chars c h)

theorem not_mem_between {c : Char} (hop : ∀ c ∈ op, isOperator c) (hname : isNameChar c = false)
    (hblank : c ≠ ' ') (hoperator : isOperator c = false) : c ∉ between x op y := by
  intro h
  rcases mem_between hop h with h | h | h
  · rw [hname] at h
    cases h
  · exact hblank h
  · rw [hoperator] at h
    cases h

theorem not_mem_name {c : Char} (hname : isNameChar c = false) (x : Identifier) : c ∉ x.1 := by
  intro h
  rw [x.chars c h] at hname
  cases hname

theorem trim_name (x : Identifier) : Text.trim x.1 = x.1 := Arith.trim_text (.var x)

theorem trim_between (x y : Identifier) (op : Text) : Text.trim (between x op y) = between x op y := by
  apply Text.trim_eq_self
  · intro c hc
    obtain ⟨d, ds, hds, hd, -⟩ := x.head
    obtain rfl : d = c := by simpa [between, hds] using hc
    exact not_isBlank_of_isNameChar hd
  · intro c hc
    obtain ⟨d, ds, hds, -, -⟩ := y.head
    have hsplit : between x op y = (x.1 ++ ' ' :: (op ++ [' '])) ++ y.1 := by simp [between]
    rw [hsplit, List.getLast?_append_of_ne_nil _ (by simp [hds])] at hc
    exact not_isBlank_of_isNameChar (y.chars c (List.mem_of_getLast? hc))

theorem constant_word {c : Char} (hc : isNameChar c = false) (x : Identifier) (t : Text) :
    constant (x.1 ++ c :: t) = none := by
  have hmem : c ∈ x.1 ++ c :: t := List.mem_append_right _ List.mem_cons_self
  have hword : ∀ w : Text, w.all isNameChar = true → x.1 ++ c :: t ≠ w := by
    rintro w hw rfl
    rw [List.all_eq_true.1 hw c hmem] at hc
    cases hc
  rw [constant, if_neg, if_neg, if_neg]
  · exact not_or.mpr ⟨hword "null" (by decide), hword "None" (by decide)⟩
  · exact not_or.mpr ⟨hword "false" (by decide), hword "False" (by decide)⟩
  · exact not_or.mpr ⟨hword "true" (by decide), hword "True" (by decide)⟩

theorem takeWhile_word {c : Char} (hc : isNameChar c = false) (x : Identifier) (t : Text) :
    (x.1 ++ c :: t).takeWhile isNameChar = x.1 := by
  rw [List.takeWhile_append_of_pos x.chars, List.takeWhile_cons_of_neg (by rw [hc]; exact Bool.false_ne_true),
    List.append_nil]

theorem stripNot_word {c : Char} (hc : isNameChar c = false) (x : Identifier) (t : Text) :
    stripNot (x.1 ++ c :: t) = none := by
  obtain ⟨d, ds, hds, hd, -⟩ := x.head
  have hbang : Text.stripPrefix ['!'] (x.1 ++ c :: t) = none := by
    have hne : d ≠ '!' := by
      rintro rfl
      exact absurd hd (by decide)
    simp [Text.stripPrefix, hds, List.isPrefixOf, hne.symm]
  have hnot : Text.stripPrefix "not " (x.1 ++ c :: t) = none := by
    rw [Text.stripPrefix, if_neg]
    intro hpre
    obtain ⟨rest, hrest⟩ := List.isPrefixOf_iff_prefix.mp hpre
    -- the first word of the text is the name
    have hfirst : ("not" : Text) = x.1 := by
      rw [← takeWhile_word hc x t, ← hrest]
      rfl
    exact x.not_keyword (by rw [← hfirst]; decide)
  rw [stripNot, hnot, hbang]
  rfl

/-- A text that begins with a name is a call only if a bracket follows the name. -/
theorem wholeCall_word {name : Text} {c : Char} (hname : c ∉ name) (hparen : '(' ∈ name) (x : Identifier)
    (t : Text) : wholeCall name (x.1 ++ c :: t) = none := by
  have hprefix : Text.stripPrefix name (x.1 ++ c :: t) = none := by
    rw [Text.stripPrefix, if_neg]
    intro h
    obtain ⟨rest, hrest⟩ := List.isPrefixOf_iff_prefix.1 h
    rcases List.append_eq_append_iff.1 hrest with ⟨u, hu, -⟩ | ⟨u, hu, hnext⟩
    · exact not_mem_name (by decide) x (hu ▸ List.mem_append_left u hparen)
    · cases u with
      | nil =>
        rw [List.append_nil] at hu
        exact not_mem_name (by decide) x (hu ▸ hparen)
      | cons d ds =>
        obtain rfl : c = d := (List.cons.inj hnext).1
        exact hname (hu ▸ List.mem_append_right x.1 List.mem_cons_self)
  rw [wholeCall, hprefix]

/-- The evaluator reaches the operators with the text as it is. -/
theorem evalStep_operators {t ds : Text} {d : Char} (ht : t = d :: ds) (hd : isNameChar d)
    (htrim : Text.trim t = t) (hrange : wholeCall "range(" t = none) (hlen : wholeCall "len(" t = none)
    (hnot : stripNot t = none) :
    evalStep ctx outputs eval t = (constant t).elim (evalOperators ctx outputs eval false t) .ok := by
  have hne : ∀ c, isNameChar c = false → d ≠ c := by
    rintro c hc rfl
    rw [hd] at hc
    cases hc
  have hspace : Json.isSpace d = false := by
    simp [Json.isSpace, hne ' ' (by decide), hne '\n' (by decide), hne '\t' (by decide),
      hne '\r' (by decide)]
  have hquoted := decodeQuoted_eq ht hspace (hne '"' (by decide)) (hne '\'' (by decide))
  have hbrace : (t.head? == some '{') = false := by
    simp [ht, hne '{' (by decide)]
  have hempty : t.isEmpty = false := by rw [ht]; rfl
  simp only [evalStep, htrim, hquoted, hempty, hrange, hlen, hbrace, hnot, Bool.false_eq_true,
    Bool.false_and, if_false, Option.map_none]
  cases constant t with
  | none => rfl
  | some v => rfl

theorem evalStep_between (hop : ∀ c ∈ op, isOperator c) : evalStep ctx outputs eval (between x op y) =
    evalOperators ctx outputs eval false (between x op y) := by
  obtain ⟨d, ds, hds, hd, -⟩ := x.head
  have htext : between x op y = d :: (ds ++ ' ' :: (op ++ ' ' :: y.1)) := by rw [between, hds]; rfl
  have hparen : '(' ∉ between x op y := not_mem_between hop (by decide) (by decide) (by decide)
  rw [evalStep_operators htext hd (trim_between x y op) (wholeCall_eq_none (by decide) hparen)
    (wholeCall_eq_none (by decide) hparen) (stripNot_word (by decide) x _)]
  exact congrArg (Option.elim · _ Except.ok) (constant_word (by decide) x (op ++ ' ' :: y.1))

/-- What a variable is read as: a name may be a word of the expression language. -/
def readName (x : Identifier) (v : Value) : Value :=
  (constant x.1).getD (((F64.parse x.1).map Value.float).getD v)

theorem evalStep_name {v : Value} (h : ctx.get x.1 = some v) :
    evalStep ctx outputs eval x.1 = .ok (readName x v) := by
  obtain ⟨d, ds, hds, hd, -⟩ := x.head
  have hdollar : Text.stripPrefix ['$'] x.1 = none :=
    Text.stripPrefix_eq_none (p := '$') (by simp) (not_mem_name (by decide) x)
  have hname : lookupName ctx outputs x.1 = some v := by
    simp [lookupName, hdollar, h]
  have hparen : '(' ∉ x.1 := not_mem_name (by decide) x
  rw [evalStep_operators hds hd (trim_name x) (wholeCall_eq_none (by decide) hparen)
    (wholeCall_eq_none (by decide) hparen) (Arith.stripNot_text (.var x)), readName]
  cases constant x.1 with
  | some w => rfl
  | none =>
    rw [Option.elim_none, Option.getD_none, evalOperators,
      splitComparison_eq_none (t := x.1) (Arith.text_plain (.var x)), Arith.parseI64_var]
    cases F64.parse x.1 with
    | some f => rfl
    | none =>
      dsimp only
      rw [hname]
      rfl

/-! ### Comparisons -/

theorem trim_blank_right (x : Identifier) : Text.trim (x.1 ++ [' ']) = x.1 := by
  rw [Text.trim_append_blank (by decide), trim_name]

theorem trim_blank_left (y : Identifier) : Text.trim (' ' :: y.1) = y.1 := by
  rw [Text.trim_cons_blank (by decide), trim_name]

theorem comparisonOps_eq :
    comparisonOps = [['>', '='], ['<', '='], ['!', '='], ['=', '='], ['>'], ['<']] := rfl

/-- A comparison operator is found between its two variables. -/
theorem splitComparison_between (hop : op ∈ comparisonOps) (x y : Identifier) :
    splitComparison (between x op y) = some (op, x.1, y.1) := by
  have hsplit : ∀ p ps, isNameChar p = false → p ≠ ' ' → Text.splitOnce (p :: ps) (between x op y) =
      (Text.splitOnce (p :: ps) (op ++ ' ' :: y.1)).map fun q => (x.1 ++ [' '] ++ q.1, q.2) := by
    intro p ps hp hblank
    have htext : between x op y = (x.1 ++ [' ']) ++ (op ++ ' ' :: y.1) := by simp [between]
    rw [htext, Text.splitOnce_append_left _ (by simp [not_mem_name hp x, hblank])]
  have hrest : ∀ p ps, isNameChar p = false → Text.splitOnce (p :: ps) y.1 = none :=
    fun p ps hp => Text.splitOnce_eq_none_of_head (not_mem_name hp y)
  have hnonempty : ∀ z : Identifier, z.1.isEmpty = false := by
    intro z
    obtain ⟨d, ds, hds, -⟩ := z.head
    rw [hds]
    rfl
  rw [comparisonOps_eq] at hop
  rw [splitComparison, comparisonOps_eq]
  simp only [List.mem_cons, List.not_mem_nil, or_false] at hop
  have hgt := fun ps => hsplit '>' ps (by decide) (by decide)
  have hlt := fun ps => hsplit '<' ps (by decide) (by decide)
  have hne := fun ps => hsplit '!' ps (by decide) (by decide)
  have heq := fun ps => hsplit '=' ps (by decide) (by decide)
  have hgt' := fun ps => hrest '>' ps (by decide)
  have hlt' := fun ps => hrest '<' ps (by decide)
  have hne' := fun ps => hrest '!' ps (by decide)
  have heq' := fun ps => hrest '=' ps (by decide)
  rcases hop with rfl | rfl | rfl | rfl | rfl | rfl <;>
    simp only [List.findSome?_cons, hgt, hlt, hne, heq] <;>
    simp [Text.splitOnce, List.isPrefixOf, hgt', hlt', hne', heq', trim_blank_right, trim_blank_left,
      hnonempty]

theorem comparison_operators (hop : op ∈ comparisonOps) : ∀ c ∈ op, isOperator c := by
  rw [comparisonOps_eq] at hop
  simp only [List.mem_cons, List.not_mem_nil, or_false] at hop
  rcases hop with rfl | rfl | rfl | rfl | rfl | rfl <;> simp [isOperator]

theorem evalExpression_eq (t : Text) :
    evalExpression ctx outputs t = evalStep ctx outputs (evalFuel ctx outputs t.length) t := rfl

/-- The text is longer than the names in it. -/
theorem evalFuel_name {v : Value} (h : ctx.get x.1 = some v) {t : Text} (ht : t ≠ []) :
    evalFuel ctx outputs t.length x.1 = .ok (readName x v) := by
  obtain ⟨c, cs, rfl⟩ := List.exists_cons_of_ne_nil ht
  exact evalStep_name h

theorem between_ne_nil (x y : Identifier) (op : Text) : between x op y ≠ [] := by
  simp [between]

theorem evalExpression_comparison {v w : Value} (hx : ctx.get x.1 = some v) (hy : ctx.get y.1 = some w)
    (hop : op ∈ comparisonOps) : evalExpression ctx outputs (between x op y) =
      .ok (.bool (applyComparison op (readName x v) (readName y w))) := by
  rw [evalExpression_eq, evalStep_between (comparison_operators hop), evalOperators,
    splitComparison_between hop]
  dsimp only
  rw [evalFuel_name hx (between_ne_nil x y op), evalFuel_name hy (between_ne_nil x y op)]

/-! ### Arithmetic -/

theorem resolve_name (x : Identifier) : resolveNumericWith ctx eval x.1 =
    ((ctx.get x.1).bind Value.asF64).map F64.toI64 := by
  have hnot : ∀ c, isNameChar c = false → c ∉ x.1 := fun c hc => not_mem_name hc x
  rw [resolveNumericWith, Arith.parseI64_var]
  cases (ctx.get x.1).bind Value.asF64 with
  | some f => rfl
  | none => simp [hnot '.' (by decide), hnot '[' (by decide), hnot '(' (by decide)]

theorem binary_operators {o : Char} (ho : o ∈ binaryOps) : ∀ c ∈ [o], isOperator c := by
  simp only [binaryOps, List.mem_cons, List.not_mem_nil, or_false] at ho
  rcases ho with rfl | rfl | rfl | rfl <;> simp [isOperator]

theorem evalArithmetic_between {o : Char} (ho : o ∈ binaryOps) (x y : Identifier) :
    evalArithmetic ctx eval (between x [o] y) =
      (((ctx.get x.1).bind Value.asF64).map F64.toI64).bind fun a =>
        (((ctx.get y.1).bind Value.asF64).map F64.toI64).bind fun b => arithmetic o a b := by
  have hother : ∀ c, isNameChar c = false → c ≠ ' ' → c ≠ o → cut ctx eval c (between x [o] y) = none := by
    intro c hc hblank hne
    exact cut_of_not_mem (by simp [between, not_mem_name hc x, not_mem_name hc y, hblank, hne])
  have hthis : cut ctx eval o (between x [o] y) =
      (((ctx.get x.1).bind Value.asF64).map F64.toI64).bind fun a =>
        (((ctx.get y.1).bind Value.asF64).map F64.toI64).bind fun b => arithmetic o a b := by
    have hname : isNameChar o = false ∧ o ≠ ' ' := by
      simp only [binaryOps, List.mem_cons, List.not_mem_nil, or_false] at ho
      rcases ho with rfl | rfl | rfl | rfl <;> decide
    have htext : between x [o] y = (x.1 ++ [' ']) ++ o :: (' ' :: y.1) := by simp [between]
    rw [htext, cut_append (by simp [not_mem_name hname.1 x, hname.2]) (by simp) (by simp),
      trim_blank_right, trim_blank_left, resolve_name, resolve_name]
  rw [evalArithmetic_eq]
  simp only [binaryOps, List.mem_cons, List.not_mem_nil, or_false] at ho
  rcases ho with rfl | rfl | rfl | rfl
  · rw [hother '-' (by decide) (by decide) (by decide), hother '*' (by decide) (by decide) (by decide),
      hother '/' (by decide) (by decide) (by decide), hthis, Option.or_none, Option.or_none, Option.or_none]
  · rw [hother '+' (by decide) (by decide) (by decide), hother '*' (by decide) (by decide) (by decide),
      hother '/' (by decide) (by decide) (by decide), hthis, Option.none_or, Option.or_none, Option.or_none]
  · rw [hother '+' (by decide) (by decide) (by decide), hother '-' (by decide) (by decide) (by decide),
      hother '/' (by decide) (by decide) (by decide), hthis, Option.none_or, Option.none_or, Option.or_none]
  · rw [hother '+' (by decide) (by decide) (by decide), hother '-' (by decide) (by decide) (by decide),
      hother '*' (by decide) (by decide) (by decide), hthis, Option.none_or, Option.none_or, Option.none_or]

/-- A text without brackets, quotes and dots has no accessors. -/
theorem scanAccessors_simple {n : Nat} {depth : Int} {base tail t : Text}
    (h : ∀ c ∈ t, isQuote c = false ∧ isOpening c = false ∧ isClosing c = false ∧ c ≠ '.') :
    scanAccessors n depth none base none [] tail t = some (none, [], tail) := by
  induction t generalizing n base with
  | nil => cases n <;> rfl
  | cons c cs ih =>
    cases n with
    | zero => rfl
    | succ n =>
      obtain ⟨hquote, hopen, hclose, hdot⟩ := h c List.mem_cons_self
      have hbracket : c ≠ '[' := by
        rintro rfl
        cases hopen
      simp only [scanAccessors, hquote, hopen, hclose, hbracket, hdot, Bool.false_eq_true, false_and, if_false]
      exact ih fun d hd => h d (List.mem_cons_of_mem c hd)

theorem splitAccessors_between (hop : ∀ c ∈ op, isOperator c) (x y : Identifier) :
    splitAccessors (between x op y) = none := by
  have hsimple : ∀ c ∈ between x op y,
      isQuote c = false ∧ isOpening c = false ∧ isClosing c = false ∧ c ≠ '.' := by
    intro c hc
    have hne : ∀ d, isNameChar d = false → d ≠ ' ' → isOperator d = false → c ≠ d := by
      rintro d hname hblank hoperator rfl
      exact not_mem_between hop hname hblank hoperator hc
    refine ⟨?_, ?_, ?_, hne '.' (by decide) (by decide) (by decide)⟩
    · simp [isQuote, hne '"' (by decide) (by decide) (by decide), hne '\'' (by decide) (by decide) (by decide)]
    · simp [isOpening, hne '(' (by decide) (by decide) (by decide), hne '[' (by decide) (by decide) (by decide),
        hne '{' (by decide) (by decide) (by decide)]
    · simp [isClosing, hne ')' (by decide) (by decide) (by decide), hne ']' (by decide) (by decide) (by decide),
        hne '}' (by decide) (by decide) (by decide)]
  simp [splitAccessors, scanAccessors_simple hsimple]

/-- A name that has no text in a concatenation. -/
def isNullWord (x : Identifier) : Prop := x.1 = ("null" : Text)

theorem concatPart_readName {v : Value} {f : F64} (hv : v.asF64 = some f) (x : Identifier) :
    concatPart (readName x v) = none ↔ isNullWord x := by
  rw [isNullWord]
  by_cases hnull : x.1 = ("null" : Text)
  · refine iff_of_true ?_ hnull
    rw [readName, hnull]
    rfl
  · refine iff_of_false ?_ hnull
    have hnone : x.1 ≠ ("None" : Text) := fun h => x.not_keyword (h ▸ by decide)
    have hconst : constant x.1 = none ∨ ∃ b, constant x.1 = some (.bool b) := by
      rw [constant]
      split_ifs with h₁ h₂ h₃
      · exact Or.inr ⟨true, rfl⟩
      · exact Or.inr ⟨false, rfl⟩
      · exact absurd h₃ (not_or.2 ⟨hnull, hnone⟩)
      · exact Or.inl rfl
    rw [readName]
    rcases hconst with h | ⟨b, h⟩
    · rw [h, Option.getD_none]
      cases F64.parse x.1 with
      | some f => simp [concatPart]
      | none => cases v with
        | int i => simp [concatPart]
        | float f => simp [concatPart]
        | _ => cases hv
    · rw [h]
      simp [concatPart]

theorem evalOperators_between {o : Char} (ho : o ∈ binaryOps) (x y : Identifier) :
    evalOperators ctx outputs eval false (between x [o] y) =
      (ctx.get (between x [o] y)).elim (evalCompound ctx eval false (between x [o] y)) .ok := by
  have hop := binary_operators ho
  have hcompare : splitComparison (between x [o] y) = none := by
    have hnot : ∀ p ps, isNameChar p = false → p ≠ ' ' → p ≠ o →
        Text.splitOnce (p :: ps) (between x [o] y) = none := by
      intro p ps hp hblank hne
      exact Text.splitOnce_eq_none_of_head
        (by simp [between, not_mem_name hp x, not_mem_name hp y, hblank, hne])
    have hne : ∀ c, isOperator c → c ∉ binaryOps → c ≠ o := by
      rintro c - hc rfl
      exact hc ho
    rw [splitComparison, comparisonOps_eq]
    simp only [List.findSome?_cons, hnot '>' _ (by decide) (by decide) (hne '>' (by decide) (by decide)),
      hnot '<' _ (by decide) (by decide) (hne '<' (by decide) (by decide)),
      hnot '!' _ (by decide) (by decide) (hne '!' (by decide) (by decide)),
      hnot '=' _ (by decide) (by decide) (hne '=' (by decide) (by decide)), List.findSome?_nil]
  obtain ⟨d, ds, hds, hd, -⟩ := x.head
  have htext : between x [o] y = d :: (ds ++ ' ' :: ([o] ++ ' ' :: y.1)) := by rw [between, hds]; rfl
  have hparse : Text.parseI64 (between x [o] y) = none := by
    cases hn : Text.parseI64 (between x [o] y) with
    | none => rfl
    | some n =>
      obtain ⟨i, hi⟩ := Text.parseI64_parseSigned hn
      obtain ⟨c, cs, heq, -, hcs⟩ := Text.parseSigned_digits hi
      rw [htext] at heq
      obtain ⟨-, rfl⟩ := List.cons.inj heq
      exact absurd (hcs ' ' (by simp)) (by decide)
  have hblank : ' ' ∈ between x [o] y := List.mem_append_right _ List.mem_cons_self
  have hfloat : F64.parse (between x [o] y) = none := F64.parse_eq_none_of_blank hblank
  have hdollar : Text.stripPrefix ['$'] (between x [o] y) = none :=
    Text.stripPrefix_eq_none (p := '$') (by simp)
      (not_mem_between hop (by decide) (by decide) (by decide))
  have hindex : Text.parseUnsigned 32 (between x [o] y) = none := by
    have hdigits : ∀ cs : Text, ' ' ∈ cs → Text.parseNat cs = none := by
      intro cs hcs
      cases hn : Text.parseNat cs with
      | none => rfl
      | some n => exact absurd ((Text.parseNat_digits hn).2 ' ' hcs) (by decide)
    rw [Text.parseUnsigned]
    split
    · rename_i n hn
      rw [hdigits _ hblank] at hn
      cases hn
    · rfl
    · intro cs heq
      rw [htext] at heq
      obtain ⟨rfl, -⟩ := List.cons.inj heq
      exact absurd hd (by decide)
  have hlookup : lookupName ctx outputs (between x [o] y) = ctx.get (between x [o] y) := by
    rw [lookupName, hdollar, Option.getD_none, hindex, Option.bind_none, Option.or_none]
  rw [evalOperators, hcompare]
  dsimp only
  rw [hparse, hfloat]
  dsimp only
  rw [hlookup]
  cases ctx.get (between x [o] y) with
  | none => rfl
  | some v => rfl

/-- What is evaluated is what stands behind the name of the whole text, or the operation on the
truncated doubles; where that has no result, a sum is a string and everything else an error. -/
theorem evalExpression_arithmetic {v w : Value} (hx : ctx.get x.1 = some v) (hy : ctx.get y.1 = some w)
    {f g : F64} (hv : v.asF64 = some f) (hw : w.asF64 = some g) {o : Char} (ho : o ∈ binaryOps) :
    (∀ u, ctx.get (between x [o] y) = some u → evalExpression ctx outputs (between x [o] y) = .ok u) ∧
    (ctx.get (between x [o] y) = none →
      (∀ i, arithmetic o f.toI64 g.toI64 = some i →
        evalExpression ctx outputs (between x [o] y) = .ok (.int i)) ∧
      (arithmetic o f.toI64 g.toI64 = none →
        (∀ i, evalExpression ctx outputs (between x [o] y) ≠ .ok (.int i)) ∧
        ((∃ e, evalExpression ctx outputs (between x [o] y) = .error e) ↔
          (o = '+' → isNullWord x ∧ isNullWord y)))) := by
  have hop := binary_operators ho
  have harith : evalArithmetic ctx (evalFuel ctx outputs (between x [o] y).length) (between x [o] y) =
      arithmetic o f.toI64 g.toI64 := by
    rw [evalArithmetic_between ho, hx, hy, Option.bind_some, Option.bind_some, hv, hw]
    rfl
  rw [evalExpression_eq, evalStep_between hop, evalOperators_between ho]
  refine ⟨fun u hu => by rw [hu]; rfl, fun hnone => ?_⟩
  rw [hnone, Option.elim_none, evalCompound, harith]
  refine ⟨fun i hi => by rw [hi], fun harith => ?_⟩
  rw [harith]
  dsimp only
  by_cases hplus : o = '+'
  · subst hplus
    have hsplit : splitBinary '+' (between x ['+'] y) = some (x.1, y.1) := by
      have htext : between x ['+'] y = (x.1 ++ [' ']) ++ '+' :: (' ' :: y.1) := by simp [between]
      have hcut : Text.splitOnce ['+'] (between x ['+'] y) = some (x.1 ++ [' '], ' ' :: y.1) := by
        rw [htext]
        exact Text.splitOnce_append _ (by simp [not_mem_name (c := '+') (by decide) x])
      obtain ⟨d, ds, hds, -⟩ := x.head
      rw [splitBinary, hcut, hds]
      dsimp only [List.cons_append]
      rw [← List.cons_append, ← hds, trim_blank_right, trim_blank_left]
    rw [evalConcat, hsplit]
    dsimp only
    rw [evalFuel_name hx (between_ne_nil x y ['+']), evalFuel_name hy (between_ne_nil x y ['+'])]
    dsimp only
    have hnx := concatPart_readName hv x
    have hny := concatPart_readName hw y
    cases hcx : concatPart (readName x v) with
    | none =>
      cases hcy : concatPart (readName y w) with
      | none =>
        rw [splitAccessors_between hop]
        exact ⟨fun i h => (by cases h), iff_of_true ⟨_, rfl⟩ fun _ => ⟨hnx.1 hcx, hny.1 hcy⟩⟩
      | some t =>
        refine ⟨fun i h => (by cases h), iff_of_false (by rintro ⟨e, ⟨⟩⟩) fun h => ?_⟩
        rw [hny.2 (h rfl).2] at hcy
        cases hcy
    | some s =>
      refine ⟨fun i h => (by cases h), iff_of_false (by rintro ⟨e, ⟨⟩⟩) fun h => ?_⟩
      rw [hnx.2 (h rfl).1] at hcx
      cases hcx
  · have hconcat : evalConcat (evalFuel ctx outputs (between x [o] y).length) (between x [o] y) = none := by
      have hnot : '+' ∉ between x [o] y := by
        simp [between, not_mem_name (c := '+') (by decide) x, not_mem_name (c := '+') (by decide) y,
          Ne.symm hplus]
      rw [evalConcat, splitBinary, Text.splitOnce_eq_none hnot]
    rw [hconcat, splitAccessors_between hop]
    exact ⟨fun i h => (by cases h), iff_of_true ⟨_, rfl⟩ fun h => absurd h hplus⟩

end Reading

/-! ### The six comparisons -/

inductive Relation where
  | eq | ne | lt | le | gt | ge
deriving DecidableEq

namespace Relation

def cmpOp : Relation → Ast.CmpOp
  | eq => .eq
  | ne => .notEq
  | lt => .lt
  | le => .ltE
  | gt => .gt
  | ge => .gtE

def symbol : Relation → Text
  | eq => ['=', '=']
  | ne => ['!', '=']
  | lt => ['<']
  | le => ['<', '=']
  | gt => ['>']
  | ge => ['>', '=']

def holds : Relation → Int → Int → Bool
  | eq, a, b => a = b
  | ne, a, b => a ≠ b
  | lt, a, b => a < b
  | le, a, b => a ≤ b
  | gt, a, b => a > b
  | ge, a, b => a ≥ b

theorem symbol_mem (rel : Relation) : rel.symbol ∈ comparisonOps := by
  rw [comparisonOps_eq]
  cases rel <;> simp [symbol]

theorem formatExpr_comparison (rel : Relation) (x : Identifier) (e : Ast.Expr) :
    formatExpr (.compare (.name x.1) [rel.cmpOp] [e]) = x.1 ++ ' ' :: (rel.symbol ++ ' ' :: formatExpr e) := by
  have htext : cmpText rel.cmpOp = ' ' :: (rel.symbol ++ [' ']) := by cases rel <;> rfl
  have hformat : formatExpr (.compare (.name x.1) [rel.cmpOp] [e]) =
      x.1 ++ Text.concat [cmpText rel.cmpOp ++ formatExpr e] := rfl
  rw [hformat, htext]
  simp [Text.concat]

theorem formatExpr_compare (rel : Relation) (x y : Identifier) :
    formatExpr (.compare (.name x.1) [rel.cmpOp] [.name y.1]) = between x rel.symbol y :=
  formatExpr_comparison rel x (.name y.1)

end Relation

/-- Two integers that become the same double. -/
def sameDouble (a b : Int64) : Bool := (F64.ofInt a.toInt).eq (F64.ofInt b.toInt)

/-- An order comparison is right unless the doubles hide that the integers differ. -/
def Relation.Tells (rel : Relation) (a b : Int64) : Prop :=
  match rel with
  | eq | ne => True
  | lt | ge => a.toInt < b.toInt → sameDouble a b = false
  | gt | le => b.toInt < a.toInt → sameDouble a b = false

theorem natAbs_lt (a : Int64) : a.toInt.natAbs < 2 ^ 64 := by
  have h := a.toInt_lt
  have h' := a.le_toInt
  omega

theorem isNan_ofInt64 (a : Int64) : (F64.ofInt a.toInt).isNan = false :=
  (F64.order_ofInt (natAbs_lt a)).2

theorem sameDouble_iff (a b : Int64) :
    sameDouble a b = false ↔ (F64.ofInt a.toInt).order ≠ (F64.ofInt b.toInt).order := by
  rw [← Bool.not_eq_true, sameDouble, F64.eq_iff (isNan_ofInt64 a) (isNan_ofInt64 b)]

/-- What the evaluator does for each of the symbols. -/
def Relation.compares (rel : Relation) (v w : Value) : Bool :=
  match rel with
  | eq => valuesEqual v w
  | ne => !valuesEqual v w
  | lt => compareValues v w F64.lt
  | le => compareValues v w F64.le
  | gt => compareValues v w F64.gt
  | ge => compareValues v w F64.ge

theorem applyComparison_symbol (rel : Relation) (v w : Value) :
    applyComparison rel.symbol v w = rel.compares v w := by
  cases rel with
  | eq => exact if_pos (by decide)
  | ne => rw [applyComparison, if_neg (by decide), if_pos (by decide), Relation.compares]
  | gt => rw [applyComparison, if_neg (by decide), if_neg (by decide), if_pos (by decide),
      Relation.compares]
  | lt => rw [applyComparison, if_neg (by decide), if_neg (by decide), if_neg (by decide),
      if_pos (by decide), Relation.compares]
  | ge => rw [applyComparison, if_neg (by decide), if_neg (by decide), if_neg (by decide),
      if_neg (by decide), if_pos (by decide), Relation.compares]
  | le => rw [applyComparison, if_neg (by decide), if_neg (by decide), if_neg (by decide),
      if_neg (by decide), if_neg (by decide), if_pos (by decide), Relation.compares]

theorem compares_ints (rel : Relation) (a b : Int64) :
    rel.compares (.int a) (.int b) = rel.holds a.toInt b.toInt ↔ rel.Tells a b := by
  have hlt := F64.lt_iff (isNan_ofInt64 a) (isNan_ofInt64 b)
  have hgt := F64.gt_iff (isNan_ofInt64 a) (isNan_ofInt64 b)
  have hle := F64.le_iff (isNan_ofInt64 a) (isNan_ofInt64 b)
  have hge := F64.ge_iff (isNan_ofInt64 a) (isNan_ofInt64 b)
  have hsame := sameDouble_iff a b
  have hmono : a.toInt ≤ b.toInt → (F64.ofInt a.toInt).order ≤ (F64.ofInt b.toInt).order :=
    F64.order_ofInt_mono (natAbs_lt a) (natAbs_lt b)
  have hmono' : b.toInt ≤ a.toInt → (F64.ofInt b.toInt).order ≤ (F64.ofInt a.toInt).order :=
    F64.order_ofInt_mono (natAbs_lt b) (natAbs_lt a)
  have hints : ∀ cmp, compareValues (.int a) (.int b) cmp = cmp (F64.ofInt a.toInt) (F64.ofInt b.toInt) :=
    fun cmp => rfl
  generalize F64.ofInt a.toInt = f at *
  generalize F64.ofInt b.toInt = g at *
  cases rel with
  | eq =>
    refine iff_of_true ?_ trivial
    rw [Relation.compares, valuesEqual, Relation.holds, Bool.eq_iff_iff, beq_iff_eq, decide_eq_true_iff,
      Int64.toInt_inj]
  | ne =>
    refine iff_of_true ?_ trivial
    rw [Relation.compares, valuesEqual, Relation.holds, Bool.eq_iff_iff, Bool.not_eq_true',
      beq_eq_false_iff_ne, decide_eq_true_iff, ne_eq, ne_eq, Int64.toInt_inj]
  | lt =>
    rw [Relation.compares, hints, Relation.holds, Relation.Tells, Bool.eq_iff_iff, hlt, decide_eq_true_iff,
      hsame]
    omega
  | le =>
    rw [Relation.compares, hints, Relation.holds, Relation.Tells, Bool.eq_iff_iff, hle, decide_eq_true_iff,
      hsame]
    omega
  | gt =>
    rw [Relation.compares, hints, Relation.holds, Relation.Tells, Bool.eq_iff_iff, hgt, decide_eq_true_iff,
      hsame]
    omega
  | ge =>
    rw [Relation.compares, hints, Relation.holds, Relation.Tells, Bool.eq_iff_iff, hge, decide_eq_true_iff,
      hsame]
    omega

/-! ### Exactness -/

/-- The integer a variable is computed with: it has been a double. -/
def rounded (a : Int64) : Int64 := (F64.ofInt a.toInt).toI64

/-- The integer where it fits, and an error where it does not. -/
structure ExactResult (result : Except Text Value) (n : Int) : Prop where
  fits : ∀ i, Value.checkedI64 n = some i → result = .ok (.int i)
  overflows : Value.checkedI64 n = none → ∃ e, result = .error e

/-- Rounding the operands changes nothing, an overflow is not a sum, and a binding of the text of
the operation itself holds its result. -/
structure ExactWhen (ctx : Context) (x y : Identifier) (op : ArithOp) (a b : Int64) : Prop where
  unrounded : ctx.get (between x [op.symbol] y) = none →
    Value.checkedI64 (op.apply a.toInt b.toInt) =
      Value.checkedI64 (op.apply (rounded a).toInt (rounded b).toInt)
  no_concat : ctx.get (between x [op.symbol] y) = none →
    Value.checkedI64 (op.apply a.toInt b.toInt) = none → op = .add → isNullWord x ∧ isNullWord y
  bound : ∀ u, ctx.get (between x [op.symbol] y) = some u →
    ∃ i, Value.checkedI64 (op.apply a.toInt b.toInt) = some i ∧ u = .int i

theorem arithmetic_op (op : ArithOp) (a b : Int64) :
    arithmetic op.symbol a b = Value.checkedI64 (op.apply a.toInt b.toInt) := by
  cases op <;> rfl

theorem symbol_binary (op : ArithOp) : op.symbol ∈ binaryOps := by
  cases op <;> simp [binaryOps, ArithOp.symbol]

theorem evalExpression_exact {ctx : Context} (outputs : Nat → Option Value) {x y : Identifier}
    (op : ArithOp) {a b : Int64} (hx : ctx.get x.1 = some (.int a)) (hy : ctx.get y.1 = some (.int b)) :
    ExactResult (evalExpression ctx outputs (between x [op.symbol] y)) (op.apply a.toInt b.toInt) ↔
      ExactWhen ctx x y op a b := by
  have hplus : op.symbol = '+' ↔ op = .add := by cases op <;> simp [ArithOp.symbol]
  obtain ⟨hbound, hfree⟩ := @evalExpression_arithmetic ctx outputs x y _ _ hx hy _ _ rfl rfl _
    (symbol_binary op)
  rw [arithmetic_op, hplus] at hfree
  change _ → (∀ i, Value.checkedI64 (op.apply (rounded a).toInt (rounded b).toInt) = some i → _) ∧
    (Value.checkedI64 (op.apply (rounded a).toInt (rounded b).toInt) = none → _) at hfree
  generalize evalExpression ctx outputs (between x [op.symbol] y) = result at *
  generalize hrounded : Value.checkedI64 (op.apply (rounded a).toInt (rounded b).toInt) = r at hfree
  cases hget : ctx.get (between x [op.symbol] y) with
  | some u =>
    have hok := hbound u hget
    constructor
    · rintro ⟨hfits, hover⟩
      refine ⟨fun h => ?_, fun h => ?_, fun w hw => ?_⟩
      · cases hget.symm.trans h
      · cases hget.symm.trans h
      · cases hcheck : Value.checkedI64 (op.apply a.toInt b.toInt) with
        | none =>
          obtain ⟨e, he⟩ := hover hcheck
          cases hok.symm.trans he
        | some i =>
          have hval := hok.symm.trans (hfits i hcheck)
          injection hval with hval
          injection hget.symm.trans hw with heq
          exact ⟨i, rfl, heq.symm.trans hval⟩
    · intro h
      obtain ⟨i, hi, hu⟩ := h.bound u hget
      refine ⟨fun j hj => ?_, fun hnone => ?_⟩
      · rw [hok, hu, Option.some.inj (hi.symm.trans hj)]
      · cases hi.symm.trans hnone
  | none =>
    obtain ⟨hint, hnoint⟩ := hfree hget
    constructor
    · rintro ⟨hfits, hover⟩
      have heq : Value.checkedI64 (op.apply a.toInt b.toInt) = r := by
        cases hcheck : Value.checkedI64 (op.apply a.toInt b.toInt) with
        | some i =>
          cases hr : r with
          | none => exact absurd (hfits i hcheck) ((hnoint hr).1 i)
          | some j =>
            have hval := (hfits i hcheck).symm.trans (hint j hr)
            injection hval with hval
            injection hval with hval
            rw [hval]
        | none =>
          cases hr : r with
          | none => rfl
          | some j =>
            obtain ⟨e, he⟩ := hover hcheck
            cases (hint j hr).symm.trans he
      exact ⟨fun _ => heq.trans hrounded.symm, fun _ hnone => (hnoint (heq ▸ hnone)).2.1 (hover hnone),
        fun u hu => by cases hget.symm.trans hu⟩
    · intro h
      have heq := (h.unrounded hget).trans hrounded
      refine ⟨fun i hi => hint i (heq ▸ hi), fun hnone => ?_⟩
      exact (hnoint (heq ▸ hnone)).2.2 (h.no_concat hget hnone)

/-- A name that is a constant or a number of the expression language. -/
def isWord (x : Identifier) : Bool := (constant x.1).isSome || (F64.parse x.1).isSome

theorem readName_of_not_word {x : Identifier} (h : isWord x = false) (v : Value) : readName x v = v := by
  rw [isWord, Bool.or_eq_false_iff, Option.isSome_eq_false_iff, Option.isSome_eq_false_iff,
    Option.isNone_iff_eq_none, Option.isNone_iff_eq_none] at h
  rw [readName, h.1, h.2]
  rfl

/-- The doubles tell the operands apart, where both names are read as variables. -/
structure ComparesWhen (x y : Identifier) (rel : Relation) (a b : Int64) : Prop where
  tells : isWord x = false → isWord y = false → rel.Tells a b
  words : (isWord x || isWord y) = true →
    rel.compares (readName x (.int a)) (readName y (.int b)) = rel.holds a.toInt b.toInt

theorem compares_names (x y : Identifier) (rel : Relation) (a b : Int64) :
    rel.compares (readName x (.int a)) (readName y (.int b)) = rel.holds a.toInt b.toInt ↔
      ComparesWhen x y rel a b := by
  by_cases hword : (isWord x || isWord y) = true
  · refine ⟨fun h => ⟨fun hx hy => ?_, fun _ => h⟩, fun h => h.words hword⟩
    rw [hx, hy] at hword
    cases hword
  · obtain ⟨hx, hy⟩ := Bool.or_eq_false_iff.1 (Bool.not_eq_true _ ▸ hword)
    rw [readName_of_not_word hx, readName_of_not_word hy, compares_ints]
    exact ⟨fun h => ⟨fun _ _ => h, fun h' => absurd h' hword⟩, fun h => h.tells hx hy⟩

/-- A finite double that is no integer. -/
def Value.fractional : Value → Bool
  | .float f => f.isFinite && f.magnitude % 2 ^ 1074 != 0
  | _ => false

/-- The integer of a number without its fraction. -/
def Value.truncated : Value → Option Int64
  | .int i => some i
  | .float f => some f.toI64
  | _ => none

/-- The operation has no result on the truncated doubles, or another one than on the truncated
operands. -/
structure FractionKept (ctx : Context) (x y : Identifier) (o : Char) (f g : F64) (a b : Int64) :
    Prop where
  computed : ctx.get (between x [o] y) = none →
    ∀ i, arithmetic o a b = some i → arithmetic o f.toI64 g.toI64 ≠ some i
  bound : ∀ u, ctx.get (between x [o] y) = some u → ∀ i, arithmetic o a b = some i → u ≠ .int i

theorem evalExpression_fraction {ctx : Context} (outputs : Nat → Option Value) {x y : Identifier}
    {v w : Value} (hx : ctx.get x.1 = some v) (hy : ctx.get y.1 = some w) {f g : F64}
    (hv : v.asF64 = some f) (hw : w.asF64 = some g) {o : Char} (ho : o ∈ binaryOps) (a b : Int64) :
    (∀ i, arithmetic o a b = some i → evalExpression ctx outputs (between x [o] y) ≠ .ok (.int i)) ↔
      FractionKept ctx x y o f g a b := by
  obtain ⟨hbound, hfree⟩ := @evalExpression_arithmetic ctx outputs x y v w hx hy f g hv hw o ho
  constructor
  · intro h
    refine ⟨fun hget i hi harith => h i hi ((hfree hget).1 i harith), fun u hu i hi heq => ?_⟩
    exact h i hi (heq ▸ hbound u hu)
  · intro h i hi hok
    cases hget : ctx.get (between x [o] y) with
    | some u =>
      injection (hbound u hget).symm.trans hok with heq
      exact h.bound u hget i hi heq
    | none =>
      cases harith : arithmetic o f.toI64 g.toI64 with
      | none => exact ((hfree hget).2 harith).1 i hok
      | some j =>
        have heq := ((hfree hget).1 j harith).symm.trans hok
        injection heq with heq
        injection heq with heq
        exact h.computed hget i hi (heq ▸ harith)

theorem formatExpr_binOp {op : Ast.Operator} {o : Char} (h : operatorText op = [o]) (x y : Identifier) :
    formatExpr (.binOp (.name x.1) op (.name y.1)) = between x [o] y := by
  change x.1 ++ ' ' :: operatorText op ++ ' ' :: y.1 = _
  rw [h, between]
  simp

/-- The three exact operators, the six comparisons, and the four operators on a fraction. -/
theorem numeric_exactness (ctx : Context) (outputs : Nat → Option Value) (x y : Identifier) :
    (∀ (op : ArithOp) (a b : Int64), ctx.get x.1 = some (.int a) → ctx.get y.1 = some (.int b) →
      (ExactResult (evalExpression ctx outputs
        (formatExpr (.binOp (.name x.1) op.operator (.name y.1)))) (op.apply a.toInt b.toInt) ↔
        ExactWhen ctx x y op a b)) ∧
    (∀ (rel : Relation) (a b : Int64), ctx.get x.1 = some (.int a) → ctx.get y.1 = some (.int b) →
      (evalExpression ctx outputs (formatExpr (.compare (.name x.1) [rel.cmpOp] [.name y.1])) =
        .ok (.bool (rel.holds a.toInt b.toInt)) ↔ ComparesWhen x y rel a b)) ∧
    (∀ (op : Ast.Operator) (o : Char) (v w : Value) (f g : F64) (a b : Int64),
      operatorText op = [o] → o ∈ binaryOps → ctx.get x.1 = some v → ctx.get y.1 = some w →
      v.asF64 = some f → w.asF64 = some g → v.truncated = some a → w.truncated = some b →
      (v.fractional || w.fractional) = true →
      ((∀ i, arithmetic o a b = some i →
        evalExpression ctx outputs (formatExpr (.binOp (.name x.1) op (.name y.1))) ≠ .ok (.int i)) ↔
        FractionKept ctx x y o f g a b)) := by
  refine ⟨fun op a b hx hy => ?_, fun rel a b hx hy => ?_,
    fun op o v w f g a b hop ho hx hy hv hw _ _ _ => ?_⟩
  · have hop : operatorText op.operator = [op.symbol] := by cases op <;> rfl
    rw [formatExpr_binOp hop]
    exact evalExpression_exact outputs op hx hy
  · rw [Relation.formatExpr_compare, evalExpression_comparison hx hy rel.symbol_mem,
      applyComparison_symbol, ← compares_names x y rel a b]
    simp only [Except.ok.injEq, Value.bool.injEq]
  · rw [formatExpr_binOp hop]
    exact evalExpression_fraction outputs hx hy hv hw ho a b

def pair (v w : Value) : Context := (Context.new.set ['a'] v).set ['b'] w

def oneAndAHalf : F64 := F64.ofRatio false 3 2

def above53 : Int64 := 9007199254740993

def atPower53 : Int64 := 9007199254740992

theorem numeric_exactness_small :
    (ExactResult (evalExpression (pair (.int 3) (.int 5)) (fun _ => none)
      (formatExpr (.binOp (.name ['a']) .mult (.name ['b'])))) 15 ↔
        ExactWhen (pair (.int 3) (.int 5)) nameA nameB .mult 3 5) ∧
    (evalExpression (pair (.int 3) (.int 5)) (fun _ => none)
      (formatExpr (.compare (.name ['a']) [.lt] [.name ['b']])) = .ok (.bool true) ↔
        ComparesWhen nameA nameB .lt 3 5) ∧
    ((∀ i, arithmetic '/' 1 0 = some i → evalExpression (pair (.float oneAndAHalf) (.int 0))
      (fun _ => none) (formatExpr (.binOp (.name ['a']) .div (.name ['b']))) ≠ .ok (.int i)) ↔
        FractionKept (pair (.float oneAndAHalf) (.int 0)) nameA nameB '/' oneAndAHalf (F64.ofInt 0) 1 0) :=
  ⟨(numeric_exactness (pair (.int 3) (.int 5)) (fun _ => none) nameA nameB).1 .mult 3 5 rfl rfl,
    (numeric_exactness (pair (.int 3) (.int 5)) (fun _ => none) nameA nameB).2.1 .lt 3 5 rfl rfl,
    (numeric_exactness (pair (.float oneAndAHalf) (.int 0)) (fun _ => none) nameA nameB).2.2 .div '/'
      (.float oneAndAHalf) (.int 0) oneAndAHalf (F64.ofInt 0) 1 0 (by decide) (by decide) rfl rfl rfl rfl
      (by decide +kernel) rfl (by decide +kernel)⟩

/-- A sum is rounded, an overflow becomes a text, two integers are not told apart, and a fraction
is dropped. -/
theorem inexact_values :
    evalExpression (pair (.int above53) (.int 0)) (fun _ => none)
      (formatExpr (.binOp (.name ['a']) .add (.name ['b']))) = .ok (.int atPower53) ∧
    evalExpression (pair (.int Int64.maxValue) (.int 1)) (fun _ => none)
      (formatExpr (.binOp (.name ['a']) .add (.name ['b']))) = .ok (.string "92233720368547758071") ∧
    evalExpression (pair (.int above53) (.int atPower53)) (fun _ => none)
      (formatExpr (.compare (.name ['a']) [.gt] [.name ['b']])) = .ok (.bool false) ∧
    evalExpression (pair (.float oneAndAHalf) (.int 1)) (fun _ => none)
      (formatExpr (.binOp (.name ['a']) .add (.name ['b']))) = .ok (.int 2) := by
  decide +kernel

end Tinypipe
