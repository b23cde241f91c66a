import Tinypipe.Lib.Decimal
import Tinypipe.Vm.Literals

/-! Strings, numbers and variables as texts (`format_expr` of `tinypipe-compiler/src/transform.rs`), and what
`eval_expression` of `tinypipe-vm/src/compiled_executor.rs` reads them as: as a value, and as a key of a dict. -/

namespace Tinypipe

open Lib

/-- A string, a number or a variable. -/
inductive Scalar where
  | str (s : Text)
  | int (i : Int)
  | float (f : F64)
  | name (x : Identifier)

namespace Scalar

/-- A negative number is a sign before a constant. -/
def toExpr : Scalar → Ast.Expr
  | str s => .constant (.str s)
  | int (.ofNat n) => .constant (.int n)
  | int (.negSucc n) => .unaryOp .uSub (.constant (.int (n + 1)))
  | float f => if f.sign then .unaryOp .uSub (.constant (.float f.neg)) else .constant (.float f)
  | name x => .name x.1

def text (a : Scalar) : Text := formatExpr a.toExpr

end Scalar

/-- The text of a value that is a key. -/
def keyText : Value → Option Text
  | .string s => some s
  | .int i => some (Text.ofInt i.toInt)
  | .float f => some f.toText
  | _ => none

section

variable (ctx : Context)

/-- The key that an expression stands for. -/
def Scalar.key : Scalar → Option Text
  | .str s => some s
  | .int i => some (Text.ofInt i)
  | .float f => some (Scalar.text (.float f))
  | .name x => (ctx.get x.1).bind keyText

def Scalar.value : Scalar → Option Value
  | .str s => some (.string s)
  | .int i => (Value.checkedI64 i).map .int
  | .float f => some (.float f)
  | .name x => ctx.get x.1

end

/-! ### What they are read as -/

namespace Scalar

theorem text_str (s : Text) : (str s).text = quoted s := rfl

theorem text_name (x : Identifier) : (name x).text = x.1 := rfl

theorem text_int (i : Int) : (int i).text = Text.ofInt i := by
  cases i <;> rfl

theorem text_float (f : F64) : (float f).text = if f.sign then '-' :: f.neg.toText else f.toText := by
  rw [text, toExpr]
  split <;> rfl

end Scalar

section

variable {ctx : Context} {outputs : Nat → Option Value}

theorem evalExpression_trim (t : Text) : evalExpression ctx outputs (Text.trim t) = evalExpression ctx outputs t := by
  rw [evalExpression_unfold, evalExpression_unfold t, evalStep, evalStep, Text.trim_trim]

/-- The text of a number. -/
def Numeral (t : Text) : Prop := t ≠ [] ∧ ∀ c ∈ t, F64.isNumeral c = true

theorem Numeral.not_mem {t : Text} (h : Numeral t) {c : Char} (hc : F64.isNumeral c = false) : c ∉ t := by
  intro hmem
  rw [h.2 c hmem] at hc
  cases hc

theorem numeral_int (i : Int) : Numeral (Scalar.int i).text := by
  rw [Scalar.text_int]
  cases i with
  | ofNat n => exact ⟨Text.ofNat_ne_nil n, fun c hc => F64.isNumeral_of_isDigit (Text.isDigit_of_mem_ofNat hc)⟩
  | negSucc n =>
    refine ⟨List.cons_ne_nil _ _, fun c hc => ?_⟩
    rcases List.mem_cons.1 hc with rfl | hc
    · decide
    · exact F64.isNumeral_of_isDigit (Text.isDigit_of_mem_ofNat hc)

theorem numeral_float (f : F64) : Numeral (Scalar.float f).text := by
  rw [Scalar.text_float]
  split
  · refine ⟨List.cons_ne_nil _ _, fun c hc => ?_⟩
    rcases List.mem_cons.1 hc with rfl | hc
    · decide
    · exact F64.toText_chars _ c hc
  · exact ⟨F64.toText_ne_nil f, F64.toText_chars f⟩

theorem parse_float (f : F64) : (F64.parse (Scalar.float f).text).isSome = true := by
  rw [Scalar.text_float]
  split
  case isTrue hsign => exact F64.parse_minus_toText (by rw [F64.sign_neg, hsign]; rfl)
  case isFalse => exact F64.parse_toText f

theorem not_isBlank_of_isNumeral {c : Char} (h : F64.isNumeral c = true) : Text.isBlank c = false := by
  rw [F64.isNumeral, Bool.or_eq_true] at h
  rcases h with h | h
  · exact not_isBlank_of_isNameChar (isNameChar_of_isDigit h)
  · simp only [List.elem_eq_mem, List.mem_cons, List.not_mem_nil, or_false, decide_eq_true_eq] at h
    rcases h with rfl | rfl | rfl | rfl | rfl | rfl | rfl <;> decide

theorem Numeral.trim {t : Text} (h : Numeral t) : Text.trim t = t :=
  Text.trim_eq_self (fun c hc => not_isBlank_of_isNumeral (h.2 c (List.mem_of_head? hc)))
    fun c hc => not_isBlank_of_isNumeral (h.2 c (List.mem_of_getLast? hc))

theorem Numeral.trimQuotes {t : Text} (h : Numeral t) : trimQuotes t = t := by
  have hplain : ∀ c ∈ t, (c == '"' || c == '\\') = false := by
    intro c hc
    rw [Bool.or_eq_false_iff, beq_eq_false_iff_ne, beq_eq_false_iff_ne]
    constructor
    · rintro rfl
      exact h.not_mem (by decide) hc
    · rintro rfl
      exact h.not_mem (by decide) hc
  rw [trimQuotes_eq_self]
  exact ⟨fun c hc => hplain c (List.mem_of_head? hc), fun c hc => hplain c (List.mem_of_getLast? hc)⟩

theorem Numeral.splitComparison {t : Text} (h : Numeral t) : splitComparison t = none := by
  have hop : ∀ op ∈ comparisonOps, ∃ c cs, op = c :: cs ∧ F64.isNumeral c = false := by
    rw [comparisonOps_eq]
    simp only [List.forall_mem_cons]
    exact ⟨⟨_, _, rfl, by decide⟩, ⟨_, _, rfl, by decide⟩, ⟨_, _, rfl, by decide⟩, ⟨_, _, rfl, by decide⟩,
      ⟨_, _, rfl, by decide⟩, ⟨_, _, rfl, by decide⟩, by simp⟩
  rw [Tinypipe.splitComparison, List.findSome?_eq_none_iff]
  intro op hmem
  obtain ⟨c, cs, rfl, hc⟩ := hop op hmem
  rw [Text.splitOnce_eq_none_of_head (h.not_mem hc)]

theorem Numeral.constant {t : Text} (h : Numeral t) : constant t = none := by
  have hword : ∀ (w : Text) (c : Char), c ∈ w → F64.isNumeral c = false → t ≠ w := by
    rintro w c hmem hc rfl
    exact h.not_mem hc hmem
  rw [Tinypipe.constant, if_neg, if_neg, if_neg]
  · exact not_or.2 ⟨hword "null" 'u' (by decide) (by decide), hword "None" 'o' (by decide) (by decide)⟩
  · exact not_or.2 ⟨hword "false" 'l' (by decide) (by decide), hword "False" 'l' (by decide) (by decide)⟩
  · exact not_or.2 ⟨hword "true" 'r' (by decide) (by decide), hword "True" 'r' (by decide) (by decide)⟩

/-- The evaluator comes to the operators with the number as it is. -/
theorem Numeral.evalExpression {t : Text} (h : Numeral t) : evalExpression ctx outputs t =
    evalOperators ctx outputs (evalExpression ctx outputs) false t := by
  obtain ⟨c, cs, rfl⟩ := List.exists_cons_of_ne_nil h.1
  have hne : ∀ d, F64.isNumeral d = false → c ≠ d := by
    rintro d hd rfl
    exact h.not_mem hd List.mem_cons_self
  have hspace : Json.isSpace c = false := by
    simp [Json.isSpace, hne ' ' (by decide), hne '\n' (by decide), hne '\t' (by decide), hne '\r' (by decide)]
  have hdecode := decodeQuoted_eq (Eq.refl (c :: cs)) hspace (hne '"' (by decide)) (hne '\'' (by decide))
  have hparen : '(' ∉ c :: cs := h.not_mem (by decide)
  have hbrace : ((c :: cs).head? == some '{') = false := by
    simp [hne '{' (by decide)]
  have hnot : stripNot (c :: cs) = none := by
    rw [stripNot, Text.stripPrefix_eq_none (p := 'o') (by decide) (h.not_mem (by decide)),
      Text.stripPrefix_eq_none (p := '!') (by decide) (h.not_mem (by decide))]
    rfl
  rw [evalExpression_unfold, evalStep, h.trim, hdecode]
  dsimp only
  rw [List.isEmpty_cons, if_neg Bool.false_ne_true, wholeCall_eq_none (by decide) hparen,
    wholeCall_eq_none (by decide) hparen, if_neg Bool.false_ne_true]
  dsimp only [Option.map_none]
  rw [h.constant]
  dsimp only
  rw [hbrace, Bool.false_and, if_neg Bool.false_ne_true, hnot]

theorem Numeral.evalExpression_int {t : Text} (h : Numeral t) {n : Int64} (hn : Text.parseI64 t = some n) :
    Tinypipe.evalExpression ctx outputs t = .ok (.int n) := by
  rw [h.evalExpression, evalOperators, h.splitComparison, hn]

theorem Numeral.evalExpression_float {t : Text} (h : Numeral t) (hint : Text.parseI64 t = none) {f : F64}
    (hf : F64.parse t = some f) : Tinypipe.evalExpression ctx outputs t = .ok (.float f) := by
  rw [h.evalExpression, evalOperators, h.splitComparison, hint, hf]

theorem parseI64_int {i : Int} (h : -2 ^ 63 ≤ i ∧ i < 2 ^ 63) : Text.parseI64 (Text.ofInt i) = some (Int64.ofInt i) := by
  refine Text.parseI64_of_parseSigned ?_ h
  cases i with
  | ofNat n => exact Text.parseSigned_ofNat n
  | negSucc n =>
    have hneg : Text.parseSigned (Text.ofInt (.negSucc n)) =
        (Text.parseNat (Text.ofNat (n + 1))).map fun m => -(m : Int) := rfl
    rw [hneg, Text.parseNat_ofNat]
    rfl

/-- What a key must be to come out of a dict. -/
def KeyForm (k : Text) : Prop := ':' ∉ k ∧ k ≠ [] ∧ PlainEnds k

namespace Scalar

/-- The scalar is read as what it stands for. -/
def ReadsBack (ctx : Context) (outputs : Nat → Option Value) : Scalar → Prop
  | str s => Literal ctx outputs s
  | int i => -2 ^ 63 ≤ i ∧ i < 2 ^ 63
  | float f => Text.parseI64 (float f).text = none ∧ F64.parse (float f).text = some f
  | name x => ∃ v, ctx.get x.1 = some v ∧ readName x v = v

theorem readsBack_iff (a : Scalar) : (∃ v, a.value ctx = some v ∧ evalExpression ctx outputs a.text = .ok v) ↔
    a.ReadsBack ctx outputs := by
  cases a with
  | str s =>
    constructor
    · rintro ⟨v, hv, h⟩
      cases hv
      exact (evalExpression_quoted s).1 h
    · intro h
      exact ⟨.string s, rfl, (evalExpression_quoted s).2 h⟩
  | int i =>
    rw [value, ReadsBack]
    constructor
    · rintro ⟨v, hv, -⟩
      obtain ⟨n, hn, -⟩ := Option.map_eq_some_iff.1 hv
      rw [Value.checkedI64] at hn
      split at hn
      case isTrue h => exact h
      case isFalse => cases hn
    · intro h
      refine ⟨.int (Int64.ofInt i), by rw [Value.checkedI64, if_pos h]; rfl, ?_⟩
      refine (numeral_int i).evalExpression_int ?_
      rw [text_int, parseI64_int h]
  | float f =>
    constructor
    · rintro ⟨v, hv, h⟩
      cases hv
      obtain ⟨g, hg⟩ := Option.isSome_iff_exists.1 (parse_float f)
      cases hint : Text.parseI64 (float f).text with
      | some n =>
        rw [(numeral_float f).evalExpression_int hint] at h
        cases h
      | none =>
        rw [(numeral_float f).evalExpression_float hint hg] at h
        cases h
        exact ⟨hint, hg⟩
    · rintro ⟨hint, hf⟩
      exact ⟨.float f, rfl, (numeral_float f).evalExpression_float hint hf⟩
  | name x =>
    have hname : ∀ v, ctx.get x.1 = some v → evalExpression ctx outputs x.1 = .ok (readName x v) := by
      intro v hv
      rw [evalExpression_unfold]
      exact evalStep_name hv
    constructor
    · rintro ⟨v, hv, h⟩
      exact ⟨v, hv, Except.ok.inj ((hname v hv).symm.trans h)⟩
    · rintro ⟨v, hv, h⟩
      refine ⟨v, hv, ?_⟩
      rw [text_name, hname v hv, h]

/-- The scalar is a key that is read as it is. -/
def IsKey (ctx : Context) : Scalar → Prop
  | str s => KeyForm s
  | int _ | float _ => True
  | name x => (ctx.get x.1).bind keyText = some x.1

/-- Such a key is what is left of its text, up to the first colon. -/
theorem isKey_iff (a : Scalar) : a.IsKey ctx ↔ ':' ∉ a.text ∧ trimQuotes (Text.trim a.text) ≠ [] ∧
    a.key ctx = some (trimQuotes (Text.trim a.text)) := by
  have hnumeral : ∀ {t : Text}, Numeral t → ':' ∉ t ∧ trimQuotes (Text.trim t) ≠ [] ∧
      some t = some (trimQuotes (Text.trim t)) := by
    intro t ht
    rw [ht.trim, ht.trimQuotes]
    exact ⟨ht.not_mem (by decide), ht.1, rfl⟩
  cases a with
  | str s =>
    rw [text_str, trim_quoted, trimQuotes_quoted, IsKey, KeyForm, key, Option.some.injEq,
      ← trimQuotes_eq_self]
    constructor
    · rintro ⟨hcolon, hne, htrim⟩
      rw [htrim]
      exact ⟨by simpa [quoted_eq] using hcolon, hne, rfl⟩
    · rintro ⟨hcolon, hne, htrim⟩
      rw [← htrim] at hne
      exact ⟨by simpa [quoted_eq] using hcolon, hne, htrim.symm⟩
  | int i =>
    refine iff_of_true trivial ?_
    have h := hnumeral (numeral_int i)
    rwa [key, ← text_int]
  | float f => exact iff_of_true trivial (hnumeral (numeral_float f))
  | name x =>
    rw [text_name, trim_name, trimQuotes_name, IsKey, key]
    have hne : x.1 ≠ [] := by
      obtain ⟨c, cs, hcs, -⟩ := x.head
      rw [hcs]
      exact List.cons_ne_nil c cs
    exact ⟨fun h => ⟨not_mem_name (by decide) x, hne, h⟩, fun h => h.2.2⟩

end Scalar

end

end Tinypipe
