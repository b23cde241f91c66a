import Tinypipe.Compiler.Format
import Tinypipe.Vm.Eval

/-! Arithmetic through its text form. The compiler prints a tree without
parentheses; the evaluator cuts the text at the first operator that leaves a
number on both sides. What comes back is the value of the tree for one operator
between two operands, and an error or another value for every larger tree. -/

namespace Tinypipe

open Lib

/-- A character of a Python name. The non-ASCII letters are not told apart. -/
def isNameChar (c : Char) : Bool :=
  c.isAlphanum || c == '_' || (128 ≤ c.toNat && !Text.isBlank c)

def pythonKeywords : List Text :=
  ["False", "None", "True", "and", "as", "assert", "async", "await", "break", "class",
   "continue", "def", "del", "elif", "else", "except", "finally", "for", "from", "global", "if",
   "import", "in", "is", "lambda", "nonlocal", "not", "or", "pass", "raise", "return", "try",
   "while", "with", "yield"]

def isIdentifier (t : Text) : Bool :=
  match t with
  | [] => false
  | c :: cs => !Text.isDigit c && (c :: cs).all isNameChar && !pythonKeywords.elem (c :: cs)

abbrev Identifier := {t : Text // isIdentifier t}

inductive ArithOp where
  | add | sub | mult
deriving DecidableEq

namespace ArithOp

def operator : ArithOp → Ast.Operator
  | add => .add
  | sub => .sub
  | mult => .mult

def symbol : ArithOp → Char
  | add => '+'
  | sub => '-'
  | mult => '*'

def apply : ArithOp → Int → Int → Int
  | add, a, b => a + b
  | sub, a, b => a - b
  | mult, a, b => a * b

end ArithOp

/-- Integer literals, variables, unary minus and the three exact operators. -/
inductive Arith where
  | lit (n : Nat)
  | var (x : Identifier)
  | neg (e : Arith)
  | bin (op : ArithOp) (l r : Arith)

namespace Arith

def toExpr : Arith → Ast.Expr
  | lit n => .constant (.int n)
  | var x => .name x.1
  | neg e => .unaryOp .uSub e.toExpr
  | bin op l r => .binOp l.toExpr op.operator r.toExpr

/-- Python's value. -/
def value (env : Identifier → Int64) : Arith → Int
  | lit n => n
  | var x => (env x).toInt
  | neg e => -e.value env
  | bin op l r => op.apply (l.value env) (r.value env)

/-- Every value on the way is an integer a double holds exactly. -/
def Exact (env : Identifier → Int64) : Arith → Prop
  | lit n => n ≤ 2 ^ 53
  | var x => (env x).toInt.natAbs ≤ 2 ^ 53
  | neg e => e.Exact env
  | bin op l r => l.Exact env ∧ r.Exact env ∧
      (op.apply (l.value env) (r.value env)).natAbs ≤ 2 ^ 53

def Bound (ctx : Context) (env : Identifier → Int64) : Arith → Prop
  | lit _ => True
  | var x => ctx.get x.1 = some (.int (env x))
  | neg e => e.Bound ctx env
  | bin _ l r => l.Bound ctx env ∧ r.Bound ctx env

/-- What the evaluator takes as one side of an operator. -/
def operand : Arith → Bool
  | lit _ | var _ | neg (lit _) => true
  | _ => false

def isLit : Arith → Bool
  | lit _ => true
  | _ => false

def isNeg : Arith → Bool
  | neg _ => true
  | _ => false

/-- The trees whose value comes back from their text. -/
def ReadsBack (env : Identifier → Int64) : Arith → Prop
  | lit _ | neg (lit _) => True
  | var x => constant x.1 = none ∧ F64.parse x.1 = none
  | bin op l r => l.operand ∧ r.operand ∧ ¬(op = .sub ∧ l.isNeg)
  -- printed as `-l op r`
  | neg (bin op l r) => l.isLit ∧ r.operand ∧ (op = .mult ∨ (op = .add ∧ r.value env = 0))
  | neg (var _) | neg (neg _) => False

def text (t : Arith) : Text := formatExpr t.toExpr

@[simp] theorem text_lit (n : Nat) : (lit n).text = Text.ofNat n := rfl

@[simp] theorem text_var (x : Identifier) : (var x).text = x.1 := rfl

@[simp] theorem text_neg (e : Arith) : (neg e).text = '-' :: e.text := rfl

@[simp] theorem text_bin (op : ArithOp) (l r : Arith) :
    (bin op l r).text = l.text ++ ' ' :: op.symbol :: ' ' :: r.text := by
  have h : (bin op l r).text = l.text ++ ' ' :: operatorText op.operator ++ ' ' :: r.text := rfl
  cases op <;> simp [h, operatorText, ArithOp.operator, ArithOp.symbol]

/-- The number of binary operators. -/
def ops : Arith → Nat
  | lit _ | var _ => 0
  | neg e => e.ops
  | bin _ l r => l.ops + r.ops + 1

end Arith

/-! The characters of a printed tree. -/

def isOpChar (c : Char) : Bool := c == '+' || c == '-' || c == '*'

def isPlain (c : Char) : Bool := isNameChar c || isOpChar c || c == ' '

theorem isNameChar_of_isDigit {c : Char} (h : Text.isDigit c) : isNameChar c := by
  have h' : c.isDigit := by simpa [Text.isDigit, Char.isDigit, Char.le_def] using h
  simp [isNameChar, Char.isAlphanum, h']

theorem not_isBlank_of_isNameChar {c : Char} (h : isNameChar c) : Text.isBlank c = false := by
  simp only [isNameChar, Bool.or_eq_true, Bool.and_eq_true, Bool.not_eq_true', beq_iff_eq,
    decide_eq_true_eq] at h
  rcases h with (h | rfl) | ⟨-, h⟩
  · simp only [Char.isAlphanum, Char.isAlpha, Char.isUpper, Char.isLower, Char.isDigit,
      Bool.or_eq_true, Bool.and_eq_true, decide_eq_true_eq, UInt32.le_iff_toNat_le, ge_iff_le] at h
    change ((65 ≤ c.toNat ∧ c.toNat ≤ 90) ∨ (97 ≤ c.toNat ∧ c.toNat ≤ 122)) ∨
      (48 ≤ c.toNat ∧ c.toNat ≤ 57) at h
    simp [Text.isBlank]
    omega
  · decide
  · exact h

theorem isOpChar_iff {c : Char} : isOpChar c ↔ c = '+' ∨ c = '-' ∨ c = '*' := by
  simp [isOpChar, or_assoc]

theorem isOpChar_symbol (op : ArithOp) : isOpChar op.symbol := by cases op <;> rfl

theorem not_isBlank_of_isOpChar {c : Char} (h : isOpChar c) : Text.isBlank c = false := by
  rcases isOpChar_iff.mp h with rfl | rfl | rfl <;> decide

theorem Identifier.chars (x : Identifier) : ∀ c ∈ x.1, isNameChar c := by
  obtain ⟨t, ht⟩ := x
  cases t with
  | nil => simp
  | cons c cs =>
    simp only [isIdentifier, Bool.and_eq_true, List.all_eq_true] at ht
    exact ht.1.2

theorem Identifier.head (x : Identifier) :
    ∃ c cs, x.1 = c :: cs ∧ isNameChar c ∧ Text.isDigit c = false := by
  obtain ⟨t, ht⟩ := x
  cases t with
  | nil => cases ht
  | cons c cs =>
    simp only [isIdentifier, Bool.and_eq_true, List.all_eq_true, Bool.not_eq_true'] at ht
    exact ⟨c, cs, rfl, ht.1.2 c (by simp), ht.1.1⟩

theorem Identifier.not_keyword (x : Identifier) : x.1 ∉ pythonKeywords := by
  obtain ⟨t, ht⟩ := x
  cases t with
  | nil => cases ht
  | cons c cs =>
    simp only [isIdentifier, Bool.and_eq_true, Bool.not_eq_true', List.elem_eq_mem,
      decide_eq_false_iff_not] at ht
    exact ht.2

namespace Arith

theorem text_plain (t : Arith) : ∀ c ∈ t.text, isPlain c := by
  induction t with
  | lit n =>
    intro c hc
    simp [isPlain, isNameChar_of_isDigit (Text.isDigit_of_mem_ofNat hc)]
  | var x =>
    intro c hc
    simp [isPlain, x.chars c hc]
  | neg e ih =>
    intro c hc
    rcases List.mem_cons.mp hc with rfl | hc
    · decide
    · exact ih c hc
  | bin op l r ihl ihr =>
    intro c hc
    simp only [text_bin, List.mem_append, List.mem_cons] at hc
    rcases hc with hc | rfl | rfl | rfl | hc
    · exact ihl c hc
    · decide
    · simp [isPlain, isOpChar_symbol]
    · decide
    · exact ihr c hc

/-- The text starts with a sign or a name character. -/
theorem text_head (t : Arith) : ∃ c cs, t.text = c :: cs ∧ (c = '-' ∨ isNameChar c) := by
  induction t with
  | lit n =>
    obtain ⟨c, cs, hcs⟩ := List.exists_cons_of_ne_nil (Text.ofNat_ne_nil n)
    exact ⟨c, cs, hcs, .inr (isNameChar_of_isDigit (Text.isDigit_of_mem_ofNat (hcs ▸ List.mem_cons_self)))⟩
  | var x =>
    obtain ⟨c, cs, hcs, hc, -⟩ := x.head
    exact ⟨c, cs, hcs, .inr hc⟩
  | neg e => exact ⟨'-', e.text, rfl, .inl rfl⟩
  | bin op l r ihl =>
    obtain ⟨c, cs, hcs, hc⟩ := ihl
    exact ⟨c, cs ++ ' ' :: op.symbol :: ' ' :: r.text, by simp [hcs], hc⟩

theorem text_last (t : Arith) : ∃ cs c, t.text = cs ++ [c] ∧ isNameChar c := by
  have of_chars : ∀ s : Text, s ≠ [] → (∀ c ∈ s, isNameChar c) →
      ∃ cs c, s = cs ++ [c] ∧ isNameChar c := fun s hs hall =>
    ⟨s.dropLast, s.getLast hs, (List.dropLast_append_getLast hs).symm, hall _ (List.getLast_mem hs)⟩
  induction t with
  | lit n =>
    exact of_chars _ (Text.ofNat_ne_nil n)
      fun c hc => isNameChar_of_isDigit (Text.isDigit_of_mem_ofNat hc)
  | var x =>
    obtain ⟨c, cs, hcs, -⟩ := x.head
    exact of_chars _ (by simp [hcs]) x.chars
  | neg e ih =>
    obtain ⟨cs, c, hcs, hc⟩ := ih
    exact ⟨'-' :: cs, c, by simp [hcs], hc⟩
  | bin op l r _ ihr =>
    obtain ⟨cs, c, hcs, hc⟩ := ihr
    exact ⟨l.text ++ ' ' :: op.symbol :: ' ' :: cs, c, by simp [hcs], hc⟩

theorem not_mem_text (t : Arith) {c : Char} (h : isPlain c = false) : c ∉ t.text := fun hc => by
  rw [t.text_plain c hc] at h
  cases h

theorem trim_text (t : Arith) : Text.trim t.text = t.text := by
  apply Text.trim_eq_self
  · intro d hd
    obtain ⟨c, cs, hcs, hc⟩ := t.text_head
    obtain rfl : c = d := by simpa [hcs] using hd
    rcases hc with rfl | hc
    · decide
    · exact not_isBlank_of_isNameChar hc
  · intro d hd
    obtain ⟨cs, c, hcs, hc⟩ := t.text_last
    obtain rfl : c = d := by simpa [hcs] using hd
    exact not_isBlank_of_isNameChar hc

/-- No tree is printed with the word `not` in front. -/
theorem firstWord_ne_not (t : Arith) : t.text.takeWhile (· != ' ') ≠ ("not" : Text) := by
  induction t with
  | lit n =>
    intro h
    have hmem : 'n' ∈ (lit n).text := List.takeWhile_subset (· != ' ') (by rw [h]; decide)
    exact absurd (Text.isDigit_of_mem_ofNat hmem) (by decide)
  | var x =>
    intro h
    have hx : x.1.takeWhile (· != ' ') = x.1 := by
      rw [List.takeWhile_eq_self_iff]
      intro c hc
      have := x.chars c hc
      simp only [bne_iff_ne]
      rintro rfl
      exact absurd this (by decide)
    exact x.not_keyword (by rw [← hx, ← text_var, h]; decide)
  | neg e => simp
  | bin op l r ihl =>
    rw [text_bin, List.takeWhile_append]
    split
    · next hlen =>
      rw [(List.takeWhile_prefix _).eq_of_length hlen] at ihl
      simpa using ihl
    · exact ihl

end Arith

/-! The evaluator on such a text: nothing but constants, numbers, names and
operators is left of it. -/

section Eval

variable (ctx : Context) (outputs : Nat → Option Value)

theorem splitComparison_eq_none {t : Text} (h : ∀ c ∈ t, isPlain c) : splitComparison t = none := by
  have hop : ∀ op ∈ comparisonOps, ∃ c cs, op = c :: cs ∧ isPlain c = false := by
    simp only [comparisonOps, List.forall_mem_cons]
    exact ⟨⟨_, _, rfl, by decide⟩, ⟨_, _, rfl, by decide⟩, ⟨_, _, rfl, by decide⟩,
      ⟨_, _, rfl, by decide⟩, ⟨_, _, rfl, by decide⟩, ⟨_, _, rfl, by decide⟩, by simp⟩
  rw [splitComparison, List.findSome?_eq_none_iff]
  intro op hmem
  obtain ⟨c, cs, rfl, hc⟩ := hop op hmem
  have hnot : c ∉ t := fun hct => by
    rw [h c hct] at hc
    cases hc
  rw [Text.splitOnce_eq_none_of_head hnot]

theorem scanAccessors_plain {n : Nat} {depth : Int} {base tail t : Text}
    (h : ∀ c ∈ t, isPlain c) :
    scanAccessors n depth none base none [] tail t = some (none, [], tail) := by
  induction t generalizing n base with
  | nil => cases n <;> rfl
  | cons c cs ih =>
    cases n with
    | zero => rfl
    | succ n =>
      have hc : isPlain c := h c (by simp)
      have hne : ∀ d, isPlain d = false → c ≠ d := by
        rintro d hd rfl
        rw [hc] at hd
        cases hd
      have hquote : isQuote c = false := by
        simp [isQuote, hne '"' (by decide), hne '\'' (by decide)]
      have hopen : isOpening c = false := by
        simp [isOpening, hne '(' (by decide), hne '[' (by decide), hne '{' (by decide)]
      have hclose : isClosing c = false := by
        simp [isClosing, hne ')' (by decide), hne ']' (by decide), hne '}' (by decide)]
      simp only [scanAccessors, hquote, hopen, hclose, hne '[' (by decide), hne '.' (by decide),
        Bool.false_eq_true, false_and, if_false]
      exact ih fun d hd => h d (by simp [hd])

theorem splitAccessors_eq_none {t : Text} (h : ∀ c ∈ t, isPlain c) : splitAccessors t = none := by
  simp [splitAccessors, scanAccessors_plain h]

theorem decodeQuoted_eq {t : Text} {c : Char} {cs : Text} (ht : t = c :: cs)
    (hspace : Json.isSpace c = false) (hdouble : c ≠ '"') (hsingle : c ≠ '\'') :
    decodeQuoted t = (t, false) := by
  subst ht
  have hjson : Json.fromStrString (c :: cs) = none := by
    simp [Json.fromStrString, hspace]
    split
    · next heq => exact absurd (List.cons.inj heq).1 hdouble
    · rfl
  simp [decodeQuoted, hjson, hdouble, hsingle]

theorem wholeCall_eq_none {name t : Text} (hname : '(' ∈ name) (h : '(' ∉ t) :
    wholeCall name t = none := by
  simp [wholeCall, Text.stripPrefix_eq_none hname h]

namespace Arith

theorem stripNot_text (t : Arith) : stripNot t.text = none := by
  have hbang : Text.stripPrefix ['!'] t.text = none :=
    Text.stripPrefix_eq_none (p := '!') (by simp) (t.not_mem_text (by decide))
  have hnot : Text.stripPrefix "not " t.text = none := by
    rw [Text.stripPrefix, if_neg]
    intro hpre
    obtain ⟨rest, hrest⟩ := List.isPrefixOf_iff_prefix.mp hpre
    exact t.firstWord_ne_not (by rw [← hrest]; rfl)
  rw [stripNot, hnot, hbang]
  rfl

theorem head_not_isSpace {t : Arith} {c : Char} {cs : Text} (h : t.text = c :: cs) :
    Json.isSpace c = false := by
  obtain ⟨d, ds, hds, hd⟩ := t.text_head
  obtain ⟨rfl, rfl⟩ : c = d ∧ cs = ds := by simpa [h] using hds
  have hne : ∀ e, isPlain e = false → c ≠ e := by
    rintro e he rfl
    exact t.not_mem_text he (by simp [h])
  have hblank : c ≠ ' ' := by
    rintro rfl
    rcases hd with hd | hd
    · exact absurd hd (by decide)
    · exact absurd hd (by decide)
  simp [Json.isSpace, hblank, hne '\n' (by decide), hne '\t' (by decide), hne '\r' (by decide)]

/-- The evaluator reaches the operators with the text as it is. -/
theorem evalExpression_text (t : Arith) :
    (∀ v, constant t.text = some v → evalExpression ctx outputs t.text = .ok v) ∧
    (constant t.text = none → evalExpression ctx outputs t.text =
      evalOperators ctx outputs (evalFuel ctx outputs t.text.length) false t.text) := by
  obtain ⟨c, cs, hcs, -⟩ := t.text_head
  have hne : ∀ d, isPlain d = false → c ≠ d := by
    rintro d hd rfl
    exact t.not_mem_text hd (by simp [hcs])
  have hquoted := decodeQuoted_eq hcs (head_not_isSpace hcs) (hne '"' (by decide))
    (hne '\'' (by decide))
  have hparen : '(' ∉ t.text := t.not_mem_text (by decide)
  have hbrace : (t.text.head? == some '{') = false := by
    simp [hcs, hne '{' (by decide)]
  have hempty : t.text.isEmpty = false := by simp [hcs]
  have hrange : wholeCall "range(" t.text = none := wholeCall_eq_none (by decide) hparen
  have hlen : wholeCall "len(" t.text = none := wholeCall_eq_none (by decide) hparen
  constructor
  · intro v hv
    simp only [evalExpression, evalFuel, evalStep, trim_text, hquoted, hempty, hrange, hlen, hv,
      Bool.false_eq_true, if_false, Option.map_none]
  · intro hv
    simp only [evalExpression, evalFuel, evalStep, trim_text, hquoted, hempty, hrange, hlen, hv,
      hbrace, stripNot_text, Bool.false_eq_true, Bool.false_and, if_false, Option.map_none]

end Arith

/-- The names bound by the context hold no operator, as the names of a program do not. -/
def Context.BindsNames (ctx : Context) : Prop :=
  ∀ name v, ctx.get name = some v → ∀ c ∈ name, isOpChar c = false

variable {ctx} {outputs} {eval : Text → Except Text Value}

theorem Context.BindsNames.get_eq_none (h : ctx.BindsNames) {t : Text} {c : Char} (hc : c ∈ t)
    (hop : isOpChar c) : ctx.get t = none := by
  cases hv : ctx.get t with
  | none => rfl
  | some v =>
    rw [h t v hv c hc] at hop
    cases hop

theorem isDigit_of_isOpChar {c : Char} (h : isOpChar c) : Text.isDigit c = false := by
  rcases isOpChar_iff.mp h with rfl | rfl | rfl <;> decide

theorem constant_eq_none_of_opChar {t : Text} {c : Char} (hc : c ∈ t) (hop : isOpChar c) :
    constant t = none := by
  have hword : ∀ w : Text, w.any isOpChar = false → t ≠ w := by
    rintro w hw rfl
    exact absurd hop (List.any_eq_false.mp hw c hc)
  rw [constant, if_neg, if_neg, if_neg]
  · exact not_or.mpr ⟨hword "null" (by decide), hword "None" (by decide)⟩
  · exact not_or.mpr ⟨hword "false" (by decide), hword "False" (by decide)⟩
  · exact not_or.mpr ⟨hword "true" (by decide), hword "True" (by decide)⟩

theorem lookupName_eq_none (h : ctx.BindsNames) {t : Text} {c d : Char} {ds : Text}
    (hc : c ∈ t) (hop : isOpChar c) (ht : t = d :: ds) (hdollar : d ≠ '$') (hplus : d ≠ '+') :
    lookupName ctx outputs t = none := by
  have hstrip : Text.stripPrefix ['$'] t = none := by
    simp [Text.stripPrefix, ht, List.isPrefixOf, hdollar.symm]
  have hparse : Text.parseUnsigned 32 t = none := by
    have hnat : Text.parseNat t = none := by
      cases hn : Text.parseNat t with
      | none => rfl
      | some n =>
        have := (Text.parseNat_digits hn).2 c hc
        rw [isDigit_of_isOpChar hop] at this
        cases this
    subst ht
    rw [Text.parseUnsigned]
    split
    · next n hn =>
      rw [hnat] at hn
      cases hn
    · rfl
    · exact fun cs heq => hplus (List.cons.inj heq).1
  simp [lookupName, hstrip, h.get_eq_none hc hop, hparse]

/-- A compound text gives an integer by arithmetic or not at all. -/
theorem evalCompound_int {t : Text} {i : Int64} (hplain : ∀ c ∈ t, isPlain c) :
    evalCompound ctx eval false t = .ok (.int i) ↔ evalArithmetic ctx eval t = some i := by
  rw [evalCompound]
  cases evalArithmetic ctx eval t with
  | some j => simp
  | none =>
    have hconcat : ∀ v, evalConcat eval t = some v → ∃ s, v = .string s := by
      intro v hv
      simp only [evalConcat] at hv
      split at hv
      · split at hv
        · split at hv
          · cases hv
          · exact ⟨_, (Option.some.inj hv).symm⟩
        · cases hv
      · cases hv
    cases hv : evalConcat eval t with
    | some v =>
      obtain ⟨s, rfl⟩ := hconcat v hv
      simp
    | none => simp [splitAccessors_eq_none hplain]

/-- An operator in the text leaves the evaluator nothing but arithmetic, or a float. -/
theorem evalOperators_int (h : ctx.BindsNames) {t : Text} {c d : Char} {ds : Text} {i : Int64}
    (hplain : ∀ c ∈ t, isPlain c) (hc : c ∈ t) (hop : isOpChar c) (ht : t = d :: ds)
    (hplus : d ≠ '+') (hnum : Text.parseI64 t = none) :
    evalOperators ctx outputs eval false t = .ok (.int i) ↔
      F64.parse t = none ∧ evalArithmetic ctx eval t = some i := by
  have hdollar : d ≠ '$' := by
    rintro rfl
    exact absurd (hplain '$' (by simp [ht])) (by decide)
  rw [evalOperators, splitComparison_eq_none hplain, hnum]
  cases F64.parse t with
  | some f => simp
  | none => simp [lookupName_eq_none h hc hop ht hdollar hplus, evalCompound_int hplain]

/-! The sides of an operator. -/

theorem resolve_of_parseI64 {key : Text} {n : Int64} (h : Text.parseI64 key = some n) :
    resolveNumericWith ctx eval key = some n := by
  simp [resolveNumericWith, h]

/-- A side with an operator in it is no name. -/
theorem resolve_eq_none (hctx : ctx.BindsNames) {key : Text} {c : Char}
    (hplain : ∀ c ∈ key, isPlain c) (hc : c ∈ key) (hop : isOpChar c)
    (hnum : Text.parseI64 key = none) : resolveNumericWith ctx eval key = none := by
  have hnot : ∀ d, isPlain d = false → d ∉ key := fun d hd hmem => by
    rw [hplain d hmem] at hd
    cases hd
  simp [resolveNumericWith, hnum, hctx.get_eq_none hc hop, hnot '.' (by decide),
    hnot '[' (by decide), hnot '(' (by decide)]

/-- An operator behind a solid character. -/
def Inner (t : Text) : Prop :=
  ∃ l u m c r, t = l ++ u :: m ++ c :: r ∧ Text.isBlank u = false ∧ isOpChar c

theorem Inner.trim {t : Text} (h : Inner t) : Inner (Text.trim t) := by
  obtain ⟨l, u, m, c, r, rfl, hu, hc⟩ := h
  obtain ⟨l', r', heq⟩ := Text.trim_between l m r hu (not_isBlank_of_isOpChar hc)
  exact ⟨l', u, m, c, r', heq, hu, hc⟩

theorem Inner.parseI64 {t : Text} (h : Inner t) : Text.parseI64 t = none := by
  obtain ⟨l, u, m, c, r, rfl, -, hc⟩ := h
  cases hn : Text.parseI64 (l ++ u :: m ++ c :: r) with
  | none => rfl
  | some n =>
    obtain ⟨i, hi⟩ := Text.parseI64_parseSigned hn
    obtain ⟨d, ds, heq, -, hds⟩ := Text.parseSigned_digits hi
    have hmem : c ∈ ds := by
      cases l with
      | nil =>
        obtain ⟨-, rfl⟩ := List.cons.inj heq
        simp
      | cons e es =>
        obtain ⟨-, rfl⟩ := List.cons.inj heq
        simp
    have := hds c hmem
    rw [isDigit_of_isOpChar hc] at this
    cases this

theorem trim_subset (t : Text) : Text.trim t ⊆ t := Text.trimMatches_subset Text.isBlank t

theorem Inner.resolve (hctx : ctx.BindsNames) {t : Text} (h : Inner t)
    (hplain : ∀ c ∈ t, isPlain c) : resolveNumericWith ctx eval (Text.trim t) = none := by
  obtain ⟨l, u, m, c, r, heq, -, hc⟩ := h.trim
  exact resolve_eq_none hctx (fun c hc => hplain c (trim_subset t hc)) (heq ▸ by simp) hc
    h.trim.parseI64

variable (ctx eval) in
/-- What one operator of the evaluator contributes. -/
def cut (op : Char) (expr : Text) : Option Int64 :=
  (splitBinary op expr).bind fun s => (resolveNumericWith ctx eval s.1).bind fun a =>
    (resolveNumericWith ctx eval s.2).bind fun b => arithmetic op a b

theorem evalArithmetic_eq (t : Text) :
    evalArithmetic ctx eval t = (((cut ctx eval '+' t).or (cut ctx eval '-' t)).or
      (cut ctx eval '*' t)).or (cut ctx eval '/' t) := by
  have h : evalArithmetic ctx eval t = binaryOps.findSome? fun op => cut ctx eval op t := by
    unfold evalArithmetic
    congr 1
    funext op
    cases hs : splitBinary op t with
    | none => simp [cut, hs]
    | some s =>
      cases ha : resolveNumericWith ctx eval s.1 <;> cases hb : resolveNumericWith ctx eval s.2 <;>
        simp [cut, hs, ha, hb]
  rw [h]
  simp only [binaryOps, List.findSome?_cons, List.findSome?_nil]
  cases cut ctx eval '+' t <;> cases cut ctx eval '-' t <;> cases cut ctx eval '*' t <;>
    cases cut ctx eval '/' t <;> rfl

theorem cut_of_not_mem {op : Char} {t : Text} (h : op ∉ t) : cut ctx eval op t = none := by
  simp [cut, splitBinary, Text.splitOnce_eq_none h]

theorem cut_of_head {op : Char} (t : Text) : cut ctx eval op (op :: t) = none := by
  have h := Text.splitOnce_append (c := op) (l := []) t (by simp)
  rw [List.nil_append] at h
  simp [cut, splitBinary, h]

theorem cut_append {op : Char} {l r : Text} (h : op ∉ l) (hl : l ≠ []) (hr : r ≠ []) :
    cut ctx eval op (l ++ op :: r) =
      (resolveNumericWith ctx eval (Text.trim l)).bind fun a =>
        (resolveNumericWith ctx eval (Text.trim r)).bind fun b => arithmetic op a b := by
  obtain ⟨c, cs, rfl⟩ := List.exists_cons_of_ne_nil hl
  obtain ⟨d, ds, rfl⟩ := List.exists_cons_of_ne_nil hr
  rw [cut, splitBinary, Text.splitOnce_append (d :: ds) h]
  rfl

/-- A side that is no number stops the cut. -/
theorem cut_of_inner (hctx : ctx.BindsNames) {op : Char} {t : Text} (hplain : ∀ c ∈ t, isPlain c)
    (h : ∀ l r, t = l ++ op :: r → Inner l ∨ Inner r) : cut ctx eval op t = none := by
  cases hs : Text.splitOnce [op] t with
  | none => simp [cut, splitBinary, hs]
  | some p =>
    obtain ⟨l, r⟩ := p
    have heq := Text.splitOnce_eq_some hs
    have hl : ∀ c ∈ l, isPlain c := fun c hc => hplain c (by simp [heq, hc])
    have hr : ∀ c ∈ r, isPlain c := fun c hc => hplain c (by simp [heq, hc])
    cases l with
    | nil => simp [cut, splitBinary, hs]
    | cons c cs =>
      cases r with
      | nil => simp [cut, splitBinary, hs]
      | cons d ds =>
        rcases h _ _ heq with hin | hin
        · simp [cut, splitBinary, hs, hin.resolve hctx hl]
        · simp [cut, splitBinary, hs, hin.resolve hctx hr]

namespace Arith

theorem isLit_iff {t : Arith} : t.isLit ↔ ∃ n, t = lit n := by
  cases t <;> simp [isLit]

theorem isNeg_iff {t : Arith} : t.isNeg ↔ ∃ e, t = neg e := by
  cases t <;> simp [isNeg]

theorem not_mem_lit {n : Nat} {c : Char} (h : isOpChar c) : c ∉ Text.ofNat n := fun hc => by
  have := Text.isDigit_of_mem_ofNat hc
  rw [isDigit_of_isOpChar h] at this
  cases this

theorem not_mem_var {x : Identifier} {c : Char} (h : isOpChar c) : c ∉ x.1 := fun hc => by
  have hname := x.chars c hc
  rcases isOpChar_iff.mp h with rfl | rfl | rfl <;> exact absurd hname (by decide)

/-- Without a binary operator the only operator characters are the signs. -/
theorem not_mem_atom {t : Arith} (h : t.ops = 0) {c : Char} (hc : isOpChar c) (hne : c ≠ '-') :
    c ∉ t.text := by
  induction t with
  | lit n => exact not_mem_lit hc
  | var x => exact not_mem_var hc
  | neg e ih =>
    rw [text_neg, List.mem_cons]
    exact not_or.mpr ⟨hne, ih h⟩
  | bin op l r => simp [ops] at h

theorem not_mem_minus {t : Arith} (h : t.ops = 0) (hneg : ¬t.isNeg) : '-' ∉ t.text := by
  cases t with
  | lit n => exact not_mem_lit (by decide)
  | var x => exact not_mem_var (by decide)
  | neg e => simp [isNeg] at hneg
  | bin op l r => simp [ops] at h

theorem parseI64_lit {n : Nat} (h : n ≤ 2 ^ 53) :
    Text.parseI64 (Text.ofNat n) = some (Int64.ofInt n) :=
  Text.parseI64_of_parseSigned (Text.parseSigned_ofNat n) (by omega)

theorem parseI64_neg_lit {n : Nat} (h : n ≤ 2 ^ 53) :
    Text.parseI64 ('-' :: Text.ofNat n) = some (Int64.ofInt (-n)) :=
  Text.parseI64_of_parseSigned (by simp [Text.parseSigned, Text.parseNat_ofNat]) (by omega)

theorem parseI64_var (x : Identifier) : Text.parseI64 x.1 = none := by
  obtain ⟨c, cs, hcs, hc, hdigit⟩ := x.head
  cases hn : Text.parseI64 x.1 with
  | none => rfl
  | some n =>
    obtain ⟨i, hi⟩ := Text.parseI64_parseSigned hn
    obtain ⟨d, ds, heq, hd, -⟩ := Text.parseSigned_digits hi
    obtain ⟨rfl, -⟩ := List.cons.inj (hcs.symm.trans heq)
    rcases hd with hd | rfl | rfl
    · rw [hd] at hdigit
      cases hdigit
    · exact absurd hc (by decide)
    · exact absurd hc (by decide)

/-- A sign before anything but a literal is no number. -/
theorem parseI64_neg {e : Arith} (h : ¬e.isLit) : Text.parseI64 ('-' :: e.text) = none := by
  cases hn : Text.parseI64 ('-' :: e.text) with
  | none => rfl
  | some n =>
    obtain ⟨i, hi⟩ := Text.parseI64_parseSigned hn
    obtain ⟨d, ds, heq, -, hds⟩ := Text.parseSigned_digits hi
    obtain ⟨-, rfl⟩ := List.cons.inj heq
    cases e with
    | lit n => simp [isLit] at h
    | var x =>
      obtain ⟨c, cs, hcs, -, hdigit⟩ := x.head
      have := hds c (by simp [hcs])
      rw [this] at hdigit
      cases hdigit
    | neg e => exact absurd (hds '-' (by simp)) (by decide)
    | bin op l r => exact absurd (hds ' ' (by simp)) (by decide)

theorem resolve_operand {t : Arith} {env : Identifier → Int64} (h : t.operand)
    (hbound : t.Bound ctx env) (hexact : t.Exact env) :
    resolveNumericWith ctx eval t.text = some (Int64.ofInt (t.value env)) := by
  cases t with
  | lit n => exact resolve_of_parseI64 (parseI64_lit hexact)
  | var x =>
    have hget : ctx.get x.1 = some (.int (env x)) := hbound
    have hcast : (F64.ofInt (env x).toInt).toI64 = Int64.ofInt (env x).toInt := F64.toI64_ofInt hexact
    simp [resolveNumericWith, parseI64_var, hget, Value.asF64, hcast, value]
  | neg e =>
    cases e with
    | lit n => exact resolve_of_parseI64 (parseI64_neg_lit hexact)
    | var x => cases h
    | neg e => cases h
    | bin op l r => cases h
  | bin op l r => cases h

theorem resolve_not_operand (hctx : ctx.BindsNames) {t : Arith} (hops : t.ops = 0)
    (h : ¬t.operand) : resolveNumericWith ctx eval t.text = none := by
  cases t with
  | lit n => simp [operand] at h
  | var x => simp [operand] at h
  | neg e =>
    have hlit : ¬e.isLit := by
      rw [isLit_iff]
      rintro ⟨n, rfl⟩
      simp [operand] at h
    exact resolve_eq_none hctx (text_plain (neg e)) (c := '-') (by simp) (by decide)
      (parseI64_neg hlit)
  | bin op l r => simp [ops] at hops

/-! One operator between two sides without one. -/

/-- The places of two characters in one text. -/
theorem cut_cases {p q l r : Text} {o c : Char} (h : p ++ o :: q = l ++ c :: r) :
    (∃ a, l = p ++ o :: a) ∨ (l = p ∧ c = o ∧ r = q) ∨ (∃ b, p = l ++ c :: b ∧ r = b ++ o :: q) := by
  rcases List.append_eq_append_iff.mp h with ⟨a, hl, heq⟩ | ⟨b, hp, heq⟩
  · cases a with
    | nil =>
      obtain ⟨rfl, rfl⟩ := List.cons.inj heq
      exact .inr (.inl ⟨by simpa using hl, rfl, rfl⟩)
    | cons d ds =>
      obtain ⟨rfl, -⟩ := List.cons.inj heq
      exact .inl ⟨ds, hl⟩
  · cases b with
    | nil =>
      obtain ⟨rfl, rfl⟩ := List.cons.inj heq
      exact .inr (.inl ⟨by simpa using hp.symm, rfl, rfl⟩)
    | cons d ds =>
      obtain ⟨rfl, hr⟩ := List.cons.inj heq
      exact .inr (.inr ⟨ds, hp, hr⟩)

def Solid (t : Text) : Prop := ∃ c ∈ t, Text.isBlank c = false

theorem solid_text (t : Arith) : Solid t.text := by
  obtain ⟨cs, c, hcs, hc⟩ := t.text_last
  exact ⟨c, by simp [hcs], not_isBlank_of_isNameChar hc⟩

theorem inner_of_solid {p : Text} (h : Solid p) (m r : Text) {o : Char} (ho : isOpChar o) :
    Inner (p ++ m ++ o :: r) := by
  obtain ⟨u, hu, hsolid⟩ := h
  obtain ⟨a, b, rfl⟩ := List.append_of_mem hu
  exact ⟨a, u, b ++ m, o, r, by simp, hsolid, ho⟩

theorem cut_slash (t : Arith) : cut ctx eval '/' t.text = none :=
  cut_of_not_mem (t.not_mem_text (by decide))

section Atoms

variable {op : ArithOp} {l r : Arith}

theorem cut_symbol (hl : l.ops = 0) (h : ¬(op = .sub ∧ l.isNeg)) :
    cut ctx eval op.symbol (bin op l r).text =
      (resolveNumericWith ctx eval l.text).bind fun a =>
        (resolveNumericWith ctx eval r.text).bind fun b => arithmetic op.symbol a b := by
  have hnot : op.symbol ∉ l.text := by
    cases op with
    | add => exact not_mem_atom hl (by decide) (by decide)
    | sub => exact not_mem_minus hl fun hneg => h ⟨rfl, hneg⟩
    | mult => exact not_mem_atom hl (by decide) (by decide)
  have hspace : op.symbol ≠ ' ' := by cases op <;> decide
  have htext : (bin op l r).text = (l.text ++ [' ']) ++ op.symbol :: (' ' :: r.text) := by simp
  rw [htext, cut_append (by simp [hnot, hspace]) (by simp) (by simp),
    Text.trim_append_blank (by decide), Text.trim_cons_blank (by decide), trim_text, trim_text]

/-- Another operator finds no number on its left. -/
theorem cut_other (hctx : ctx.BindsNames) (hl : l.ops = 0) (hr : r.ops = 0) {c : Char}
    (hc : isOpChar c) (hne : c ≠ op.symbol) : cut ctx eval c (bin op l r).text = none := by
  have hspace : c ≠ ' ' := by
    rcases isOpChar_iff.mp hc with rfl | rfl | rfl <;> decide
  by_cases hminus : c = '-'
  · subst hminus
    by_cases hneg : l.isNeg
    · obtain ⟨e, rfl⟩ := isNeg_iff.mp hneg
      exact cut_of_head _
    · refine cut_of_inner hctx (text_plain _) fun a b heq => .inl ?_
      have htext : (bin op l r).text = (l.text ++ [' ']) ++ op.symbol :: (' ' :: r.text) := by simp
      rcases cut_cases (htext.symm.trans heq) with ⟨a', rfl⟩ | ⟨-, hsym, -⟩ | ⟨b', hp, -⟩
      · exact inner_of_solid (solid_text l) [' '] a' (isOpChar_symbol op)
      · exact absurd hsym hne
      · have hmem : '-' ∈ l.text ++ [' '] := by simp [hp]
        have hmem' : '-' ∈ l.text := by simpa using hmem
        exact absurd hmem' (not_mem_minus hl hneg)
  · apply cut_of_not_mem
    simp [not_mem_atom hl hc hminus, not_mem_atom hr hc hminus, hne, hspace]

theorem evalArithmetic_atoms (hctx : ctx.BindsNames) (hl : l.ops = 0) (hr : r.ops = 0) :
    evalArithmetic ctx eval (bin op l r).text =
      if op = .sub ∧ l.isNeg then none
      else (resolveNumericWith ctx eval l.text).bind fun a =>
        (resolveNumericWith ctx eval r.text).bind fun b => arithmetic op.symbol a b := by
  have hsym : cut ctx eval op.symbol (bin op l r).text =
      if op = .sub ∧ l.isNeg then none
      else (resolveNumericWith ctx eval l.text).bind fun a =>
        (resolveNumericWith ctx eval r.text).bind fun b => arithmetic op.symbol a b := by
    split
    · next h =>
      obtain ⟨rfl, hneg⟩ := h
      obtain ⟨e, rfl⟩ := isNeg_iff.mp hneg
      exact cut_of_head _
    · next h => exact cut_symbol hl h
  have hother : ∀ c, isOpChar c → c ≠ op.symbol → cut ctx eval c (bin op l r).text = none :=
    fun c => cut_other hctx hl hr
  rw [← hsym, evalArithmetic_eq, cut_slash]
  generalize (bin op l r).text = t at hother
  cases op with
  | add =>
    rw [hother '-' (by decide) (by decide), hother '*' (by decide) (by decide)]
    simp [ArithOp.symbol]
  | sub =>
    rw [hother '+' (by decide) (by decide), hother '*' (by decide) (by decide)]
    simp [ArithOp.symbol]
  | mult =>
    rw [hother '+' (by decide) (by decide), hother '-' (by decide) (by decide)]
    simp [ArithOp.symbol]

end Atoms

/-- A binary operator stands between two solid texts. -/
theorem exists_op {t : Arith} (h : 1 ≤ t.ops) :
    ∃ x o y, t.text = x ++ ' ' :: o :: ' ' :: y ∧ Solid x ∧ Solid y ∧ isOpChar o := by
  induction t with
  | lit n => simp [ops] at h
  | var x => simp [ops] at h
  | neg e ih =>
    obtain ⟨x, o, y, heq, ⟨c, hc, hsolid⟩, hy, ho⟩ := ih h
    exact ⟨'-' :: x, o, y, by simp [heq], ⟨c, by simp [hc], hsolid⟩, hy, ho⟩
  | bin op l r => exact ⟨l.text, op.symbol, r.text, by simp, solid_text l, solid_text r, isOpChar_symbol op⟩

/-- Two binary operators, with a solid text between them. -/
theorem exists_two_ops {t : Arith} (h : 2 ≤ t.ops) :
    ∃ x o y o' z, t.text = x ++ ' ' :: o :: (' ' :: y ++ ' ' :: o' :: ' ' :: z) ∧
      Solid x ∧ Solid y ∧ isOpChar o ∧ isOpChar o' := by
  induction t with
  | lit n => simp [ops] at h
  | var x => simp [ops] at h
  | neg e ih =>
    obtain ⟨x, o, y, o', z, heq, ⟨c, hc, hsolid⟩, hy, ho, ho'⟩ := ih h
    exact ⟨'-' :: x, o, y, o', z, by simp [heq], ⟨c, by simp [hc], hsolid⟩, hy, ho, ho'⟩
  | bin op l r =>
    rcases Nat.eq_zero_or_pos l.ops with hl | hl
    · have hr : 1 ≤ r.ops := by simp [ops] at h; omega
      obtain ⟨x, o, y, heq, hx, -, ho⟩ := exists_op hr
      exact ⟨l.text, op.symbol, x, o, y, by simp [heq], solid_text l, hx, isOpChar_symbol op, ho⟩
    · obtain ⟨x, o, y, heq, hx, hy, ho⟩ := exists_op hl
      exact ⟨x, o, y, op.symbol, r.text, by simp [heq], hx, hy, ho, isOpChar_symbol op⟩

/-- Wherever a larger tree is cut, an operator is left on one side. -/
theorem cut_two_ops (hctx : ctx.BindsNames) {t : Arith} (h : 2 ≤ t.ops) (c : Char) :
    cut ctx eval c t.text = none := by
  obtain ⟨x, o, y, o', z, heq, hx, ⟨u, hu, hsolid⟩, ho, ho'⟩ := exists_two_ops h
  refine cut_of_inner hctx (text_plain t) fun a b hab => ?_
  have htext : t.text = (x ++ [' ']) ++ o :: (' ' :: y ++ ' ' :: o' :: ' ' :: z) := by simp [heq]
  have hright : ∀ p, Inner (p ++ (' ' :: y ++ ' ' :: o' :: ' ' :: z)) := fun p => by
    have hin := inner_of_solid (p := p ++ ' ' :: y) ⟨u, by simp [hu], hsolid⟩ [' '] (' ' :: z) ho'
    simpa using hin
  rcases cut_cases (htext.symm.trans hab) with ⟨a', rfl⟩ | ⟨-, -, rfl⟩ | ⟨b', -, rfl⟩
  · exact .inl (inner_of_solid hx [' '] a' ho)
  · exact .inr (hright [])
  · exact .inr (by simpa using hright (b' ++ [o]))

theorem evalArithmetic_two_ops (hctx : ctx.BindsNames) {t : Arith} (h : 2 ≤ t.ops) :
    evalArithmetic ctx eval t.text = none := by
  simp [evalArithmetic_eq, cut_two_ops hctx h]

theorem arithmetic_symbol {op : ArithOp} {a b : Int} (ha : a.natAbs ≤ 2 ^ 53)
    (hb : b.natAbs ≤ 2 ^ 53) (h : (op.apply a b).natAbs ≤ 2 ^ 54) :
    arithmetic op.symbol (Int64.ofInt a) (Int64.ofInt b) = some (Int64.ofInt (op.apply a b)) := by
  have ha' : (Int64.ofInt a).toInt = a := Int64.toInt_ofInt_of_le (by omega) (by omega)
  have hb' : (Int64.ofInt b).toInt = b := Int64.toInt_ofInt_of_le (by omega) (by omega)
  have hcheck : Value.checkedI64 (op.apply a b) = some (Int64.ofInt (op.apply a b)) := by
    rw [Value.checkedI64, if_pos (by omega)]
  cases op with
  | add => simpa [arithmetic, ArithOp.symbol, ha', hb', ArithOp.apply] using hcheck
  | sub => simpa [arithmetic, ArithOp.symbol, ha', hb', ArithOp.apply] using hcheck
  | mult => simpa [arithmetic, ArithOp.symbol, ha', hb', ArithOp.apply] using hcheck

theorem ops_of_operand {t : Arith} (h : t.operand) : t.ops = 0 := by
  cases t with
  | lit n => rfl
  | var x => rfl
  | neg e => cases e <;> simp_all [operand, ops]
  | bin op l r => cases h

theorem value_natAbs {t : Arith} {env : Identifier → Int64} (h : t.Exact env) :
    (t.value env).natAbs ≤ 2 ^ 53 := by
  induction t with
  | lit n => exact h
  | var x => exact h
  | neg e ih => simpa [value] using ih h
  | bin op l r => exact h.2.2

/-- One operator between two sides that the evaluator takes, or no arithmetic at all. -/
theorem evalArithmetic_bin (hctx : ctx.BindsNames) {op : ArithOp} {l r : Arith} :
    (¬(l.operand ∧ r.operand ∧ ¬(op = .sub ∧ l.isNeg)) →
      evalArithmetic ctx eval (bin op l r).text = none) ∧
    ∀ env, l.operand → r.operand → ¬(op = .sub ∧ l.isNeg) → l.Bound ctx env → r.Bound ctx env →
      l.Exact env → r.Exact env → (op.apply (l.value env) (r.value env)).natAbs ≤ 2 ^ 54 →
      evalArithmetic ctx eval (bin op l r).text =
        some (Int64.ofInt (op.apply (l.value env) (r.value env))) := by
  constructor
  · intro h
    by_cases hatoms : l.ops = 0 ∧ r.ops = 0
    · rw [evalArithmetic_atoms hctx hatoms.1 hatoms.2]
      split
      · rfl
      · next hsub =>
        by_cases hl : l.operand
        · have hr : ¬r.operand := fun hr => h ⟨hl, hr, hsub⟩
          rw [resolve_not_operand hctx hatoms.2 hr]
          simp
        · rw [resolve_not_operand hctx hatoms.1 hl]
          rfl
    · apply evalArithmetic_two_ops hctx
      simp only [ops]
      omega
  · intro env hl hr hsub hbl hbr hel her hval
    rw [evalArithmetic_atoms hctx (ops_of_operand hl) (ops_of_operand hr), if_neg hsub,
      resolve_operand hl hbl hel, resolve_operand hr hbr her]
    exact arithmetic_symbol (value_natAbs hel) (value_natAbs her) hval

/-- A printed sign binds to the leftmost operand only. -/
theorem exists_bin {t : Arith} (h : 1 ≤ t.ops) :
    ∃ op l r, t.text = (bin op l r).text ∧ (t.isNeg → l.isNeg) := by
  induction t with
  | lit n => simp [ops] at h
  | var x => simp [ops] at h
  | neg e ih =>
    obtain ⟨op, l, r, heq, -⟩ := ih h
    exact ⟨op, neg l, r, by simp [heq], fun _ => rfl⟩
  | bin op l r => exact ⟨op, l, r, rfl, fun h => by cases h⟩

theorem evalArithmetic_neg_atom {e : Arith} (h : e.ops = 0) :
    evalArithmetic ctx eval (neg e).text = none := by
  have hplus : '+' ∉ (neg e).text := not_mem_atom (t := neg e) h (by decide) (by decide)
  have hstar : '*' ∉ (neg e).text := not_mem_atom (t := neg e) h (by decide) (by decide)
  have hminus : cut ctx eval '-' (neg e).text = none := cut_of_head _
  rw [evalArithmetic_eq, cut_of_not_mem hplus, cut_of_not_mem hstar, hminus, cut_slash]
  rfl

theorem evalArithmetic_neg_neg (hctx : ctx.BindsNames) (e : Arith) :
    evalArithmetic ctx eval (neg (neg e)).text = none := by
  rcases Nat.eq_zero_or_pos e.ops with h | h
  · exact evalArithmetic_neg_atom (e := neg e) h
  · obtain ⟨op, l, r, heq, hneg⟩ := exists_bin (t := neg e) h
    obtain ⟨e', rfl⟩ := isNeg_iff.mp (hneg rfl)
    have htext : (neg (neg e)).text = (bin op (neg (neg e')) r).text := by
      rw [text_neg, heq]
      simp
    rw [htext]
    exact (evalArithmetic_bin hctx).1 fun h => by simp [operand] at h

theorem ofInt_inj {a b : Int} (ha : a.natAbs ≤ 2 ^ 54) (hb : b.natAbs ≤ 2 ^ 54) :
    Int64.ofInt a = Int64.ofInt b ↔ a = b := by
  constructor
  · intro h
    have h' := congrArg Int64.toInt h
    rwa [Int64.toInt_ofInt_of_le (by omega) (by omega),
      Int64.toInt_ofInt_of_le (by omega) (by omega)] at h'
  · rintro rfl
    rfl

theorem evalExpression_int (hctx : ctx.BindsNames) {t : Arith} {c : Char} {i : Int64}
    (hc : c ∈ t.text) (hop : isOpChar c) (hnum : Text.parseI64 t.text = none) :
    evalExpression ctx outputs t.text = .ok (.int i) ↔ F64.parse t.text = none ∧
      evalArithmetic ctx (evalFuel ctx outputs t.text.length) t.text = some i := by
  obtain ⟨d, ds, hds, hd⟩ := t.text_head
  have hplus : d ≠ '+' := by
    rintro rfl
    rcases hd with hd | hd <;> exact absurd hd (by decide)
  rw [(evalExpression_text ctx outputs t).2 (constant_eq_none_of_opChar hc hop)]
  exact evalOperators_int hctx (text_plain t) hc hop hds hplus hnum

theorem evalExpression_neg (hctx : ctx.BindsNames) {e : Arith} {i : Int64} (h : ¬e.isLit) :
    evalExpression ctx outputs (neg e).text = .ok (.int i) ↔ F64.parse (neg e).text = none ∧
      evalArithmetic ctx (evalFuel ctx outputs (neg e).text.length) (neg e).text = some i :=
  evalExpression_int hctx (t := neg e) (c := '-') (by simp) (by decide) (parseI64_neg h)

theorem parseI64_bin (op : ArithOp) (l r : Arith) : Text.parseI64 (bin op l r).text = none := by
  have hin : Inner (bin op l r).text := by
    have := inner_of_solid (solid_text l) [' '] (' ' :: r.text) (isOpChar_symbol op)
    simpa using this
  exact hin.parseI64

theorem parseF64_bin (op : ArithOp) (l r : Arith) : F64.parse (bin op l r).text = none :=
  F64.parse_eq_none_of_blank (by simp)

/-- A numeral is read before anything else. -/
theorem evalExpression_numeral {t : Arith} {n : Int64} (h : Text.parseI64 t.text = some n) :
    evalExpression ctx outputs t.text = .ok (.int n) := by
  have hword : ∀ w : Text, Text.parseI64 w = none → t.text ≠ w := by
    rintro w hw heq
    rw [heq, hw] at h
    cases h
  have hconst : constant t.text = none := by
    rw [constant, if_neg, if_neg, if_neg]
    · exact not_or.mpr ⟨hword "null" (by decide), hword "None" (by decide)⟩
    · exact not_or.mpr ⟨hword "false" (by decide), hword "False" (by decide)⟩
    · exact not_or.mpr ⟨hword "true" (by decide), hword "True" (by decide)⟩
  rw [(evalExpression_text ctx outputs t).2 hconst, evalOperators,
    splitComparison_eq_none (text_plain t), h]

theorem constant_ne_int {t : Text} {i : Int64} : constant t ≠ some (.int i) := by
  unfold constant
  split_ifs <;> simp

theorem evalExpression_var {x : Identifier} {i : Int64} (h : ctx.get x.1 = some (.int i)) :
    evalExpression ctx outputs (var x).text = .ok (.int i) ↔
      constant x.1 = none ∧ F64.parse x.1 = none := by
  cases hconst : constant x.1 with
  | some v =>
    rw [(evalExpression_text ctx outputs (var x)).1 v hconst]
    refine iff_of_false (fun heq => ?_) (by simp)
    cases heq
    exact constant_ne_int hconst
  | none =>
    have hdollar : Text.stripPrefix ['$'] x.1 = none :=
      Text.stripPrefix_eq_none (p := '$') (by simp) fun hc => absurd (x.chars _ hc) (by decide)
    have hname : lookupName ctx outputs x.1 = some (.int i) := by
      simp [lookupName, hdollar, h]
    rw [(evalExpression_text ctx outputs (var x)).2 hconst, evalOperators,
      splitComparison_eq_none (text_plain (var x)), text_var, parseI64_var]
    cases F64.parse x.1 with
    | some f => simp
    | none => simp [hname]

end Arith

end Eval

/-! `a * b` reads back. `a * (b + b)` is printed as `a * b + b`, which is the
concatenation of the texts of `a * b` and `b`. -/

def nameA : Identifier := ⟨['a'], by decide⟩

def nameB : Identifier := ⟨['b'], by decide⟩

def threeAndFive (x : Identifier) : Int64 := if x = nameA then 3 else 5

/-- The context of a graph called with `a = 3` and `b = 5`. -/
def twoNames : Context := (Context.new.set ['a'] (.int 3)).set ['b'] (.int 5)

theorem bindsNames_twoNames : twoNames.BindsNames := by
  intro name v h
  have hname : name = ['a'] ∨ name = ['b'] := by
    by_contra hne
    obtain ⟨ha, hb⟩ := not_or.mp hne
    have hnone : twoNames.get name = none := by
      simp [twoNames, Context.get, Context.set, Context.new, Dict.get_set, Ne.symm ha, Ne.symm hb]
    rw [hnone] at h
    cases h
  rcases hname with rfl | rfl <;> exact List.forall_mem_singleton.mpr (by decide)

def product : Arith := .bin .mult (.var nameA) (.var nameB)

def grouped : Arith := .bin .mult (.var nameA) (.bin .add (.var nameB) (.var nameB))

end Tinypipe
