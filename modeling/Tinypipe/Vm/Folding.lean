import Tinypipe.Compiler.Optimize
import Tinypipe.Vm.Exactness
import Tinypipe.Vm.Recursion

/-! Constant folding (`constant_folding` and `eval_simple_int_expr` of
`tinypipe-compiler/src/backend/optimize.rs`) against the evaluator of the VM: what is folded at
compile time is what the evaluator would have computed. -/

namespace Tinypipe

open Lib Optimize

/-- The names bound by the context are spelled like identifiers. -/
def Context.Identifiers (ctx : Context) : Prop :=
  ∀ name v, ctx.get name = some v → (∀ c ∈ name, isNameChar c) ∧ name.head?.any (fun c => !Text.isDigit c)

/-- A character of an integer, of an operator, or around them. -/
def isArithChar (c : Char) : Bool :=
  Text.isDigit c || c == '+' || c == '-' || c == '*' || c == '/' || Text.isBlank c

/-- How an integer begins. -/
def isNumberHead (c : Char) : Bool := Text.isDigit c || c == '+' || c == '-'

/-- A text that `eval_simple_int_expr` may read: integers and operators, blanks only inside. -/
structure ArithText (t : Text) : Prop where
  chars : ∀ c ∈ t, isArithChar c
  head : ∃ d ds, t = d :: ds ∧ isNumberHead d
  trimmed : Text.trim t = t

theorem not_mem_arith {t : Text} (h : ∀ c ∈ t, isArithChar c) {c : Char} (hc : isArithChar c = false) : c ∉ t := by
  intro hmem
  rw [h c hmem] at hc
  cases hc

theorem isNumberHead_cases {c : Char} (h : isNumberHead c) : Text.isDigit c ∨ c = '+' ∨ c = '-' := by
  simpa [isNumberHead, or_assoc] using h

/-- The text of an integer, with the blanks around it. -/
theorem parseI64_chars {t : Text} {a : Int64} (h : Text.parseI64 (Text.trim t) = some a) :
    (∀ c ∈ t, isArithChar c) ∧ ∃ d ds, Text.trim t = d :: ds ∧ isNumberHead d := by
  obtain ⟨n, hn⟩ := Text.parseI64_parseSigned h
  obtain ⟨d, ds, hds, hd, hdigits⟩ := Text.parseSigned_digits hn
  refine ⟨fun c hc => ?_, d, ds, hds, by simpa [isNumberHead, or_assoc] using hd⟩
  cases hblank : Text.isBlank c with
  | true => simp [isArithChar, hblank]
  | false =>
    have hmem := Text.mem_trim hc hblank
    rw [hds] at hmem
    rcases List.mem_cons.1 hmem with rfl | hmem
    · rcases hd with hd | rfl | rfl
      · simp [isArithChar, hd]
      · decide
      · decide
    · simp [isArithChar, hdigits c hmem]

/-- The two integers that one operator joins. -/
theorem splitOperator_some {op : Char} {t : Text} {a b : Int64} (h : splitOperator op t = some (a, b)) :
    ∃ l r, t = l ++ op :: r ∧ l ≠ [] ∧ r ≠ [] ∧ Text.parseI64 (Text.trim l) = some a ∧
      Text.parseI64 (Text.trim r) = some b := by
  rw [splitOperator] at h
  split at h
  next x xs y ys hsplit =>
    refine ⟨x :: xs, y :: ys, Text.splitOnce_eq_some hsplit, List.cons_ne_nil _ _, List.cons_ne_nil _ _, ?_⟩
    split at h
    next a' b' ha hb =>
      cases h
      exact ⟨ha, hb⟩
    · cases h
  · cases h

theorem arithOps_chars {op : Char} (h : op ∈ ['+', '-', '*', '/']) : isArithChar op ∧ Text.isDigit op = false := by
  simp only [List.mem_cons, List.not_mem_nil, or_false] at h
  rcases h with rfl | rfl | rfl | rfl <;> decide

theorem evalSimpleIntExpr_cases {e : Text} {n : Int64} (h : evalSimpleIntExpr e = some n) :
    Text.parseI64 (Text.trim e) = some n ∨
      Text.parseI64 (Text.trim e) = none ∧ (['+', '-', '*', '/'].findSome? fun op =>
        (splitOperator op (Text.trim e)).bind fun ab => checkedOp op ab.1 ab.2) = some n := by
  rw [evalSimpleIntExpr] at h
  split at h
  next m hm =>
    cases h
    exact Or.inl hm
  next hm => exact Or.inr ⟨hm, h⟩

/-- What is folded is one integer, or two with an operator between them. -/
theorem arithText_of_evalSimple {e : Text} {n : Int64} (h : evalSimpleIntExpr e = some n) :
    ArithText (Text.trim e) := by
  rcases evalSimpleIntExpr_cases h with h | ⟨-, h⟩
  · rw [← Text.trim_trim e] at h
    obtain ⟨hchars, hhead⟩ := parseI64_chars h
    rw [Text.trim_trim] at hhead
    exact ⟨hchars, hhead, Text.trim_trim e⟩
  · obtain ⟨op, hop, hsome⟩ := List.exists_of_findSome?_eq_some h
    obtain ⟨⟨a, b⟩, hsplit, -⟩ := Option.bind_eq_some_iff.1 hsome
    obtain ⟨l, r, htext, hl, -, ha, hb⟩ := splitOperator_some hsplit
    obtain ⟨hlchars, d, ds, hds, hd⟩ := parseI64_chars ha
    refine ⟨fun c hc => ?_, ?_, Text.trim_trim e⟩
    · rw [htext, List.mem_append, List.mem_cons] at hc
      rcases hc with hc | rfl | hc
      · exact hlchars c hc
      · exact (arithOps_chars hop).1
      · exact (parseI64_chars hb).1 c hc
    · -- the text starts with no blank, so its first character is the first of the left integer
      obtain ⟨x, xs, rfl⟩ := List.exists_cons_of_ne_nil hl
      have hx : Text.isBlank x = false := by
        have hstart := Text.trimStart_trim e
        rw [Text.trimStart, Text.dropWhile_eq_self] at hstart
        exact hstart x (by rw [htext]; rfl)
      have hstart : Text.trimStart (x :: xs) = x :: xs :=
        List.dropWhile_cons_of_neg (by rw [hx]; exact Bool.false_ne_true)
      have hlead : (Text.trim (x :: xs)).head? = some x := by
        have hend := Text.trimEnd_append hx [] xs
        rw [List.nil_append, List.nil_append] at hend
        rw [Text.trim, hstart, hend]
        rfl
      rw [hds] at hlead
      cases hlead
      exact ⟨d, xs ++ op :: r, by rw [htext]; rfl, hd⟩

section

variable {ctx : Context} {outputs : Nat → Option Value} {eval : Text → Except Text Value} {t : Text}

theorem ArithText.ne (h : ArithText t) {w : Text} (hw : w.head?.any isNumberHead = false) : t ≠ w := by
  rintro rfl
  obtain ⟨d, ds, rfl, hd⟩ := h.head
  rw [List.head?_cons, Option.any_some, hd] at hw
  cases hw

theorem ArithText.stripPrefix (h : ArithText t) {p : Char} (ps : Text) (hp : isNumberHead p = false) :
    Text.stripPrefix (p :: ps) t = none := by
  obtain ⟨d, ds, rfl, hd⟩ := h.head
  have hne : p ≠ d := by
    rintro rfl
    rw [hd] at hp
    cases hp
  simp [Text.stripPrefix, List.isPrefixOf, hne]

theorem ArithText.splitComparison (h : ArithText t) : splitComparison t = none := by
  rw [Tinypipe.splitComparison, List.findSome?_eq_none_iff]
  intro op hop
  rw [comparisonOps_eq] at hop
  have hhead : ∃ p ps, op = p :: ps ∧ isArithChar p = false := by
    simp only [List.mem_cons, List.not_mem_nil, or_false] at hop
    rcases hop with rfl | rfl | rfl | rfl | rfl | rfl <;> exact ⟨_, _, rfl, by decide⟩
  obtain ⟨p, ps, rfl, hp⟩ := hhead
  rw [Text.splitOnce_eq_none_of_head (not_mem_arith h.chars hp)]

/-- Nothing of the evaluator touches such a text before the operators. -/
theorem ArithText.evalStep (h : ArithText t) :
    evalStep ctx outputs eval t = evalOperators ctx outputs eval false t := by
  obtain ⟨d, ds, hds, hd⟩ := h.head
  have hne : ∀ c, isNumberHead c = false → d ≠ c := by
    rintro c hc rfl
    rw [hd] at hc
    cases hc
  have hspace : Json.isSpace d = false := by
    simp [Json.isSpace, hne ' ' (by decide), hne '\n' (by decide), hne '\t' (by decide), hne '\r' (by decide)]
  have hquoted := decodeQuoted_eq hds hspace (hne '"' (by decide)) (hne '\'' (by decide))
  have hempty : t.isEmpty = false := by rw [hds]; rfl
  have hcall : ∀ (p : Char) (ps : Text), isNumberHead p = false → wholeCall (p :: ps) t = none := by
    intro p ps hp
    rw [wholeCall, h.stripPrefix ps hp]
  have hbrace : (t.head? == some '{') = false := by simp [hds, hne '{' (by decide)]
  have hconstant : constant t = none := by
    rw [constant, if_neg, if_neg, if_neg]
    · exact not_or.mpr ⟨h.ne (w := "null") (by decide), h.ne (w := "None") (by decide)⟩
    · exact not_or.mpr ⟨h.ne (w := "false") (by decide), h.ne (w := "False") (by decide)⟩
    · exact not_or.mpr ⟨h.ne (w := "true") (by decide), h.ne (w := "True") (by decide)⟩
  have hnot : stripNot t = none := by
    have hword : Text.stripPrefix "not " t = none := h.stripPrefix (p := 'n') _ (by decide)
    have hbang : Text.stripPrefix ['!'] t = none := h.stripPrefix [] (by decide)
    rw [stripNot, hword, hbang]
    rfl
  have hrange : wholeCall "range(" t = none := hcall 'r' _ (by decide)
  have hlen : wholeCall "len(" t = none := hcall 'l' _ (by decide)
  simp only [Tinypipe.evalStep, h.trimmed, hquoted, hempty, hrange, hlen, hbrace, hconstant, hnot, Bool.false_eq_true,
    Bool.false_and, if_false, Option.map_none]

theorem not_identifier (hctx : ctx.Identifiers) {u : Text} (h : ∀ c ∈ u, isArithChar c) : ctx.get u = none := by
  cases hv : ctx.get u with
  | none => rfl
  | some v =>
    obtain ⟨hname, hhead⟩ := hctx u v hv
    cases u with
    | nil => cases hhead
    | cons c cs =>
      have hc := h c List.mem_cons_self
      have hcname := hname c List.mem_cons_self
      rw [List.head?_cons, Option.any_some, Bool.not_eq_true'] at hhead
      have hblank := not_isBlank_of_isNameChar hcname
      have hops : c ≠ '+' ∧ c ≠ '-' ∧ c ≠ '*' ∧ c ≠ '/' := by
        refine ⟨?_, ?_, ?_, ?_⟩
        all_goals
          rintro rfl
          exact absurd hcname (by decide)
      simp [isArithChar, hhead, hblank, hops] at hc

/-- A side that is read as a number at run time is one at compile time. -/
theorem resolve_arith (hctx : ctx.Identifiers) {u : Text} (h : ∀ c ∈ u, isArithChar c) :
    resolveNumericWith ctx eval u = Text.parseI64 u := by
  rw [resolveNumericWith]
  cases Text.parseI64 u with
  | some n => rfl
  | none =>
    have hnot : ∀ c, isArithChar c = false → u.elem c = false := fun c hc => by
      simpa using not_mem_arith h hc
    dsimp only
    rw [not_identifier hctx h, hnot '.' (by decide), hnot '[' (by decide), hnot '(' (by decide)]
    rfl

theorem arithmetic_checkedOp {op : Char} (a b : Int64) : arithmetic op a b = checkedOp op a b := by
  rw [arithmetic, checkedOp]
  split
  · rfl
  · split
    · rfl
    · split
      · rfl
      · by_cases hb : b = 0
        · rw [if_neg (by simpa using hb), if_pos hb]
        · rw [if_pos hb, if_neg hb]

theorem cut_arith (hctx : ctx.Identifiers) (h : ∀ c ∈ t, isArithChar c) (op : Char) :
    cut ctx eval op t = (splitOperator op t).bind fun ab => checkedOp op ab.1 ab.2 := by
  rw [cut, splitBinary, splitOperator]
  cases hsplit : Text.splitOnce [op] t with
  | none => rfl
  | some p =>
    obtain ⟨l, r⟩ := p
    have htext := Text.splitOnce_eq_some hsplit
    cases l with
    | nil => rfl
    | cons x xs =>
      cases r with
      | nil => rfl
      | cons y ys =>
        have hl : ∀ c ∈ Text.trim (x :: xs), isArithChar c := fun c hc =>
          h c (by rw [htext]; exact List.mem_append_left _ (trim_subset _ hc))
        have hr : ∀ c ∈ Text.trim (y :: ys), isArithChar c := fun c hc =>
          h c (by rw [htext]; exact List.mem_append_right _ (List.mem_cons_of_mem _ (trim_subset _ hc)))
        dsimp only [Option.bind_some]
        rw [resolve_arith hctx hl, resolve_arith hctx hr]
        cases Text.parseI64 (Text.trim (x :: xs)) with
        | none => rfl
        | some a =>
          cases Text.parseI64 (Text.trim (y :: ys)) with
          | none => rfl
          | some b => exact arithmetic_checkedOp a b

theorem evalArithmetic_arith (hctx : ctx.Identifiers) (h : ∀ c ∈ t, isArithChar c) :
    evalArithmetic ctx eval t = ['+', '-', '*', '/'].findSome? fun op =>
      (splitOperator op t).bind fun ab => checkedOp op ab.1 ab.2 := by
  rw [evalArithmetic_eq, cut_arith hctx h, cut_arith hctx h, cut_arith hctx h, cut_arith hctx h]
  simp only [List.findSome?_cons, List.findSome?_nil]
  generalize (splitOperator '+' t).bind (fun ab => checkedOp '+' ab.1 ab.2) = w
  generalize (splitOperator '-' t).bind (fun ab => checkedOp '-' ab.1 ab.2) = x
  generalize (splitOperator '*' t).bind (fun ab => checkedOp '*' ab.1 ab.2) = y
  generalize (splitOperator '/' t).bind (fun ab => checkedOp '/' ab.1 ab.2) = z
  cases w <;> cases x <;> cases y <;> cases z <;> rfl

/-- Two integers and an operator are neither a number nor a name. -/
theorem evalOperators_arith (hctx : ctx.Identifiers) (h : ArithText t) (hint : Text.parseI64 t = none) {op : Char}
    (hop : op ∈ ['+', '-', '*', '/']) {l r : Text} (htext : t = l ++ op :: r) (hl : l ≠ []) :
    evalOperators ctx outputs eval false t = evalCompound ctx eval false t := by
  obtain ⟨d, ds, hds, hd⟩ := h.head
  have hmem : op ∈ ds := by
    obtain ⟨x, xs, rfl⟩ := List.exists_cons_of_ne_nil hl
    rw [hds, List.cons_append] at htext
    rw [(List.cons.inj htext).2]
    exact List.mem_append_right _ List.mem_cons_self
  have hexponent : ∀ x ∈ d :: ds, x ≠ 'e' ∧ x ≠ 'E' := by
    intro x hx
    rw [← hds] at hx
    refine ⟨?_, ?_⟩
    all_goals
      rintro rfl
      exact not_mem_arith h.chars (by decide) hx
  have hfloat : F64.parse t = none := by
    rw [hds]
    exact F64.parse_eq_none_of_operator hexponent hmem hop
  have hdollar : Text.stripPrefix ['$'] t = none := h.stripPrefix [] (by decide)
  have hindex : Text.parseUnsigned 32 t = none := by
    rw [hds]
    exact Text.parseUnsigned_eq_none hmem (arithOps_chars hop).2
  have hname : lookupName ctx outputs t = none := by
    rw [lookupName, hdollar, Option.getD_none, not_identifier hctx h.chars, hindex]
    rfl
  rw [evalOperators, h.splitComparison, hint, hfloat, hname]

theorem evalStep_trim (u : Text) : evalStep ctx outputs eval (Text.trim u) = evalStep ctx outputs eval u := by
  rw [evalStep, evalStep, Text.trim_trim]

/-- The evaluator computes what was folded. -/
theorem evalExpression_folded (outputs : Nat → Option Value) (hctx : ctx.Identifiers) {e : Text} {n : Int64}
    (h : evalSimpleIntExpr e = some n) : evalExpression ctx outputs e = .ok (.int n) := by
  have harith := arithText_of_evalSimple h
  rw [evalExpression_unfold, ← evalStep_trim, harith.evalStep]
  rcases evalSimpleIntExpr_cases h with hint | ⟨hint, hops⟩
  · rw [evalOperators, harith.splitComparison, hint]
  · obtain ⟨op, hop, hsome⟩ := List.exists_of_findSome?_eq_some hops
    obtain ⟨⟨a, b⟩, hsplit, -⟩ := Option.bind_eq_some_iff.1 hsome
    obtain ⟨l, r, htext, hl, -⟩ := splitOperator_some hsplit
    rw [evalOperators_arith hctx harith hint hop htext hl, evalCompound, evalArithmetic_arith hctx harith.chars, hops]

end

/-! ### The folded plan -/

/-- The exact value, the quotient rounded towards zero. -/
def exactOp (op : Char) (a b : Int) : Int :=
  if op = '+' then a + b else if op = '-' then a - b else if op = '*' then a * b else a.tdiv b

theorem checkedOp_exact {op : Char} {a b n : Int64} (h : checkedOp op a b = some n) :
    n.toInt = exactOp op a.toInt b.toInt ∧ (op ∈ ['+', '-', '*'] ∨ b ≠ 0) := by
  rw [checkedOp] at h
  rw [exactOp]
  split at h
  case isTrue hop => exact ⟨by rw [if_pos hop, (Value.checkedI64_eq_some h).1], Or.inl (by simp [hop])⟩
  case isFalse hplus =>
    rw [if_neg hplus]
    split at h
    case isTrue hop => exact ⟨by rw [if_pos hop, (Value.checkedI64_eq_some h).1], Or.inl (by simp [hop])⟩
    case isFalse hminus =>
      rw [if_neg hminus]
      split at h
      case isTrue hop => exact ⟨by rw [if_pos hop, (Value.checkedI64_eq_some h).1], Or.inl (by simp [hop])⟩
      case isFalse htimes =>
        rw [if_neg htimes]
        split at h
        · cases h
        case isFalse hb => exact ⟨(Value.checkedI64_eq_some h).1, Or.inr hb⟩

/-- What is folded is an integer as it is written, or the exact result of one operation. -/
inductive FoldsTo (e : Text) (n : Int64) : Prop where
  | number (h : Text.parseI64 (Text.trim e) = some n)
  | operation (op : Char) (l r : Text) (a b : Int64) (text : Text.trim e = l ++ op :: r)
      (left : Text.parseI64 (Text.trim l) = some a) (right : Text.parseI64 (Text.trim r) = some b)
      (divisor : op ∈ ['+', '-', '*'] ∨ b ≠ 0) (exact : n.toInt = exactOp op a.toInt b.toInt)

theorem foldsTo_of_evalSimple {e : Text} {n : Int64} (h : evalSimpleIntExpr e = some n) : FoldsTo e n := by
  rcases evalSimpleIntExpr_cases h with h | ⟨-, h⟩
  · exact .number h
  · obtain ⟨op, -, hsome⟩ := List.exists_of_findSome?_eq_some h
    obtain ⟨⟨a, b⟩, hsplit, hop⟩ := Option.bind_eq_some_iff.1 hsome
    obtain ⟨l, r, htext, -, -, ha, hb⟩ := splitOperator_some hsplit
    obtain ⟨hexact, hdivisor⟩ := checkedOp_exact hop
    exact .operation op l r a b htext ha hb hdivisor hexact

theorem parseSigned_ofInt (i : Int) : Text.parseSigned (Text.ofInt i) = some i := by
  cases i with
  | ofNat n => exact Text.parseSigned_ofNat n
  | negSucc n =>
    rw [Text.ofInt, Text.parseSigned, Text.parseNat_ofNat]
    rfl

theorem parseI64_ofInt (n : Int64) : Text.parseI64 (Text.ofInt n.toInt) = some n := by
  rw [Text.parseI64_of_parseSigned (parseSigned_ofInt n.toInt) ⟨n.le_toInt, n.toInt_lt⟩, Int64.ofInt_toInt]

theorem trim_ofInt (i : Int) : Text.trim (Text.ofInt i) = Text.ofInt i := by
  have hchar : ∀ c ∈ Text.ofInt i, Text.isBlank c = false := by
    have hdigit : ∀ (k : Nat), ∀ c ∈ Text.ofNat k, Text.isBlank c = false := fun k c hc =>
      not_isBlank_of_isNameChar (isNameChar_of_isDigit (Text.isDigit_of_mem_ofNat hc))
    intro c hc
    cases i with
    | ofNat n => exact hdigit n c hc
    | negSucc n =>
      rcases List.mem_cons.1 hc with rfl | hc
      · decide
      · exact hdigit (n + 1) c hc
  exact Text.trim_eq_self (fun c hc => hchar c (List.mem_of_head? hc)) fun c hc => hchar c (List.mem_of_getLast? hc)

theorem evalSimpleIntExpr_ofInt (n : Int64) : evalSimpleIntExpr (Text.ofInt n.toInt) = some n := by
  rw [evalSimpleIntExpr, trim_ofInt, parseI64_ofInt]

def Arg.isExpr (a : Arg) : Bool := a.key = ("expr" : Text)

/-- A node and what folding makes of it: everything but the expression stays, and the expression is
one of the same value. -/
structure Node.FoldedTo (nd nd' : Node) : Prop where
  id : nd'.id = nd.id
  op : nd'.op = nd.op
  inferredType : nd'.inferredType = nd.inferredType
  branchId : nd'.branchId = nd.branchId
  group : nd'.group = nd.group
  others : nd'.args.filter (!·.isExpr) = nd.args.filter (!·.isExpr)
  expr : nd' = nd ∨ nd.op = .calc ∧ ∃ e n, exprOf nd = some e ∧ evalSimpleIntExpr e = some n ∧
    exprOf nd' = some (Text.ofInt n.toInt)

theorem foldedValue_some {nd : Node} {n : Int64} (h : foldedValue nd = some n) :
    nd.op = .calc ∧ ∃ e, exprOf nd = some e ∧ evalSimpleIntExpr e = some n := by
  rw [foldedValue] at h
  split at h
  case isTrue hop =>
    obtain ⟨e, he, hfold⟩ := Option.bind_eq_some_iff.1 h
    split at hfold
    · exact ⟨hop, e, he, hfold⟩
    · cases hfold
  case isFalse => cases h

theorem foldNode_foldedTo (nd : Node) : nd.FoldedTo (foldNode nd) := by
  rw [foldNode]
  cases h : foldedValue nd with
  | none => exact ⟨rfl, rfl, rfl, rfl, rfl, rfl, Or.inl rfl⟩
  | some n =>
    obtain ⟨hop, e, he, hfold⟩ := foldedValue_some h
    refine ⟨rfl, rfl, rfl, rfl, rfl, ?_, Or.inr ⟨hop, e, n, he, hfold, rfl⟩⟩
    have hkeep : ∀ a : Arg, (!a.isExpr) = decide (a.key ≠ ("expr" : Text)) := fun a => by simp [Arg.isExpr]
    change (foldedArgs n nd.args).filter (!·.isExpr) = _
    rw [foldedArgs, List.filter_cons_of_neg (by simp [Arg.isExpr]), funext hkeep, List.filter_filter]
    simp

/-- The folded value is the exact one and the evaluator's; nothing else of the plan changes. -/
theorem constant_folding_agrees :
    (∀ (e : Text) (n : Int64), evalSimpleIntExpr e = some n → FoldsTo e n ∧
      ∀ (ctx : Context) (outputs : Nat → Option Value), ctx.Identifiers →
        evalExpression ctx outputs e = .ok (.int n)) ∧
    (∀ p : ExecutionPlan, (constantFolding p).1.version = p.version ∧ (constantFolding p).1.edges = p.edges ∧
      (constantFolding p).1.metadata = p.metadata ∧ List.Forall₂ Node.FoldedTo p.nodes (constantFolding p).1.nodes) ∧
    (∀ (nd : Node) (e e' : Text), exprOf nd = some e → exprOf (foldNode nd) = some e' →
      ∀ (ctx : Context) (outputs : Nat → Option Value), ctx.Identifiers →
        evalExpression ctx outputs e' = evalExpression ctx outputs e) := by
  refine ⟨fun e n h => ⟨foldsTo_of_evalSimple h, fun ctx outputs hctx => evalExpression_folded outputs hctx h⟩,
    fun p => ⟨rfl, rfl, rfl, ?_⟩, fun nd e e' he he' ctx outputs hctx => ?_⟩
  · change List.Forall₂ Node.FoldedTo p.nodes (p.nodes.map foldNode)
    rw [List.forall₂_map_right_iff, List.forall₂_same]
    exact fun nd _ => foldNode_foldedTo nd
  · rcases (foldNode_foldedTo nd).expr with hsame | ⟨-, f, n, hf, hfold, hnew⟩
    · rw [hsame, he] at he'
      cases he'
      rfl
    · cases hf.symm.trans he
      cases hnew.symm.trans he'
      rw [evalExpression_folded outputs hctx hfold,
        evalExpression_folded outputs hctx (evalSimpleIntExpr_ofInt n)]

def quotientNode : Node := ⟨"n0", .calc, [⟨"expr", .string "-7 / 2"⟩, ⟨"output", .string ['x']⟩], none, none, none⟩

theorem constant_folding_agrees_quotient :
    evalExpression Context.new (fun _ => none) "-7 / 2" = .ok (.int (-3)) ∧
    evalExpression Context.new (fun _ => none) "-3" = evalExpression Context.new (fun _ => none) "-7 / 2" := by
  have hctx : Context.new.Identifiers := by
    intro name v hv
    cases hv
  exact ⟨(constant_folding_agrees.1 "-7 / 2" (-3) (by decide +kernel)).2 Context.new (fun _ => none) hctx,
    constant_folding_agrees.2.2 quotientNode "-7 / 2" "-3" rfl (by decide +kernel) Context.new (fun _ => none) hctx⟩

end Tinypipe
