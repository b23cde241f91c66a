import Tinypipe.Vm.Exactness
import Tinypipe.Vm.Recursion

/-! What a string constant of the source comes to (`format_constant` of
`tinypipe-compiler/src/transform.rs`, `eval_expression` and `resolve_arg_value` of
`tinypipe-vm/src/compiled_executor.rs`). Its text is put between quotes as it is; the evaluator
takes the quotes off again and reads what is between them as an expression. -/

namespace Tinypipe

open Lib

/-- A string constant, as the compiler prints it. -/
def quoted (s : Text) : Text := formatConstant (.str s)

theorem quoted_eq (s : Text) : quoted s = '"' :: (s ++ ['"']) := rfl

theorem trim_quoted (s : Text) : Text.trim (quoted s) = quoted s := by
  rw [quoted_eq]
  refine Text.trim_eq_self (fun c hc => ?_) fun c hc => ?_
  · cases hc
    decide
  · rw [← List.cons_append, List.getLast?_append] at hc
    cases hc
    decide

/-- A text that is not quoted is read as it is. -/
theorem decodeQuoted_unquoted {t : Text} (h : (decodeQuoted t).2 = false) : (decodeQuoted t).1 = t := by
  revert h
  rw [decodeQuoted]
  split
  · nofun
  · dsimp only
    split
    · nofun
    · exact fun _ => rfl

theorem rangeBound_ne_string {expr message : Text} {args : List Int64} (s : Text) :
    rangeBound expr message args ≠ .ok (.string s) := by
  unfold rangeBound
  split
  · nofun
  · nofun
  · split <;> nofun
  · nofun

theorem evalRange_ne_string {f : Text → Except Text Value} {expr argsStr : Text} (s : Text) :
    evalRange f expr argsStr ≠ .ok (.string s) := by
  unfold evalRange
  dsimp only
  split
  · exact rangeBound_ne_string s
  · split
    · nofun
    · exact rangeBound_ne_string s

theorem constant_ne_string {e : Text} (s : Text) : constant e ≠ some (.string s) := by
  unfold constant
  split_ifs <;> nofun

section

variable {ctx : Context} {outputs : Nat → Option Value}

/-- What an accessor chain falls back to: a literal is its own text. -/
def quotedFail (wasQuoted : Bool) (e msg : Text) : Except Text Value :=
  if wasQuoted then .ok (.string e) else .error msg

/-- The text `e` that was left of a literal is read as the string `s`. -/
structure ReadAs (ctx : Context) (outputs : Nat → Option Value) (e : Text) (wasQuoted : Bool) (s : Text) :
    Prop where
  nonempty : e ≠ []
  no_range : wholeCall "range(" e = none
  no_constant : constant e = none
  no_not : stripNot e = none
  no_comparison : splitComparison e = none
  no_int : Text.parseI64 e = none
  no_float : F64.parse e = none
  bound : ∀ v, lookupName ctx outputs e = some v → v = .string s
  no_arithmetic : lookupName ctx outputs e = none → evalArithmetic ctx (evalExpression ctx outputs) e = none
  concat : lookupName ctx outputs e = none → ∀ v, evalConcat (evalExpression ctx outputs) e = some v →
    v = .string s
  chain : lookupName ctx outputs e = none → evalConcat (evalExpression ctx outputs) e = none →
    ∀ base accs v, splitAccessors e = some (base, accs) → evalExpression ctx outputs base = .ok v →
      followAccessors (evalExpression ctx outputs) (quotedFail wasQuoted e) e accs v = .ok (.string s)
  literal : lookupName ctx outputs e = none → evalConcat (evalExpression ctx outputs) e = none →
    (∀ base accs v, splitAccessors e = some (base, accs) → evalExpression ctx outputs base ≠ .ok v) →
      quotedFail wasQuoted e (cannotEvaluate e) = .ok (.string s)

theorem evalCompound_readAs {e : Text} {wasQuoted : Bool} {s : Text} :
    evalCompound ctx (evalExpression ctx outputs) wasQuoted e = .ok (.string s) ↔
      evalArithmetic ctx (evalExpression ctx outputs) e = none ∧
      (∀ v, evalConcat (evalExpression ctx outputs) e = some v → v = .string s) ∧
      (evalConcat (evalExpression ctx outputs) e = none →
        (∀ base accs v, splitAccessors e = some (base, accs) → evalExpression ctx outputs base = .ok v →
          followAccessors (evalExpression ctx outputs) (quotedFail wasQuoted e) e accs v = .ok (.string s)) ∧
        ((∀ base accs v, splitAccessors e = some (base, accs) → evalExpression ctx outputs base ≠ .ok v) →
          quotedFail wasQuoted e (cannotEvaluate e) = .ok (.string s))) := by
  rw [evalCompound]
  cases evalArithmetic ctx (evalExpression ctx outputs) e with
  | some i => exact iff_of_false (by rintro ⟨⟩) fun h => by cases h.1
  | none =>
    cases evalConcat (evalExpression ctx outputs) e with
    | some v => simp
    | none =>
      cases splitAccessors e with
      | none =>
        change quotedFail wasQuoted e (cannotEvaluate e) = _ ↔ _
        simp
      | some p =>
        obtain ⟨base, accs⟩ := p
        dsimp only
        cases hbase : evalExpression ctx outputs base with
        | error m =>
          change quotedFail wasQuoted e (cannotEvaluate e) = _ ↔ _
          refine ⟨fun h => ⟨rfl, by rintro _ ⟨⟩, fun _ => ⟨fun b a v hp hv => ?_, fun _ => h⟩⟩, fun h => (h.2.2 rfl).2 ?_⟩
          · cases hp
            cases hbase.symm.trans hv
          · intro b a v hp hv
            cases hp
            cases hbase.symm.trans hv
        | ok v =>
          change followAccessors _ (quotedFail wasQuoted e) e accs v = _ ↔ _
          refine ⟨fun h => ⟨rfl, by rintro _ ⟨⟩, fun _ => ⟨fun b a v' hp hv => ?_, fun hnone => ?_⟩⟩, fun h =>
            (h.2.2 rfl).1 base accs v rfl hbase⟩
          · cases hp
            cases hbase.symm.trans hv
            exact h
          · exact absurd hbase (hnone base accs v rfl)

theorem evalOperators_readAs {e : Text} {wasQuoted : Bool} {s : Text} :
    evalOperators ctx outputs (evalExpression ctx outputs) wasQuoted e = .ok (.string s) ↔
      splitComparison e = none ∧ Text.parseI64 e = none ∧ F64.parse e = none ∧
      (∀ v, lookupName ctx outputs e = some v → v = .string s) ∧
      (lookupName ctx outputs e = none →
        evalCompound ctx (evalExpression ctx outputs) wasQuoted e = .ok (.string s)) := by
  rw [evalOperators]
  cases splitComparison e with
  | some p =>
    obtain ⟨op, l, r⟩ := p
    refine iff_of_false ?_ fun h => by cases h.1
    dsimp only
    split
    · rintro ⟨⟩
    · split <;> rintro ⟨⟩
  | none =>
    dsimp only
    cases Text.parseI64 e with
    | some n => exact iff_of_false (by rintro ⟨⟩) fun h => by cases h.2.1
    | none =>
      dsimp only
      cases F64.parse e with
      | some f => exact iff_of_false (by rintro ⟨⟩) fun h => by cases h.2.2.1
      | none =>
        dsimp only
        cases lookupName ctx outputs e <;> simp

/-- Which literals read back: the rest of the evaluator must leave the text alone, or come to it by
chance. -/
theorem evalExpression_quoted (s : Text) : evalExpression ctx outputs (quoted s) = .ok (.string s) ↔
    ReadAs ctx outputs (decodeQuoted (quoted s)).1 (decodeQuoted (quoted s)).2 s := by
  have hlen : (if (decodeQuoted (quoted s)).2 = true then none
      else wholeCall "len(" (decodeQuoted (quoted s)).1) = none := by
    split
    case isTrue => rfl
    case isFalse hfalse =>
      rw [decodeQuoted_unquoted (Bool.not_eq_true _ ▸ hfalse)]
      rfl
  have hhead : (quoted s).head? = some '"' := rfl
  rw [evalExpression_unfold, evalStep, trim_quoted, hhead]
  dsimp only
  rw [hlen]
  generalize (decodeQuoted (quoted s)).1 = e
  generalize (decodeQuoted (quoted s)).2 = wasQuoted
  by_cases hempty : e = []
  · subst hempty
    exact iff_of_false (by rintro ⟨⟩) fun h => h.nonempty rfl
  · rw [if_neg (by rw [List.isEmpty_iff]; exact hempty)]
    cases hrange : wholeCall "range(" e with
    | some argsStr => exact iff_of_false (evalRange_ne_string s) fun h => by cases hrange.symm.trans h.no_range
    | none =>
      dsimp only [Option.map_none]
      cases hconstant : constant e with
      | some v =>
        refine iff_of_false (fun h => ?_) fun h => by cases hconstant.symm.trans h.no_constant
        cases h
        exact constant_ne_string s hconstant
      | none =>
        dsimp only
        rw [if_neg (by simp)]
        cases hnot : stripNot e with
        | some rest =>
          refine iff_of_false ?_ fun h => by cases hnot.symm.trans h.no_not
          dsimp only
          split <;> rintro ⟨⟩
        | none =>
          dsimp only
          rw [evalOperators_readAs]
          constructor
          · rintro ⟨hcompare, hint, hfloat, hbound, hcompound⟩
            refine ⟨hempty, hrange, hconstant, hnot, hcompare, hint, hfloat, hbound, fun hname => ?_,
              fun hname => ?_, fun hname => ?_, fun hname => ?_⟩
            all_goals have h := evalCompound_readAs.1 (hcompound hname)
            · exact h.1
            · exact h.2.1
            · exact fun hconcat => (h.2.2 hconcat).1
            · exact fun hconcat => (h.2.2 hconcat).2
          · intro h
            refine ⟨h.no_comparison, h.no_int, h.no_float, h.bound, fun hname => evalCompound_readAs.2 ?_⟩
            exact ⟨h.no_arithmetic hname, h.concat hname,
              fun hconcat => ⟨h.chain hname hconcat, h.literal hname hconcat⟩⟩

end

/-! ### An operand of a comparison -/

/-- The operators that are looked for before the one that stands there. -/
def Relation.earlier (rel : Relation) : List Text := comparisonOps.takeWhile (· ≠ rel.symbol)

/-- The sides of the first occurrence of an operator, unless one is blank. -/
def comparisonAt (op t : Text) : Option (Text × Text × Text) :=
  match Text.splitOnce op t with
  | some (l, r) => if !(Text.trim l).isEmpty && !(Text.trim r).isEmpty then some (op, Text.trim l, Text.trim r) else none
  | none => none

theorem splitComparison_eq (t : Text) :
    splitComparison t = comparisonOps.findSome? fun op => comparisonAt op t := rfl

def comparedTo (x : Identifier) (op s : Text) : Text := x.1 ++ ' ' :: (op ++ ' ' :: quoted s)

theorem comparisonAt_fst {op t : Text} {q : Text × Text × Text} (h : comparisonAt op t = some q) : q.1 = op := by
  rw [comparisonAt] at h
  split at h
  · split at h
    · cases h
      rfl
    · cases h
  · cases h

theorem splitOnce_quoted {p : Char} {ps : Text} (hp : p ≠ '"') (hps : '"' ∉ ps) (s : Text) :
    Text.splitOnce (p :: ps) (quoted s) = (Text.splitOnce (p :: ps) s).map fun q => ('"' :: q.1, q.2 ++ ['"']) := by
  have hpat : '"' ∉ p :: ps := by
    rw [List.mem_cons, not_or]
    exact ⟨hp.symm, hps⟩
  have hfront : quoted s = ['"'] ++ (s ++ ['"']) := rfl
  rw [hfront, Text.splitOnce_append_left _ (by simpa using hp), Text.splitOnce_append_right s hpat (List.cons_ne_nil p ps)]
  cases Text.splitOnce (p :: ps) s <;> rfl

/-- An operator that comes earlier is only found inside the string. -/
theorem splitOnce_comparedTo (x : Identifier) (rel : Relation) {op : Text} (hop : op ∈ rel.earlier) (s : Text) :
    Text.splitOnce op (comparedTo x rel.symbol s) = (Text.splitOnce op s).map fun q =>
      (x.1 ++ ' ' :: (rel.symbol ++ ' ' :: '"' :: q.1), q.2 ++ ['"']) := by
  have hskip : ∀ p ps, isNameChar p = false → p ≠ ' ' →
      Text.splitOnce (p :: ps) (comparedTo x rel.symbol s) =
        (Text.splitOnce (p :: ps) (rel.symbol ++ ' ' :: quoted s)).map fun q => (x.1 ++ ' ' :: q.1, q.2) := by
    intro p ps hp hblank
    have htext : comparedTo x rel.symbol s = (x.1 ++ [' ']) ++ (rel.symbol ++ ' ' :: quoted s) := by
      simp [comparedTo]
    rw [htext, Text.splitOnce_append_left _ (by simp [not_mem_name hp x, hblank])]
    simp
  -- the operator that stands there is not an earlier one, nor the start of one with the blank
  have hover : ∀ p ps, p :: ps ∈ rel.earlier → isNameChar p = false ∧ p ≠ ' ' ∧ p ≠ '"' ∧ '"' ∉ ps ∧
      ∀ u, Text.splitOnce (p :: ps) (rel.symbol ++ ' ' :: u) =
        (Text.splitOnce (p :: ps) u).map fun q => (rel.symbol ++ ' ' :: q.1, q.2) := by
    intro p ps hmem
    rw [Relation.earlier, comparisonOps_eq] at hmem
    have hclose : ∀ u : Text, p ∉ rel.symbol ++ [' '] → Text.splitOnce (p :: ps) (rel.symbol ++ ' ' :: u) =
        (Text.splitOnce (p :: ps) u).map fun q => (rel.symbol ++ ' ' :: q.1, q.2) := by
      intro u hp
      have htext : rel.symbol ++ ' ' :: u = (rel.symbol ++ [' ']) ++ u := by simp
      rw [htext, Text.splitOnce_append_left _ hp]
      simp
    cases rel with
    | ge => simp [Relation.symbol] at hmem
    | le =>
      simp [Relation.symbol] at hmem
      obtain ⟨rfl, rfl⟩ := hmem
      exact ⟨by decide, by decide, by decide, by decide, fun u => hclose u (by decide)⟩
    | ne =>
      simp [Relation.symbol] at hmem
      rcases hmem with ⟨rfl, rfl⟩ | ⟨rfl, rfl⟩
      all_goals exact ⟨by decide, by decide, by decide, by decide, fun u => hclose u (by decide)⟩
    | eq =>
      simp [Relation.symbol] at hmem
      rcases hmem with ⟨rfl, rfl⟩ | ⟨rfl, rfl⟩ | ⟨rfl, rfl⟩
      all_goals exact ⟨by decide, by decide, by decide, by decide, fun u => hclose u (by decide)⟩
    | gt =>
      simp [Relation.symbol] at hmem
      rcases hmem with ⟨rfl, rfl⟩ | ⟨rfl, rfl⟩ | ⟨rfl, rfl⟩ | ⟨rfl, rfl⟩
      all_goals refine ⟨by decide, by decide, by decide, by decide, fun u => ?_⟩
      · simp [Text.splitOnce, List.isPrefixOf, Relation.symbol]
        rfl
      all_goals exact hclose u (by decide)
    | lt =>
      simp [Relation.symbol] at hmem
      rcases hmem with ⟨rfl, rfl⟩ | ⟨rfl, rfl⟩ | ⟨rfl, rfl⟩ | ⟨rfl, rfl⟩ | ⟨rfl, rfl⟩
      all_goals refine ⟨by decide, by decide, by decide, by decide, fun u => ?_⟩
      · exact hclose u (by decide)
      · simp [Text.splitOnce, List.isPrefixOf, Relation.symbol]
        rfl
      all_goals exact hclose u (by decide)
  cases op with
  | nil =>
    have hmem := List.takeWhile_subset _ hop
    rw [comparisonOps_eq] at hmem
    simp at hmem
  | cons p ps =>
    obtain ⟨hname, hblank, hquote, hquotes, hrest⟩ := hover p ps hop
    rw [hskip p ps hname hblank, hrest, splitOnce_quoted hquote hquotes]
    cases Text.splitOnce (p :: ps) s <;> rfl

theorem comparisonAt_earlier (x : Identifier) (rel : Relation) {op : Text} (hop : op ∈ rel.earlier) (s : Text) :
    comparisonAt op (comparedTo x rel.symbol s) = none ↔ Text.contains op s = false := by
  rw [comparisonAt, splitOnce_comparedTo x rel hop, Text.contains]
  cases Text.splitOnce op s with
  | none => simp
  | some q =>
    obtain ⟨d, ds, hds, hd, -⟩ := x.head
    have hblank : Text.isBlank d = false := not_isBlank_of_isNameChar hd
    have hleft : Text.trim (x.1 ++ ' ' :: (rel.symbol ++ ' ' :: '"' :: q.1)) ≠ [] :=
      Text.trim_ne_nil (c := d) (by rw [hds]; simp) hblank
    have hright : Text.trim (q.2 ++ ['"']) ≠ [] := Text.trim_ne_nil (c := '"') (by simp) (by decide)
    dsimp only [Option.map_some]
    rw [if_pos (by simp [hleft, hright])]
    simp

theorem comparisonAt_own (x : Identifier) (rel : Relation) (s : Text) :
    comparisonAt rel.symbol (comparedTo x rel.symbol s) = some (rel.symbol, x.1, quoted s) := by
  have hsplit : Text.splitOnce rel.symbol (comparedTo x rel.symbol s) = some (x.1 ++ [' '], ' ' :: quoted s) := by
    have htext : comparedTo x rel.symbol s = (x.1 ++ [' ']) ++ (rel.symbol ++ ' ' :: quoted s) := by
      simp [comparedTo]
    obtain ⟨p, ps, hp, hname⟩ : ∃ p ps, rel.symbol = p :: ps ∧ p ∉ x.1 ++ [' '] := by
      cases rel
      all_goals
        refine ⟨_, _, rfl, ?_⟩
        rw [List.mem_append, List.mem_singleton, not_or]
        exact ⟨not_mem_name (by decide) x, by decide⟩
    rw [htext, hp, Text.splitOnce_append_left _ hname, List.cons_append, Text.splitOnce,
      if_pos (by simp [List.isPrefixOf])]
    simp
  have hleft : (Text.trim (x.1 ++ [' '])).isEmpty = false := by
    obtain ⟨d, ds, hds, -⟩ := x.head
    rw [trim_blank_right, hds]
    rfl
  have hright : Text.trim (' ' :: quoted s) = quoted s := by
    rw [Text.trim_cons_blank (by decide), trim_quoted]
  rw [comparisonAt, hsplit]
  dsimp only
  rw [hleft, hright, trim_blank_right]
  rfl

/-- The two sides are found exactly if the string hides no operator that is looked for earlier. -/
theorem splitComparison_comparedTo (x : Identifier) (rel : Relation) (s : Text) :
    splitComparison (comparedTo x rel.symbol s) = some (rel.symbol, x.1, quoted s) ↔
      ∀ op ∈ rel.earlier, Text.contains op s = false := by
  have hops : comparisonOps = rel.earlier ++ rel.symbol :: (comparisonOps.drop (rel.earlier.length + 1)) := by
    cases rel <;> rfl
  rw [splitComparison_eq, hops, List.findSome?_append, List.findSome?_cons, comparisonAt_own]
  have hne : ∀ op ∈ rel.earlier, op ≠ rel.symbol := fun op hop =>
    of_decide_eq_true (List.mem_takeWhile_imp (p := fun o => decide (o ≠ rel.symbol)) hop)
  cases hfound : rel.earlier.findSome? fun op => comparisonAt op (comparedTo x rel.symbol s) with
  | none =>
    refine iff_of_true rfl fun op hop => (comparisonAt_earlier x rel hop s).1 ?_
    exact List.findSome?_eq_none_iff.1 hfound op hop
  | some q =>
    obtain ⟨op, hop, hq⟩ := List.exists_of_findSome?_eq_some hfound
    refine iff_of_false (fun h => ?_) fun h => ?_
    · rw [Option.some_or] at h
      exact hne op hop ((comparisonAt_fst hq).symm.trans (congrArg Prod.fst (Option.some.inj h)))
    · cases hq.symm.trans ((comparisonAt_earlier x rel hop s).2 (h op hop))

theorem trim_comparedTo (x : Identifier) (op s : Text) : Text.trim (comparedTo x op s) = comparedTo x op s := by
  apply Text.trim_eq_self
  · intro c hc
    obtain ⟨d, ds, hds, hd, -⟩ := x.head
    obtain rfl : d = c := by simpa [comparedTo, hds] using hc
    exact not_isBlank_of_isNameChar hd
  · intro c hc
    have hsplit : comparedTo x op s = (x.1 ++ ' ' :: (op ++ ' ' :: '"' :: s)) ++ ['"'] := by
      simp [comparedTo, quoted_eq]
    rw [hsplit, List.getLast?_append] at hc
    cases hc
    decide

section

variable {ctx : Context} {outputs : Nat → Option Value}

/-- Where the sides are found, the one is read as a name and the other as a literal. -/
theorem evalExpression_comparedTo {x : Identifier} {v : Value} (hx : ctx.get x.1 = some v) {rel : Relation}
    {s : Text} (hfound : splitComparison (comparedTo x rel.symbol s) = some (rel.symbol, x.1, quoted s))
    (hs : evalExpression ctx outputs (quoted s) = .ok (.string s)) :
    evalExpression ctx outputs (comparedTo x rel.symbol s) =
      .ok (.bool (applyComparison rel.symbol (readName x v) (.string s))) := by
  obtain ⟨d, ds, hds, hd, -⟩ := x.head
  have htext : comparedTo x rel.symbol s = d :: (ds ++ ' ' :: (rel.symbol ++ ' ' :: quoted s)) := by
    rw [comparedTo, hds]
    rfl
  have hname : evalExpression ctx outputs x.1 = .ok (readName x v) := by
    rw [evalExpression_unfold]
    exact evalStep_name hx
  rw [evalExpression_unfold, evalStep_operators htext hd (trim_comparedTo x rel.symbol s)
    (wholeCall_word (by decide) (by decide) x _) (wholeCall_word (by decide) (by decide) x _)
    (stripNot_word (by decide) x _)]
  have hconstant : constant (comparedTo x rel.symbol s) = none := constant_word (by decide) x _
  rw [hconstant, Option.elim_none, evalOperators, hfound]
  dsimp only
  rw [hname, hs]

/-! ### An argument of a call -/

theorem trimQuotes_quoted (s : Text) : trimQuotes (quoted s) = trimQuotes s :=
  Text.trimMatches_wrap (by decide) (by decide) s

/-- Neither end is a quote or a backslash. -/
def PlainEnds (s : Text) : Prop :=
  (∀ c, s.head? = some c → (c == '"' || c == '\\') = false) ∧ ∀ c, s.getLast? = some c → (c == '"' || c == '\\') = false

theorem trimQuotes_eq_self (s : Text) : trimQuotes s = s ↔ PlainEnds s := Text.trimMatches_eq_self

/-- A literal that does not look like a concatenation is taken by its ends. -/
theorem resolveArgValue_quoted {s : Text} (h : isConcatExpr (quoted s) = false) :
    resolveArgValue ctx outputs (quoted s) = .string s ↔ PlainEnds s := by
  have hends : ((quoted s).head? == some '"' && (quoted s).getLast? == some '"') = true := by
    rw [quoted_eq, ← List.cons_append, List.getLast?_append]
    rfl
  have hvalue : resolveArgValue ctx outputs (quoted s) = .string (trimQuotes s) := by
    rw [resolveArgValue, trim_quoted, h, hends]
    exact congrArg Value.string (trimQuotes_quoted s)
  rw [hvalue, Value.string.injEq, trimQuotes_eq_self]

/-- One that does is a variable, an expression, or a text after all. -/
theorem resolveArgValue_concat {s : Text} (h : isConcatExpr (quoted s) = true) :
    resolveArgValue ctx outputs (quoted s) = ((ctx.get (trimQuotes s)).or
      (evalExpression ctx outputs (quoted s)).toOption).getD (.string (trimQuotes s)) := by
  have hends : ((quoted s).head? == some '"' && (quoted s).getLast? == some '"') = true := by
    rw [quoted_eq, ← List.cons_append, List.getLast?_append]
    rfl
  rw [resolveArgValue, trim_quoted, h, hends, trimQuotes_quoted]
  dsimp only
  cases ctx.get (trimQuotes s) with
  | some v => rfl
  | none => cases evalExpression ctx outputs (quoted s) <;> rfl

/-! ### A value of a dict -/

def entry (k : Identifier) (s : Text) : Text := quoted k.1 ++ ':' :: ' ' :: quoted s

def dictOf (k : Identifier) (s : Text) : Text := '{' :: entry k s ++ ['}']

theorem trim_braces (inner : Text) : Text.trim ('{' :: inner ++ ['\x7d']) = '{' :: inner ++ ['\x7d'] := by
  refine Text.trim_eq_self (fun c hc => ?_) fun c hc => ?_
  · cases hc
    decide
  · rw [List.getLast?_append] at hc
    cases hc
    decide

/-- A text between braces is the text of a dict. -/
theorem evalExpression_braces (inner : Text) : evalExpression ctx outputs ('{' :: inner ++ ['\x7d']) =
    if (Text.trim inner).isEmpty then .ok (.object [])
    else evalDict (evalExpression ctx outputs) ('{' :: inner ++ ['\x7d']) (splitTopLevelCommas inner) [] := by
  have hdecode : decodeQuoted ('{' :: inner ++ ['\x7d']) = ('{' :: inner ++ ['\x7d'], false) :=
    decodeQuoted_eq (c := '{') rfl (by decide) (by decide) (by decide)
  have hempty : ('{' :: inner ++ ['\x7d']).isEmpty = false := rfl
  have hrange : wholeCall "range(" ('{' :: inner ++ ['\x7d']) = none := rfl
  have hlen : wholeCall "len(" ('{' :: inner ++ ['\x7d']) = none := rfl
  have hconstant : constant ('{' :: inner ++ ['\x7d']) = none := rfl
  have hbraces : (('{' :: inner ++ ['\x7d']).head? == some '{' &&
      ('{' :: inner ++ ['\x7d']).getLast? == some '\x7d') = true := by
    rw [List.getLast?_append]
    rfl
  have hinner : (('{' :: inner ++ ['\x7d']).drop 1).dropLast = inner := by
    rw [List.cons_append, List.drop_one, List.tail_cons, List.dropLast_concat]
  rw [evalExpression_unfold, evalStep, trim_braces, hdecode]
  dsimp only
  rw [hempty, hrange, hconstant, if_neg Bool.false_ne_true, if_neg Bool.false_ne_true, hlen]
  dsimp only [Option.map_none]
  rw [if_pos hbraces, hinner]

theorem trimQuotes_name (k : Identifier) : trimQuotes k.1 = k.1 := by
  have hname : ∀ c ∈ k.1, (c == '"' || c == '\\') = false := by
    intro c hc
    have hdouble : c ≠ '"' := by
      rintro rfl
      exact not_mem_name (by decide) k hc
    have hback : c ≠ '\\' := by
      rintro rfl
      exact not_mem_name (by decide) k hc
    simp [hdouble, hback]
  rw [trimQuotes_eq_self]
  exact ⟨fun c hc => hname c (List.mem_of_head? hc), fun c hc => hname c (List.mem_of_getLast? hc)⟩

theorem splitOnce_entry (k : Identifier) (s : Text) :
    Text.splitOnce [':'] (entry k s) = some (quoted k.1, ' ' :: quoted s) := by
  apply Text.splitOnce_append
  have hname : ':' ∉ k.1 := not_mem_name (by decide) k
  simp [quoted_eq, hname]

/-- A pair that is not cut holds the value of its text. -/
theorem evalExpression_dictOf {k : Identifier} {s : Text}
    (h : splitTopLevelCommas (entry k s) = [entry k s]) :
    evalExpression ctx outputs (dictOf k s) =
      (evalExpression ctx outputs (quoted s)).map fun v => .object [(k.1, v)] := by
  have hblank : (Text.trim (entry k s)).isEmpty = false := by
    have hne := Text.trim_ne_nil (c := '"') (t := entry k s) List.mem_cons_self (by decide)
    rw [List.isEmpty_eq_false_iff]
    exact hne
  have hkey : trimQuotes (Text.trim (quoted k.1)) = k.1 := by
    rw [trim_quoted, trimQuotes_quoted, trimQuotes_name]
  have hname : k.1.isEmpty = false := by
    obtain ⟨d, ds, hds, -⟩ := k.head
    rw [hds]
    rfl
  have hvalue : Text.trim (' ' :: quoted s) = quoted s := by
    rw [Text.trim_cons_blank (by decide), trim_quoted]
  rw [dictOf, evalExpression_braces, hblank, if_neg Bool.false_ne_true, h, evalDict, splitOnce_entry]
  dsimp only
  rw [hkey, hname, if_neg Bool.false_ne_true, hvalue]
  cases evalExpression ctx outputs (quoted s) <;> rfl

end

/-! ### Where a constant is itself -/

/-- The string hides no operator that is looked for before this one. -/
def Relation.Apart (rel : Relation) (s : Text) : Prop := ∀ op ∈ rel.earlier, Text.contains op s = false

/-- The evaluator gives the constant back. -/
def Literal (ctx : Context) (outputs : Nat → Option Value) (s : Text) : Prop :=
  ReadAs ctx outputs (decodeQuoted (quoted s)).1 (decodeQuoted (quoted s)).2 s

/-- A call gets the constant: its ends are plain, or what looks like a concatenation comes to it. -/
def ArgLiteral (ctx : Context) (outputs : Nat → Option Value) (s : Text) : Prop :=
  if isConcatExpr (quoted s) then
    ctx.get (trimQuotes s) = some (.string s) ∨ ctx.get (trimQuotes s) = none ∧
      (Literal ctx outputs s ∨ (∀ v, evalExpression ctx outputs (quoted s) ≠ .ok v) ∧ PlainEnds s)
  else PlainEnds s

/-- The text means nothing to any part of the evaluator. -/
structure Inert (ctx : Context) (outputs : Nat → Option Value) (s : Text) : Prop where
  nonempty : s ≠ []
  decoded : decodeQuoted (quoted s) = (s, true)
  no_range : wholeCall "range(" s = none
  no_constant : constant s = none
  no_not : stripNot s = none
  no_comparison : splitComparison s = none
  no_int : Text.parseI64 s = none
  no_float : F64.parse s = none
  unbound : lookupName ctx outputs s = none
  no_operator : ∀ op ∈ binaryOps, op ∉ s
  no_chain : splitAccessors s = none

section

variable {ctx : Context} {outputs : Nat → Option Value} {s : Text}

theorem Inert.literal (h : Inert ctx outputs s) : Literal ctx outputs s := by
  have hsplit : ∀ op ∈ binaryOps, splitBinary op s = none := by
    intro op hop
    rw [splitBinary, Text.splitOnce_eq_none (h.no_operator op hop)]
  have harithmetic : evalArithmetic ctx (evalExpression ctx outputs) s = none := by
    rw [evalArithmetic, List.findSome?_eq_none_iff]
    intro op hop
    rw [hsplit op hop]
  have hconcat : evalConcat (evalExpression ctx outputs) s = none := by
    rw [evalConcat, hsplit '+' (by decide)]
  rw [Literal, h.decoded]
  refine ⟨h.nonempty, h.no_range, h.no_constant, h.no_not, h.no_comparison, h.no_int, h.no_float, ?_,
    fun _ => harithmetic, fun _ v hv => ?_, fun _ _ base accs v hsome => ?_, fun _ _ _ => rfl⟩
  · intro v hv
    cases h.unbound.symm.trans hv
  · cases hconcat.symm.trans hv
  · cases h.no_chain.symm.trans hsome

theorem resolveArgValue_iff : resolveArgValue ctx outputs (quoted s) = .string s ↔ ArgLiteral ctx outputs s := by
  rw [ArgLiteral]
  split
  case isFalse h => exact resolveArgValue_quoted (Bool.not_eq_true _ ▸ h)
  case isTrue h =>
    rw [resolveArgValue_concat h, Literal, ← evalExpression_quoted]
    cases ctx.get (trimQuotes s) with
    | some v => simp
    | none =>
      cases evalExpression ctx outputs (quoted s) with
      | ok v => simp [Except.toOption]
      | error m => simp [Except.toOption, trimQuotes_eq_self]

end

theorem formatExpr_string (s : Text) : formatExpr (.constant (.str s)) = quoted s := rfl

theorem formatExpr_dict (k : Identifier) (s : Text) :
    formatExpr (.dict [some (.constant (.str k.1))] [.constant (.str s)]) = dictOf k s := by
  have hformat : formatExpr (.dict [some (.constant (.str k.1))] [.constant (.str s)]) =
      '{' :: Text.intercalate [',', ' '] [quoted k.1 ++ ':' :: ' ' :: quoted s] ++ ['\x7d'] := rfl
  exact hformat

theorem inert_word : Inert (pair (.int 1) .null) (fun _ => none) ("hi" : Text) := by
  refine ⟨?_, ?_, ?_, ?_, ?_, ?_, ?_, ?_, ?_, fun op hop => ?_, ?_⟩
  case refine_10 =>
    rw [binaryOps] at hop
    simp only [List.mem_cons, List.not_mem_nil, or_false] at hop
    rcases hop with rfl | rfl | rfl | rfl <;> decide
  all_goals decide +kernel

end Tinypipe
