import Tinypipe.Vm.Accessors

/-! Chains of fields, keys and indexes (`format_expr` of `tinypipe-compiler/src/transform.rs`, the accessor
branch of `eval_expression` in `tinypipe-vm/src/compiled_executor.rs`): when the text of a chain comes to the
element that its accessors lead to. Every branch before the accessors searches the whole text, and a key is
read as an expression of its own. -/

namespace Tinypipe

open Lib

/-! ### Chains -/

/-- A variable, and fields, keys and indexes of what a chain comes to; an index may be a chain. -/
inductive Access where
  | name (x : Identifier)
  | field (a : Access) (f : Identifier)
  | key (a : Access) (k : Text)
  | index (a : Access) (i : Int64)
  | sub (a b : Access)

namespace Access

def toExpr : Access → Ast.Expr
  | name x => .name x.1
  | field a f => .attribute a.toExpr f.1
  | key a k => .subscript a.toExpr (.constant (.str k))
  | index a i => .subscript a.toExpr (Scalar.int i.toInt).toExpr
  | sub a b => .subscript a.toExpr b.toExpr

def text (a : Access) : Text := formatExpr a.toExpr

def base : Access → Identifier
  | name x => x
  | field a _ | key a _ | index a _ | sub a _ => a.base

def accessors : Access → List Accessor
  | name _ => []
  | field a f => a.accessors ++ [.field f.1]
  | key a k => a.accessors ++ [.index (quoted k)]
  | index a i => a.accessors ++ [.index (Text.ofInt i.toInt)]
  | sub a b => a.accessors ++ [.index b.text]

/-- Every key closes its quotes and its brackets. -/
def Closed : Access → Prop
  | name _ => True
  | field a _ | index a _ => a.Closed
  | key a k => a.Closed ∧ Balanced (quoted k)
  | sub a b => a.Closed ∧ b.Closed

/-- The chain and every chain it is made of. -/
def Every (p : Access → Prop) : Access → Prop
  | name x => p (name x)
  | field a f => a.Every p ∧ p (field a f)
  | key a k => a.Every p ∧ p (key a k)
  | index a i => a.Every p ∧ p (index a i)
  | sub a b => a.Every p ∧ b.Every p ∧ p (sub a b)

theorem Every.self {p : Access → Prop} {a : Access} (h : a.Every p) : p a := by
  cases a with
  | name x => exact h
  | field a f => exact h.2
  | key a k => exact h.2
  | index a i => exact h.2
  | sub a b => exact h.2.2

end Access

/-- The element of a value at an index from either end, or at a key. An integer is the key of an object
that it is the digits of. -/
def Value.element : Value → Value → Option Value
  | .array items, .int i =>
    if 0 ≤ i.toInt then items[i.toInt.toNat]? else items.reverse[(-i.toInt - 1).toNat]?
  | .object m, .string k => Dict.find k m
  | .object m, .int i => Dict.find (Text.ofInt i.toInt) m
  | _, _ => none

/-- What the accessors of a chain lead to. -/
def Access.element (ctx : Context) : Access → Option Value
  | name x => ctx.get x.1
  | field a f => (a.element ctx).bind fun v => v.element (.string f.1)
  | key a k => (a.element ctx).bind fun v => v.element (.string k)
  | index a i => (a.element ctx).bind fun v => v.element (.int i)
  | sub a b => (a.element ctx).bind fun v => (b.element ctx).bind v.element

/-- The value of a name that is a word of the expression language. -/
def wordValue (t : Text) : Option Value := (constant t).or ((F64.parse t).map .float)

section

variable (ctx : Context) (outputs : Nat → Option Value)

/-- What a text is read as, if it is no error. -/
def reading (t : Text) : Option Value := (evalExpression ctx outputs t).toOption

/-- The evaluator follows the accessors: it finds the element, and an error where there is none. -/
def Access.Follows (a : Access) : Prop := reading ctx outputs a.text = a.element ctx

/-- A name is not read as another value. A key with a comparison operator leads nowhere, and any other is
read as something that leads where the key does. -/
def Access.Reads : Access → Prop
  | name x => ∀ w, wordValue x.1 = some w → ctx.get x.1 = some w
  | key a k => ∀ v, a.element ctx = some v → v.element (.string k) =
      if comparisonOps.any fun op => Text.contains op k then none else (reading ctx outputs (quoted k)).bind v.element
  | _ => True

end

/-! ### The texts of chains -/

theorem formatExpr_subscript (v s : Ast.Expr) :
    formatExpr (.subscript v s) = formatExpr v ++ '[' :: (formatExpr s ++ [']']) := by
  have h : formatExpr (.subscript v s) = (formatExpr v ++ '[' :: formatExpr s) ++ [']'] := rfl
  rw [h, List.append_assoc, List.cons_append]

namespace Access

theorem text_field (a : Access) (f : Identifier) : (field a f).text = a.text ++ '.' :: f.1 := rfl

theorem text_key (a : Access) (k : Text) : (key a k).text = a.text ++ '[' :: (quoted k ++ [']']) :=
  formatExpr_subscript a.toExpr (.constant (.str k))

theorem text_index (a : Access) (i : Int64) : (index a i).text = a.text ++ '[' :: (Text.ofInt i.toInt ++ [']']) := by
  rw [← Scalar.text_int]
  exact formatExpr_subscript a.toExpr (Scalar.int i.toInt).toExpr

theorem text_sub (a b : Access) : (sub a b).text = a.text ++ '[' :: (b.text ++ [']']) :=
  formatExpr_subscript a.toExpr b.toExpr

theorem accessorTexts_append (accs : List Accessor) (a : Accessor) :
    accessorTexts (accs ++ [a]) = accessorTexts accs ++ a.text := by
  rw [accessorTexts, List.flatMap_append, List.flatMap_singleton, accessorTexts]

/-- A chain is its variable and its accessors. -/
theorem text_eq (a : Access) : a.text = a.base.1 ++ accessorTexts a.accessors := by
  induction a with
  | name x => exact (List.append_nil x.1).symm
  | field a f ih => rw [text_field, accessors, base, accessorTexts_append, ih, List.append_assoc]; rfl
  | key a k ih => rw [text_key, accessors, base, accessorTexts_append, ih, List.append_assoc]; rfl
  | index a i ih => rw [text_index, accessors, base, accessorTexts_append, ih, List.append_assoc]; rfl
  | sub a b ih => rw [text_sub, accessors, base, accessorTexts_append, ih, List.append_assoc]; rfl

end Access

theorem balanced_name (x : Identifier) : Balanced x.1 :=
  Balanced.plain fun c hc => no_delimiter (p := isNameChar) rfl (x.chars c hc)

theorem Numeral.balanced {t : Text} (h : Numeral t) : Balanced t :=
  Balanced.plain fun c hc => no_delimiter (p := F64.isNumeral) rfl (h.2 c hc)

theorem numeral_ofInt (i : Int) : Numeral (Text.ofInt i) := Scalar.text_int i ▸ numeral_int i

namespace Access

theorem Closed.balanced {a : Access} (h : a.Closed) : Balanced a.text := by
  induction a with
  | name x => exact balanced_name x
  | field a f ih =>
    rw [text_field]
    exact (ih h).append (Balanced.append (t := ['.']) rfl (balanced_name f))
  | key a k ih =>
    rw [text_key]
    exact (ih h.1).append h.2.bracketed
  | index a i ih =>
    rw [text_index]
    exact (ih h).append (numeral_ofInt i.toInt).balanced.bracketed
  | sub a b iha ihb =>
    rw [text_sub]
    exact (iha h.1).append (ihb h.2).bracketed

theorem trim_text_ne_nil (a : Access) : Text.trim a.text ≠ [] := by
  obtain ⟨c, cs, hcs, hc, -⟩ := a.base.head
  refine Text.trim_ne_nil (c := c) ?_ (not_isBlank_of_isNameChar hc)
  rw [text_eq, hcs]
  exact List.mem_append_left _ List.mem_cons_self

theorem Closed.accessors {a : Access} (h : a.Closed) : ∀ acc ∈ a.accessors, acc.Closed := by
  induction a with
  | name x =>
    intro acc hacc
    cases hacc
  | field a f ih =>
    intro acc hacc
    rcases List.mem_append.1 hacc with hacc | hacc
    · exact ih h acc hacc
    · obtain rfl := List.mem_singleton.1 hacc
      exact f.2
  | key a k ih =>
    intro acc hacc
    rcases List.mem_append.1 hacc with hacc | hacc
    · exact ih h.1 acc hacc
    · obtain rfl := List.mem_singleton.1 hacc
      refine ⟨h.2, ?_⟩
      rw [trim_quoted]
      exact List.cons_ne_nil _ _
  | index a i ih =>
    intro acc hacc
    rcases List.mem_append.1 hacc with hacc | hacc
    · exact ih h acc hacc
    · obtain rfl := List.mem_singleton.1 hacc
      refine ⟨(numeral_ofInt i.toInt).balanced, ?_⟩
      rw [(numeral_ofInt i.toInt).trim]
      exact (numeral_ofInt i.toInt).1
  | sub a b iha ihb =>
    intro acc hacc
    rcases List.mem_append.1 hacc with hacc | hacc
    · exact iha h.1 acc hacc
    · obtain rfl := List.mem_singleton.1 hacc
      exact ⟨h.2.balanced, b.trim_text_ne_nil⟩

end Access


/-! ### Comparisons in a chain -/

theorem comparisonOps_ne_nil : ∀ op ∈ comparisonOps, op ≠ [] := by decide

theorem comparisonOps_chars : ∀ op ∈ comparisonOps, '[' ∉ op ∧ ']' ∉ op ∧ '"' ∉ op ∧ '.' ∉ op := by decide

theorem noComparison_append_cons {t u : Text} {c : Char} (hc : ∀ op ∈ comparisonOps, c ∉ op) :
    NoComparison (t ++ c :: u) ↔ NoComparison t ∧ NoComparison u := by
  have hop : ∀ op ∈ comparisonOps, (Text.contains op (t ++ c :: u) = false ↔
      Text.contains op t = false ∧ Text.contains op u = false) := by
    intro op hop
    have hne := comparisonOps_ne_nil op hop
    rw [← Bool.not_eq_true, ← Bool.not_eq_true, ← Bool.not_eq_true, Text.contains_iff_infix hne,
      Text.contains_iff_infix hne, Text.contains_iff_infix hne, Text.infix_append_cons (hc op hop), not_or]
  constructor
  · intro h
    exact ⟨fun op hmem => ((hop op hmem).1 (h op hmem)).1, fun op hmem => ((hop op hmem).1 (h op hmem)).2⟩
  · intro h op hmem
    exact (hop op hmem).2 ⟨h.1 op hmem, h.2 op hmem⟩

theorem noComparison_of_not_mem {t : Text} (h : ∀ c ∈ t, c ∉ ['>', '<', '!', '=']) : NoComparison t := by
  have hhead : ∀ op ∈ comparisonOps, ∃ c cs, op = c :: cs ∧ c ∈ ['>', '<', '!', '='] := by
    rw [comparisonOps_eq]
    simp only [List.forall_mem_cons]
    exact ⟨⟨_, _, rfl, by decide⟩, ⟨_, _, rfl, by decide⟩, ⟨_, _, rfl, by decide⟩, ⟨_, _, rfl, by decide⟩,
      ⟨_, _, rfl, by decide⟩, ⟨_, _, rfl, by decide⟩, by simp⟩
  intro op hop
  obtain ⟨c, cs, rfl, hc⟩ := hhead op hop
  rw [Text.contains, Text.splitOnce_eq_none_of_head fun hmem => h c hmem hc]
  rfl

theorem noComparison_nil : NoComparison [] := noComparison_of_not_mem (by simp)

instance (t : Text) : Decidable (NoComparison t) := inferInstanceAs (Decidable (∀ op ∈ comparisonOps, _))

theorem noComparison_bracketed {t key : Text} :
    NoComparison (t ++ '[' :: (key ++ [']'])) ↔ NoComparison t ∧ NoComparison key := by
  rw [noComparison_append_cons fun op hop => (comparisonOps_chars op hop).1,
    noComparison_append_cons fun op hop => (comparisonOps_chars op hop).2.1]
  exact and_congr_right fun _ => and_iff_left noComparison_nil

theorem noComparison_dotted {t f : Text} : NoComparison (t ++ '.' :: f) ↔ NoComparison t ∧ NoComparison f :=
  noComparison_append_cons fun op hop => (comparisonOps_chars op hop).2.2.2

theorem noComparison_quoted {k : Text} : NoComparison (quoted k) ↔ NoComparison k := by
  have hempty : quoted k = [] ++ '"' :: (k ++ ['"']) := rfl
  rw [hempty, noComparison_append_cons fun op hop => (comparisonOps_chars op hop).2.2.1,
    noComparison_append_cons fun op hop => (comparisonOps_chars op hop).2.2.1]
  exact ⟨fun h => h.2.1, fun h => ⟨noComparison_nil, h, noComparison_nil⟩⟩

theorem noComparison_name (x : Identifier) : NoComparison x.1 := by
  refine noComparison_of_not_mem fun c hc hmem => ?_
  have hchars : ['>', '<', '!', '='].all (fun d => !isNameChar d) = true := rfl
  have hname := List.all_eq_true.1 hchars c hmem
  rw [x.chars c hc] at hname
  cases hname

theorem noComparison_ofInt (i : Int) : NoComparison (Text.ofInt i) := by
  refine noComparison_of_not_mem fun c hc hmem => ?_
  have hchars : ['>', '<', '!', '='].all (fun d => !F64.isNumeral d) = true := rfl
  have hnumeral := List.all_eq_true.1 hchars c hmem
  rw [(numeral_ofInt i).2 c hc] at hnumeral
  cases hnumeral

/-- The last character of a chain is not blank and belongs to no operator. -/
theorem chain_last (x : Identifier) {accs : List Accessor} (haccs : ∀ a ∈ accs, a.Closed) {c : Char}
    (h : (x.1 ++ accessorTexts accs).getLast? = some c) : isNameChar c = true ∨ c = ']' := by
  have hname : ∀ {t : Text}, isIdentifier t = true → ∀ c, t.getLast? = some c → isNameChar c = true := fun ht c hc =>
    Identifier.chars ⟨_, ht⟩ c (List.mem_of_getLast? hc)
  cases accs using List.reverseRecOn with
  | nil =>
    rw [accessorTexts, List.flatMap_nil, List.append_nil] at h
    exact .inl (hname x.2 c h)
  | append_singleton as a =>
    have ha := haccs a (List.mem_append_right as List.mem_cons_self)
    rw [Access.accessorTexts_append, ← List.append_assoc] at h
    cases a with
    | field name =>
      have hne : name ≠ [] := by
        obtain ⟨d, ds, hds, -⟩ := Identifier.head ⟨name, ha⟩
        exact fun hnil => absurd (hds.symm.trans hnil) (List.cons_ne_nil d ds)
      have hlast : (Accessor.field name).text.getLast? = name.getLast? := by
        rw [Accessor.text, List.getLast?_cons]
        cases hl : name.getLast? with
        | none => exact absurd (List.getLast?_eq_none_iff.1 hl) hne
        | some d => rfl
      have htext : (Accessor.field name).text ≠ [] := List.cons_ne_nil _ _
      rw [List.getLast?_append_of_ne_nil _ htext, hlast] at h
      exact .inl (hname ha c h)
    | index key =>
      rw [Accessor.text, ← List.cons_append, ← List.append_assoc, List.getLast?_concat] at h
      exact .inr (Option.some.inj h).symm


/-- Operators begin and end with characters that a chain does not end with. -/
theorem comparisonOps_inner : ∀ op ∈ comparisonOps, ∃ c cs, op = c :: cs ∧ isInner c = true ∧
    isInner ((c :: cs).getLast (List.cons_ne_nil c cs)) = true := by
  rw [comparisonOps_eq]
  simp only [List.forall_mem_cons]
  exact ⟨⟨_, _, rfl, by decide, by decide⟩, ⟨_, _, rfl, by decide, by decide⟩, ⟨_, _, rfl, by decide, by decide⟩,
    ⟨_, _, rfl, by decide, by decide⟩, ⟨_, _, rfl, by decide, by decide⟩, ⟨_, _, rfl, by decide, by decide⟩, by simp⟩

/-- An operator in a chain cuts it. -/
theorem splitComparison_chain (x : Identifier) {accs : List Accessor} (haccs : ∀ a ∈ accs, a.Closed) :
    splitComparison (x.1 ++ accessorTexts accs) = none ↔ NoComparison (x.1 ++ accessorTexts accs) := by
  refine ⟨fun h => ?_, NoComparison.splitComparison⟩
  rw [splitComparison_eq, List.findSome?_eq_none_iff] at h
  intro op hop
  cases hsplit : Text.splitOnce op (x.1 ++ accessorTexts accs) with
  | none =>
    rw [Text.contains, hsplit]
    rfl
  | some q =>
    obtain ⟨l, r⟩ := q
    have htext := Text.splitOnce_eq hsplit
    have hat := h op hop
    rw [comparisonAt, hsplit] at hat
    dsimp only at hat
    obtain ⟨c, cs, rfl, hc, hend⟩ := comparisonOps_inner op hop
    have hleft : Text.trim l ≠ [] := by
      rw [List.append_assoc] at htext
      obtain ⟨m, rfl, -⟩ := cut_word hc x htext
      obtain ⟨d, ds, hds, hd, -⟩ := x.head
      refine Text.trim_ne_nil (c := d) ?_ (not_isBlank_of_isNameChar hd)
      rw [hds]
      exact List.mem_append_left _ List.mem_cons_self
    have hright : Text.trim r ≠ [] := by
      cases hr : r.getLast? with
      | none =>
        obtain rfl := List.getLast?_eq_none_iff.1 hr
        have hlast := chain_last x haccs (c := (c :: cs).getLast (List.cons_ne_nil c cs)) (by
          rw [htext, List.append_nil, List.getLast?_append_of_ne_nil _ (List.cons_ne_nil c cs),
            List.getLast?_eq_some_getLast])
        obtain ⟨hname, -, -, hclose⟩ := isInner_iff.1 hend
        rcases hlast with hlast | hlast
        · rw [hname] at hlast
          cases hlast
        · exact absurd hlast hclose
      | some d =>
        have hne : r ≠ [] := by
          rintro rfl
          cases hr
        have hlast := chain_last x haccs (by rw [htext, List.getLast?_append_of_ne_nil _ hne, hr])
        refine Text.trim_ne_nil (c := d) (List.mem_of_getLast? hr) ?_
        rcases hlast with hlast | rfl
        · exact not_isBlank_of_isNameChar hlast
        · decide
    rw [if_pos (by simp [hleft, hright])] at hat
    cases hat


/-! ### Following the accessors -/

section

variable {ctx : Context} {outputs : Nat → Option Value}

/-- One step of a chain, if it is no error. -/
def stepOf (eval : Text → Option Value) (v : Value) : Accessor → Option Value
  | .field name => accessField name v
  | .index key => (eval key).bind fun w => (accessIndex v w).toOption

theorem followAccessors_toOption {eval : Text → Except Text Value} {fail : Text → Except Text Value}
    (hfail : ∀ msg, (fail msg).toOption = none) {t : Text} {accs : List Accessor} {v : Value} :
    (followAccessors eval fail t accs v).toOption = accs.foldlM (stepOf fun u => (eval u).toOption) v := by
  induction accs generalizing v with
  | nil => rfl
  | cons a as ih =>
    rw [List.foldlM_cons]
    cases a with
    | field name =>
      rw [followAccessors, stepOf]
      cases accessField name v with
      | none => exact hfail _
      | some v' => exact ih
    | index key =>
      rw [followAccessors, stepOf]
      cases eval key with
      | error e => rfl
      | ok w =>
        dsimp only [Except.toOption, Option.bind_some]
        cases accessIndex v w with
        | error msg => exact hfail _
        | ok v' => exact ih

theorem trim_chain (x : Identifier) {accs : List Accessor} (haccs : ∀ a ∈ accs, a.Closed) :
    Text.trim (x.1 ++ accessorTexts accs) = x.1 ++ accessorTexts accs := by
  refine Text.trim_eq_self (fun c hc => ?_) fun c hc => ?_
  · obtain ⟨d, ds, hds, hd, -⟩ := x.head
    rw [hds] at hc
    cases hc
    exact not_isBlank_of_isNameChar hd
  · rcases chain_last x haccs hc with hname | rfl
    · exact not_isBlank_of_isNameChar hname
    · decide

theorem chain_head (x : Identifier) {accs : List Accessor} (hne : accs ≠ []) :
    ∃ (c : Char) (u : Text), x.1 ++ accessorTexts accs = x.1 ++ c :: u ∧ (c = '.' ∨ c = '[') := by
  obtain ⟨a, as, rfl⟩ := List.exists_cons_of_ne_nil hne
  cases a with
  | field name => exact ⟨'.', name ++ accessorTexts as, rfl, .inl rfl⟩
  | index key => exact ⟨'[', key ++ [']'] ++ accessorTexts as, rfl, .inr rfl⟩

variable (outputs) in
/-- The left side of an operator in a chain is no value. -/
theorem unclosed_left (hctx : ctx.Flat) {l : Text} (h : Unclosed l) : ctx.get (Text.trim l) = none ∧
    Text.parseI64 (Text.trim l) = none ∧ reading ctx outputs (Text.trim l) = none :=
  ⟨(h.trim.get_eq_none hctx).1, (h.trim.get_eq_none hctx).2, eval_unclosed hctx h.trim⟩

theorem reading_compared (hctx : ctx.Flat) (x : Identifier) {accs : List Accessor} (haccs : ∀ a ∈ accs, a.Closed)
    (hcompare : ¬NoComparison (x.1 ++ accessorTexts accs)) : reading ctx outputs (x.1 ++ accessorTexts accs) = none := by
  have hne : accs ≠ [] := by
    rintro rfl
    rw [accessorTexts, List.flatMap_nil, List.append_nil] at hcompare
    exact hcompare (noComparison_name x)
  obtain ⟨c, u, htext, hc⟩ := chain_head x hne
  have htrim := trim_chain x haccs
  rw [← splitComparison_chain x haccs, ← ne_eq, Option.ne_none_iff_exists'] at hcompare
  obtain ⟨⟨op, l, r⟩, hsplit⟩ := hcompare
  obtain ⟨d, l', r', hd, hcut, rfl⟩ := splitComparison_cut hsplit
  have hleft := (unclosed_left outputs hctx (unclosed_of_chain hd x haccs hcut)).2.2
  rw [reading] at hleft ⊢
  rw [htext] at htrim hsplit ⊢
  rw [evalExpression_word x hc htrim, evalOperators, hsplit]
  dsimp only
  cases heval : evalExpression ctx outputs (Text.trim l') with
  | error msg => rfl
  | ok v =>
    rw [heval] at hleft
    cases hleft

/-- A chain without operators is its variable and one step for each accessor. -/
theorem reading_chain (hctx : ctx.Flat) (x : Identifier) {accs : List Accessor} (haccs : ∀ a ∈ accs, a.Closed)
    (hcompare : NoComparison (x.1 ++ accessorTexts accs)) : reading ctx outputs (x.1 ++ accessorTexts accs) =
      (reading ctx outputs x.1).bind fun v => accs.foldlM (stepOf (reading ctx outputs)) v := by
  by_cases hne : accs = []
  · subst hne
    rw [accessorTexts, List.flatMap_nil, List.append_nil]
    exact (Option.bind_fun_some _).symm
  · obtain ⟨c, u, htext, hc⟩ := chain_head x hne
    have htrim := trim_chain x haccs
    have hsplit := hcompare.splitComparison
    obtain ⟨harithmetic, hconcat⟩ := evalCompound_of_error ctx (evalExpression ctx outputs)
      (t := x.1 ++ accessorTexts accs) fun op hop l r heq =>
        unclosed_left outputs hctx (unclosed_of_chain (binaryOps_inner op hop) x haccs heq)
    have hword : evalExpression ctx outputs (x.1 ++ accessorTexts accs) =
        evalCompound ctx (evalExpression ctx outputs) false (x.1 ++ accessorTexts accs) := by
      rw [htext] at htrim hsplit ⊢
      rw [evalExpression_word x hc htrim, evalOperators_word x hc hctx hsplit]
    rw [reading, hword, evalCompound, harithmetic, hconcat, splitAccessors_chain x hne haccs, reading]
    dsimp only
    cases evalExpression ctx outputs x.1 with
    | error msg => rfl
    | ok v => exact followAccessors_toOption fun msg => rfl

/-- One accessor more. -/
theorem reading_snoc (hctx : ctx.Flat) (x : Identifier) {accs : List Accessor} {a : Accessor}
    (haccs : ∀ b ∈ accs ++ [a], b.Closed) (hsplit : NoComparison (x.1 ++ accessorTexts (accs ++ [a])) ↔
      NoComparison (x.1 ++ accessorTexts accs) ∧ NoComparison a.text) :
    reading ctx outputs (x.1 ++ accessorTexts (accs ++ [a])) =
      if NoComparison a.text then
        (reading ctx outputs (x.1 ++ accessorTexts accs)).bind fun v => stepOf (reading ctx outputs) v a
      else none := by
  have hbefore : ∀ b ∈ accs, b.Closed := fun b hb => haccs b (List.mem_append_left _ hb)
  by_cases hcompare : NoComparison (x.1 ++ accessorTexts (accs ++ [a]))
  · obtain ⟨hfront, hlast⟩ := hsplit.1 hcompare
    rw [reading_chain hctx x haccs hcompare, if_pos hlast, reading_chain hctx x hbefore hfront, Option.bind_assoc]
    refine Option.bind_congr fun v _ => ?_
    rw [List.foldlM_append]
    exact Option.bind_congr fun w _ => Option.bind_fun_some _
  · rw [reading_compared hctx x haccs hcompare]
    split
    case isFalse => rfl
    case isTrue hlast =>
      rw [reading_compared hctx x hbefore fun hfront => hcompare (hsplit.2 ⟨hfront, hlast⟩)]
      rfl

/-! ### Chains and the elements they lead to -/

theorem parseUnsigned_name (bits : Nat) (x : Identifier) : Text.parseUnsigned bits x.1 = none := by
  obtain ⟨d, ds, hds, hd, hdigit⟩ := x.head
  have hnat : Text.parseNat (d :: ds) = none := Text.parseNat_eq_none List.mem_cons_self hdigit
  rw [hds, Text.parseUnsigned, hnat]
  rintro cs heq
  rw [(List.cons.inj heq).1] at hd
  cases hd

theorem lookupName_name (x : Identifier) : lookupName ctx outputs x.1 = ctx.get x.1 := by
  have hdollar : Text.stripPrefix ['$'] x.1 = none :=
    Text.stripPrefix_eq_none (p := '$') List.mem_cons_self (not_mem_name (by decide) x)
  rw [lookupName, hdollar, Option.getD_none, parseUnsigned_name, Option.bind_none, Option.or_none]

/-- A variable is read as the word it is, or as what is bound to it. -/
theorem reading_name (x : Identifier) : reading ctx outputs x.1 = (wordValue x.1).or (ctx.get x.1) := by
  have htext := Arith.evalExpression_text ctx outputs (.var x)
  rw [Arith.text_var] at htext
  rw [reading, wordValue]
  cases hconstant : constant x.1 with
  | some v =>
    rw [htext.1 v hconstant]
    rfl
  | none =>
    have hplain : ∀ c ∈ x.1, isPlain c = true := Arith.text_plain (.var x)
    rw [htext.2 hconstant, evalOperators, splitComparison_eq_none hplain, Arith.parseI64_var]
    cases F64.parse x.1 with
    | some f => rfl
    | none =>
      dsimp only
      rw [lookupName_name]
      cases ctx.get x.1 with
      | some v => rfl
      | none =>
        obtain ⟨harithmetic, hconcat⟩ := evalCompound_of_error ctx
          (evalFuel ctx outputs x.1.length) (t := x.1) fun op hop l r heq => by
            have hmem : op ∈ x.1 := heq ▸ List.mem_append_right l List.mem_cons_self
            exact absurd hmem (not_mem_name (isInner_iff.1 (binaryOps_inner op hop)).1 x)
        dsimp only
        rw [evalCompound, harithmetic, hconcat, splitAccessors_eq_none hplain]
        rfl

theorem reading_ofInt (i : Int64) : reading ctx outputs (Text.ofInt i.toInt) = some (.int i) := by
  have hint : Text.parseI64 (Text.ofInt i.toInt) = some i := by
    rw [parseI64_int ⟨Int64.le_toInt i, Int64.toInt_lt i⟩, Int64.ofInt_toInt]
  rw [reading, (numeral_ofInt i.toInt).evalExpression_int hint]
  rfl

theorem accessField_name (f : Identifier) (v : Value) : accessField f.1 v = v.element (.string f.1) := by
  cases v with
  | array items =>
    have hfield : accessField f.1 (.array items) = none := by
      rw [accessField, parseUnsigned_name]
    exact hfield
  | _ => rfl

theorem arrayGet_element (items : List Value) (i : Int64) :
    arrayGet items i.toInt = (Value.array items).element (.int i) := by
  have helement : (Value.array items).element (.int i) =
      if 0 ≤ i.toInt then items[i.toInt.toNat]? else items.reverse[(-i.toInt - 1).toNat]? := rfl
  rw [helement, arrayGet]
  generalize i.toInt = j
  by_cases hj : 0 ≤ j
  · have hidx : (if j < 0 then (items.length : Int) + j else j) = j := if_neg (by omega)
    rw [hidx, if_neg (by omega), if_pos hj]
  · have hidx : (if j < 0 then (items.length : Int) + j else j) = items.length + j := if_pos (by omega)
    rw [hidx, if_neg hj]
    split
    case isTrue hout =>
      rw [List.getElem?_eq_none]
      rw [List.length_reverse]
      omega
    case isFalse hin =>
      have hlt : (-j - 1).toNat < items.length := by omega
      rw [List.getElem?_reverse hlt]
      congr 1
      omega

theorem accessIndex_element (v w : Value) : (accessIndex v w).toOption = v.element w := by
  cases v with
  | array items =>
    cases w with
    | int i =>
      rw [← arrayGet_element, accessIndex]
      cases arrayGet items i.toInt <;> rfl
    | _ => rfl
  | object m =>
    cases w with
    | string k =>
      rw [accessIndex, Value.element]
      cases Dict.find k m <;> rfl
    | int i =>
      rw [accessIndex, Value.element]
      cases Dict.find (Text.ofInt i.toInt) m <;> rfl
    | _ => rfl
  | _ => cases w <;> rfl

namespace Access

/-- The chain and one more accessor. -/
theorem reading_snoc (hctx : ctx.Flat) {a : Access} {acc : Accessor} (ha : a.Closed) (hacc : acc.Closed) :
    reading ctx outputs (a.text ++ acc.text) =
      if NoComparison acc.text then (reading ctx outputs a.text).bind fun v => stepOf (reading ctx outputs) v acc
      else none := by
  have hclosed : ∀ b ∈ a.accessors ++ [acc], b.Closed := by
    intro b hb
    rcases List.mem_append.1 hb with hb | hb
    · exact ha.accessors b hb
    · exact List.mem_singleton.1 hb ▸ hacc
  have htext : a.text ++ acc.text = a.base.1 ++ accessorTexts (a.accessors ++ [acc]) := by
    rw [accessorTexts_append, text_eq, List.append_assoc]
  have hsplit : NoComparison (a.text ++ acc.text) ↔ NoComparison a.text ∧ NoComparison acc.text := by
    cases acc with
    | field name =>
      rw [Accessor.text, noComparison_dotted]
      have hname : NoComparison ('.' :: name) ↔ NoComparison name := by
        rw [← List.nil_append ('.' :: name), noComparison_dotted, and_iff_right noComparison_nil]
      rw [hname]
    | index key =>
      rw [Accessor.text, noComparison_bracketed]
      have hkey : NoComparison ('[' :: (key ++ [']'])) ↔ NoComparison key := by
        rw [← List.nil_append ('[' :: (key ++ [']'])), noComparison_bracketed, and_iff_right noComparison_nil]
      rw [hkey]
  rw [htext, text_eq] at hsplit
  rw [htext, Tinypipe.reading_snoc hctx a.base hclosed hsplit, ← text_eq]

/-- What a bracketed accessor adds, where the index is read as something that leads to an element. -/
theorem reading_bracketed (hctx : ctx.Flat) {a : Access} (ha : a.Closed) {key : Text} (hkey : Balanced key)
    (hblank : Text.trim key ≠ []) : reading ctx outputs (a.text ++ '[' :: (key ++ [']'])) =
      if NoComparison key then
        (reading ctx outputs a.text).bind fun v => (reading ctx outputs key).bind v.element
      else none := by
  have hcompare : NoComparison (Accessor.index key).text ↔ NoComparison key := by
    rw [Accessor.text, ← List.nil_append ('[' :: (key ++ [']'])), noComparison_bracketed,
      and_iff_right noComparison_nil]
  have hsnoc : reading ctx outputs (a.text ++ (Accessor.index key).text) = _ :=
    reading_snoc hctx ha ⟨hkey, hblank⟩
  refine hsnoc.trans (if_congr hcompare (Option.bind_congr fun v _ => ?_) rfl)
  exact Option.bind_congr fun w _ => accessIndex_element v w

theorem reading_field (hctx : ctx.Flat) {a : Access} (ha : a.Closed) (f : Identifier) :
    reading ctx outputs (field a f).text = (reading ctx outputs a.text).bind fun v => v.element (.string f.1) := by
  have hcompare : NoComparison (Accessor.field f.1).text := by
    rw [Accessor.text, ← List.nil_append ('.' :: f.1), noComparison_dotted]
    exact ⟨noComparison_nil, noComparison_name f⟩
  have hsnoc : reading ctx outputs (a.text ++ (Accessor.field f.1).text) = _ := reading_snoc hctx ha f.2
  rw [if_pos hcompare] at hsnoc
  rw [text_field]
  refine hsnoc.trans (Option.bind_congr fun v _ => accessField_name f v)

theorem reading_index (hctx : ctx.Flat) {a : Access} (ha : a.Closed) (i : Int64) :
    reading ctx outputs (index a i).text = (reading ctx outputs a.text).bind fun v => v.element (.int i) := by
  have hnumeral := numeral_ofInt i.toInt
  rw [text_index, reading_bracketed hctx ha hnumeral.balanced (by rw [hnumeral.trim]; exact hnumeral.1),
    if_pos (noComparison_ofInt i.toInt), reading_ofInt]
  rfl

theorem reading_key (hctx : ctx.Flat) {a : Access} {k : Text} (h : (key a k).Closed) :
    reading ctx outputs (key a k).text = if NoComparison k then
      (reading ctx outputs a.text).bind fun v => (reading ctx outputs (quoted k)).bind v.element else none := by
  have hblank : Text.trim (quoted k) ≠ [] := by
    rw [trim_quoted]
    exact List.cons_ne_nil _ _
  rw [text_key, reading_bracketed hctx h.1 h.2 hblank]
  exact if_congr noComparison_quoted rfl rfl

theorem reading_sub (hctx : ctx.Flat) {a b : Access} (h : (sub a b).Closed) :
    reading ctx outputs (sub a b).text =
      (reading ctx outputs a.text).bind fun v => (reading ctx outputs b.text).bind v.element := by
  rw [text_sub, reading_bracketed hctx h.1 h.2.balanced b.trim_text_ne_nil]
  split
  case isTrue => rfl
  case isFalse hcompare =>
    have hnone : reading ctx outputs b.text = none := by
      rw [text_eq] at hcompare ⊢
      exact reading_compared hctx b.base h.2.accessors hcompare
    rw [hnone]
    exact (Option.bind_fun_none _).symm

theorem follows_name (x : Identifier) : (name x).Follows ctx outputs ↔ (name x).Reads ctx outputs := by
  have htext : (name x).text = x.1 := rfl
  rw [Follows, Reads, htext, reading_name, element]
  cases wordValue x.1 with
  | none => simp
  | some w => simp [eq_comm]

/-- With a key, where the chain before it is followed. -/
theorem follows_key (hctx : ctx.Flat) {a : Access} {k : Text} (h : (key a k).Closed) (ha : a.Follows ctx outputs) :
    (key a k).Follows ctx outputs ↔ (key a k).Reads ctx outputs := by
  rw [Follows, Reads, reading_key hctx h, ha, element]
  have hcompare : (comparisonOps.any fun op => Text.contains op k) = true ↔ ¬NoComparison k := by
    rw [List.any_eq_true, NoComparison]
    simp
  cases a.element ctx with
  | none => simp
  | some v =>
    simp only [Option.bind_some, Option.some.injEq, forall_eq']
    by_cases hk : NoComparison k
    · rw [if_pos hk, if_neg fun hany => hcompare.1 hany hk]
      exact eq_comm
    · rw [if_neg hk, if_pos (hcompare.2 hk)]
      exact eq_comm

end Access

variable (ctx outputs) in
/-- A chain of accessors, and every chain it is made of, comes to the element that its fields, keys and
indexes lead to, and to an error where they lead nowhere, exactly when each of its names and keys is read
as what it is. -/
theorem accessors_follow (a : Access) (hctx : ctx.Flat) (hclosed : a.Closed) :
    a.Every (·.Follows ctx outputs) ↔ a.Every (·.Reads ctx outputs) := by
  induction a with
  | name x => exact Access.follows_name x
  | field a f ih =>
    refine (and_congr (ih hclosed) Iff.rfl).trans (and_congr_right fun h => iff_of_true ?_ trivial)
    have hbefore : a.Closed := hclosed
    have ha : reading ctx outputs a.text = a.element ctx := ((ih hclosed).2 h).self
    change reading ctx outputs (Access.field a f).text = _
    rw [Access.reading_field hctx hbefore, ha]
    rfl
  | key a k ih =>
    refine (and_congr (ih hclosed.1) Iff.rfl).trans (and_congr_right fun h => ?_)
    exact Access.follows_key hctx hclosed ((ih hclosed.1).2 h).self
  | index a i ih =>
    refine (and_congr (ih hclosed) Iff.rfl).trans (and_congr_right fun h => iff_of_true ?_ trivial)
    have hbefore : a.Closed := hclosed
    have ha : reading ctx outputs a.text = a.element ctx := ((ih hclosed).2 h).self
    change reading ctx outputs (Access.index a i).text = _
    rw [Access.reading_index hctx hbefore, ha]
    rfl
  | sub a b iha ihb =>
    refine (and_congr (iha hclosed.1) (and_congr (ihb hclosed.2) Iff.rfl)).trans
      (and_congr_right fun h => and_congr_right fun h' => iff_of_true ?_ trivial)
    have ha : reading ctx outputs a.text = a.element ctx := ((iha hclosed.1).2 h).self
    have hb : reading ctx outputs b.text = b.element ctx := ((ihb hclosed.2).2 h').self
    change reading ctx outputs (Access.sub a b).text = _
    rw [Access.reading_sub hctx hclosed, ha, hb]
    rfl

end


/-- An object under one name. -/
def shelf : Context :=
  Context.new.set ['d'] (.object [(['k'], .array [.int 1, .int 2]), (("a>b" : Text), .int 3), (['d'], .int 4)])

def nameD : Identifier := ⟨['d'], by decide⟩

theorem flat_shelf : shelf.Flat := by
  intro name v h
  have hname : name = ['d'] := by
    by_contra hne
    have hnone : shelf.get name = none := by
      simp [shelf, Context.get, Context.set, Context.new, Dict.get_set, Ne.symm hne]
    rw [hnone] at h
    cases h
  rw [hname]
  exact ⟨by decide, by decide⟩

theorem accessors_follow_last :
    (((Access.name nameD).key ['k']).index (-1)).Every (·.Follows shelf fun _ => none) := by
  have hclosed : (((Access.name nameD).key ['k']).index (-1)).Closed := ⟨trivial, by decide⟩
  refine (accessors_follow shelf (fun _ => none) _ flat_shelf hclosed).2 ⟨⟨?_, ?_⟩, trivial⟩
  · have hword : wordValue nameD.1 = none := by decide +kernel
    intro w hw
    cases hword.symm.trans hw
  · intro v hv
    cases hv
    decide +kernel

/-- A key with an operator, and a key that is the name of a variable. -/
theorem accessors_misread :
    reading shelf (fun _ => none) ((Access.name nameD).key ("a>b" : Text)).text = none ∧
    ((Access.name nameD).key ("a>b" : Text)).element shelf = some (.int 3) ∧
    reading shelf (fun _ => none) ((Access.name nameD).key ['d']).text = none ∧
    ((Access.name nameD).key ['d']).element shelf = some (.int 4) := by
  decide +kernel

end Tinypipe
