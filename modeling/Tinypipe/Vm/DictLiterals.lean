import Tinypipe.Lib.Split
import Tinypipe.Vm.Commas
import Tinypipe.Vm.Scalars

/-! Dict literals, printed and evaluated (`format_expr` of `tinypipe-compiler/src/transform.rs` and the
dict branch of `eval_expression` in `tinypipe-vm/src/compiled_executor.rs`). The scan that cuts the pairs
apart knows quotes and brackets; the key ends at the first colon whatever it stands in. -/

namespace Tinypipe

open Lib

inductive LitExpr where
  | scalar (a : Scalar)
  | bool (b : Bool)
  | none
  | list (items : List LitExpr)
  | dict (entries : List (Scalar × LitExpr))

mutual

def LitExpr.toExpr : LitExpr → Ast.Expr
  | .scalar a => a.toExpr
  | .bool b => .constant (.bool b)
  | .none => .constant .none
  | .list items => .list (toExprs items)
  | .dict entries => .dict (entries.map fun e => some e.1.toExpr) (valueExprs entries)

def toExprs : List LitExpr → List Ast.Expr
  | [] => []
  | d :: ds => d.toExpr :: toExprs ds

def valueExprs : List (Scalar × LitExpr) → List Ast.Expr
  | [] => []
  | (_, d) :: es => d.toExpr :: valueExprs es

end

def LitExpr.text (d : LitExpr) : Text := formatExpr d.toExpr

/-- The pairs put into the map one after the other. -/
def putAll (es m : List (Text × Value)) : List (Text × Value) := es.foldl (fun m e => Dict.put e.1 e.2 m) m

section

variable (ctx : Context)

mutual

/-- The value that the literal stands for; `none` where it has none, or a number that fits no value. -/
def LitExpr.value : LitExpr → Option Value
  | .scalar a => a.value ctx
  | .bool b => some (.bool b)
  | .none => some .null
  | .list items => (itemValues items).map .array
  | .dict entries => (entryValues entries).map fun es => .object (putAll es [])

def itemValues : List LitExpr → Option (List Value)
  | [] => some []
  | d :: ds => d.value.bind fun v => (itemValues ds).map (v :: ·)

def entryValues : List (Scalar × LitExpr) → Option (List (Text × Value))
  | [] => some []
  | (a, d) :: es => (a.key ctx).bind fun k => d.value.bind fun v => (entryValues es).map ((k, v) :: ·)

end

end

/-! ### The text of a dict -/

def pairText (e : Scalar × LitExpr) : Text := e.1.text ++ ':' :: ' ' :: e.2.text

/-- All parts but the first start with the blank behind their comma. -/
def spaced : List Text → List Text
  | [] => []
  | p :: ps => p :: ps.map (' ' :: ·)

theorem intercalate_spaced (ps : List Text) : Text.intercalate [',', ' '] ps = commas.join (spaced ps) := by
  induction ps with
  | nil => rfl
  | cons p ps ih =>
    cases ps with
    | nil => exact (commas.join_singleton p).symm
    | cons q qs =>
      have hstep : Text.intercalate [',', ' '] (p :: q :: qs) =
          p ++ [',', ' '] ++ Text.intercalate [',', ' '] (q :: qs) := rfl
      have hblank : commas.join ((' ' :: q) :: qs.map (' ' :: ·)) = ' ' :: commas.join (q :: qs.map (' ' :: ·)) := by
        cases qs with
        | nil => simp
        | cons r rs => simp
      rw [hstep, ih, spaced, spaced, List.map_cons, commas.join_cons_cons, hblank, List.append_assoc]
      rfl

theorem formatExpr_dict_eq (keys : List (Option Ast.Expr)) (values : List Ast.Expr) :
    formatExpr (.dict keys values) = '{' :: Text.intercalate [',', ' ']
      (List.zipWith (fun k v => k ++ ':' :: ' ' :: v) (formatKeys keys) (formatExprs values)) ++ ['\x7d'] := rfl

theorem zipWith_pairs (es : List (Scalar × LitExpr)) :
    List.zipWith (fun k v => k ++ ':' :: ' ' :: v) (formatKeys (es.map fun e => some e.1.toExpr))
      (formatExprs (valueExprs es)) = es.map pairText := by
  induction es with
  | nil => rfl
  | cons e es ih =>
    obtain ⟨a, d⟩ := e
    exact congrArg (pairText (a, d) :: ·) ih

theorem LitExpr.text_dict (es : List (Scalar × LitExpr)) :
    (LitExpr.dict es).text = '{' :: commas.join (spaced (es.map pairText)) ++ ['\x7d'] := by
  rw [LitExpr.text, LitExpr.toExpr, formatExpr_dict_eq, zipWith_pairs, intercalate_spaced]

/-! ### The pairs, one by one -/

/-- The pair is taken apart into this key and this value. -/
def ReadsPair (eval : Text → Except Text Value) (pair : Text) (e : Text × Value) : Prop :=
  ∃ l r, Text.splitOnce [':'] pair = some (l, r) ∧ trimQuotes (Text.trim l) = e.1 ∧ e.1 ≠ [] ∧
    eval (Text.trim r) = .ok e.2

theorem evalDict_iff {eval : Text → Except Text Value} {expr : Text} {pairs : List Text}
    {m : List (Text × Value)} {v : Value} : evalDict eval expr pairs m = .ok v ↔
      ∃ es, List.Forall₂ (ReadsPair eval) pairs es ∧ v = .object (putAll es m) := by
  induction pairs generalizing m with
  | nil =>
    constructor
    · intro h
      cases h
      exact ⟨[], .nil, rfl⟩
    · rintro ⟨es, hes, rfl⟩
      cases hes
      rfl
  | cons pair pairs ih =>
    rw [evalDict]
    constructor
    · intro h
      split at h
      case h_1 => cases h
      case h_2 k r hsplit =>
        dsimp only at h
        split at h
        case isTrue => cases h
        case isFalse hkey =>
          split at h
          case h_1 => cases h
          case h_2 w hw =>
            obtain ⟨es, hes, rfl⟩ := ih.1 h
            rw [List.isEmpty_iff] at hkey
            exact ⟨(trimQuotes (Text.trim k), w) :: es, .cons ⟨k, r, hsplit, rfl, hkey, hw⟩ hes, rfl⟩
    · rintro ⟨es, hes, rfl⟩
      cases hes with
      | @cons _ e _ es hpair hrest =>
        obtain ⟨l, r, hsplit, hkey, hne, hvalue⟩ := hpair
        rw [hsplit]
        dsimp only
        rw [hkey, List.isEmpty_eq_false_iff.2 hne, if_neg Bool.false_ne_true, hvalue]
        exact ih.2 ⟨es, hrest, rfl⟩

theorem splitOnce_colon_cons {c : Char} (hc : c ≠ ':') (t : Text) :
    Text.splitOnce [':'] (c :: t) = (Text.splitOnce [':'] t).map fun p => (c :: p.1, p.2) := by
  rw [Text.splitOnce, if_neg]
  intro hpre
  obtain ⟨rest, hrest⟩ := List.isPrefixOf_iff_prefix.1 hpre
  exact hc (List.cons.inj hrest).1.symm

theorem readsPair_blank {eval : Text → Except Text Value} {pair : Text} {e : Text × Value} :
    ReadsPair eval (' ' :: pair) e ↔ ReadsPair eval pair e := by
  rw [ReadsPair, splitOnce_colon_cons (by decide)]
  constructor
  · rintro ⟨l, r, hsplit, hkey, hrest⟩
    obtain ⟨⟨l, r⟩, hpair, heq⟩ := Option.map_eq_some_iff.1 hsplit
    cases heq
    rw [Text.trim_cons_blank (by decide)] at hkey
    exact ⟨l, r, hpair, hkey, hrest⟩
  · rintro ⟨l, r, hsplit, hkey, hrest⟩
    refine ⟨' ' :: l, r, by rw [hsplit]; rfl, ?_, hrest⟩
    rwa [Text.trim_cons_blank (by decide)]

theorem forall₂_spaced {eval : Text → Except Text Value} {pairs : List Text} {es : List (Text × Value)} :
    List.Forall₂ (ReadsPair eval) (spaced pairs) es ↔ List.Forall₂ (ReadsPair eval) pairs es := by
  cases pairs with
  | nil => exact Iff.rfl
  | cons p ps =>
    have hrest : ∀ es, List.Forall₂ (ReadsPair eval) (ps.map (' ' :: ·)) es ↔
        List.Forall₂ (ReadsPair eval) ps es := by
      intro es
      rw [List.forall₂_map_left_iff]
      simp only [readsPair_blank]
    rw [spaced]
    constructor
    · rintro (_ | ⟨hpair, htail⟩)
      exact .cons hpair ((hrest _).1 htail)
    · rintro (_ | ⟨hpair, htail⟩)
      exact .cons hpair ((hrest _).2 htail)

section

variable {ctx : Context} {outputs : Nat → Option Value}

/-- The separators of the dict are the commas that cut its text. -/
def CutBetween (es : List (Scalar × LitExpr)) : Prop := commas.Apart .start (spaced (es.map pairText))

theorem colon_mem_pairText (e : Scalar × LitExpr) : ':' ∈ pairText e :=
  List.mem_append_right _ List.mem_cons_self

theorem mem_spaced {ps : List Text} {p : Text} (h : p ∈ spaced ps) : ∃ q ∈ ps, q <:+ p := by
  cases ps with
  | nil => cases h
  | cons q qs =>
    rcases List.mem_cons.1 h with rfl | h
    · exact ⟨p, List.mem_cons_self, List.suffix_rfl⟩
    · obtain ⟨r, hr, rfl⟩ := List.mem_map.1 h
      exact ⟨r, List.mem_cons_of_mem q hr, List.suffix_cons ' ' r⟩

theorem spaced_ne_nil {ps : List Text} (h : ps ≠ []) : spaced ps ≠ [] := by
  obtain ⟨p, ps, rfl⟩ := List.exists_cons_of_ne_nil h
  exact List.cons_ne_nil _ _

theorem splitTopLevelCommas_pairs {es : List (Scalar × LitExpr)} (hne : es ≠ []) (h : CutBetween es) :
    splitTopLevelCommas (commas.join (spaced (es.map pairText))) = spaced (es.map pairText) := by
  rw [splitTopLevelCommas_eq, (commas.pieces_join_iff (spaced_ne_nil (by simpa using hne))).2 h,
    dropBlankLast_eq_self]
  intro p hp
  obtain ⟨q, hq, hsuffix⟩ := mem_spaced hp
  obtain ⟨e, -, rfl⟩ := List.mem_map.1 hq
  exact Text.trim_ne_nil (hsuffix.subset (colon_mem_pairText e)) (by decide)

/-- A dict whose separators are found is evaluated pair by pair. -/
theorem evalExpression_dict {es : List (Scalar × LitExpr)} (h : CutBetween es) {v : Value} :
    evalExpression ctx outputs (LitExpr.dict es).text = .ok v ↔
      ∃ read, List.Forall₂ (ReadsPair (evalExpression ctx outputs)) (es.map pairText) read ∧
        v = .object (putAll read []) := by
  rw [LitExpr.text_dict, evalExpression_braces]
  cases es with
  | nil =>
    constructor
    · intro heq
      cases heq
      exact ⟨[], .nil, rfl⟩
    · rintro ⟨read, hread, rfl⟩
      cases hread
      rfl
  | cons e es =>
    have hblank : (Text.trim (commas.join (spaced ((e :: es).map pairText)))).isEmpty = false := by
      rw [List.isEmpty_eq_false_iff]
      exact Text.trim_ne_nil ((commas.prefix_join _ _).subset (colon_mem_pairText e)) (by decide)
    rw [hblank, if_neg Bool.false_ne_true, splitTopLevelCommas_pairs (List.cons_ne_nil e es) h, evalDict_iff]
    simp only [forall₂_spaced]

end

/-! ### Literals -/

section

variable {ctx : Context} {outputs : Nat → Option Value}

/-- A pair whose key has no colon is taken apart behind the key. -/
theorem readsPair_iff {a : Scalar} (ha : ':' ∉ a.text) (d : LitExpr) (e : Text × Value) :
    ReadsPair (evalExpression ctx outputs) (pairText (a, d)) e ↔
      trimQuotes (Text.trim a.text) = e.1 ∧ e.1 ≠ [] ∧ evalExpression ctx outputs d.text = .ok e.2 := by
  have hsplit : Text.splitOnce [':'] (pairText (a, d)) = some (a.text, ' ' :: d.text) :=
    Text.splitOnce_append _ ha
  rw [ReadsPair, hsplit]
  constructor
  · rintro ⟨l, r, hlr, hkey, hne, hvalue⟩
    cases hlr
    rw [Text.trim_cons_blank (by decide), evalExpression_trim] at hvalue
    exact ⟨hkey, hne, hvalue⟩
  · rintro ⟨hkey, hne, hvalue⟩
    refine ⟨a.text, ' ' :: d.text, rfl, hkey, hne, ?_⟩
    rwa [Text.trim_cons_blank (by decide), evalExpression_trim]

mutual

/-- Every separator is found, every key and everything in the values is read as what it stands for. There is
no branch for lists. -/
def LitExpr.ReadsBack (ctx : Context) (outputs : Nat → Option Value) : LitExpr → Prop
  | .scalar a => a.ReadsBack ctx outputs
  | .bool _ => True
  | .none => True
  | .list _ => False
  | .dict es => CutBetween es ∧ EntriesReadBack ctx outputs es

def EntriesReadBack (ctx : Context) (outputs : Nat → Option Value) : List (Scalar × LitExpr) → Prop
  | [] => True
  | (a, d) :: es => a.IsKey ctx ∧ d.ReadsBack ctx outputs ∧ EntriesReadBack ctx outputs es

end

theorem evalExpression_bool (b : Bool) : evalExpression ctx outputs (LitExpr.bool b).text = .ok (.bool b) := by
  cases b <;> rfl

theorem evalExpression_none : evalExpression ctx outputs LitExpr.none.text = .ok .null := rfl

mutual

theorem LitExpr.evalExpression_text : ∀ {d : LitExpr}, d.ReadsBack ctx outputs →
    ∃ v, d.value ctx = some v ∧ evalExpression ctx outputs d.text = .ok v
  | .scalar a, h => by
    rw [LitExpr.ReadsBack] at h
    exact a.readsBack_iff.2 h
  | .bool b, _ => ⟨.bool b, rfl, evalExpression_bool b⟩
  | .none, _ => ⟨.null, rfl, evalExpression_none⟩
  | .list _, h => by
    rw [LitExpr.ReadsBack] at h
    exact h.elim
  | .dict es, h => by
    rw [LitExpr.ReadsBack] at h
    obtain ⟨vs, hvs, hread⟩ := entriesRead h.2
    refine ⟨.object (putAll vs []), ?_, (evalExpression_dict h.1).2 ⟨vs, hread, rfl⟩⟩
    rw [LitExpr.value, hvs]
    rfl

theorem entriesRead : ∀ {es : List (Scalar × LitExpr)}, EntriesReadBack ctx outputs es →
    ∃ vs, entryValues ctx es = some vs ∧
      List.Forall₂ (ReadsPair (evalExpression ctx outputs)) (es.map pairText) vs
  | [], _ => ⟨[], rfl, .nil⟩
  | (a, d) :: es, h => by
    rw [EntriesReadBack] at h
    obtain ⟨hkey, hd, hes⟩ := h
    obtain ⟨hcolon, hne, hk⟩ := a.isKey_iff.1 hkey
    obtain ⟨v, hv, heval⟩ := LitExpr.evalExpression_text hd
    obtain ⟨vs, hvs, hread⟩ := entriesRead hes
    refine ⟨(trimQuotes (Text.trim a.text), v) :: vs, ?_, .cons ?_ hread⟩
    · rw [entryValues, hk, hv, hvs]
      rfl
    · exact (readsPair_iff hcolon d _).2 ⟨rfl, hne, heval⟩

end

end

/-! ### Literals without double quotes in their strings -/

theorem all_marks {p : Char → Bool} (h : marks.all (fun c => !p c) = true) : ∀ c ∈ marks, p c = false := by
  intro c hc
  have hnot := List.all_eq_true.1 h c hc
  rwa [Bool.not_eq_true'] at hnot

theorem level_word {t : Text} (h : marks.all (fun c => !t.elem c) = true) : Level t ∧ NoCut t := by
  apply level_plain
  intro c hc hmem
  rw [← List.elem_iff, all_marks h c hc] at hmem
  cases hmem

theorem run_in_quotes {u : Text} (h : '"' ∉ u) (d : Int) : commas.run ⟨d, some '"'⟩ u = ⟨d, some '"'⟩ := by
  induction u with
  | nil => rfl
  | cons c cs ih =>
    rw [List.mem_cons, not_or] at h
    have hstep : commas.next ⟨d, some '"'⟩ c = ⟨d, some '"'⟩ := by
      simp [commas_next, BracketScan.next, Ne.symm h.1]
    rw [Cutter.run_cons, hstep, ih h.2]

theorem level_quoted {s : Text} (h : '"' ∉ s) : Level (quoted s) ∧ NoCut (quoted s) := by
  have hopen : ∀ d, commas.next ⟨d, none⟩ '"' = ⟨d, some '"'⟩ := fun d => rfl
  have hclose : ∀ d, commas.next ⟨d, some '"'⟩ '"' = ⟨d, none⟩ := fun d => rfl
  have hinside : ∀ d {w : Text}, w <+: s → commas.run ⟨d, none⟩ ('"' :: w) = ⟨d, some '"'⟩ := by
    intro d w hw
    rw [Cutter.run_cons, hopen, run_in_quotes fun hmem => h (hw.subset hmem)]
  have hback : ∀ d, commas.run ⟨d, none⟩ (quoted s) = ⟨d, none⟩ := by
    intro d
    rw [quoted_eq, ← List.cons_append, Cutter.run_append, hinside d List.prefix_rfl, Cutter.run_cons, hclose,
      Cutter.run_nil]
  refine ⟨⟨hback, fun d u hu => ?_⟩, fun d u v heq hrun => ?_⟩
  · rcases prefix_wrap hu with rfl | ⟨w, hw, rfl⟩ | rfl
    · exact le_refl d
    · rw [hinside d hw]
    · exact (hback d).symm ▸ le_refl d
  · obtain ⟨w, hw, rfl⟩ := comma_wrap (by decide) heq
    rw [hinside d hw] at hrun
    cases hrun

theorem level_blank {t : Text} (h : Level t ∧ NoCut t) : Level (' ' :: t) ∧ NoCut (' ' :: t) := by
  have hblank : Level [' '] := level_single fun d => rfl
  exact ⟨hblank.append h.1, NoCut.append hblank (noCut_of_not_mem (by decide)) h.2⟩

theorem level_spaced {ps : List Text} (h : ∀ p ∈ ps, Level p ∧ NoCut p) : ∀ p ∈ spaced ps, Level p ∧ NoCut p := by
  cases ps with
  | nil => exact h
  | cons p ps =>
    intro q hq
    rcases List.mem_cons.1 hq with rfl | hq
    · exact h q List.mem_cons_self
    · obtain ⟨r, hr, rfl⟩ := List.mem_map.1 hq
      exact level_blank (h r (List.mem_cons_of_mem p hr))

def Scalar.QuoteFree : Scalar → Prop
  | .str s => '"' ∉ s
  | _ => True

mutual

def LitExpr.QuoteFree : LitExpr → Prop
  | .scalar a => a.QuoteFree
  | .bool _ => True
  | .none => True
  | .list items => ItemsQuoteFree items
  | .dict es => EntriesQuoteFree es

def ItemsQuoteFree : List LitExpr → Prop
  | [] => True
  | d :: ds => d.QuoteFree ∧ ItemsQuoteFree ds

def EntriesQuoteFree : List (Scalar × LitExpr) → Prop
  | [] => True
  | (a, d) :: es => a.QuoteFree ∧ d.QuoteFree ∧ EntriesQuoteFree es

end

theorem Scalar.level_text {a : Scalar} (h : a.QuoteFree) : Level a.text ∧ NoCut a.text := by
  cases a with
  | str s => exact level_quoted h
  | int i => exact level_plain fun c hc => (numeral_int i).not_mem (all_marks rfl c hc)
  | float f => exact level_plain fun c hc => (numeral_float f).not_mem (all_marks rfl c hc)
  | name x => exact level_plain fun c hc => not_mem_name (all_marks rfl c hc) x

theorem LitExpr.text_list (items : List LitExpr) :
    (LitExpr.list items).text = '[' :: commas.join (spaced (items.map LitExpr.text)) ++ [']'] := by
  have hlist : ∀ elts, formatExpr (.list elts) = '[' :: Text.intercalate [',', ' '] (formatExprs elts) ++ [']'] :=
    fun elts => rfl
  have hitems : formatExprs (toExprs items) = items.map LitExpr.text := by
    induction items with
    | nil => rfl
    | cons d ds ih => exact congrArg (d.text :: ·) ih
  rw [LitExpr.text, LitExpr.toExpr, hlist, hitems, intercalate_spaced]

mutual

theorem LitExpr.level_text : ∀ {d : LitExpr}, d.QuoteFree → Level d.text ∧ NoCut d.text
  | .scalar a, h => by
    rw [LitExpr.QuoteFree] at h
    exact Scalar.level_text h
  | .bool b, _ => by
    cases b <;> exact level_word rfl
  | .none, _ => level_word rfl
  | .list items, h => by
    rw [LitExpr.QuoteFree] at h
    rw [LitExpr.text_list]
    exact level_brackets (fun d => rfl) (fun d => rfl) (by decide)
      (level_join fun p hp => (level_spaced (level_items h) p hp).1)
  | .dict es, h => by
    rw [LitExpr.QuoteFree] at h
    rw [LitExpr.text_dict]
    exact level_brackets (fun d => rfl) (fun d => rfl) (by decide)
      (level_join fun p hp => (level_spaced (level_entries h) p hp).1)

theorem level_items : ∀ {items : List LitExpr}, ItemsQuoteFree items →
    ∀ p ∈ items.map LitExpr.text, Level p ∧ NoCut p
  | [], _ => by simp
  | d :: ds, h => by
    rw [ItemsQuoteFree] at h
    rw [List.map_cons, List.forall_mem_cons]
    exact ⟨LitExpr.level_text h.1, level_items h.2⟩

theorem level_entries : ∀ {es : List (Scalar × LitExpr)}, EntriesQuoteFree es →
    ∀ p ∈ es.map pairText, Level p ∧ NoCut p
  | [], _ => by simp
  | (a, d) :: es, h => by
    rw [EntriesQuoteFree] at h
    obtain ⟨ha, hd, hes⟩ := h
    rw [List.map_cons, List.forall_mem_cons]
    have hkey := Scalar.level_text ha
    have hvalue := level_blank (LitExpr.level_text hd)
    have hcolon : Level [':'] := level_single fun d => rfl
    refine ⟨⟨?_, ?_⟩, level_entries hes⟩
    · exact hkey.1.append (hcolon.append hvalue.1)
    · exact NoCut.append hkey.1 hkey.2 (NoCut.append hcolon (noCut_of_not_mem (by decide)) hvalue.2)

end

/-- Commas, brackets and single quotes in the strings do not matter. -/
theorem cutBetween_of_quoteFree {es : List (Scalar × LitExpr)} (h : EntriesQuoteFree es) : CutBetween es :=
  apart_of_level (level_spaced (level_entries h))

/-! ### The keys of what comes out -/

theorem mem_putAll {es m : List (Text × Value)} {k : Text} :
    k ∈ (putAll es m).map Prod.fst ↔ k ∈ m.map Prod.fst ∨ k ∈ es.map Prod.fst := by
  induction es generalizing m with
  | nil => simp [putAll]
  | cons e es ih =>
    have hstep : putAll (e :: es) m = putAll es (Dict.put e.1 e.2 m) := rfl
    rw [hstep, ih, Dict.put_keys, List.map_cons, List.mem_cons]
    split
    case isTrue hmem =>
      constructor
      · rintro (h | h)
        · exact .inl h
        · exact .inr (.inr h)
      · rintro (h | rfl | h)
        · exact .inl h
        · exact .inl hmem
        · exact .inr h
    case isFalse => rw [List.mem_append, List.mem_singleton, or_assoc]

/-- Pairs with different keys are the entries of the map. -/
theorem putAll_nodup {es m : List (Text × Value)} (h : ((m ++ es).map Prod.fst).Nodup) : putAll es m = m ++ es := by
  induction es generalizing m with
  | nil => exact (List.append_nil m).symm
  | cons e es ih =>
    have hsplit : m ++ e :: es = m ++ [e] ++ es := by simp
    have hnew : Dict.find e.1 m = none := by
      apply Dict.find_eq_none
      intro hmem
      rw [List.map_append, List.nodup_append] at h
      exact h.2.2 e.1 hmem e.1 (List.mem_map_of_mem List.mem_cons_self) rfl
    have hstep : putAll (e :: es) m = putAll es (Dict.put e.1 e.2 m) := rfl
    rw [hsplit] at h ⊢
    rw [hstep, Dict.put_of_find_none e.1 e.2 hnew]
    exact ih h

theorem readsPair_key {eval : Text → Except Text Value} {pair : Text} {e : Text × Value}
    (h : ReadsPair eval pair e) : KeyForm e.1 := by
  obtain ⟨l, r, hsplit, hkey, hne, -⟩ := h
  have hcolon : ':' ∉ l := by
    have hinfix := ((Text.splitOnce_eq_some_iff (List.cons_ne_nil _ _)).1 hsplit).2
    intro hmem
    obtain ⟨s, t, rfl⟩ := List.append_of_mem hmem
    exact hinfix ⟨s, t, by simp⟩
  rw [← hkey] at hne ⊢
  exact ⟨fun hmem => hcolon (trim_subset l (Text.trimMatches_subset _ _ hmem)), hne, Text.trimMatches_ends _ _⟩

theorem forall₂_key {eval : Text → Except Text Value} {pairs : List Text} {read : List (Text × Value)}
    (h : List.Forall₂ (ReadsPair eval) pairs read) : ∀ k ∈ read.map Prod.fst, KeyForm k := by
  induction h with
  | nil =>
    intro k hk
    cases hk
  | @cons pair e pairs read hpair _ ih =>
    intro k hk
    rcases List.mem_cons.1 hk with rfl | hk
    · exact readsPair_key hpair
    · exact ih k hk

section

variable {ctx : Context} {outputs : Nat → Option Value}

/-- A key that is empty, holds a colon or ends with a quote never comes out of a dict. -/
theorem keys_of_dict {es : List (Scalar × LitExpr)} {m : List (Text × Value)}
    (h : evalExpression ctx outputs (LitExpr.dict es).text = .ok (.object m)) :
    ∀ k ∈ m.map Prod.fst, KeyForm k := by
  rw [LitExpr.text_dict, evalExpression_braces] at h
  split at h
  · cases h
    intro k hk
    cases hk
  · obtain ⟨read, hread, heq⟩ := evalDict_iff.1 h
    cases heq
    intro k hk
    rcases mem_putAll.1 hk with hk | hk
    · cases hk
    · exact forall₂_key hread k hk

/-! ### Nothing else is read back -/

/-- The key is written, not looked up. -/
def Scalar.Written : Scalar → Prop
  | .name _ => False
  | _ => True

theorem Scalar.Written.isKey {a : Scalar} (ha : a.Written) {k : Text} (hk : a.key ctx = some k) (h : KeyForm k) :
    a.IsKey ctx := by
  cases a with
  | str s =>
    cases hk
    exact h
  | int i => trivial
  | float f => trivial
  | name x => exact ha.elim

mutual

/-- The commas that cut a dict are its separators, and its keys are different ones that are written out. -/
def LitExpr.Separated (ctx : Context) : LitExpr → Prop
  | .scalar _ => True
  | .bool _ => True
  | .none => True
  | .list _ => False
  | .dict es => CutBetween es ∧ (es.map fun e => e.1.key ctx).Nodup ∧ EntriesSeparated ctx es

def EntriesSeparated (ctx : Context) : List (Scalar × LitExpr) → Prop
  | [] => True
  | (a, d) :: es => a.Written ∧ d.Separated ctx ∧ EntriesSeparated ctx es

end

theorem entryValues_cons {a : Scalar} {d : LitExpr} {es : List (Scalar × LitExpr)} {vs : List (Text × Value)}
    (h : entryValues ctx ((a, d) :: es) = some vs) : ∃ k v ws, a.key ctx = some k ∧ d.value ctx = some v ∧
      entryValues ctx es = some ws ∧ vs = (k, v) :: ws := by
  rw [entryValues] at h
  obtain ⟨k, hk, h⟩ := Option.bind_eq_some_iff.1 h
  obtain ⟨v, hv, h⟩ := Option.bind_eq_some_iff.1 h
  obtain ⟨ws, hws, rfl⟩ := Option.map_eq_some_iff.1 h
  exact ⟨k, v, ws, hk, hv, hws, rfl⟩

theorem entryValues_keys {es : List (Scalar × LitExpr)} {vs : List (Text × Value)}
    (h : entryValues ctx es = some vs) : es.map (fun e => e.1.key ctx) = (vs.map Prod.fst).map some := by
  induction es generalizing vs with
  | nil =>
    cases h
    rfl
  | cons e es ih =>
    obtain ⟨a, d⟩ := e
    obtain ⟨k, v, ws, hk, -, hws, rfl⟩ := entryValues_cons h
    rw [List.map_cons, ih hws, hk]
    rfl

theorem isKey_of_separated {es : List (Scalar × LitExpr)} {vs : List (Text × Value)} (hsep : EntriesSeparated ctx es)
    (h : entryValues ctx es = some vs) (hform : ∀ k ∈ vs.map Prod.fst, KeyForm k) : ∀ e ∈ es, e.1.IsKey ctx := by
  induction es generalizing vs with
  | nil =>
    intro e he
    cases he
  | cons e es ih =>
    obtain ⟨a, d⟩ := e
    rw [EntriesSeparated] at hsep
    obtain ⟨k, v, ws, hk, -, hws, rfl⟩ := entryValues_cons h
    rw [List.map_cons, List.forall_mem_cons] at hform
    rw [List.forall_mem_cons]
    exact ⟨hsep.1.isKey hk hform.1, ih hsep.2.2 hws hform.2⟩

/-- Keys that are read as they are. -/
theorem read_keys {es : List (Scalar × LitExpr)} {vs read : List (Text × Value)} (hkeys : ∀ e ∈ es, e.1.IsKey ctx)
    (h : entryValues ctx es = some vs)
    (hread : List.Forall₂ (ReadsPair (evalExpression ctx outputs)) (es.map pairText) read) :
    read.map Prod.fst = vs.map Prod.fst := by
  induction es generalizing vs read with
  | nil =>
    cases h
    cases hread
    rfl
  | cons e es ih =>
    obtain ⟨a, d⟩ := e
    obtain ⟨k, v, ws, hk, -, hws, rfl⟩ := entryValues_cons h
    rw [List.forall_mem_cons] at hkeys
    cases hread with
    | @cons _ r _ rs hpair hrest =>
      obtain ⟨hcolon, -, hkey⟩ := a.isKey_iff.1 hkeys.1
      have hr := ((readsPair_iff hcolon d r).1 hpair).1
      rw [List.map_cons, List.map_cons, ih hkeys.2 hws hrest, ← hr, ← Option.some.inj (hk.symm.trans hkey)]

mutual

theorem LitExpr.readsBack_of_eval : ∀ {d : LitExpr}, d.Separated ctx → ∀ {v : Value}, d.value ctx = some v →
    evalExpression ctx outputs d.text = .ok v → d.ReadsBack ctx outputs
  | .scalar a, _, v, hv, h => by
    rw [LitExpr.ReadsBack]
    exact a.readsBack_iff.1 ⟨v, hv, h⟩
  | .bool b, _, _, _, _ => by
    rw [LitExpr.ReadsBack]
    trivial
  | .none, _, _, _, _ => by
    rw [LitExpr.ReadsBack]
    trivial
  | .list items, hsep, _, _, _ => by
    rw [LitExpr.Separated] at hsep
    exact hsep.elim
  | .dict es, hsep, v, hv, h => by
    rw [LitExpr.Separated] at hsep
    obtain ⟨hcut, hnodup, hes⟩ := hsep
    rw [LitExpr.value] at hv
    obtain ⟨vs, hvs, rfl⟩ := Option.map_eq_some_iff.1 hv
    obtain ⟨read, hread, heq⟩ := (evalExpression_dict hcut).1 h
    have hmaps : putAll vs [] = putAll read [] := Value.object.inj heq
    have hdistinct : (vs.map Prod.fst).Nodup := by
      rw [entryValues_keys hvs] at hnodup
      exact hnodup.of_map some
    have hform : ∀ k ∈ vs.map Prod.fst, KeyForm k := by
      intro k hk
      have hmem : k ∈ (putAll read []).map Prod.fst := by
        rw [← hmaps, mem_putAll]
        exact .inr hk
      rcases mem_putAll.1 hmem with hk | hk
      · cases hk
      · exact forall₂_key hread k hk
    have hkeys := isKey_of_separated hes hvs hform
    have hsame := read_keys hkeys hvs hread
    rw [putAll_nodup (m := []) hdistinct, putAll_nodup (m := []) (hsame ▸ hdistinct)] at hmaps
    obtain rfl : vs = read := hmaps
    rw [LitExpr.ReadsBack]
    exact ⟨hcut, entriesReadBack_of_read hes hkeys hvs hread⟩

theorem entriesReadBack_of_read : ∀ {es : List (Scalar × LitExpr)}, EntriesSeparated ctx es →
    (∀ e ∈ es, e.1.IsKey ctx) → ∀ {vs : List (Text × Value)}, entryValues ctx es = some vs →
    List.Forall₂ (ReadsPair (evalExpression ctx outputs)) (es.map pairText) vs → EntriesReadBack ctx outputs es
  | [], _, _, _, _, _ => by
    rw [EntriesReadBack]
    trivial
  | (a, d) :: es, hsep, hkeys, vs, hvs, hread => by
    rw [EntriesSeparated] at hsep
    rw [List.forall_mem_cons] at hkeys
    obtain ⟨k, v, ws, hk, hv, hws, rfl⟩ := entryValues_cons hvs
    rw [EntriesReadBack]
    rw [List.map_cons, List.forall₂_cons] at hread
    obtain ⟨hpair, hrest⟩ := hread
    have hvalue := ((readsPair_iff (a.isKey_iff.1 hkeys.1).1 d (k, v)).1 hpair).2.2
    exact ⟨hkeys.1, LitExpr.readsBack_of_eval hsep.2.1 hv hvalue,
      entriesReadBack_of_read hsep.2.2 hkeys.2 hws hrest⟩

end

end

/-- The printed literal is evaluated to the value that it stands for. -/
def LitExpr.Evaluates (ctx : Context) (outputs : Nat → Option Value) (d : LitExpr) : Prop :=
  ∃ v, d.value ctx = some v ∧ evalExpression ctx outputs (formatExpr d.toExpr) = .ok v

def oneEntry : List (Scalar × LitExpr) := [(.str "k,\x7b", .scalar (.int 1))]

end Tinypipe
