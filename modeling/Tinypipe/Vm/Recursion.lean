import Tinypipe.Vm.Eval

/-! The evaluator reads only texts shorter than its own (`eval_expression` of
`tinypipe-vm/src/compiled_executor.rs`), so it satisfies the equation of its source: the depth
that the model counts never runs out. -/

namespace Tinypipe

open Lib

/-! ### The pieces of a text are shorter -/

theorem stringBody_length {t s rest : Text} (h : Json.stringBody t = some (s, rest)) :
    s.length + rest.length < t.length := by
  induction hn : t.length using Nat.strong_induction_on generalizing t s rest with
  | _ n ih =>
    -- one character is read from at least as many
    have hrec : ∀ {c : Char} {cs : Text}, cs.length < t.length →
        ((Json.stringBody cs).map fun p => (c :: p.1, p.2)) = some (s, rest) → s.length + rest.length < t.length := by
      intro c cs hlt hmap
      obtain ⟨p, hp, heq⟩ := Option.map_eq_some_iff.1 hmap
      obtain ⟨rfl, rfl⟩ := Prod.mk.inj heq
      have := ih cs.length (hn ▸ hlt) hp rfl
      rw [List.length_cons]
      omega
    rw [← hn]
    unfold Json.stringBody at h
    split at h
    case h_1 => cases h
    case h_2 =>
      cases h
      simp
    case h_3 =>
      split at h
      · cases h
      · split at h
        · split at h
          · split at h
            · exact hrec (by simp only [List.length_cons]; omega) h
            · cases h
          · cases h
        · split at h
          · cases h
          · exact hrec (by simp only [List.length_cons]; omega) h
    case h_4 =>
      split at h
      · cases h
      · split at h
        · cases h
        · exact hrec (by simp only [List.length_cons]; omega) h
    case h_5 =>
      split at h
      · exact hrec (by simp only [List.length_cons]; omega) h
      · cases h
    case h_6 =>
      split at h
      · cases h
      · exact hrec (by simp only [List.length_cons]; omega) h

theorem fromStrString_length {t s : Text} (h : Json.fromStrString t = some s) : s.length < t.length := by
  have hdrop : (t.dropWhile Json.isSpace).length ≤ t.length := (List.dropWhile_suffix _).length_le
  rw [Json.fromStrString] at h
  split at h
  case h_1 rest hrest =>
    rw [hrest, List.length_cons] at hdrop
    split at h
    case h_1 s' tail hbody =>
      have hlen := stringBody_length hbody
      split at h
      · cases h
        omega
      · cases h
    case h_2 => cases h
  case h_2 => cases h

theorem decodeQuoted_length (t : Text) : (decodeQuoted t).1.length ≤ t.length := by
  rw [decodeQuoted]
  split
  case h_1 s hs => exact (fromStrString_length hs).le
  case h_2 =>
    dsimp only
    split
    · rw [List.length_dropLast, List.length_drop]
      omega
    · exact le_refl _

theorem findMatchingBracket_length {depth : Nat} {quote : Option Char} {t inner rest : Text}
    (h : findMatchingBracket depth quote t = some (inner, rest)) : inner.length + rest.length < t.length := by
  have hmap : ∀ {d : Nat} {q : Option Char} {c : Char} {cs inner rest : Text},
      ((findMatchingBracket d q cs).map fun p => (c :: p.1, p.2)) = some (inner, rest) →
      ∃ inner', inner = c :: inner' ∧ findMatchingBracket d q cs = some (inner', rest) := by
    intro d q c cs inner rest h
    obtain ⟨p, hp, heq⟩ := Option.map_eq_some_iff.1 h
    obtain ⟨rfl, rfl⟩ := Prod.mk.inj heq
    exact ⟨p.1, rfl, hp⟩
  induction t generalizing depth quote inner rest with
  | nil => cases quote <;> cases h
  | cons c cs ih =>
    have hrec : ∀ {d q}, ((findMatchingBracket d q cs).map fun p => (c :: p.1, p.2)) = some (inner, rest) →
        inner.length + rest.length < (c :: cs).length := by
      intro d q h
      obtain ⟨inner', rfl, hinner⟩ := hmap h
      have := ih hinner
      simp only [List.length_cons]
      omega
    cases quote with
    | some q => exact hrec h
    | none =>
      rw [findMatchingBracket] at h
      split at h
      · exact hrec h
      · split at h
        · exact hrec h
        · split at h
          · split at h
            · cases h
              simp
            · exact hrec h
          · exact hrec h

theorem splitTopLevelCommas_length {t part : Text} (h : part ∈ splitTopLevelCommas t) :
    part.length ≤ t.length := by
  have hgo : ∀ (t current : Text) (depth : Int) (quote : Option Char),
      part ∈ splitTopLevelCommas.go depth quote current t → part.length ≤ current.length + t.length := by
    intro t
    induction t with
    | nil =>
      intro current depth quote h
      cases quote <;>
      · rw [splitTopLevelCommas.go] at h
        split at h
        · cases h
        · rw [List.mem_singleton.1 h, List.length_reverse]
          simp
    | cons c cs ih =>
      intro current depth quote h
      have hrec : ∀ {d q}, part ∈ splitTopLevelCommas.go d q (c :: current) cs →
          part.length ≤ current.length + (c :: cs).length := by
        intro d q h
        have := ih (c :: current) d q h
        simp only [List.length_cons] at this ⊢
        omega
      cases quote with
      | some q => exact hrec h
      | none =>
        rw [splitTopLevelCommas.go] at h
        split at h
        · exact hrec h
        · split at h
          · exact hrec h
          · split at h
            · exact hrec h
            · split at h
              · rcases List.mem_cons.1 h with rfl | h
                · rw [List.length_reverse]
                  simp
                · have := ih [] depth none h
                  simp only [List.length_cons, List.length_nil] at this ⊢
                  omega
              · exact hrec h
  have := hgo t [] 0 none h
  rw [List.length_nil, Nat.zero_add] at this
  exact this

theorem splitAccessors_length {t base : Text} {accs : List Accessor}
    (h : splitAccessors t = some (base, accs)) :
    base.length < t.length ∧ ∀ key, Accessor.index key ∈ accs → key.length < t.length := by
  have hscan : ∀ (n : Nat) (depth : Int) (quote : Option Char) (base : Text) (found : Option Text)
      (accs : List Accessor) (tail u : Text), base.length + u.length ≤ t.length →
      (∀ b, found = some b → b.length < t.length) →
      (∀ key, Accessor.index key ∈ accs → key.length < t.length) →
      ∀ found' accs' tail', scanAccessors n depth quote base found accs tail u = some (found', accs', tail') →
        (∀ b, found' = some b → b.length < t.length) ∧
          ∀ key, Accessor.index key ∈ accs' → key.length < t.length := by
    intro n
    induction n with
    | zero =>
      intro depth quote base found accs tail u _ hfound haccs found' accs' tail' h
      rw [scanAccessors] at h
      cases h
      exact ⟨hfound, haccs⟩
    | succ n ih =>
      intro depth quote base found accs tail u hlen hfound haccs found' accs' tail' h
      cases u with
      | nil =>
        rw [scanAccessors] at h
        cases h
        exact ⟨hfound, haccs⟩
      | cons c cs =>
        rw [List.length_cons] at hlen
        have hnext : (c :: base).length + cs.length ≤ t.length := by rw [List.length_cons]; omega
        have hbase : ∀ b, found.or (some base.reverse) = some b → b.length < t.length := by
          intro b hb
          cases found with
          | some b' => exact hfound b hb
          | none =>
            cases hb
            rw [List.length_reverse]
            omega
        cases quote with
        | some q => exact ih _ _ _ _ _ _ _ hnext hfound haccs _ _ _ h
        | none =>
          rw [scanAccessors] at h
          split at h
          · exact ih _ _ _ _ _ _ _ hnext hfound haccs _ _ _ h
          · split at h
            · split at h
              · cases h
              case h_2 key rest hmatch =>
                have hpieces := findMatchingBracket_length hmatch
                split at h
                · cases h
                · refine ih _ _ _ _ _ _ _ ?_ hbase (fun key' hkey => ?_) _ _ _ h
                  · rw [List.length_cons]
                    omega
                  · rcases List.mem_append.1 hkey with hkey | hkey
                    · exact haccs key' hkey
                    · cases List.mem_singleton.1 hkey
                      omega
            · split at h
              · dsimp only at h
                rw [List.span_eq_takeWhile_dropWhile] at h
                have hrest := (List.dropWhile_suffix (l := cs) fun d => d != '.' && d != '[').length_le
                dsimp only at h
                split at h
                · cases h
                · refine ih _ _ _ _ _ _ _ ?_ hbase (fun key hkey => ?_) _ _ _ h
                  · rw [List.length_cons]
                    omega
                  · rcases List.mem_append.1 hkey with hkey | hkey
                    · exact haccs key hkey
                    · cases List.mem_singleton.1 hkey
              · split at h
                · exact ih _ _ _ _ _ _ _ hnext hfound haccs _ _ _ h
                · split at h
                  · exact ih _ _ _ _ _ _ _ hnext hfound haccs _ _ _ h
                  · exact ih _ _ _ _ _ _ _ hnext hfound haccs _ _ _ h
  rw [splitAccessors] at h
  split at h
  case h_1 base' accs' tail hscanned =>
    obtain ⟨hbase, hkeys⟩ := hscan _ _ _ _ _ _ _ _ (by simp) (fun b hb => (by cases hb)) (fun key hk => (by cases hk))
      _ _ _ hscanned
    split at h
    · cases h
    · dsimp only at h
      split at h
      · cases h
      · cases h
        exact ⟨(Text.trim_length base').trans_lt (hbase base' rfl), hkeys⟩
  case h_2 => cases h

theorem splitBinary_length {op : Char} {t l r : Text} (h : splitBinary op t = some (l, r)) :
    l.length < t.length ∧ r.length < t.length := by
  rw [splitBinary] at h
  split at h
  · cases h
  · cases h
  · cases h
  case h_4 l' r' _ _ hsplit =>
    cases h
    have ht := congrArg List.length (Text.splitOnce_eq hsplit)
    rw [List.length_append, List.length_append, List.length_singleton] at ht
    have hl := Text.trim_length l'
    have hr := Text.trim_length r'
    omega

theorem splitComparison_length {op t l r : Text} (h : splitComparison t = some (op, l, r)) :
    l.length < t.length ∧ r.length < t.length := by
  obtain ⟨op', hop', h⟩ := List.exists_of_findSome?_eq_some h
  have hpos : 0 < op'.length := by
    have hall : ∀ o ∈ comparisonOps, 0 < o.length := by decide
    exact hall op' hop'
  split at h
  case h_1 l' r' hsplit =>
    dsimp only at h
    split at h
    · cases h
      have ht := congrArg List.length (Text.splitOnce_eq hsplit)
      rw [List.length_append, List.length_append] at ht
      have hl := Text.trim_length l'
      have hr := Text.trim_length r'
      omega
    · cases h
  case h_2 => cases h

theorem wholeCall_length {name t inner : Text} (h : wholeCall name t = some inner) :
    inner.length < t.length := by
  rw [wholeCall] at h
  split at h
  case h_1 rest hrest =>
    have ht := congrArg List.length (Text.stripPrefix_eq hrest)
    rw [List.length_append] at ht
    split at h
    case h_1 inner' hinner =>
      cases h
      have := findMatchingBracket_length hinner
      omega
    case h_2 => cases h
  case h_2 => cases h

theorem stripNot_length {t rest : Text} (h : stripNot t = some rest) : rest.length < t.length := by
  have hpre : ∀ p : Text, 0 < p.length → Text.stripPrefix p t = some rest → rest.length < t.length := by
    intro p hp hstrip
    have ht := congrArg List.length (Text.stripPrefix_eq hstrip)
    rw [List.length_append] at ht
    omega
  rw [stripNot, Option.or_eq_some_iff] at h
  rcases h with h | ⟨-, h⟩
  · exact hpre _ (by decide) h
  · exact hpre _ (by decide) h

/-! ### What the evaluator reads -/

section

variable {ctx : Context} {outputs : Nat → Option Value} {f g : Text → Except Text Value}

theorem evalRangeArgs_congr {args : List Text} (h : ∀ a ∈ args, f a = g a) :
    evalRangeArgs f args = evalRangeArgs g args := by
  induction args with
  | nil => rfl
  | cons a as ih =>
    rw [evalRangeArgs, evalRangeArgs, h a List.mem_cons_self, ih fun b hb => h b (List.mem_cons_of_mem a hb)]

theorem evalRange_congr {expr argsStr : Text} (h : ∀ u, u.length ≤ argsStr.length → f u = g u) :
    evalRange f expr argsStr = evalRange g expr argsStr := by
  have hargs : evalRangeArgs f (((splitTopLevelCommas argsStr).map Text.trim).filter fun a => !a.isEmpty) =
      evalRangeArgs g (((splitTopLevelCommas argsStr).map Text.trim).filter fun a => !a.isEmpty) := by
    refine evalRangeArgs_congr fun a ha => h a ?_
    obtain ⟨part, hpart, rfl⟩ := List.mem_map.1 (List.mem_filter.1 ha).1
    exact (Text.trim_length part).trans (splitTopLevelCommas_length hpart)
  rw [evalRange, evalRange, hargs]

theorem evalDict_congr {expr : Text} {n : Nat} (h : ∀ u, u.length < n → f u = g u) {pairs : List Text}
    (hpairs : ∀ pair ∈ pairs, pair.length ≤ n) (m : List (Text × Value)) :
    evalDict f expr pairs m = evalDict g expr pairs m := by
  induction pairs generalizing m with
  | nil => rfl
  | cons pair pairs ih =>
    rw [evalDict, evalDict]
    split
    case h_1 => rfl
    case h_2 k v hsplit =>
      have hpair := hpairs pair List.mem_cons_self
      rw [Text.splitOnce_eq hsplit, List.length_append, List.length_append, List.length_singleton] at hpair
      have hv := Text.trim_length v
      rw [h (Text.trim v) (by omega)]
      dsimp only
      split
      · rfl
      · split
        · rfl
        · exact ih (fun p hp => hpairs p (List.mem_cons_of_mem pair hp)) _

theorem resolveNumericWith_congr {key : Text} (h : f key = g key) :
    resolveNumericWith ctx f key = resolveNumericWith ctx g key := by
  rw [resolveNumericWith, resolveNumericWith, h]

theorem evalArithmetic_congr {expr : Text} (h : ∀ u, u.length < expr.length → f u = g u) :
    evalArithmetic ctx f expr = evalArithmetic ctx g expr := by
  rw [evalArithmetic, evalArithmetic]
  congr 1
  funext op
  split
  case h_1 l r hsplit =>
    obtain ⟨hl, hr⟩ := splitBinary_length hsplit
    rw [resolveNumericWith_congr (h l hl), resolveNumericWith_congr (h r hr)]
  case h_2 => rfl

theorem evalConcat_congr {expr : Text} (h : ∀ u, u.length < expr.length → f u = g u) :
    evalConcat f expr = evalConcat g expr := by
  rw [evalConcat, evalConcat]
  split
  case h_1 l r hsplit =>
    obtain ⟨hl, hr⟩ := splitBinary_length hsplit
    rw [h l hl, h r hr]
  case h_2 => rfl

theorem followAccessors_congr {quotedFail : Text → Except Text Value} {expr : Text} {accs : List Accessor}
    (h : ∀ key, Accessor.index key ∈ accs → f key = g key) (v : Value) :
    followAccessors f quotedFail expr accs v = followAccessors g quotedFail expr accs v := by
  induction accs generalizing v with
  | nil => rfl
  | cons acc accs ih =>
    have hrest := ih fun key hkey => h key (List.mem_cons_of_mem acc hkey)
    cases acc with
    | field name =>
      rw [followAccessors, followAccessors]
      split
      · exact hrest _
      · rfl
    | index key =>
      rw [followAccessors, followAccessors, h key List.mem_cons_self]
      split
      · rfl
      · split
        · exact hrest _
        · rfl

theorem evalCompound_congr {wasQuoted : Bool} {expr : Text} (h : ∀ u, u.length < expr.length → f u = g u) :
    evalCompound ctx f wasQuoted expr = evalCompound ctx g wasQuoted expr := by
  rw [evalCompound, evalCompound, evalArithmetic_congr h, evalConcat_congr h]
  split
  · rfl
  · split
    · rfl
    · dsimp only
      split
      case h_1 base accs hsplit =>
        obtain ⟨hbase, hkeys⟩ := splitAccessors_length hsplit
        rw [h base hbase]
        split
        · rfl
        · exact followAccessors_congr (fun key hkey => h key (hkeys key hkey)) _
      case h_2 => rfl

theorem evalOperators_congr {wasQuoted : Bool} {expr : Text} (h : ∀ u, u.length < expr.length → f u = g u) :
    evalOperators ctx outputs f wasQuoted expr = evalOperators ctx outputs g wasQuoted expr := by
  rw [evalOperators, evalOperators, evalCompound_congr h]
  split
  case h_1 op l r hsplit =>
    obtain ⟨hl, hr⟩ := splitComparison_length hsplit
    rw [h l hl, h r hr]
  case h_2 => rfl

theorem evalStep_congr {t : Text} (h : ∀ u, u.length < t.length → f u = g u) :
    evalStep ctx outputs f t = evalStep ctx outputs g t := by
  have htrim := Text.trim_length t
  have hexpr := (decodeQuoted_length (Text.trim t)).trans htrim
  have hshort : ∀ u, u.length < (decodeQuoted (Text.trim t)).1.length → f u = g u :=
    fun u hu => h u (by omega)
  rw [evalStep, evalStep]
  dsimp only
  split
  · rfl
  · split
    case h_1 argsStr hcall =>
      have := wholeCall_length hcall
      exact evalRange_congr fun u hu => h u (by omega)
    case h_2 =>
      split
      case h_1 c arg hlen =>
        obtain ⟨inner, hinner, htext⟩ := Option.map_eq_some_iff.1 hlen
        split at hinner
        · cases hinner
        · have := wholeCall_length hinner
          have htrimmed := Text.trim_length inner
          rw [htext] at htrimmed
          rw [evalLen, evalLen, h (c :: arg) (by omega)]
      case h_2 =>
        split
        · rfl
        · split
          · split
            · rfl
            · refine evalDict_congr h (fun pair hpair => ?_) []
              have hpart := splitTopLevelCommas_length hpair
              rw [List.length_dropLast, List.length_drop] at hpart
              omega
          · split
            case h_1 rest hnot =>
              have := stripNot_length hnot
              have hrest := Text.trim_length rest
              rw [h (Text.trim rest) (by omega)]
            case h_2 => exact evalOperators_congr hshort

/-- The depth counted does not matter once it exceeds the length. -/
theorem evalFuel_congr {m n : Nat} {t : Text} (hm : t.length < m) (hn : t.length < n) :
    evalFuel ctx outputs m t = evalFuel ctx outputs n t := by
  induction m generalizing n t with
  | zero => omega
  | succ m ih =>
    cases n with
    | zero => omega
    | succ n => exact evalStep_congr fun u hu => ih (by omega) (by omega)

/-- The equation of the source: the evaluator calls itself. -/
theorem evalExpression_unfold (t : Text) :
    evalExpression ctx outputs t = evalStep ctx outputs (evalExpression ctx outputs) t :=
  evalStep_congr fun _ hu => evalFuel_congr hu (Nat.lt_succ_self _)

end

end Tinypipe
