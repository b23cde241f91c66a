import Tinypipe.Compiler.CallTargets

/-! The documented list of forbidden constructs, over a whole tree, and what the walk of the
sanitizer does not look at. -/

namespace Tinypipe

open Lib Ast Sanitizer

/-! ### Everywhere in a tree -/

section Every

variable (p : Expr → Bool)

mutual

/-- A slice that is the whole index of a subscript is a part of the subscript. -/
def everyExpr : Expr → Bool
  | .boolOp op values => p (.boolOp op values) && everyExprs values
  | .namedExpr target value => p (.namedExpr target value) && everyExpr target && everyExpr value
  | .binOp l op r => p (.binOp l op r) && everyExpr l && everyExpr r
  | .unaryOp op e => p (.unaryOp op e) && everyExpr e
  | .lambda args body => p (.lambda args body) && everyArguments args && everyExpr body
  | .ifExp test body orelse =>
    p (.ifExp test body orelse) && everyExpr test && everyExpr body && everyExpr orelse
  | .dict keys values => p (.dict keys values) && everyKeys keys && everyExprs values
  | .set elts => p (.set elts) && everyExprs elts
  | .listComp elt generators => p (.listComp elt generators) && everyExpr elt && everyGenerators generators
  | .setComp elt generators => p (.setComp elt generators) && everyExpr elt && everyGenerators generators
  | .dictComp key value generators =>
    p (.dictComp key value generators) && everyExpr key && everyExpr value && everyGenerators generators
  | .generatorExp elt generators =>
    p (.generatorExp elt generators) && everyExpr elt && everyGenerators generators
  | .await v => p (.await v) && everyExpr v
  | .yield v => p (.yield v) && everyOption v
  | .yieldFrom v => p (.yieldFrom v) && everyExpr v
  | .compare l ops comparators => p (.compare l ops comparators) && everyExpr l && everyExprs comparators
  | .call func args keywords =>
    p (.call func args keywords) && everyExpr func && everyExprs args && everyKeywords keywords
  | .formattedValue v spec => p (.formattedValue v spec) && everyExpr v && everyOption spec
  | .joinedStr values => p (.joinedStr values) && everyExprs values
  | .constant c => p (.constant c)
  | .attribute v attr => p (.attribute v attr) && everyExpr v
  | .subscript v (.slice lower upper step) => p (.subscript v (.slice lower upper step)) && everyExpr v &&
    everyOption lower && everyOption upper && everyOption step
  | .subscript v s => p (.subscript v s) && everyExpr v && everyExpr s
  | .starred v => p (.starred v) && everyExpr v
  | .name id => p (.name id)
  | .list elts => p (.list elts) && everyExprs elts
  | .tuple elts => p (.tuple elts) && everyExprs elts
  | .slice lower upper step =>
    p (.slice lower upper step) && everyOption lower && everyOption upper && everyOption step

def everyExprs : List Expr → Bool
  | [] => true
  | e :: es => everyExpr e && everyExprs es

def everyOption : Option Expr → Bool
  | none => true
  | some e => everyExpr e

def everyKeys : List (Option Expr) → Bool
  | [] => true
  | some k :: ks => everyExpr k && everyKeys ks
  | none :: ks => everyKeys ks

def everyKeywords : List Keyword → Bool
  | [] => true
  | .mk _ v :: ks => everyExpr v && everyKeywords ks

def everyGenerators : List Comprehension → Bool
  | [] => true
  | .mk target iter ifs :: gs => everyExpr target && everyExpr iter && everyExprs ifs && everyGenerators gs

def everyArgDefs : List ArgDef → Bool
  | [] => true
  | .mk _ annotation default :: as => everyOption annotation && everyOption default && everyArgDefs as

def everyVariadic : Option ArgDef → Bool
  | none => true
  | some (.mk _ annotation default) => everyOption annotation && everyOption default

def everyArguments : Arguments → Bool
  | .mk posonlyargs args kwonlyargs vararg kwarg => everyArgDefs posonlyargs && everyArgDefs args &&
    everyArgDefs kwonlyargs && everyVariadic vararg && everyVariadic kwarg

end

mutual

def everyPattern : Pattern → Bool
  | .matchValue v => everyExpr p v
  | .matchSingleton _ | .matchStar _ | .matchAs none _ => true
  | .matchSequence patterns | .matchOr patterns => everyPatterns patterns
  | .matchMapping keys patterns _ => everyExprs p keys && everyPatterns patterns
  | .matchClass cls patterns _ kwdPatterns =>
    everyExpr p cls && everyPatterns patterns && everyPatterns kwdPatterns
  | .matchAs (some pattern) _ => everyPattern pattern

def everyPatterns : List Pattern → Bool
  | [] => true
  | pattern :: patterns => everyPattern pattern && everyPatterns patterns

end

def everyItem (item : WithItem) : Bool := everyExpr p item.contextExpr && everyOption p item.optionalVars

def everyTypeParam : TypeParam → Bool
  | .typeVar _ bound => everyOption p bound
  | .paramSpec _ | .typeVarTuple _ => true

variable (own : Bool → Stmt → Bool)

mutual

/-- `own` holds of every statement, with whether it is inside a function, and `p` of every expression
in the parts of a statement that the sanitizer walks. -/
def everyStmt (inFunction : Bool) : Stmt → Bool
  | s@(.functionDef _ _ body _ returns _) =>
    own inFunction s && everyOption p returns && everyStmts true body
  | s@(.asyncFunctionDef _ _ body _ returns _) =>
    own inFunction s && everyOption p returns && everyStmts true body
  | s@(.classDef _ bases keywords body _ _) =>
    own inFunction s && everyExprs p bases && everyKeywords p keywords && everyStmts inFunction body
  | s@(.return value) => own inFunction s && everyOption p value
  | s@(.delete targets) => own inFunction s && everyExprs p targets
  | s@(.assign targets value) => own inFunction s && everyExprs p targets && everyExpr p value
  | s@(.typeAlias name _ value) => own inFunction s && everyExpr p name && everyExpr p value
  | s@(.augAssign target _ value) => own inFunction s && everyExpr p target && everyExpr p value
  | s@(.annAssign target annotation value) =>
    own inFunction s && everyExpr p target && everyExpr p annotation && everyOption p value
  | s@(.for target iter body orelse) | s@(.asyncFor target iter body orelse) =>
    own inFunction s && everyExpr p target && everyExpr p iter && everyStmts inFunction body &&
      everyStmts inFunction orelse
  | s@(.while test body orelse) | s@(.if test body orelse) =>
    own inFunction s && everyExpr p test && everyStmts inFunction body && everyStmts inFunction orelse
  | s@(.with _ body) | s@(.asyncWith _ body) => own inFunction s && everyStmts inFunction body
  | s@(.match subject cases) => own inFunction s && everyExpr p subject && everyCases inFunction cases
  | s@(.raise exc cause) => own inFunction s && everyOption p exc && everyOption p cause
  | s@(.try body handlers orelse finalbody) | s@(.tryStar body handlers orelse finalbody) =>
    own inFunction s && everyStmts inFunction body && everyHandlers inFunction handlers &&
      everyStmts inFunction orelse && everyStmts inFunction finalbody
  | s@(.assert test msg) => own inFunction s && everyExpr p test && everyOption p msg
  | s@(.expr value) => own inFunction s && everyExpr p value
  | s@(.import _) | s@(.importFrom _ _) | s@(.global _) | s@(.nonlocal _) | s@.pass | s@.break
  | s@.continue => own inFunction s

def everyStmts (inFunction : Bool) : List Stmt → Bool
  | [] => true
  | s :: ss => everyStmt inFunction s && everyStmts inFunction ss

def everyCases (inFunction : Bool) : List MatchCase → Bool
  | [] => true
  | .mk _ guard body :: cases =>
    everyOption p guard && everyStmts inFunction body && everyCases inFunction cases

def everyHandlers (inFunction : Bool) : List ExceptHandler → Bool
  | [] => true
  | .mk type _ body :: handlers =>
    everyOption p type && everyStmts inFunction body && everyHandlers inFunction handlers

end

end Every

/-! ### The documented list -/

/-- No slice, no `**` in a call, no call of a blocked builtin, nor any other forbidden expression. -/
def allowedExpr : Expr → Bool
  | .lambda .. | .namedExpr .. | .yield _ | .yieldFrom _ | .await _ | .generatorExp .. | .listComp ..
  | .setComp .. | .dictComp .. | .joinedStr _ | .formattedValue .. | .slice .. => false
  | .subscript _ s => !isSlice s
  | .call func _ keywords =>
    (calleeNameStr func).all (· ∉ blockedBuiltins) && keywords.all (·.arg.isSome)
  | .boolOp .. | .binOp .. | .unaryOp .. | .ifExp .. | .dict .. | .set _ | .compare .. | .constant _
  | .attribute .. | .starred _ | .name _ | .list _ | .tuple _ => true

def Ast.Arguments.kwarg : Arguments → Option ArgDef
  | mk _ _ _ _ kwarg => kwarg

def Ast.MatchCase.pattern : MatchCase → Pattern
  | mk pattern _ _ => pattern

/-- The parts of a statement that the walk passes over hold no forbidden construct: the parameters of
a function, the item of a PARALLEL or a GROUP, the patterns of a match. -/
def unwalkedAllowed : Stmt → Bool
  | .functionDef _ args _ _ _ typeParams =>
    everyArguments allowedExpr args && args.kwarg.isNone && typeParams.all (everyTypeParam allowedExpr)
  | .with items _ => items.all (everyItem allowedExpr)
  | .match _ cases => cases.all fun c => everyPattern allowedExpr c.pattern
  | _ => true

def allowedStmt (inFunction : Bool) : Stmt → Bool
  | .import _ | .importFrom .. | .classDef .. | .while .. | .try .. | .tryStar .. | .asyncFunctionDef ..
  | .asyncFor .. | .asyncWith .. | .global _ | .nonlocal _ | .delete _ => false
  | s@(.functionDef _ _ _ decorators _ _) => !inFunction && decorators.isEmpty && unwalkedAllowed s
  | s => unwalkedAllowed s

/-- No construct of the documented list anywhere in a program. -/
def Ast.Module.Allowed (m : Module) : Prop := everyStmts allowedExpr allowedStmt false m.body = true

/-! ### What the walk misses -/

/-- What no rule for an expression looks at: a slice that is not an index on its own, and whether the
keywords of a call have names. -/
def unruledAllowed : Expr → Bool
  | .slice .. => false
  | .call _ _ keywords => keywords.all (·.arg.isSome)
  | _ => true

/-- The places where the sanitizer does not look hold nothing forbidden. -/
def Ast.Module.UnseenAllowed (m : Module) : Prop :=
  everyStmts unruledAllowed (fun _ => unwalkedAllowed) false m.body = true

/-! ### An accepted tree -/

section Accepted

variable {d : Nat}

theorem not_accepts_violation {e : Expr} {msg : Text} {y : Sanitizer Unit} (he : exprViolation e = some msg)
    (hy : Visits y) : ¬Accepts d (Sanitizer.report (exprViolation e) >>= fun _ => y) := fun h =>
  Option.some_ne_none msg (he.symm.trans (h.report hy).1)

theorem allowedExpr_call {func : Expr} {args : List Expr} {keywords : List Keyword}
    (h : callViolation func args = none) :
    allowedExpr (.call func args keywords) = unruledAllowed (.call func args keywords) := by
  have hbuiltin : (calleeNameStr func).all (· ∉ blockedBuiltins) = true := by
    unfold callViolation at h
    cases hname : calleeNameStr func with
    | none => rfl
    | some name =>
      rw [hname] at h
      by_cases hblocked : name ∈ blockedBuiltins
      · simp only [if_pos hblocked] at h
        cases h
      · simpa using hblocked
  rw [allowedExpr, hbuiltin, Bool.true_and, unruledAllowed]

theorem everyExpr_subscript (p : Expr → Bool) {v s : Expr} (hs : isSlice s = false) :
    everyExpr p (.subscript v s) = (p (.subscript v s) && everyExpr p v && everyExpr p s) := by
  cases s with
  | slice lower upper step => cases hs
  | _ => simp only [everyExpr]

mutual

/-- Where the walk has nothing to report, an expression is allowed up to what no rule looks at. -/
theorem accepted_expr : ∀ e : Expr, Accepts d (visitExpr e) →
    everyExpr allowedExpr e = everyExpr unruledAllowed e
  | .boolOp op values, h => by
    have hvalues := accepted_exprs values (h.report (visits_visitExprs values)).2
    simp only [everyExpr, allowedExpr, unruledAllowed, hvalues]
  | .namedExpr target value, h =>
    absurd h (not_accepts_violation rfl ((visits_visitExpr target).bind fun _ => visits_visitExpr value))
  | .binOp l op r, h => by
    have h := (h.report ((visits_visitExpr l).bind fun _ => visits_visitExpr r)).2
    have hl := accepted_expr l (h.left fun _ => visits_visitExpr r)
    have hr := accepted_expr r (h.seq (visits_visitExpr l))
    simp only [everyExpr, allowedExpr, unruledAllowed, hl, hr]
  | .unaryOp op e, h => by
    have he := accepted_expr e (h.report (visits_visitExpr e)).2
    simp only [everyExpr, allowedExpr, unruledAllowed, he]
  | .lambda args body, h =>
    absurd h (not_accepts_violation rfl ((visits_visitArguments args).bind fun _ => visits_visitExpr body))
  | .ifExp test body orelse, h => by
    have hrest : Visits (do visitExpr body; visitExpr orelse) :=
      (visits_visitExpr body).bind fun _ => visits_visitExpr orelse
    have h := (h.report ((visits_visitExpr test).bind fun _ => hrest)).2
    have htest := accepted_expr test (h.left fun _ => hrest)
    have h := h.seq (visits_visitExpr test)
    have hbody := accepted_expr body (h.left fun _ => visits_visitExpr orelse)
    have horelse := accepted_expr orelse (h.seq (visits_visitExpr body))
    simp only [everyExpr, allowedExpr, unruledAllowed, htest, hbody, horelse]
  | .dict keys values, h => by
    have h := (h.report ((visits_visitKeys keys).bind fun _ => visits_visitExprs values)).2
    have hkeys := accepted_keys keys (h.left fun _ => visits_visitExprs values)
    have hvalues := accepted_exprs values (h.seq (visits_visitKeys keys))
    simp only [everyExpr, allowedExpr, unruledAllowed, hkeys, hvalues]
  | .set elts, h => by
    have helts := accepted_exprs elts (h.report (visits_visitExprs elts)).2
    simp only [everyExpr, allowedExpr, unruledAllowed, helts]
  | .list elts, h => by
    have helts := accepted_exprs elts (h.report (visits_visitExprs elts)).2
    simp only [everyExpr, allowedExpr, unruledAllowed, helts]
  | .tuple elts, h => by
    have helts := accepted_exprs elts (h.report (visits_visitExprs elts)).2
    simp only [everyExpr, allowedExpr, unruledAllowed, helts]
  | .listComp elt generators, h =>
    absurd h (not_accepts_violation rfl ((visits_visitExpr elt).bind fun _ => visits_visitGenerators generators))
  | .setComp elt generators, h =>
    absurd h (not_accepts_violation rfl ((visits_visitExpr elt).bind fun _ => visits_visitGenerators generators))
  | .generatorExp elt generators, h =>
    absurd h (not_accepts_violation rfl ((visits_visitExpr elt).bind fun _ => visits_visitGenerators generators))
  | .dictComp key value generators, h =>
    absurd h (not_accepts_violation rfl ((visits_visitExpr key).bind fun _ => (visits_visitExpr value).bind fun _ =>
      visits_visitGenerators generators))
  | .await v, h => absurd h (not_accepts_violation rfl (visits_visitExpr v))
  | .yield v, h => absurd h (not_accepts_violation rfl (visits_visitOption v))
  | .yieldFrom v, h => absurd h (not_accepts_violation rfl (visits_visitExpr v))
  | .starred v, h => absurd h (not_accepts_violation rfl (visits_visitExpr v))
  | .compare l ops comparators, h => by
    have h := (h.report ((visits_visitExpr l).bind fun _ => visits_visitExprs comparators)).2
    have hl := accepted_expr l (h.left fun _ => visits_visitExprs comparators)
    have hcomparators := accepted_exprs comparators (h.seq (visits_visitExpr l))
    simp only [everyExpr, allowedExpr, unruledAllowed, hl, hcomparators]
  | .call func args keywords, h => by
    have hrest : Visits (do visitExprs args; visitKeywords keywords) :=
      (visits_visitExprs args).bind fun _ => visits_visitKeywords keywords
    obtain ⟨hcall, h⟩ := h.report ((visits_visitExpr func).bind fun _ => hrest)
    have hfunc := accepted_expr func (h.left fun _ => hrest)
    have h := h.seq (visits_visitExpr func)
    have hargs := accepted_exprs args (h.left fun _ => visits_visitKeywords keywords)
    have hkeywords := accepted_keywords keywords (h.seq (visits_visitExprs args))
    rw [everyExpr, everyExpr, allowedExpr_call hcall, hfunc, hargs, hkeywords]
  | .formattedValue v spec, h =>
    absurd h (not_accepts_violation rfl ((visits_visitExpr v).bind fun _ => visits_visitOption spec))
  | .joinedStr values, h => absurd h (not_accepts_violation rfl (visits_visitExprs values))
  | .constant _, _ | .name _, _ => rfl
  | .attribute v attr, h => by
    have hv := accepted_expr v (h.report (visits_visitExpr v)).2
    simp only [everyExpr, allowedExpr, unruledAllowed, hv]
  | .subscript v s, h => by
    obtain ⟨hrule, h⟩ := h.report ((visits_visitExpr v).bind fun _ => visits_visitExpr s)
    have hslice : isSlice s = false := by
      by_contra hslice
      rw [exprViolation, if_pos (by simpa using hslice)] at hrule
      cases hrule
    have hv := accepted_expr v (h.left fun _ => visits_visitExpr s)
    have hs := accepted_expr s (h.seq (visits_visitExpr v))
    rw [everyExpr_subscript _ hslice, everyExpr_subscript _ hslice, hv, hs, allowedExpr, hslice]
    rfl
  | .slice lower upper step, _ => by simp only [everyExpr, allowedExpr, unruledAllowed, Bool.false_and]

theorem accepted_exprs : ∀ es : List Expr, Accepts d (visitExprs es) →
    everyExprs allowedExpr es = everyExprs unruledAllowed es
  | [], _ => rfl
  | e :: es, h => by
    have he := accepted_expr e (h.left fun _ => visits_visitExprs es)
    have hes := accepted_exprs es (h.seq (visits_visitExpr e))
    rw [everyExprs, everyExprs, he, hes]

theorem accepted_option : ∀ e : Option Expr, Accepts d (visitOption e) →
    everyOption allowedExpr e = everyOption unruledAllowed e
  | none, _ => rfl
  | some e, h => accepted_expr e h

theorem accepted_keys : ∀ ks : List (Option Expr), Accepts d (visitKeys ks) →
    everyKeys allowedExpr ks = everyKeys unruledAllowed ks
  | [], _ => rfl
  | some k :: ks, h => by
    have hk := accepted_expr k (h.left fun _ => visits_visitKeys ks)
    have hks := accepted_keys ks (h.seq (visits_visitExpr k))
    rw [everyKeys, everyKeys, hk, hks]
  | none :: ks, h => accepted_keys ks h

theorem accepted_keywords : ∀ ks : List Keyword, Accepts d (visitKeywords ks) →
    everyKeywords allowedExpr ks = everyKeywords unruledAllowed ks
  | [], _ => rfl
  | .mk _ v :: ks, h => by
    have hv := accepted_expr v (h.left fun _ => visits_visitKeywords ks)
    have hks := accepted_keywords ks (h.seq (visits_visitExpr v))
    rw [everyKeywords, everyKeywords, hv, hks]

end

mutual

theorem isMetaConstant_same : ∀ e : Expr, isMetaConstant e = true →
    everyExpr allowedExpr e = everyExpr unruledAllowed e
  | .constant _, _ => rfl
  | .unaryOp _ (.constant _), _ => rfl
  | .list elts, h => by
    have helts := allMetaConstant_same elts h
    simp only [everyExpr, allowedExpr, unruledAllowed, helts]
  | .tuple elts, h => by
    have helts := allMetaConstant_same elts h
    simp only [everyExpr, allowedExpr, unruledAllowed, helts]

theorem allMetaConstant_same : ∀ es : List Expr, allMetaConstant es = true →
    everyExprs allowedExpr es = everyExprs unruledAllowed es
  | [], _ => rfl
  | e :: es, h => by
    obtain ⟨he, hes⟩ := Bool.and_eq_true_iff.1 h
    rw [everyExprs, everyExprs, isMetaConstant_same e he, allMetaConstant_same es hes]

end

theorem accepted_metaKeywords {ks : List Keyword} (h : Accepts d (checkMetaKeywords ks)) :
    everyKeywords allowedExpr ks = everyKeywords unruledAllowed ks := by
  induction ks with
  | nil => rfl
  | cons k ks ih =>
    obtain ⟨arg, v⟩ := k
    cases arg with
    | none => exact absurd h (not_accepts_err (visits_checkMetaKeywords ks))
    | some name =>
      by_cases hv : isMetaConstant v = true
      · have hks : Accepts d (checkMetaKeywords ks) := by
          simp only [checkMetaKeywords, if_pos hv] at h
          exact h
        rw [everyKeywords, everyKeywords, isMetaConstant_same v hv, ih hks]
      · simp only [checkMetaKeywords, if_neg hv] at h
        exact absurd h (not_accepts_err (visits_checkMetaKeywords ks))

/-- META has constants only, anything else is visited. -/
theorem accepted_exprStmt {e : Expr} (h : Accepts d (visitExprStmt e)) :
    everyExpr allowedExpr e = everyExpr unruledAllowed e := by
  have twice (h : Accepts d (visitExpr e >>= fun _ => visitExpr e)) :
      everyExpr allowedExpr e = everyExpr unruledAllowed e :=
    accepted_expr e (h.left fun _ => visits_visitExpr e)
  unfold visitExprStmt at h
  split at h
  case h_2 => exact twice h
  case h_1 id args keywords =>
    split at h
    case isFalse => exact twice h
    case isTrue hid =>
      obtain ⟨s, hmeta⟩ := h.right fun s => Visited.refl s
      split at hmeta
      case isTrue => exact absurd hmeta (not_accepts_err (Visits.pure ()))
      case isFalse =>
        split at hmeta
        case isTrue => exact absurd hmeta (not_accepts_err (Visits.pure ()))
        case isFalse hargs =>
          have hargs : args = [] := by simpa using hargs
          have hname : (calleeNameStr (.name "META")).all (· ∉ blockedBuiltins) = true := by decide +kernel
          subst hid hargs
          rw [everyExpr, everyExpr, accepted_metaKeywords hmeta, allowedExpr, hname, Bool.true_and]
          rfl

mutual

theorem accepted_stmt : ∀ (s : Stmt) (d : Nat) (b : Bool), (b = true → 0 < d) → Accepts d (visitStmt s) →
    everyStmt allowedExpr allowedStmt b s = everyStmt unruledAllowed (fun _ => unwalkedAllowed) b s
  | .import _, _, _, _, h | .importFrom _ _, _, _, _, h | .global _, _, _, _, h
  | .nonlocal _, _, _, _, h => absurd h (not_accepts_err (Visits.pure ()))
  | .classDef _ bases keywords body _ _, _, _, _, h =>
    absurd h (not_accepts_err ((visits_visitExprs bases).bind fun _ =>
      (visits_visitKeywords keywords).bind fun _ => visits_visitStmts body))
  | .while test body orelse, _, _, _, h =>
    absurd h (not_accepts_err ((visits_visitExpr test).bind fun _ =>
      (visits_visitStmts body).bind fun _ => visits_visitStmts orelse))
  | .try body handlers orelse finalbody, _, _, _, h
  | .tryStar body handlers orelse finalbody, _, _, _, h =>
    absurd h (not_accepts_err ((visits_visitStmts body).bind fun _ =>
      (visits_visitHandlers handlers).bind fun _ => (visits_visitStmts orelse).bind fun _ =>
        visits_visitStmts finalbody))
  | .asyncFunctionDef _ _ body _ returns _, _, _, _, h =>
    absurd h (not_accepts_err ((visits_visitOption returns).bind fun _ => visits_visitStmts body))
  | .asyncFor target iter body orelse, _, _, _, h =>
    absurd h (not_accepts_err ((visits_visitExpr target).bind fun _ => (visits_visitExpr iter).bind fun _ =>
      (visits_visitStmts body).bind fun _ => visits_visitStmts orelse))
  | .asyncWith items body, _, _, _, h =>
    absurd h (not_accepts_err ((visits_visitItems items).bind fun _ => visits_visitStmts body))
  | .delete targets, _, _, _, h => absurd h (not_accepts_err (visits_visitExprs targets))
  | .typeAlias name _ value, _, _, _, h =>
    absurd h (not_accepts_err ((visits_visitExpr name).bind fun _ => visits_visitExpr value))
  | .functionDef name args body decorators returns typeParams, d, b, hb, h => by
    obtain ⟨rfl, hempty, h⟩ := accepts_functionDef h
    have houter : b = false := by
      cases b with
      | false => rfl
      | true => exact absurd (hb rfl) (Nat.lt_irrefl 0)
    have hreturns := accepted_option returns (h.left fun _ => visits_visitStmts body)
    have hbody := accepted_stmts body 1 true (fun _ => Nat.one_pos) (h.seq (visits_visitOption returns))
    rw [everyStmt, everyStmt, hreturns, hbody, allowedStmt, hempty, houter]
    rfl
  | .match subject cases, d, b, hb, h => by
    have hsubject := accepted_expr subject (h.left fun _ => visits_visitCases cases)
    have hcases := accepted_cases cases d b hb (h.seq (visits_visitExpr subject))
    rw [everyStmt, everyStmt, hsubject, hcases]
    rfl
  | .with items body, d, b, hb, h => by
    have hbody := accepted_stmts body d b hb (accepts_with h)
    rw [everyStmt, everyStmt, hbody]
    rfl
  | .return value, d, b, hb, h => by
    obtain ⟨s, h⟩ := h.right fun s => Visited.refl s
    have hvalue := accepted_option value (h.check.left fun _ => visits_visitOption value)
    rw [everyStmt, everyStmt, hvalue]
    rfl
  | .for target iter body orelse, d, b, hb, h => by
    have hrest : Visits (do visitStmts body; visitStmts orelse) :=
      (visits_visitStmts body).bind fun _ => visits_visitStmts orelse
    have hinner : Accepts d (do visitExpr target; visitExpr iter; visitStmts body; visitStmts orelse) :=
      Accepts.around h (fun _ => rfl) fun _ h => h
    have htarget := accepted_expr target (hinner.left fun _ => (visits_visitExpr iter).bind fun _ => hrest)
    have hinner := hinner.seq (visits_visitExpr target)
    have hiter := accepted_expr iter (hinner.left fun _ => hrest)
    have hinner := hinner.seq (visits_visitExpr iter)
    have hbody := accepted_stmts body d b hb (hinner.left fun _ => visits_visitStmts orelse)
    have horelse := accepted_stmts orelse d b hb (hinner.seq (visits_visitStmts body))
    rw [everyStmt, everyStmt, htarget, hiter, hbody, horelse]
    rfl
  | .if test body orelse, d, b, hb, h => by
    have hrest : Visits (do visitStmts body; visitStmts orelse) :=
      (visits_visitStmts body).bind fun _ => visits_visitStmts orelse
    have htest := accepted_expr test (h.left fun _ => hrest)
    have h := h.seq (visits_visitExpr test)
    have hbody := accepted_stmts body d b hb (h.left fun _ => visits_visitStmts orelse)
    have horelse := accepted_stmts orelse d b hb (h.seq (visits_visitStmts body))
    rw [everyStmt, everyStmt, htest, hbody, horelse]
    rfl
  | .pass, _, _, _, _ | .break, _, _, _, _ | .continue, _, _, _, _ => rfl
  | .raise exc cause, d, b, hb, h => by
    have hexc := accepted_option exc (h.left fun _ => visits_visitOption cause)
    have hcause := accepted_option cause (h.seq (visits_visitOption exc))
    rw [everyStmt, everyStmt, hexc, hcause]
    rfl
  | .assert test msg, d, b, hb, h => by
    have htest := accepted_expr test (h.left fun _ => visits_visitOption msg)
    have hmsg := accepted_option msg (h.seq (visits_visitExpr test))
    rw [everyStmt, everyStmt, htest, hmsg]
    rfl
  | .assign targets value, d, b, hb, h => by
    have h := h.seq (visits_recordAssignmentTargets targets)
    have htargets := accepted_exprs targets (h.left fun _ => visits_visitExpr value)
    have hvalue := accepted_expr value (h.seq (visits_visitExprs targets))
    rw [everyStmt, everyStmt, htargets, hvalue]
    rfl
  | .annAssign target annotation value, d, b, hb, h => by
    have h := h.seq (visits_recordAssignmentTarget target)
    have htarget := accepted_expr target (h.left fun _ =>
      (visits_visitExpr annotation).bind fun _ => visits_visitOption value)
    have h := h.seq (visits_visitExpr target)
    have hannotation := accepted_expr annotation (h.left fun _ => visits_visitOption value)
    have hvalue := accepted_option value (h.seq (visits_visitExpr annotation))
    rw [everyStmt, everyStmt, htarget, hannotation, hvalue]
    rfl
  | .augAssign target _ value, d, b, hb, h => by
    have h := h.seq (visits_recordAssignmentTarget target)
    have htarget := accepted_expr target (h.left fun _ => visits_visitExpr value)
    have hvalue := accepted_expr value (h.seq (visits_visitExpr target))
    rw [everyStmt, everyStmt, htarget, hvalue]
    rfl
  | .expr value, d, b, hb, h => by
    rw [everyStmt, everyStmt, accepted_exprStmt h]
    rfl

theorem accepted_stmts : ∀ (ss : List Stmt) (d : Nat) (b : Bool), (b = true → 0 < d) →
    Accepts d (visitStmts ss) →
    everyStmts allowedExpr allowedStmt b ss = everyStmts unruledAllowed (fun _ => unwalkedAllowed) b ss
  | [], _, _, _, _ => rfl
  | s :: ss, d, b, hb, h => by
    have hs := accepted_stmt s d b hb (h.left fun _ => visits_visitStmts ss)
    have hss := accepted_stmts ss d b hb (h.seq (visits_visitStmt s))
    rw [everyStmts, everyStmts, hs, hss]

theorem accepted_cases : ∀ (cs : List MatchCase) (d : Nat) (b : Bool), (b = true → 0 < d) →
    Accepts d (visitCases cs) →
    everyCases allowedExpr allowedStmt b cs = everyCases unruledAllowed (fun _ => unwalkedAllowed) b cs
  | [], _, _, _, _ => rfl
  | .mk _ guard body :: cs, d, b, hb, h => by
    have hrest : Visits (do visitStmts body; visitCases cs) :=
      (visits_visitStmts body).bind fun _ => visits_visitCases cs
    have hguard := accepted_option guard (h.left fun _ => hrest)
    have h := h.seq (visits_visitOption guard)
    have hbody := accepted_stmts body d b hb (h.left fun _ => visits_visitCases cs)
    have hcs := accepted_cases cs d b hb (h.seq (visits_visitStmts body))
    rw [everyCases, everyCases, hguard, hbody, hcs]

end

end Accepted

/-- An accepted program is free of the documented list exactly when the places the sanitizer does not
look at are. -/
theorem sanitize_sound_iff {m : Ast.Module} (h : sanitize m = .ok ()) : m.Allowed ↔ m.UnseenAllowed := by
  have haccepts : Accepts 0 (visitStmts m.body) := by
    refine ⟨SanitizerEngine.new, Nat.le_refl 0, ?_⟩
    by_contra hne
    rw [sanitize, if_neg hne] at h
    cases h
  have hsame := accepted_stmts m.body 0 false (fun hb => by cases hb) haccepts
  rw [Module.Allowed, Module.UnseenAllowed, hsame]

/-- `def graph(x=eval("1")): return x`: a default is not visited. -/
def evalDefault : Ast.Module :=
  ⟨[.functionDef "graph" (.mk [] [.mk "x" none (some (.call (.name "eval") [.constant (.str "1")] []))] [] none none)
    [.return (some (.name "x"))] [] none []]⟩

theorem sanitize_unsound : ¬∀ m : Ast.Module, sanitize m = .ok () → m.Allowed := fun h =>
  absurd (h evalDefault (by decide +kernel)) (by
    rw [Module.Allowed]
    decide +kernel)

/-- `def graph(x=1): with GROUP("g"): return x[0]` -/
def plainDefault : Ast.Module :=
  ⟨[.functionDef "graph" (.mk [] [.mk "x" none (some (.constant (.int 1)))] [] none none)
    [.with [⟨.call (.name "GROUP") [.constant (.str "g")] [], none⟩]
      [.return (some (.subscript (.name "x") (.constant (.int 0))))]] [] none []]⟩

theorem sanitize_sound_plainDefault : plainDefault.Allowed :=
  (sanitize_sound_iff (m := plainDefault) (by decide +kernel)).2 (by
    rw [Module.UnseenAllowed]
    decide +kernel)

end Tinypipe
