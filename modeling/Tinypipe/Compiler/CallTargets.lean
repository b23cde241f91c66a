import Tinypipe.Compiler.Codegen
import Tinypipe.Lib.Stateful

/-! The targets of CALL nodes. In a program the sanitizer accepts each is a string literal; the
transform writes it with its quotes, and the optimizer does not touch it. -/

namespace Tinypipe

open Lib Ast

/-! ### What the sanitizer lets through -/

namespace Sanitizer

variable {α β : Type}

/-- A visit adds errors, and ends in the function it started in. -/
structure Visited (s t : SanitizerEngine) : Prop where
  errors : s.errors <+: t.errors
  functionDepth : t.functionDepth = s.functionDepth

theorem Visited.refl (s : SanitizerEngine) : Visited s s := ⟨List.prefix_refl _, rfl⟩

theorem Visited.trans {s t u : SanitizerEngine} (h : Visited s t) (h' : Visited t u) : Visited s u :=
  ⟨h.errors.trans h'.errors, h'.functionDepth.trans h.functionDepth⟩

def Visits (x : Sanitizer α) : Prop := ∀ s, Visited s (x s).2

theorem Visits.pure (a : α) : Visits (pure a) := Visited.refl

theorem Visits.bind {x : Sanitizer α} {f : α → Sanitizer β} (hx : Visits x) (hf : ∀ a, Visits (f a)) :
    Visits (x >>= f) :=
  fun s => (hx s).trans (hf _ _)

theorem Visits.get_bind {f : SanitizerEngine → Sanitizer β} (hf : ∀ s, Visits (f s)) :
    Visits (get >>= f) :=
  fun s => hf s s

theorem Visits.ite {c : Prop} [Decidable c] {x y : Sanitizer α} (hx : Visits x) (hy : Visits y) :
    Visits (if c then x else y) := by
  split
  · exact hx
  · exact hy

theorem visits_err (msg : Text) : Visits (err msg) := fun _ => ⟨List.prefix_append _ _, rfl⟩

theorem visits_report (v : Option Text) : Visits (report v) := by
  cases v with
  | none => exact Visits.pure ()
  | some msg => exact visits_err msg

/-- What is visited between two changes of the engine that touch no error and cancel out in the
depth of the function. -/
theorem Visits.around {f g : SanitizerEngine → SanitizerEngine} {x : Sanitizer Unit} (hx : Visits x)
    (hf : ∀ s, (f s).errors = s.errors) (hg : ∀ s, (g s).errors = s.errors)
    (hdepth : ∀ s t, t.functionDepth = (f s).functionDepth → (g t).functionDepth = s.functionDepth) :
    Visits (do modify f; x; modify g) := by
  intro s
  have h := hx (f s)
  refine ⟨?_, hdepth s _ h.functionDepth⟩
  show s.errors <+: (g (x (f s)).2).errors
  rw [hg, ← hf s]
  exact h.errors

/-- A walk that takes the engine along a relation. -/
def Walks (R : SanitizerEngine → SanitizerEngine → Prop) (x : Sanitizer α) : Prop := ∀ s, R s (x s).2

/-- A relation that composes and that every report about an expression keeps. -/
structure Kept (R : SanitizerEngine → SanitizerEngine → Prop) : Prop where
  refl : ∀ s, R s s
  trans : ∀ {s t u}, R s t → R t u → R s u
  report : ∀ e s, R s (report (exprViolation e) s).2

namespace Kept

variable {R : SanitizerEngine → SanitizerEngine → Prop}

theorem pure (h : Kept R) (a : α) : Walks R (Pure.pure a) := h.refl

theorem seq (h : Kept R) {x : Sanitizer α} {y : Sanitizer β} (hx : Walks R x) (hy : Walks R y) :
    Walks R (x >>= fun _ => y) :=
  fun s => h.trans (hx s) (hy _)

theorem reporting (h : Kept R) (e : Expr) {y : Sanitizer β} (hy : Walks R y) :
    Walks R (Sanitizer.report (exprViolation e) >>= fun _ => y) :=
  h.seq (h.report e) hy

end Kept

mutual

theorem walks_visitExpr {R : SanitizerEngine → SanitizerEngine → Prop} (h : Kept R) :
    ∀ e : Expr, Walks R (visitExpr e)
  | .boolOp _ values => h.reporting _ <| walks_visitExprs h values
  | .namedExpr target value =>
    h.reporting _ <| h.seq (walks_visitExpr h target) <| walks_visitExpr h value
  | .binOp l _ r => h.reporting _ <| h.seq (walks_visitExpr h l) <| walks_visitExpr h r
  | .unaryOp _ e => h.reporting _ <| walks_visitExpr h e
  | .lambda args body =>
    h.reporting _ <| h.seq (walks_visitArguments h args) <| walks_visitExpr h body
  | .ifExp test body orelse =>
    h.reporting _ <| h.seq (walks_visitExpr h test) <|
      h.seq (walks_visitExpr h body) <| walks_visitExpr h orelse
  | .dict keys values =>
    h.reporting _ <| h.seq (walks_visitKeys h keys) <| walks_visitExprs h values
  | .set elts | .list elts | .tuple elts => h.reporting _ <| walks_visitExprs h elts
  | .listComp elt generators | .setComp elt generators | .generatorExp elt generators =>
    h.reporting _ <| h.seq (walks_visitExpr h elt) <| walks_visitGenerators h generators
  | .dictComp key value generators =>
    h.reporting _ <| h.seq (walks_visitExpr h key) <|
      h.seq (walks_visitExpr h value) <| walks_visitGenerators h generators
  | .await v | .yieldFrom v | .starred v => h.reporting _ <| walks_visitExpr h v
  | .yield v => h.reporting _ <| walks_visitOption h v
  | .compare l _ comparators =>
    h.reporting _ <| h.seq (walks_visitExpr h l) <| walks_visitExprs h comparators
  | .call func args keywords =>
    h.reporting _ <| h.seq (walks_visitExpr h func) <|
      h.seq (walks_visitExprs h args) <| walks_visitKeywords h keywords
  | .formattedValue v spec =>
    h.reporting _ <| h.seq (walks_visitExpr h v) <| walks_visitOption h spec
  | .joinedStr values => h.reporting _ <| walks_visitExprs h values
  | .constant _ | .name _ => h.pure ()
  | .attribute v _ => h.reporting _ <| walks_visitExpr h v
  | .subscript v s => h.reporting _ <| h.seq (walks_visitExpr h v) <| walks_visitExpr h s
  | .slice lower upper step =>
    h.reporting _ <| h.seq (walks_visitOption h lower) <|
      h.seq (walks_visitOption h upper) <| walks_visitOption h step

theorem walks_visitExprs {R : SanitizerEngine → SanitizerEngine → Prop} (h : Kept R) :
    ∀ es : List Expr, Walks R (visitExprs es)
  | [] => h.pure ()
  | e :: es => h.seq (walks_visitExpr h e) <| walks_visitExprs h es

theorem walks_visitOption {R : SanitizerEngine → SanitizerEngine → Prop} (h : Kept R) :
    ∀ e : Option Expr, Walks R (visitOption e)
  | none => h.pure ()
  | some e => walks_visitExpr h e

theorem walks_visitKeys {R : SanitizerEngine → SanitizerEngine → Prop} (h : Kept R) :
    ∀ ks : List (Option Expr), Walks R (visitKeys ks)
  | [] => h.pure ()
  | some k :: ks => h.seq (walks_visitExpr h k) <| walks_visitKeys h ks
  | none :: ks => walks_visitKeys h ks

theorem walks_visitKeywords {R : SanitizerEngine → SanitizerEngine → Prop} (h : Kept R) :
    ∀ ks : List Keyword, Walks R (visitKeywords ks)
  | [] => h.pure ()
  | .mk _ v :: ks => h.seq (walks_visitExpr h v) <| walks_visitKeywords h ks

theorem walks_visitGenerators {R : SanitizerEngine → SanitizerEngine → Prop} (h : Kept R) :
    ∀ gs : List Comprehension, Walks R (visitGenerators gs)
  | [] => h.pure ()
  | .mk target iter ifs :: gs =>
    h.seq (walks_visitExpr h iter) <| h.seq (walks_visitExpr h target) <|
      h.seq (walks_visitExprs h ifs) <| walks_visitGenerators h gs

theorem walks_visitArgDefs {R : SanitizerEngine → SanitizerEngine → Prop} (h : Kept R) :
    ∀ as : List ArgDef, Walks R (visitArgDefs as)
  | [] => h.pure ()
  | .mk _ annotation default :: as =>
    h.seq (walks_visitOption h annotation) <| h.seq (walks_visitOption h default) <|
      walks_visitArgDefs h as

theorem walks_visitVariadic {R : SanitizerEngine → SanitizerEngine → Prop} (h : Kept R) :
    ∀ a : Option ArgDef, Walks R (visitVariadic a)
  | none => h.pure ()
  | some (.mk _ annotation _) => walks_visitOption h annotation

theorem walks_visitArguments {R : SanitizerEngine → SanitizerEngine → Prop} (h : Kept R) :
    ∀ as : Arguments, Walks R (visitArguments as)
  | .mk posonlyargs args kwonlyargs vararg kwarg =>
    h.seq (walks_visitArgDefs h posonlyargs) <| h.seq (walks_visitArgDefs h args) <|
      h.seq (walks_visitVariadic h vararg) <| h.seq (walks_visitArgDefs h kwonlyargs) <|
        walks_visitVariadic h kwarg

end

theorem kept_visited : Kept Visited := ⟨Visited.refl, Visited.trans, fun e => visits_report (exprViolation e)⟩

theorem visits_visitExpr (e : Expr) : Visits (visitExpr e) := walks_visitExpr kept_visited e

theorem visits_visitExprs (es : List Expr) : Visits (visitExprs es) := walks_visitExprs kept_visited es

theorem visits_visitOption (e : Option Expr) : Visits (visitOption e) := walks_visitOption kept_visited e

theorem visits_visitKeys (ks : List (Option Expr)) : Visits (visitKeys ks) := walks_visitKeys kept_visited ks

theorem visits_visitKeywords (ks : List Keyword) : Visits (visitKeywords ks) := walks_visitKeywords kept_visited ks

theorem visits_visitGenerators (gs : List Comprehension) : Visits (visitGenerators gs) :=
  walks_visitGenerators kept_visited gs

theorem visits_visitArguments (as : Arguments) : Visits (visitArguments as) := walks_visitArguments kept_visited as

/-- A check that may add an error, and what follows. -/
theorem Visits.check {c : Prop} [Decidable c] {x y : Sanitizer Unit} (hx : Visits x) (hy : Visits y) :
    Visits (if c then x >>= fun _ => y else y) :=
  Visits.ite (hx.bind fun _ => hy) hy

theorem visits_recordAssignmentTarget (e : Expr) : Visits (recordAssignmentTarget e) := by
  unfold recordAssignmentTarget
  split
  · refine Visits.get_bind fun s => Visits.check (visits_err _) (Visits.ite ?_ (Visits.pure ()))
    exact fun _ => ⟨List.prefix_refl _, rfl⟩
  · exact Visits.pure ()

theorem visits_recordAssignmentTargets (es : List Expr) : Visits (recordAssignmentTargets es) := by
  induction es with
  | nil => exact Visits.pure ()
  | cons e es ih => exact (visits_recordAssignmentTarget e).bind fun _ => ih

theorem visits_checkMetaKeywords (ks : List Keyword) : Visits (checkMetaKeywords ks) := by
  induction ks with
  | nil => exact Visits.pure ()
  | cons k ks ih =>
    obtain ⟨arg, v⟩ := k
    cases arg with
    | none => exact (visits_err _).bind fun _ => ih
    | some name => exact Visits.ite ih (Visits.bind (visits_err _) fun _ => ih)

theorem visits_visitExprStmt (e : Expr) : Visits (visitExprStmt e) := by
  have twice : Visits (visitExpr e >>= fun _ => visitExpr e) :=
    (visits_visitExpr e).bind fun _ => visits_visitExpr e
  unfold visitExprStmt
  split
  · refine Visits.ite (Visits.get_bind fun s => Visits.ite (visits_err _) ?_) twice
    exact Visits.ite (visits_err _) (visits_checkMetaKeywords _)
  · exact twice

theorem visits_visitItems (items : List WithItem) : Visits (visitItems items) := by
  induction items with
  | nil => exact Visits.pure ()
  | cons item items ih =>
    exact (visits_visitExpr _).bind fun _ => (visits_visitOption _).bind fun _ => ih

/-- What is visited one function deeper. -/
theorem Visits.inFunction {x : Sanitizer Unit} (hx : Visits x) : Visits (do
    modify fun e => { e with functionDepth := e.functionDepth + 1 }
    x
    modify fun e => { e with functionDepth := e.functionDepth - 1 }) :=
  hx.around (fun _ => rfl) (fun _ => rfl) fun s t h => by
    show t.functionDepth - 1 = s.functionDepth
    rw [h, Nat.add_sub_cancel]

mutual

theorem visits_visitStmt : ∀ s : Stmt, Visits (visitStmt s)
  | .import _ | .importFrom _ _ | .global _ | .nonlocal _ => visits_err _
  | .classDef _ bases keywords body _ _ =>
    (visits_err _).bind fun _ => (visits_visitExprs bases).bind fun _ =>
      (visits_visitKeywords keywords).bind fun _ => visits_visitStmts body
  | .while test body orelse =>
    (visits_err _).bind fun _ => (visits_visitExpr test).bind fun _ =>
      (visits_visitStmts body).bind fun _ => visits_visitStmts orelse
  | .try body handlers orelse finalbody | .tryStar body handlers orelse finalbody =>
    (visits_err _).bind fun _ => (visits_visitStmts body).bind fun _ =>
      (visits_visitHandlers handlers).bind fun _ => (visits_visitStmts orelse).bind fun _ =>
        visits_visitStmts finalbody
  | .asyncFunctionDef _ _ body _ returns _ =>
    (visits_err _).bind fun _ => (visits_visitOption returns).bind fun _ => visits_visitStmts body
  | .asyncFor target iter body orelse =>
    (visits_err _).bind fun _ => (visits_visitExpr target).bind fun _ =>
      (visits_visitExpr iter).bind fun _ => (visits_visitStmts body).bind fun _ =>
        visits_visitStmts orelse
  | .asyncWith items body =>
    (visits_err _).bind fun _ => (visits_visitItems items).bind fun _ => visits_visitStmts body
  | .match subject cases => (visits_visitExpr subject).bind fun _ => visits_visitCases cases
  | .with [item] body => by
    refine Visits.ite ?_ (Visits.ite (Visits.get_bind fun s => Visits.check (visits_err _) ?_) ?_)
    · exact (visits_visitStmts body).around (fun _ => rfl) (fun _ => rfl) fun _ _ h => h
    · exact (visits_report _).bind fun _ =>
        (visits_visitStmts body).around (fun _ => rfl) (fun _ => rfl) fun _ _ h => h
    · exact (visits_err _).bind fun _ => (visits_visitItems _).bind fun _ => visits_visitStmts body
  | .with [] body =>
    (visits_err _).bind fun _ => (visits_visitItems []).bind fun _ => visits_visitStmts body
  | .with (item :: item' :: items) body =>
    (visits_err _).bind fun _ => (visits_visitItems (item :: item' :: items)).bind fun _ =>
      visits_visitStmts body
  | .delete targets => (visits_err _).bind fun _ => visits_visitExprs targets
  | .typeAlias name _ value =>
    (visits_err _).bind fun _ => (visits_visitExpr name).bind fun _ => visits_visitExpr value
  | .functionDef name _ body decorators returns _ => by
    have inner : Visits (do visitOption returns; visitStmts body) :=
      (visits_visitOption returns).bind fun _ => visits_visitStmts body
    have rest := Visits.check (c := (!decorators.isEmpty) = true) (visits_err "decorators are forbidden")
      inner.inFunction
    exact Visits.get_bind fun s => Visits.ite ((visits_err _).bind fun _ => rest) (Visits.check (visits_err _) rest)
  | .return value =>
    Visits.get_bind fun s => Visits.check (visits_err _)
      ((visits_visitOption value).bind fun _ => visits_visitOption value)
  | .for target iter body orelse => by
    have inner : Visits (do visitExpr target; visitExpr iter; visitStmts body; visitStmts orelse) :=
      (visits_visitExpr target).bind fun _ => (visits_visitExpr iter).bind fun _ =>
        (visits_visitStmts body).bind fun _ => visits_visitStmts orelse
    exact inner.around (fun _ => rfl) (fun _ => rfl) fun _ _ h => h
  | .if test body orelse =>
    (visits_visitExpr test).bind fun _ => (visits_visitStmts body).bind fun _ => visits_visitStmts orelse
  | .pass => Visits.pure ()
  | .break | .continue => Visits.get_bind fun _ => Visits.ite (visits_err _) (Visits.pure ())
  | .raise exc cause => (visits_visitOption exc).bind fun _ => visits_visitOption cause
  | .assert test msg => (visits_visitExpr test).bind fun _ => visits_visitOption msg
  | .assign targets value =>
    (visits_recordAssignmentTargets targets).bind fun _ => (visits_visitExprs targets).bind fun _ =>
      visits_visitExpr value
  | .annAssign target annotation value =>
    (visits_recordAssignmentTarget target).bind fun _ => (visits_visitExpr target).bind fun _ =>
      (visits_visitExpr annotation).bind fun _ => visits_visitOption value
  | .augAssign target _ value =>
    (visits_recordAssignmentTarget target).bind fun _ => (visits_visitExpr target).bind fun _ =>
      visits_visitExpr value
  | .expr value => visits_visitExprStmt value

theorem visits_visitStmts : ∀ ss : List Stmt, Visits (visitStmts ss)
  | [] => Visits.pure ()
  | s :: ss => (visits_visitStmt s).bind fun _ => visits_visitStmts ss

theorem visits_visitCases : ∀ cs : List MatchCase, Visits (visitCases cs)
  | [] => Visits.pure ()
  | .mk _ guard body :: cs =>
    (visits_visitOption guard).bind fun _ => (visits_visitStmts body).bind fun _ => visits_visitCases cs

theorem visits_visitHandlers : ∀ hs : List ExceptHandler, Visits (visitHandlers hs)
  | [] => Visits.pure ()
  | .mk type _ body :: hs =>
    (visits_visitOption type).bind fun _ => (visits_visitStmts body).bind fun _ => visits_visitHandlers hs

end

/-- A visit that finds nothing to report, from inside so many functions or more. -/
def Accepts (depth : Nat) (x : Sanitizer α) : Prop := ∃ s, depth ≤ s.functionDepth ∧ (x s).2.errors = []

section Accepts

variable {d : Nat} {x : Sanitizer α} {f : α → Sanitizer β}

theorem Accepts.left (h : Accepts d (x >>= f)) (hf : ∀ a, Visits (f a)) : Accepts d x := by
  obtain ⟨s, hdepth, hnil⟩ := h
  exact ⟨s, hdepth, List.prefix_nil.1 (hnil ▸ (hf _ _).errors)⟩

theorem Accepts.right (h : Accepts d (x >>= f)) (hx : Visits x) : ∃ a, Accepts d (f a) := by
  obtain ⟨s, hdepth, hnil⟩ := h
  exact ⟨_, _, by rw [(hx s).functionDepth]; exact hdepth, hnil⟩

theorem Accepts.seq {y : Sanitizer β} (h : Accepts d (x >>= fun _ => y)) (hx : Visits x) : Accepts d y :=
  (h.right hx).elim fun _ hy => hy

theorem Accepts.ite {c : Prop} [Decidable c] {x y : Sanitizer α} (h : Accepts d (if c then x else y)) :
    Accepts d x ∨ Accepts d y := by
  split at h
  · exact Or.inl h
  · exact Or.inr h

theorem not_accepts_err {msg : Text} {y : Sanitizer β} (hy : Visits y) :
    ¬Accepts d (err msg >>= fun _ => y) := by
  intro h
  obtain ⟨s, -, hnil⟩ := h.left fun _ => hy
  exact absurd hnil (List.append_ne_nil_of_right_ne_nil _ (List.cons_ne_nil _ _))

theorem Accepts.report {v : Option Text} {y : Sanitizer β}
    (h : Accepts d (Sanitizer.report v >>= fun _ => y)) (hy : Visits y) : v = none ∧ Accepts d y := by
  refine ⟨?_, h.seq (visits_report v)⟩
  cases v with
  | none => rfl
  | some msg => exact absurd h (not_accepts_err hy)

end Accepts

/-- Inside a function there is no META to take the expression for. -/
theorem Accepts.exprStmt {e : Expr} (h : Accepts 1 (visitExprStmt e)) : Accepts 1 (visitExpr e) := by
  have twice (h : Accepts 1 (visitExpr e >>= fun _ => visitExpr e)) : Accepts 1 (visitExpr e) :=
    h.left fun _ => visits_visitExpr e
  unfold visitExprStmt at h
  split at h
  · split at h
    · obtain ⟨s, hdepth, hnil⟩ := h
      have hne : s.functionDepth ≠ 0 := Nat.ne_of_gt hdepth
      replace hnil : ((if s.functionDepth ≠ 0 then err _ else _ : Sanitizer Unit) s).2.errors = [] := hnil
      rw [if_pos hne] at hnil
      exact absurd hnil (List.append_ne_nil_of_right_ne_nil _ (List.cons_ne_nil _ _))
    · exact twice h
  · exact twice h

/-- What is accepted between two changes of the engine that touch no error. -/
theorem Accepts.around {d d' : Nat} {f g : SanitizerEngine → SanitizerEngine} {x : Sanitizer Unit}
    (h : Accepts d (do modify f; x; modify g)) (hg : ∀ s, (g s).errors = s.errors)
    (hdepth : ∀ s, d ≤ s.functionDepth → d' ≤ (f s).functionDepth) : Accepts d' x := by
  obtain ⟨s, hs, hnil⟩ := h
  exact ⟨f s, hdepth s hs, (hg _).symm.trans hnil⟩

/-- A check that may add an error did not, if what follows is accepted. -/
theorem Accepts.check {d : Nat} {c : Prop} [Decidable c] {msg : Text} {y : Sanitizer Unit}
    (h : Accepts d (if c then err msg >>= fun _ => y else y)) : Accepts d y := by
  split at h
  · exact h.seq (visits_err msg)
  · exact h

/-- The only `with` that is accepted is one PARALLEL or GROUP. -/
theorem accepts_with {d : Nat} {items : List WithItem} {body : List Stmt}
    (h : Accepts d (visitStmt (.with items body))) : Accepts d (visitStmts body) := by
  have forbidden (items : List WithItem) : Visits (do visitItems items; visitStmts body) :=
    (visits_visitItems items).bind fun _ => visits_visitStmts body
  match items, h with
  | [], h => exact absurd h (not_accepts_err (forbidden []))
  | item :: item' :: items, h => exact absurd h (not_accepts_err (forbidden (item :: item' :: items)))
  | [item], h =>
    simp only [visitStmt] at h
    split at h
    · exact h.around (fun _ => rfl) fun _ h => h
    · split at h
      · obtain ⟨s, h⟩ := h.right fun s => Visited.refl s
        exact (h.check.seq (visits_report _)).around (fun _ => rfl) fun _ h => h
      · exact absurd h (not_accepts_err (forbidden [item]))

/-- A function that is accepted stands in no other one and has no decorators. -/
theorem accepts_functionDef {d : Nat} {name : Text} {args : Arguments} {body : List Stmt}
    {decorators : List Expr} {returns : Option Expr} {typeParams : List TypeParam}
    (h : Accepts d (visitStmt (.functionDef name args body decorators returns typeParams))) :
    d = 0 ∧ decorators.isEmpty = true ∧ Accepts 1 (do visitOption returns; visitStmts body) := by
  have inner : Visits (do visitOption returns; visitStmts body) :=
    (visits_visitOption returns).bind fun _ => visits_visitStmts body
  have deeper {x : Sanitizer Unit} (h : Accepts d (do
      modify fun e => { e with functionDepth := e.functionDepth + 1 }
      x
      modify fun e => { e with functionDepth := e.functionDepth - 1 })) : Accepts 1 x :=
    h.around (fun _ => rfl) fun s _ => Nat.le_add_left 1 s.functionDepth
  have rest {x : Sanitizer Unit} (hx : Visits x) (h : Accepts d (if (!decorators.isEmpty) = true then
      err "decorators are forbidden" >>= fun _ => x else x)) : decorators.isEmpty = true ∧ Accepts d x := by
    split at h
    case isTrue => exact absurd h (not_accepts_err hx)
    case isFalse hempty => exact ⟨by simpa using hempty, h⟩
  obtain ⟨s, hdepth, hnil⟩ := h
  by_cases hs : 0 < s.functionDepth
  · replace hnil : ((if 0 < s.functionDepth then _ else _ : Sanitizer Unit) s).2.errors = [] := hnil
    rw [if_pos hs] at hnil
    exact absurd ⟨s, hdepth, hnil⟩ (not_accepts_err (Visits.check (visits_err _) inner.inFunction))
  · replace hnil : ((if 0 < s.functionDepth then _ else _ : Sanitizer Unit) s).2.errors = [] := hnil
    rw [if_neg hs] at hnil
    have h := Accepts.check ⟨s, hdepth, hnil⟩
    obtain ⟨hempty, h⟩ := rest inner.inFunction h
    exact ⟨by omega, hempty, deeper h⟩

/-- The body of the graph function is visited inside a function. -/
theorem accepts_graphFunction {args : Arguments} {body : List Stmt} : ∀ {ss : List Stmt},
    Accepts 0 (visitStmts ss) → Transformer.graphFunction ss = some (args, body) → Accepts 1 (visitStmts body)
  | s :: ss, h, hgraph => by
    have hs : Accepts 0 (visitStmt s) := h.left fun _ => visits_visitStmts ss
    have hss : Accepts 0 (visitStmts ss) := h.seq (visits_visitStmt s)
    unfold Transformer.graphFunction at hgraph
    split at hgraph
    · cases hgraph
    · rename_i heq
      cases heq
      split at hgraph
      · cases hgraph
        exact (accepts_functionDef hs).2.2.seq (visits_visitOption _)
      · exact accepts_graphFunction hss hgraph
    · rename_i heq
      cases heq
      exact accepts_graphFunction hss hgraph

end Sanitizer

/-! ### What the transform writes -/

/-- A CALL has its target in quotes. -/
def Node.Quoted (nd : Node) : Prop := nd.op = .call → ∃ s, callTarget nd = some ('"' :: s ++ ['"'])

namespace Transformer

def QuotesKept (e e' : TransformEngine) : Prop :=
  (∀ nd ∈ e.nodes, nd.Quoted) → ∀ nd ∈ e'.nodes, nd.Quoted

instance : Std.Refl QuotesKept := ⟨fun _ h => h⟩

instance : IsTrans TransformEngine QuotesKept := ⟨fun _ _ _ h h' hs => h' (h hs)⟩

abbrev Quotes {α : Type} (x : Transformer α) : Prop := Stateful.Steps QuotesKept x

open Stateful

theorem quotes_same {f : TransformEngine → TransformEngine} (h : ∀ e, (f e).nodes = e.nodes) :
    Quotes (modify f) :=
  Steps.modify fun e hs nd hnd => hs nd (h e ▸ hnd)

theorem quotes_genId : Quotes genId := fun _ h => h

theorem quotes_noNodes : Quotes noNodes :=
  quotes_genId.bind fun _ => quotes_genId.bind fun _ => Steps.pure _

theorem quotes_pushNode {op : Opcode} {args : List Arg}
    (h : op = .call → ∃ s rest, args.find? (fun a => a.key = ("target" : Text)) =
      some ⟨rest, .string ('"' :: s ++ ['"'])⟩) : Quotes (pushNode op args) := by
  refine quotes_genId.bind fun id => Steps.bind (Steps.modify fun e hs nd hnd => ?_) fun _ => Steps.pure _
  rcases List.mem_append.1 hnd with hnd | hnd
  · exact hs nd hnd
  · obtain rfl := List.mem_singleton.1 hnd
    intro hop
    obtain ⟨s, key, hfind⟩ := h hop
    exact ⟨s, by simp only [callTarget, if_pos hop, hfind]⟩

theorem quotes_pushOther {op : Opcode} (args : List Arg) (h : op ≠ .call) : Quotes (pushNode op args) :=
  quotes_pushNode fun hop => absurd hop h

theorem quotes_addEdge (e : Edge) : Quotes (addEdge e) := quotes_same fun _ => rfl

theorem quotes_setVar (name id : Text) : Quotes (setVar name id) := quotes_same fun _ => rfl

theorem quotes_error (msg : Text) : Quotes (error msg) := quotes_same fun _ => rfl

theorem quotes_checkErrors : Quotes checkErrors :=
  Steps.get_bind fun _ => Steps.ite (Steps.throw _) (Steps.pure _)

theorem quotes_resolveVar (name : Text) : Quotes (resolveVar name) := by
  refine Steps.get_bind fun e => ?_
  split
  · exact Steps.pure _
  · exact (quotes_pushOther _ (by decide)).bind fun _ => (quotes_setVar _ _).bind fun _ => Steps.pure _

/-- An argument at the end changes no target that is there. -/
theorem Quoted.addArg {nd : Node} {a : Arg} (h : nd.Quoted) :
    Node.Quoted { nd with args := nd.args ++ [a] } := by
  intro hop
  obtain ⟨s, hs⟩ := h hop
  have hop' : nd.op = .call := hop
  refine ⟨s, ?_⟩
  simp only [callTarget, if_pos hop'] at hs ⊢
  cases hfind : nd.args.find? fun a => a.key = ("target" : Text) with
  | none => rw [hfind] at hs; cases hs
  | some b =>
    rw [List.find?_append, hfind]
    rwa [hfind] at hs

theorem quotes_addOutput (id name : Text) : Quotes (addOutput id name) :=
  Steps.modify fun e hs nd hnd => by
    obtain ⟨nd', hnd', rfl⟩ := List.mem_map.1 hnd
    split
    · exact Quoted.addArg (hs nd' hnd')
    · exact hs nd' hnd'

/-- A part run from an engine with the same nodes. -/
theorem quotes_within {α : Type} {f : TransformEngine → TransformEngine} (hf : ∀ e, (f e).nodes = e.nodes)
    {k : TransformEngine → Transformer α} (hk : ∀ e, Quotes (k e)) :
    Quotes (do
      let e ← get
      set (f e)
      k e) :=
  fun e hs => hk e (f e) fun nd hnd => hs nd (hf e ▸ hnd)

theorem quotes_inside {α : Type} (place : Place) {part : Transformer α} (h : Quotes part) :
    Quotes (inside place part) :=
  quotes_within (by intro; rfl) fun _ => h.bind fun _ => (quotes_same (by intro; rfl)).bind fun _ => Steps.pure _

theorem quotes_wireNames (target : Text) (names : List Text) : Quotes (wireNames target names) := by
  induction names with
  | nil => exact Steps.pure _
  | cons name names ih =>
    refine Steps.get_bind fun e => ?_
    split
    · exact (quotes_addEdge _).bind fun _ => ih
    · exact ih

theorem quotes_pushEdges (target : Text) (ids : List Text) : Quotes (pushEdges target ids) := by
  induction ids with
  | nil => exact Steps.pure _
  | cons id ids ih => exact (quotes_addEdge _).bind fun _ => ih

open Sanitizer

theorem eq_literal_of_isStr {e : Expr} (h : isStr e = true) : ∃ s, e = .constant (.str s) := by
  unfold isStr at h
  split at h
  · exact ⟨_, rfl⟩
  · cases h

/-- The first argument of an accepted call is a string literal. -/
theorem literal_of_callViolation {func : Expr} {args : List Expr} {name : Text}
    (hname : calleeNameStr func = some name) (hcall : name = ("call" : Text) ∨ name = ("act" : Text))
    (h : callViolation func args = none) :
    ∃ s, (args.head?.map formatExpr).getD [] = '"' :: s ++ ['"'] := by
  have hmem : name ∈ (["call", "act"] : List Text) := by
    rcases hcall with rfl | rfl <;> decide
  have hstr : args.head?.any isStr = true := by
    by_contra hno
    simp only [callViolation, hname, if_pos hmem, if_neg hno] at h
    split_ifs at h
  cases hhead : args.head? with
  | none => rw [hhead] at hstr; cases hstr
  | some e =>
    rw [hhead] at hstr
    obtain ⟨s, rfl⟩ := eq_literal_of_isStr hstr
    exact ⟨s, rfl⟩

mutual

theorem quotes_transformExprToNode : ∀ e : Expr, Accepts 1 (visitExpr e) → Quotes (transformExprToNode e)
  | .call func args keywords, h => by
    obtain ⟨hviol, h⟩ := h.report ((visits_visitExpr func).bind fun _ =>
      (visits_visitExprs args).bind fun _ => visits_visitKeywords keywords)
    replace h := h.seq (visits_visitExpr func)
    have hargs : Accepts 1 (visitExprs args) := h.left fun _ => visits_visitKeywords keywords
    have hkeywords : Accepts 1 (visitKeywords keywords) := h.seq (visits_visitExprs args)
    simp only [transformExprToNode]
    split
    · exact (quotes_error _).bind fun _ => quotes_genId
    · rename_i name hname
      split
      · rename_i hcall
        obtain ⟨s, hs⟩ := literal_of_callViolation hname hcall hviol
        refine Steps.bind (quotes_pushNode fun _ => ⟨s, "target", ?_⟩) fun id =>
          (quotes_wireArgs id args hargs).bind fun _ =>
            (quotes_wireKeywords id keywords hkeywords).bind fun _ => Steps.pure _
        rw [hs]
        rfl
      · refine Steps.ite ?_ (Steps.ite ?_ ?_)
        · exact (quotes_pushOther _ (by decide)).bind fun id =>
            (quotes_wireArgs id args hargs).bind fun _ => Steps.pure _
        · exact (quotes_transformArgs args hargs).bind fun ids =>
            (quotes_pushOther _ (by decide)).bind fun id => (quotes_pushEdges id ids).bind fun _ => Steps.pure _
        · exact (quotes_pushOther _ (by decide)).bind fun id => (quotes_wireArgs id args hargs).bind fun _ =>
            (quotes_wireKeywords id keywords hkeywords).bind fun _ => Steps.pure _
  | .boolOp _ _, _ | .namedExpr _ _, _ | .binOp _ _ _, _ | .unaryOp _ _, _ | .lambda _ _, _
  | .ifExp _ _ _, _ | .dict _ _, _ | .set _, _ | .listComp _ _, _ | .setComp _ _, _
  | .dictComp _ _ _, _ | .generatorExp _ _, _ | .await _, _ | .yield _, _ | .yieldFrom _, _
  | .compare _ _ _, _ | .formattedValue _ _, _ | .joinedStr _, _ | .constant _, _
  | .attribute _ _, _ | .subscript _ _, _ | .starred _, _ | .name _, _ | .list _, _ | .tuple _, _
  | .slice _ _ _, _ =>
    (quotes_pushOther _ (by decide)).bind fun _ => (quotes_wireNames _ _).bind fun _ => Steps.pure _

theorem quotes_wireArgs (target : Text) : ∀ es : List Expr, Accepts 1 (visitExprs es) →
    Quotes (wireArgs target es)
  | [], _ => Steps.pure _
  | e :: es, h =>
    (quotes_transformExprToNode e (h.left fun _ => visits_visitExprs es)).bind fun _ =>
      (quotes_addEdge _).bind fun _ => quotes_wireArgs target es (h.seq (visits_visitExpr e))

theorem quotes_wireKeywords (target : Text) : ∀ ks : List Keyword, Accepts 1 (visitKeywords ks) →
    Quotes (wireKeywords target ks)
  | [], _ => Steps.pure _
  | .mk _ v :: ks, h =>
    (quotes_transformExprToNode v (h.left fun _ => visits_visitKeywords ks)).bind fun _ =>
      (quotes_addEdge _).bind fun _ => quotes_wireKeywords target ks (h.seq (visits_visitExpr v))

theorem quotes_transformArgs : ∀ es : List Expr, Accepts 1 (visitExprs es) → Quotes (transformArgs es)
  | [], _ => Steps.pure _
  | e :: es, h =>
    (quotes_transformExprToNode e (h.left fun _ => visits_visitExprs es)).bind fun _ =>
      (quotes_transformArgs es (h.seq (visits_visitExpr e))).bind fun _ => Steps.pure _

end

theorem quotes_chainTo (chain : Chain) (b : Block) (first : Text) : Quotes (chainTo chain b first) := by
  unfold chainTo
  split
  · exact Steps.pure _
  · split
    · exact Steps.ite (Steps.pure _) (quotes_addEdge _)
    · exact quotes_addEdge _
    · exact Steps.pure _

theorem quotes_gateBranch (decide label : Text) (b : Block) : Quotes (gateBranch decide label b) := by
  obtain ⟨first, last, terminal⟩ := b
  have hfirst (id : Text) : Quotes (if some id ≠ last then pushCondEdge decide id label else pure ()) :=
    Steps.ite (quotes_addEdge _) (Steps.pure _)
  cases first with
  | none =>
    cases last with
    | none => exact Steps.pure _
    | some last => exact (quotes_addEdge _).bind fun _ => Steps.pure _
  | some first =>
    cases last with
    | none => exact hfirst first
    | some last => exact (quotes_addEdge _).bind fun _ => hfirst first

theorem quotes_setVarsTo (id : Text) (vs : List Text) : Quotes (setVarsTo id vs) := by
  induction vs with
  | nil => exact Steps.pure _
  | cons v vs ih => exact (quotes_setVar _ _).bind fun _ => ih

theorem quotes_joinBranch (merge : Text) (terminal : Bool) (b : Block) :
    Quotes (joinBranch merge terminal b) := by
  unfold joinBranch
  split
  · exact Steps.ite (Steps.pure _) (quotes_addEdge _)
  · exact Steps.pure _

theorem quotes_closeIf (decide : Text) (body orelse : List Stmt) (b b' : Block) (vars : List Text) :
    Quotes (closeIf decide body orelse b b' vars) := by
  refine Steps.ite (Steps.pure _) ((quotes_pushOther _ (by decide)).bind fun merge =>
    (quotes_joinBranch _ _ _).bind fun _ => (quotes_joinBranch _ _ _).bind fun _ => ?_)
  have rest : Quotes (do setVarsTo merge vars; pure (decide, merge)) :=
    (quotes_setVarsTo _ _).bind fun _ => Steps.pure _
  exact Steps.ite ((quotes_addEdge _).bind fun _ => rest) rest

theorem quotes_pushSwitchEdge (switch first : Text) (c : Option Text) :
    Quotes (pushSwitchEdge switch first c) := by
  cases c with
  | none => exact quotes_addEdge _
  | some c => exact quotes_addEdge _

theorem quotes_pushAct (type : Text) : Quotes (pushAct type) := quotes_pushOther _ (by decide)

theorem quotes_newVars (before : Dict Text Text) : Quotes (newVars before) :=
  Steps.get_bind fun _ => Steps.pure _

mutual

theorem quotes_transformStmt : ∀ s : Stmt, Accepts 1 (visitStmt s) → Quotes (transformStmt s)
  | .assign targets value, h => by
    replace h : Accepts 1 (visitExpr value) :=
      (h.seq (visits_recordAssignmentTargets targets)).seq (visits_visitExprs targets)
    refine quotes_checkErrors.bind fun _ => ?_
    split
    · exact (quotes_transformExprToNode value h).bind fun _ => (quotes_addOutput _ _).bind fun _ =>
        (quotes_setVar _ _).bind fun _ => Steps.pure _
    · exact (quotes_error _).bind fun _ => quotes_noNodes
    · exact (quotes_error _).bind fun _ => quotes_noNodes
  | .annAssign target annotation value, h => by
    replace h : Accepts 1 (visitOption value) :=
      ((h.seq (visits_recordAssignmentTarget target)).seq (visits_visitExpr target)).seq
        (visits_visitExpr annotation)
    refine quotes_checkErrors.bind fun _ => ?_
    split
    · exact (quotes_error _).bind fun _ => quotes_noNodes
    · split
      · exact (quotes_transformExprToNode _ h).bind fun _ => (quotes_setVar _ _).bind fun _ => Steps.pure _
      · exact (quotes_pushOther _ (by decide)).bind fun _ => (quotes_setVar _ _).bind fun _ => Steps.pure _
  | .augAssign target _ value, h => by
    replace h : Accepts 1 (visitExpr value) :=
      (h.seq (visits_recordAssignmentTarget target)).seq (visits_visitExpr target)
    refine quotes_checkErrors.bind fun _ => ?_
    split
    · exact (quotes_error _).bind fun _ => quotes_noNodes
    · exact (quotes_resolveVar _).bind fun _ => (quotes_transformExprToNode value h).bind fun _ =>
        (quotes_pushOther _ (by decide)).bind fun _ => (quotes_addEdge _).bind fun _ =>
          (quotes_addEdge _).bind fun _ => (quotes_setVar _ _).bind fun _ => Steps.pure _
  | .expr value, h =>
    quotes_checkErrors.bind fun _ => (quotes_transformExprToNode value h.exprStmt).bind fun _ => Steps.pure _
  | .return value, h => by
    obtain ⟨s, h⟩ := h.right (fun s => Visited.refl s)
    replace h : Accepts 1 (visitOption value) := h.check.left fun _ => visits_visitOption value
    refine quotes_checkErrors.bind fun _ => ?_
    split
    · exact (quotes_transformExprToNode _ h).bind fun _ => (quotes_pushAct _).bind fun _ =>
        (quotes_addEdge _).bind fun _ => Steps.pure _
    · exact (quotes_pushAct _).bind fun _ => Steps.pure _
  | .if test body orelse, h => by
    have htest : Accepts 1 (visitExpr test) :=
      h.left fun _ => (visits_visitStmts body).bind fun _ => visits_visitStmts orelse
    replace h := h.seq (visits_visitExpr test)
    have hbody : Accepts 1 (visitStmts body) := h.left fun _ => visits_visitStmts orelse
    have horelse : Accepts 1 (visitStmts orelse) := h.seq (visits_visitStmts body)
    refine quotes_checkErrors.bind fun _ => (quotes_transformExprToNode test htest).bind fun _ =>
      (quotes_pushOther _ (by decide)).bind fun decide => (quotes_addEdge _).bind fun _ => ?_
    refine Steps.get_bind fun _ => (quotes_inside _ (quotes_transformBlock _ _ body hbody)).bind fun _ =>
      (quotes_newVars _).bind fun _ => (quotes_gateBranch _ _ _).bind fun _ => ?_
    refine Steps.get_bind fun _ => (quotes_inside _ (quotes_transformBlock _ _ orelse horelse)).bind fun _ =>
      (quotes_newVars _).bind fun _ => (quotes_gateBranch _ _ _).bind fun _ => ?_
    exact quotes_closeIf _ _ _ _ _ _
  | .for target iter body orelse, h => by
    replace h : Accepts 1 (do visitExpr target; visitExpr iter; visitStmts body; visitStmts orelse) :=
      Accepts.around (f := fun e => { e with loopDepth := e.loopDepth + 1 })
        (g := fun e => { e with loopDepth := e.loopDepth - 1 }) h (fun _ => rfl) fun _ h => h
    replace h := h.seq (visits_visitExpr target)
    have hiter : Accepts 1 (visitExpr iter) :=
      h.left fun _ => (visits_visitStmts body).bind fun _ => visits_visitStmts orelse
    have hbody : Accepts 1 (visitStmts body) :=
      (h.seq (visits_visitExpr iter)).left fun _ => visits_visitStmts orelse
    refine quotes_checkErrors.bind fun _ => (quotes_transformExprToNode iter hiter).bind fun _ => ?_
    split
    · exact (quotes_error _).bind fun _ => quotes_noNodes
    · refine (quotes_pushOther _ (by decide)).bind fun _ => (quotes_addEdge _).bind fun _ =>
        (quotes_setVar _ _).bind fun _ =>
        (quotes_inside _ (quotes_transformBlock _ _ body hbody)).bind fun b => ?_
      split
      · exact (quotes_addEdge _).bind fun _ => Steps.pure _
      · exact Steps.pure _
  | .with items body, h => by
    have hbody : Accepts 1 (visitStmts body) := accepts_with h
    refine quotes_checkErrors.bind fun _ => ?_
    split
    · refine Steps.ite ?_ (Steps.ite ?_ ?_)
      · exact (quotes_pushOther _ (by decide)).bind fun _ =>
          (quotes_transformThreads _ _ body hbody).bind fun _ => Steps.pure _
      · exact quotes_within (by intro; rfl) fun _ => (quotes_transformBlock _ _ body hbody).bind fun _ =>
          (quotes_same (by intro; rfl)).bind fun _ => quotes_genId.bind fun _ => Steps.pure _
      · exact (quotes_error _).bind fun _ => quotes_noNodes
    · exact (quotes_error _).bind fun _ => quotes_noNodes
  | .match subject cases, h => by
    have hsubject : Accepts 1 (visitExpr subject) := h.left fun _ => visits_visitCases cases
    exact quotes_checkErrors.bind fun _ => (quotes_transformExprToNode subject hsubject).bind fun _ =>
      (quotes_pushOther _ (by decide)).bind fun _ => (quotes_addEdge _).bind fun _ =>
        (quotes_transformCases _ _ _ cases (h.seq (visits_visitExpr subject))).bind fun _ => Steps.pure _
  | .pass, _ => quotes_checkErrors.bind fun _ => quotes_genId.bind fun _ => Steps.pure _
  | .break, _ | .continue, _ => quotes_checkErrors.bind fun _ => (quotes_pushAct _).bind fun _ => Steps.pure _
  | .raise _ _, _ =>
    quotes_checkErrors.bind fun _ => (quotes_pushOther _ (by decide)).bind fun _ => Steps.pure _
  | .assert test msg, h =>
    quotes_checkErrors.bind fun _ =>
      (quotes_transformExprToNode test (h.left fun _ => visits_visitOption msg)).bind fun _ =>
        (quotes_pushOther _ (by decide)).bind fun _ => (quotes_addEdge _).bind fun _ => Steps.pure _
  | .functionDef .., _ | .asyncFunctionDef .., _ | .classDef .., _ | .delete _, _
  | .typeAlias .., _ | .asyncFor _ _ _ _, _ | .while _ _ _, _ | .asyncWith _ _, _ | .try _ _ _ _, _
  | .tryStar _ _ _ _, _ | .import _, _ | .importFrom _ _, _ | .global _, _ | .nonlocal _, _ =>
    quotes_checkErrors.bind fun _ => (quotes_error _).bind fun _ => quotes_genId.bind fun _ => Steps.pure _

theorem quotes_transformBlock (chain : Chain) : ∀ (b : Block) (ss : List Stmt), Accepts 1 (visitStmts ss) →
    Quotes (transformBlock chain b ss)
  | _, [], _ => Steps.pure _
  | _, s :: ss, h =>
    (quotes_transformStmt s (h.left fun _ => visits_visitStmts ss)).bind fun _ =>
      (quotes_chainTo _ _ _).bind fun _ => quotes_transformBlock chain _ ss (h.seq (visits_visitStmt s))

theorem quotes_transformThreads (par : Text) : ∀ (bid : Nat) (ss : List Stmt), Accepts 1 (visitStmts ss) →
    Quotes (transformThreads par bid ss)
  | _, [], _ => Steps.pure _
  | bid, s :: ss, h =>
    quotes_within (by intro; rfl) fun _ =>
      (quotes_inside _ (quotes_transformStmt s (h.left fun _ => visits_visitStmts ss))).bind fun _ =>
        (quotes_same (by intro; rfl)).bind fun _ => (quotes_addEdge _).bind fun _ =>
          quotes_transformThreads par (bid + 1) ss (h.seq (visits_visitStmt s))

theorem quotes_transformCases (switch : Text) : ∀ (index : Nat) (hasDefault : Bool) (cs : List MatchCase),
    Accepts 1 (visitCases cs) → Quotes (transformCases switch index hasDefault cs)
  | _, _, [], _ => Steps.pure _
  | index, hasDefault, .mk pattern guard body :: cs, h => by
    replace h := h.seq (visits_visitOption guard)
    have hbody : Accepts 1 (visitStmts body) := h.left fun _ => visits_visitCases cs
    have hcs : Accepts 1 (visitCases cs) := h.seq (visits_visitStmts body)
    simp only [transformCases]
    split
    · exact (quotes_error _).bind fun _ => quotes_transformCases switch _ _ cs hcs
    · have rest (condition : Option Text) : Quotes (do
          let last ← inside (.case switch index) (transformCaseBody none body)
          match last with
          | some first => pushSwitchEdge switch first condition
          | none => pure ()
          transformCases switch (index + 1) (hasDefault || condition.isNone) cs) := by
        refine (quotes_inside _ (quotes_transformCaseBody none body hbody)).bind fun last => ?_
        cases last with
        | none => exact quotes_transformCases switch _ _ cs hcs
        | some first =>
          exact (quotes_pushSwitchEdge _ _ _).bind fun _ => quotes_transformCases switch _ _ cs hcs
      exact Steps.ite ((quotes_error _).bind fun _ => rest _) (rest _)

theorem quotes_transformCaseBody : ∀ (last : Option Text) (ss : List Stmt), Accepts 1 (visitStmts ss) →
    Quotes (transformCaseBody last ss)
  | _, [], _ => Steps.pure _
  | _, s :: ss, h =>
    (quotes_transformStmt s (h.left fun _ => visits_visitStmts ss)).bind fun _ =>
      quotes_transformCaseBody _ ss (h.seq (visits_visitStmt s))

end

theorem quotes_scanMeta (ss : List Stmt) : Quotes (scanMeta ss) := by
  induction ss with
  | nil => exact Steps.pure _
  | cons s ss ih =>
    unfold scanMeta
    split
    · contradiction
    · rename_i heq
      cases heq
      split
      · rename_i json _
        refine fun e hs => ?_
        show ∀ nd ∈ (finalState ((if e.metaJson ≠ [] then throw _ else _ : Transformer Unit) e)).nodes, nd.Quoted
        split
        · exact hs
        · exact ih { e with metaJson := json } hs
      · exact ih
    · rename_i heq
      cases heq
      exact ih

theorem quotes_pushInputs (as : List ArgDef) : Quotes (pushInputs as) := by
  induction as with
  | nil => exact Steps.pure _
  | cons a as ih => exact (quotes_pushOther _ (by decide)).bind fun _ => (quotes_setVar _ _).bind fun _ => ih

theorem quotes_transformModule {m : Ast.Module} (h : sanitize m = .ok ()) : Quotes (transformModule m) := by
  have haccepts : Accepts 0 (visitStmts m.body) := by
    simp only [sanitize] at h
    split at h
    case isTrue hnil => exact ⟨SanitizerEngine.new, Nat.zero_le _, hnil⟩
    case isFalse => cases h
  refine (quotes_scanMeta _).bind fun _ => ?_
  split
  · exact Steps.get_bind fun _ => Steps.throw _
  · rename_i args body hgraph
    exact (quotes_pushInputs _).bind fun _ => (quotes_pushInputs _).bind fun _ =>
      (quotes_transformBlock _ _ body (accepts_graphFunction haccepts hgraph)).bind fun _ => Steps.pure _

end Transformer

/-- In the plan of an accepted program every CALL has its target in quotes. -/
theorem quoted_transform {m : Ast.Module} {p : ExecutionPlan} (h : transform m = .ok p) :
    ∀ nd ∈ p.nodes, nd.Quoted := by
  unfold transform at h
  cases hs : sanitize m with
  | error errors => rw [hs] at h; cases h
  | ok _ =>
    cases he : runTransform m with
    | error errors => rw [hs, he] at h; cases h
    | ok e =>
      rw [hs, he] at h
      cases h
      unfold runTransform at he
      split at he
      · rename_i t hrun
        cases he
        exact (Transformer.quotes_transformModule hs).ok hrun fun nd hnd => nomatch hnd
      · cases he

/-! ### The CALL nodes behind the optimizer -/

namespace Optimize

theorem foldNode_op (nd : Node) : (foldNode nd).op = nd.op := by
  unfold foldNode
  split <;> rfl

theorem foldNode_call {nd : Node} (h : nd.op = .call) : foldNode nd = nd := by
  have hcalc : nd.op ≠ .calc := by rw [h]; decide
  rw [foldNode, foldedValue, if_neg hcalc]

theorem call_constantFolding {p : ExecutionPlan} {nd : Node} (h : nd ∈ (constantFolding p).1.nodes)
    (hop : nd.op = .call) : nd ∈ p.nodes := by
  obtain ⟨nd', hnd', rfl⟩ := List.mem_map.1 h
  rw [foldNode_op] at hop
  rwa [foldNode_call hop]

theorem call_deadNodeElimination {p : ExecutionPlan} {nd : Node}
    (h : nd ∈ (deadNodeElimination p).1.nodes) : nd ∈ p.nodes := by
  simp only [deadNodeElimination] at h
  split at h <;> exact List.mem_of_mem_filter h

/-- A pass rewrites CALC nodes only. -/
theorem call_fusionPass {nodes : List Node} {edges : List Edge} {nd : Node} (hop : nd.op = .call) :
    ∀ {l : List Node} {removed : List Text}, nd ∈ (fusionPass nodes edges l removed).1 → nd ∈ l
  | n :: rest, removed, h => by
    have tail {removed : List Text} (h : nd ∈ (fusionPass nodes edges rest removed).1) :
        nd ∈ n :: rest := List.mem_cons_of_mem _ (call_fusionPass hop h)
    have step (r : Node × List Text) (hr : r.1 = n ∨ r.1.op = .calc)
        (h : nd ∈ r.1 :: (fusionPass nodes edges rest r.2).1) : nd ∈ n :: rest := by
      rcases List.mem_cons.1 h with rfl | h
      · rcases hr with hr | hr
        · rw [hr]; exact List.mem_cons_self
        · rw [hop] at hr; cases hr
      · exact tail h
    unfold fusionPass at h
    split at h
    · exact tail h
    · refine step _ ?_ h
      split
      · rename_i expr hexpr
        have hcalc : n.op = .calc := by
          by_contra hno
          rw [if_neg hno] at hexpr
          cases hexpr
        split
        · split
          split
          · exact Or.inl rfl
          · exact Or.inr hcalc
        · exact Or.inl rfl
      · exact Or.inl rfl

theorem call_fuse {edges : List Edge} {nd : Node} (hop : nd.op = .call) :
    ∀ {fuel : Nat} {nodes : List Node} {fused : Nat}, nd ∈ (fuse edges fuel nodes fused).1 → nd ∈ nodes
  | 0, _, _, h => h
  | fuel + 1, nodes, fused, h => by
    unfold fuse at h
    split at h
    rename_i out removed hpass
    split at h
    · exact h
    · have hout : nd ∈ out := List.mem_of_mem_filter (call_fuse hop h)
      have hfirst : (fusionPass nodes edges nodes []).1 = out := congrArg Prod.fst hpass
      rw [← hfirst] at hout
      exact call_fusionPass hop hout

theorem call_multiBranchFusion {p : ExecutionPlan} {nd : Node}
    (h : nd ∈ (multiBranchFusion p).1.nodes) : nd ∈ p.nodes := by
  simp only [multiBranchFusion] at h
  split at h
  · exact h
  · exact List.mem_of_mem_filter h

theorem call_calcFusion {p : ExecutionPlan} {nd : Node} (h : nd ∈ (calcFusion p).1.nodes)
    (hop : nd.op = .call) : nd ∈ p.nodes := by
  unfold calcFusion at h
  exact call_fuse hop h

theorem call_optimizeAll {p : ExecutionPlan} {nd : Node} (h : nd ∈ (optimizeAll p).1.nodes)
    (hop : nd.op = .call) : nd ∈ p.nodes := by
  have hfused : nd ∈ (calcFusion (deadNodeElimination (constantFolding p).1).1).1.nodes :=
    call_multiBranchFusion h
  exact call_constantFolding (call_deadNodeElimination (call_calcFusion hfused hop)) hop

end Optimize

end Tinypipe
