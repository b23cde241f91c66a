import Tinypipe.Compiler.Soundness
import Tinypipe.Programs

/-! The sanitizer's check for data races (`record_assignment_target`,
`tinypipe-compiler/src/sanitizer.rs`) against the assignments of a program in the order of its text. -/

namespace Tinypipe

open Lib Ast Sanitizer

/-- An assignment of a variable. `plain` tells a target of `=`, of an annotated or of an augmented
assignment that is the bare name from one inside a tuple and from that of a `for`. -/
structure Assignment where
  inParallel : Bool
  plain : Bool
  name : Text
deriving DecidableEq

mutual

/-- The variables a target binds. -/
def targetNames : Expr → List Text
  | .name id => [id]
  | .tuple elts | .list elts => elementNames elts
  | .starred e => targetNames e
  | _ => []

def elementNames : List Expr → List Text
  | [] => []
  | e :: es => targetNames e ++ elementNames es

end

def targetAssignments (inParallel : Bool) : Expr → List Assignment
  | .name id => [⟨inParallel, true, id⟩]
  | e => (targetNames e).map (⟨inParallel, false, ·⟩)

def loopAssignments (inParallel : Bool) (target : Expr) : List Assignment :=
  (targetNames target).map (⟨inParallel, false, ·⟩)

def isParallel : List WithItem → Bool
  | [item] => isNameCall item.contextExpr "PARALLEL"
  | _ => false

mutual

/-- The assignments of a statement in the order of the text. -/
def assignments (inParallel : Bool) : Stmt → List Assignment
  | .assign targets _ => targets.flatMap (targetAssignments inParallel)
  | .annAssign target _ _ | .augAssign target _ _ => targetAssignments inParallel target
  | .for target _ body orelse | .asyncFor target _ body orelse =>
    loopAssignments inParallel target ++ (blockAssignments inParallel body ++ blockAssignments inParallel orelse)
  | .with items body => blockAssignments (inParallel || isParallel items) body
  | .if _ body orelse | .while _ body orelse =>
    blockAssignments inParallel body ++ blockAssignments inParallel orelse
  | .match _ cases => caseAssignments inParallel cases
  | .functionDef _ _ body _ _ _ | .asyncFunctionDef _ _ body _ _ _ | .classDef _ _ _ body _ _
  | .asyncWith _ body => blockAssignments inParallel body
  | .try body handlers orelse finalbody | .tryStar body handlers orelse finalbody =>
    blockAssignments inParallel body ++ (handlerAssignments inParallel handlers ++
      (blockAssignments inParallel orelse ++ blockAssignments inParallel finalbody))
  | _ => []

def blockAssignments (inParallel : Bool) : List Stmt → List Assignment
  | [] => []
  | s :: ss => assignments inParallel s ++ blockAssignments inParallel ss

def caseAssignments (inParallel : Bool) : List MatchCase → List Assignment
  | [] => []
  | .mk _ _ body :: cases => blockAssignments inParallel body ++ caseAssignments inParallel cases

def handlerAssignments (inParallel : Bool) : List ExceptHandler → List Assignment
  | [] => []
  | .mk _ _ body :: hs => blockAssignments inParallel body ++ handlerAssignments inParallel hs

end

def raceMessage (name : Text) : Text :=
  ("potential data race: `" : Text) ++ name ++ ("` is assigned inside `parallel()` but was also assigned in the outer scope (use a local variable instead)" : Text)

theorem raceMessage_inj {x y : Text} (h : raceMessage x = raceMessage y) : x = y := by
  have h' := List.append_cancel_right h
  exact List.append_cancel_left h'

/-- The first letter of the message, which no other message has. -/
def RaceLetter (msg : Text) : Prop := msg.head? = some 'p'

theorem raceMessage_letter (x : Text) : RaceLetter (raceMessage x) := rfl

theorem callViolation_letter {func : Expr} {args : List Expr} {msg : Text}
    (h : callViolation func args = some msg) : ¬ RaceLetter msg := by
  unfold callViolation at h
  repeat' split at h
  all_goals cases h
  all_goals rintro ⟨⟩

theorem exprViolation_letter {e : Expr} {msg : Text} (h : exprViolation e = some msg) : ¬ RaceLetter msg := by
  cases e with
  | call func args keywords => exact callViolation_letter h
  | subscript v s =>
    simp only [exprViolation] at h
    split at h
    all_goals cases h
    nofun
  | _ =>
    cases h
    try nofun

namespace Sanitizer

/-- A part of the walk that looks at no assignment. -/
structure Unraced (s t : SanitizerEngine) : Prop where
  depth : t.parallelDepth = s.parallelDepth
  names : t.topLevelNames = s.topLevelNames
  errors : ∀ msg, RaceLetter msg → (msg ∈ t.errors ↔ msg ∈ s.errors)

theorem unraced_err {msg : Text} (h : ¬ RaceLetter msg) : Walks Unraced (err msg) := by
  refine fun s => ⟨rfl, rfl, fun msg' hmsg' => ?_⟩
  change msg' ∈ s.errors ++ [msg] ↔ _
  rw [List.mem_append, List.mem_singleton]
  exact or_iff_left fun heq => h (heq ▸ hmsg')

theorem kept_unraced : Kept Unraced where
  refl s := ⟨rfl, rfl, fun _ _ => Iff.rfl⟩
  trans h h' := ⟨h'.depth.trans h.depth, h'.names.trans h.names, fun msg hmsg =>
    (h'.errors msg hmsg).trans (h.errors msg hmsg)⟩
  report e s := by
    cases h : exprViolation e with
    | none => exact ⟨rfl, rfl, fun _ _ => Iff.rfl⟩
    | some msg => exact unraced_err (exprViolation_letter h) s

variable {α β : Type} {l r : Bool → List Assignment}

def inside (x : Text) : Assignment := ⟨true, true, x⟩

def outside (x : Text) : Assignment := ⟨false, true, x⟩

/-- A part of the walk that has seen the assignments of a piece of the text: it keeps the bare names assigned
outside, and reports those that it finds assigned inside once they are kept. -/
structure Tracked (l : List Assignment) (s t : SanitizerEngine) : Prop where
  depth : t.parallelDepth = s.parallelDepth
  names : ∀ x, x ∈ t.topLevelNames ↔ x ∈ s.topLevelNames ∨ outside x ∈ l
  races : ∀ x, raceMessage x ∈ t.errors ↔
    raceMessage x ∈ s.errors ∨ x ∈ s.topLevelNames ∧ inside x ∈ l ∨ [outside x, inside x].Sublist l

def Tracks (l : Bool → List Assignment) (x : Sanitizer α) : Prop :=
  ∀ s, Tracked (l (0 < s.parallelDepth)) s (x s).2

theorem pair_sublist_append {γ : Type} {a b : γ} {l r : List γ} :
    [a, b].Sublist (l ++ r) ↔ [a, b].Sublist l ∨ [a, b].Sublist r ∨ a ∈ l ∧ b ∈ r := by
  constructor
  · intro h
    obtain ⟨l₁, l₂, heq, hl, hr⟩ := List.sublist_append_iff.1 h
    rcases l₁ with _ | ⟨c, _ | ⟨d, l₁⟩⟩
    · exact Or.inr (Or.inl (heq ▸ hr))
    · cases heq
      exact Or.inr (Or.inr ⟨hl.subset List.mem_cons_self, hr.subset List.mem_cons_self⟩)
    · simp only [List.cons_append, List.cons.injEq, List.nil_eq, List.append_eq_nil_iff] at heq
      obtain ⟨rfl, rfl, rfl, -⟩ := heq
      exact Or.inl hl
  · rintro (h | h | ⟨ha, hb⟩)
    · exact h.trans (List.sublist_append_left _ _)
    · exact h.trans (List.sublist_append_right _ _)
    · exact (List.singleton_sublist.2 ha).append (List.singleton_sublist.2 hb)

theorem Tracks.seq {x : Sanitizer α} {y : Sanitizer β} (hx : Tracks l x) (hy : Tracks r y) :
    Tracks (fun b => l b ++ r b) (x >>= fun _ => y) := by
  intro s
  have h := hx s
  have h' := hy (x s).2
  rw [h.depth] at h'
  refine ⟨h'.depth.trans h.depth, fun z => ?_, fun z => ?_⟩
  · refine (h'.names z).trans ?_
    rw [h.names z, List.mem_append, or_assoc]
  · refine (h'.races z).trans ?_
    rw [h.races z, h.names z, List.mem_append, pair_sublist_append]
    tauto

/-- What is assigned here is no bare name, as far as the walk looks at it. -/
theorem Tracks.unraced {x : Sanitizer α} (h : Walks Unraced x) (hl : ∀ b, ∀ a ∈ l b, a.plain = false) :
    Tracks l x := by
  intro s
  have hinside : ∀ z b, inside z ∉ l b := fun z b hmem => nomatch hl b _ hmem
  have houtside : ∀ z b, outside z ∉ l b := fun z b hmem => nomatch hl b _ hmem
  refine ⟨(h s).depth, fun z => ?_, fun z => ?_⟩
  · rw [(h s).names, or_iff_left (houtside z _)]
  · refine ((h s).errors _ (raceMessage_letter z)).trans (or_iff_left ?_).symm
    rintro (hmem | hsub)
    · exact hinside z _ hmem.2
    · exact houtside z _ (hsub.subset List.mem_cons_self)

theorem Tracks.quiet {x : Sanitizer α} (h : Walks Unraced x) : Tracks (fun _ => []) x :=
  Tracks.unraced h fun _ => nofun

theorem Tracks.after {x : Sanitizer α} {y : Sanitizer β} (hx : Walks Unraced x) (hy : Tracks l y) :
    Tracks l (x >>= fun _ => y) :=
  (Tracks.quiet hx).seq hy

theorem Tracks.before {x : Sanitizer α} {y : Sanitizer β} (hx : Tracks l x) (hy : Walks Unraced y) :
    Tracks l (x >>= fun _ => y) := by
  have h := hx.seq (Tracks.quiet hy)
  simp only [List.append_nil] at h
  exact h

theorem Tracks.get_bind {f : SanitizerEngine → Sanitizer β} (hf : ∀ s, Tracks l (f s)) : Tracks l (get >>= f) :=
  fun s => hf s s

theorem Tracks.ite {c : Prop} [Decidable c] {x y : Sanitizer α} (hx : Tracks l x) (hy : Tracks l y) :
    Tracks l (if c then x else y) := by
  split
  · exact hx
  · exact hy

/-- A change of the engine that the check does not see. -/
theorem unraced_modify {f : SanitizerEngine → SanitizerEngine} (hdepth : ∀ s, (f s).parallelDepth = s.parallelDepth)
    (hnames : ∀ s, (f s).topLevelNames = s.topLevelNames) (herrors : ∀ s, (f s).errors = s.errors) :
    Walks Unraced (modify f) := by
  refine fun s => ⟨hdepth s, hnames s, fun msg _ => ?_⟩
  change msg ∈ (f s).errors ↔ _
  rw [herrors]

/-- The body of a PARALLEL block. -/
theorem Tracks.inParallel {x : Sanitizer Unit} (hx : Tracks l x) : Tracks (fun _ => l true) (do
    modify fun e => { e with parallelDepth := e.parallelDepth + 1 }
    x
    modify fun e => { e with parallelDepth := e.parallelDepth - 1 }) := by
  intro s
  have h := hx { s with parallelDepth := s.parallelDepth + 1 }
  have hpos : decide (0 < s.parallelDepth + 1) = true := decide_eq_true (Nat.succ_pos _)
  rw [hpos] at h
  refine ⟨?_, h.names, h.races⟩
  change (x _).2.parallelDepth - 1 = s.parallelDepth
  rw [h.depth]
  rfl

theorem recordAssignmentTarget_name (id : Text) (s : SanitizerEngine) : (recordAssignmentTarget (.name id) s).2 =
    { s with
      errors := if 0 < s.parallelDepth ∧ id ∈ s.topLevelNames then s.errors ++ [raceMessage id] else s.errors
      topLevelNames := if s.parallelDepth = 0 ∧ id ∉ s.topLevelNames then s.topLevelNames ++ [id]
        else s.topLevelNames } := by
  change ((if 0 < s.parallelDepth ∧ id ∈ s.topLevelNames then _ else _ : Sanitizer Unit) s).2 = _
  by_cases hrace : 0 < s.parallelDepth ∧ id ∈ s.topLevelNames
  · have hnew : ¬ (s.parallelDepth = 0 ∧ id ∉ s.topLevelNames) := fun h => h.2 hrace.2
    rw [if_pos hrace, if_pos hrace, if_neg hnew, if_neg hnew]
    rfl
  · rw [if_neg hrace, if_neg hrace]
    split
    · rfl
    · rfl

theorem tracks_recordAssignmentTarget (e : Expr) :
    Tracks (fun b => targetAssignments b e) (recordAssignmentTarget e) := by
  cases e with
  | name id =>
    intro s
    rw [recordAssignmentTarget_name]
    have hpair : ∀ (a b c : Assignment), ¬ [a, b].Sublist [c] := fun a b c h => by
      have hlen := h.length_le
      simp at hlen
    rcases Nat.eq_zero_or_pos s.parallelDepth with hzero | hpos
    · have hnot : ¬ 0 < s.parallelDepth := by omega
      refine ⟨rfl, fun x => ?_, fun x => ?_⟩
      · simp only [hzero, true_and, lt_irrefl, decide_false, targetAssignments, List.mem_singleton, outside,
          Assignment.mk.injEq]
        by_cases hmem : id ∈ s.topLevelNames
        · rw [if_neg (not_not.2 hmem)]
          exact (or_iff_left_of_imp fun h => h ▸ hmem).symm
        · rw [if_pos hmem, List.mem_append, List.mem_singleton]
      · simp [hzero, targetAssignments, inside, hpair]
    · have hne : s.parallelDepth ≠ 0 := by omega
      refine ⟨rfl, fun x => ?_, fun x => ?_⟩
      · simp [hne, hpos, targetAssignments, outside]
      · simp only [hpos, true_and, decide_true, targetAssignments, List.mem_singleton, inside, Assignment.mk.injEq,
          hpair, or_false]
        by_cases hmem : id ∈ s.topLevelNames
        · rw [if_pos hmem, List.mem_append, List.mem_singleton]
          refine or_congr_right ⟨fun h => ?_, fun h => congrArg raceMessage h.2⟩
          cases raceMessage_inj h
          exact ⟨hmem, rfl⟩
        · rw [if_neg hmem]
          refine (or_iff_left ?_).symm
          rintro ⟨hx, rfl⟩
          exact hmem hx
  | _ =>
    refine Tracks.unraced (kept_unraced.pure ()) fun b a ha => ?_
    obtain ⟨_, -, rfl⟩ := List.mem_map.1 ha
    rfl

theorem tracks_recordAssignmentTargets (es : List Expr) :
    Tracks (fun b => es.flatMap (targetAssignments b)) (recordAssignmentTargets es) := by
  induction es with
  | nil => exact Tracks.quiet (kept_unraced.pure ())
  | cons e es ih => exact (tracks_recordAssignmentTarget e).seq ih

theorem unraced_checkMetaKeywords (ks : List Keyword) : Walks Unraced (checkMetaKeywords ks) := by
  induction ks with
  | nil => exact kept_unraced.pure ()
  | cons k ks ih =>
    obtain ⟨arg, v⟩ := k
    cases arg with
    | none => exact kept_unraced.seq (unraced_err (by rintro ⟨⟩)) ih
    | some name =>
      rw [checkMetaKeywords]
      split
      · exact ih
      · exact kept_unraced.seq (unraced_err (by rintro ⟨⟩)) ih

theorem unraced_visitExprStmt (e : Expr) : Walks Unraced (visitExprStmt e) := by
  have twice : Walks Unraced (visitExpr e >>= fun _ => visitExpr e) :=
    kept_unraced.seq (walks_visitExpr kept_unraced e) (walks_visitExpr kept_unraced e)
  have hmeta : ∀ (args : List Expr) (ks : List Keyword) (s : SanitizerEngine), Walks Unraced
      (if s.functionDepth ≠ 0 then err "`META(...)` is only allowed at module level, before `def graph`"
      else if !args.isEmpty then err "`META(...)` accepts keyword arguments only"
      else checkMetaKeywords ks) := by
    intro args ks s
    split
    · exact unraced_err nofun
    · split
      · exact unraced_err nofun
      · exact unraced_checkMetaKeywords ks
  unfold visitExprStmt
  split
  · split
    · exact fun s => hmeta _ _ s s
    · exact twice
  · exact twice

theorem unraced_visitItems (items : List WithItem) : Walks Unraced (visitItems items) := by
  induction items with
  | nil => exact kept_unraced.pure ()
  | cons item items ih =>
    exact kept_unraced.seq (walks_visitExpr kept_unraced _)
      (kept_unraced.seq (walks_visitOption kept_unraced _) ih)

theorem unraced_groupItem (item : WithItem) : Walks Unraced (report (groupItemViolation item)) := by
  cases h : groupItemViolation item with
  | none => exact kept_unraced.pure ()
  | some msg =>
    refine unraced_err fun hletter => ?_
    unfold groupItemViolation at h
    repeat' split at h
    all_goals cases h
    all_goals cases hletter

theorem loopAssignments_plain (target : Expr) (b : Bool) : ∀ a ∈ loopAssignments b target, a.plain = false := by
  intro a ha
  obtain ⟨_, -, rfl⟩ := List.mem_map.1 ha
  rfl

/-- A check whose message is about something else. -/
theorem Tracks.check {c : Prop} [Decidable c] {msg : Text} {y : Sanitizer Unit} (hmsg : ¬ RaceLetter msg)
    (hy : Tracks l y) : Tracks l (if c then err msg >>= fun _ => y else y) :=
  Tracks.ite (Tracks.after (unraced_err hmsg) hy) hy

mutual

theorem tracks_visitStmt : ∀ s : Stmt, Tracks (fun b => assignments b s) (visitStmt s)
  | .import _ | .importFrom _ _ | .global _ | .nonlocal _ => Tracks.quiet (unraced_err nofun)
  | .classDef _ bases keywords body _ _ =>
    Tracks.after (unraced_err nofun) <| Tracks.after (walks_visitExprs kept_unraced bases) <|
      Tracks.after (walks_visitKeywords kept_unraced keywords) <| tracks_visitStmts body
  | .while test body orelse =>
    Tracks.after (unraced_err nofun) <| Tracks.after (walks_visitExpr kept_unraced test) <|
      (tracks_visitStmts body).seq (tracks_visitStmts orelse)
  | .try body handlers orelse finalbody | .tryStar body handlers orelse finalbody =>
    Tracks.after (unraced_err nofun) <| (tracks_visitStmts body).seq <| (tracks_visitHandlers handlers).seq <|
      (tracks_visitStmts orelse).seq (tracks_visitStmts finalbody)
  | .asyncFunctionDef _ _ body _ returns _ =>
    Tracks.after (unraced_err nofun) <| Tracks.after (walks_visitOption kept_unraced returns) <|
      tracks_visitStmts body
  | .asyncWith items body =>
    Tracks.after (unraced_err nofun) <| Tracks.after (unraced_visitItems items) <| tracks_visitStmts body
  | .match subject cases =>
    Tracks.after (walks_visitExpr kept_unraced subject) <| tracks_visitCases cases
  | .delete targets => Tracks.quiet <| kept_unraced.seq (unraced_err nofun) (walks_visitExprs kept_unraced targets)
  | .typeAlias name _ value =>
    Tracks.quiet <| kept_unraced.seq (unraced_err nofun) <| kept_unraced.seq (walks_visitExpr kept_unraced name)
      (walks_visitExpr kept_unraced value)
  | .if test body orelse =>
    Tracks.after (walks_visitExpr kept_unraced test) <| (tracks_visitStmts body).seq (tracks_visitStmts orelse)
  | .pass => Tracks.quiet (kept_unraced.pure ())
  | .raise exc cause =>
    Tracks.quiet <| kept_unraced.seq (walks_visitOption kept_unraced exc) (walks_visitOption kept_unraced cause)
  | .assert test msg =>
    Tracks.quiet <| kept_unraced.seq (walks_visitExpr kept_unraced test) (walks_visitOption kept_unraced msg)
  | .assign targets value =>
    Tracks.before (tracks_recordAssignmentTargets targets) <| kept_unraced.seq (walks_visitExprs kept_unraced targets)
      (walks_visitExpr kept_unraced value)
  | .annAssign target annotation value =>
    Tracks.before (tracks_recordAssignmentTarget target) <| kept_unraced.seq (walks_visitExpr kept_unraced target) <|
      kept_unraced.seq (walks_visitExpr kept_unraced annotation) (walks_visitOption kept_unraced value)
  | .augAssign target _ value =>
    Tracks.before (tracks_recordAssignmentTarget target) <| kept_unraced.seq (walks_visitExpr kept_unraced target)
      (walks_visitExpr kept_unraced value)
  | .expr value => Tracks.quiet (unraced_visitExprStmt value)
  | .asyncFor target iter body orelse => by
    refine (Tracks.unraced ?_ (loopAssignments_plain target)).seq ?_
    · exact unraced_err nofun
    · exact Tracks.after (walks_visitExpr kept_unraced target) <| Tracks.after (walks_visitExpr kept_unraced iter) <|
        (tracks_visitStmts body).seq (tracks_visitStmts orelse)
  | .for target iter body orelse => by
    refine (Tracks.unraced ?_ (loopAssignments_plain target)).seq ?_
    · exact unraced_modify (fun _ => rfl) (fun _ => rfl) fun _ => rfl
    · exact Tracks.after (walks_visitExpr kept_unraced target) <| Tracks.after (walks_visitExpr kept_unraced iter) <|
        (tracks_visitStmts body).seq <| Tracks.before (tracks_visitStmts orelse)
          (unraced_modify (fun _ => rfl) (fun _ => rfl) fun _ => rfl)
  | .with [item] body => by
    by_cases hparallel : isNameCall item.contextExpr "PARALLEL" = true
    · have h := (tracks_visitStmts body).inParallel
      simp only [assignments, isParallel, hparallel, Bool.or_true, visitStmt, if_true]
      exact h
    · have hnot : isNameCall item.contextExpr "PARALLEL" = false := Bool.eq_false_iff.2 hparallel
      simp only [assignments, isParallel, hnot, Bool.or_false, visitStmt, Bool.false_eq_true, if_false]
      refine Tracks.ite (Tracks.get_bind fun s => Tracks.check nofun ?_) ?_
      · refine Tracks.after (unraced_groupItem item) ?_
        exact Tracks.after (unraced_modify (fun _ => rfl) (fun _ => rfl) fun _ => rfl) <|
          Tracks.before (tracks_visitStmts body) (unraced_modify (fun _ => rfl) (fun _ => rfl) fun _ => rfl)
      · exact Tracks.after (unraced_err nofun) <| Tracks.after (unraced_visitItems _) <| tracks_visitStmts body
  | .with [] body => by
    simp only [assignments, isParallel, Bool.or_false]
    exact Tracks.after (unraced_err nofun) <| Tracks.after (unraced_visitItems []) <| tracks_visitStmts body
  | .with (item :: item' :: items) body => by
    simp only [assignments, isParallel, Bool.or_false]
    exact Tracks.after (unraced_err nofun) <| Tracks.after (unraced_visitItems (item :: item' :: items)) <|
      tracks_visitStmts body
  | .functionDef name _ body decorators returns _ => by
    have inner : Tracks (fun b => blockAssignments b body) (do
        modify fun e => { e with functionDepth := e.functionDepth + 1 }
        visitOption returns
        visitStmts body
        modify fun e => { e with functionDepth := e.functionDepth - 1 }) :=
      Tracks.after (unraced_modify (fun _ => rfl) (fun _ => rfl) fun _ => rfl) <|
        Tracks.after (walks_visitOption kept_unraced returns) <|
          Tracks.before (tracks_visitStmts body) (unraced_modify (fun _ => rfl) (fun _ => rfl) fun _ => rfl)
    have rest : Tracks (fun b => blockAssignments b body) (if !decorators.isEmpty then
        err "decorators are forbidden" >>= fun _ => do
          modify fun e => { e with functionDepth := e.functionDepth + 1 }
          visitOption returns
          visitStmts body
          modify fun e => { e with functionDepth := e.functionDepth - 1 }
      else do
        modify fun e => { e with functionDepth := e.functionDepth + 1 }
        visitOption returns
        visitStmts body
        modify fun e => { e with functionDepth := e.functionDepth - 1 }) := Tracks.check nofun inner
    exact Tracks.get_bind fun s => Tracks.ite (Tracks.after (unraced_err nofun) rest) (Tracks.check nofun rest)
  | .return value =>
    Tracks.get_bind fun s => Tracks.check nofun <| Tracks.quiet <|
      kept_unraced.seq (walks_visitOption kept_unraced value) (walks_visitOption kept_unraced value)
  | .break | .continue =>
    Tracks.get_bind fun _ => Tracks.ite (Tracks.quiet (unraced_err nofun)) (Tracks.quiet (kept_unraced.pure ()))

theorem tracks_visitStmts : ∀ ss : List Stmt, Tracks (fun b => blockAssignments b ss) (visitStmts ss)
  | [] => Tracks.quiet (kept_unraced.pure ())
  | s :: ss => (tracks_visitStmt s).seq (tracks_visitStmts ss)

theorem tracks_visitCases : ∀ cs : List MatchCase, Tracks (fun b => caseAssignments b cs) (visitCases cs)
  | [] => Tracks.quiet (kept_unraced.pure ())
  | .mk _ guard body :: cs =>
    Tracks.after (walks_visitOption kept_unraced guard) <| (tracks_visitStmts body).seq (tracks_visitCases cs)

theorem tracks_visitHandlers : ∀ hs : List ExceptHandler, Tracks (fun b => handlerAssignments b hs) (visitHandlers hs)
  | [] => Tracks.quiet (kept_unraced.pure ())
  | .mk type _ body :: hs =>
    Tracks.after (walks_visitOption kept_unraced type) <| (tracks_visitStmts body).seq (tracks_visitHandlers hs)

end

end Sanitizer

/-- The sanitizer reports a data race on the variable. -/
def reported (m : Module) (x : Text) : Bool :=
  match sanitize m with
  | .ok _ => false
  | .error errors => raceMessage x ∈ errors

/-- The function assigns the variable, in whatever form, both inside a PARALLEL block and outside of all. -/
def races (m : Module) (x : Text) : Bool :=
  match Transformer.graphFunction m.body with
  | none => false
  | some (_, body) => (blockAssignments false body).any (fun a => a.inParallel && a.name == x) &&
    (blockAssignments false body).any fun a => !a.inParallel && a.name == x

/-- In the text an assignment of the bare name outside of all PARALLEL blocks stands before one inside. -/
def outsideFirst (m : Module) (x : Text) : Bool :=
  [outside x, inside x].Sublist (blockAssignments false m.body)

theorem reported_eq (m : Module) (x : Text) : reported m x = outsideFirst m x := by
  have h := (tracks_visitStmts m.body SanitizerEngine.new).races x
  rw [Bool.eq_iff_iff, outsideFirst, decide_eq_true_iff, reported, sanitize]
  refine Iff.trans ?_ (h.trans ?_)
  · split
    · next heq =>
      split at heq
      · next hnil =>
        rw [hnil]
        exact iff_of_false Bool.false_ne_true List.not_mem_nil
      · cases heq
    · next heq =>
      split at heq
      · cases heq
      · cases heq
        exact decide_eq_true_iff
  · refine (or_iff_right ?_).trans (or_iff_right ?_)
    · exact List.not_mem_nil
    · rintro ⟨hmem, -⟩
      cases hmem

/-- The check is exact for a variable where what it looks for is a race and every race is of that kind. Where
only the function assigns, the former is so. -/
theorem race_check (m : Module) (x : Text) : (reported m x = races m x ↔ races m x = outsideFirst m x) ∧
    ∀ args body, Transformer.graphFunction m.body = some (args, body) →
      blockAssignments false m.body = blockAssignments false body →
      (reported m x = races m x ↔ (races m x = true → outsideFirst m x = true)) := by
  rw [reported_eq]
  refine ⟨eq_comm, fun args body hgraph hown => ?_⟩
  have hrace : outsideFirst m x = true → races m x = true := by
    intro h
    rw [outsideFirst, decide_eq_true_iff, hown] at h
    have houtside : outside x ∈ blockAssignments false body := h.subset List.mem_cons_self
    have hinside : inside x ∈ blockAssignments false body :=
      h.subset (List.mem_cons_of_mem _ List.mem_cons_self)
    rw [races, hgraph, Bool.and_eq_true, List.any_eq_true, List.any_eq_true]
    exact ⟨⟨_, hinside, by simp [inside]⟩, ⟨_, houtside, by simp [outside]⟩⟩
  rw [Bool.eq_iff_iff]
  exact ⟨fun h => h.2, fun h => ⟨hrace, h⟩⟩

open Build in
/-- `x = 0`, then `x = 1` in a PARALLEL block -/
def earlierAssignment : Module := graph [] [assign "x" (int 0), parallel [assign "x" (int 1)], ret (name "x")]

theorem race_check_earlier : reported earlierAssignment "x" = races earlierAssignment "x" ∧
    reported earlierAssignment "x" = true := by
  have hfirst : outsideFirst earlierAssignment "x" = true := by decide +kernel
  exact ⟨((race_check earlierAssignment "x").2 _ _ rfl (by decide +kernel)).2 fun _ => hfirst, by decide +kernel⟩

open Build in
/-- `x = 1` in a PARALLEL block, then `x = 0` -/
def laterAssignment : Module := graph [] [parallel [assign "x" (int 1)], assign "x" (int 0), ret (name "x")]

open Build in
/-- `x = 0`, then `for x in range(3)` in a PARALLEL block -/
def sharedLoopTarget : Module :=
  graph [] [assign "x" (int 0), parallel [forIn "x" (range [int 3]) [.pass]], ret (name "x")]

open Build in
/-- `x = 0`, then `x, y = z` in a PARALLEL block -/
def sharedTupleTarget : Module := graph ["z"]
  [assign "x" (int 0), parallel [.assign [.tuple [name "x", name "y"]] (name "z")], ret (name "x")]

/-- None of the three is reported, and each is a race. -/
theorem race_unreported :
    (races laterAssignment "x" = true ∧ reported laterAssignment "x" = false ∧ sanitize laterAssignment = .ok ()) ∧
    (races sharedLoopTarget "x" = true ∧ reported sharedLoopTarget "x" = false) ∧
    (races sharedTupleTarget "x" = true ∧ reported sharedTupleTarget "x" = false) := by
  refine ⟨⟨by decide +kernel, by decide +kernel, ?_⟩, by decide +kernel, by decide +kernel⟩
  rfl

end Tinypipe
