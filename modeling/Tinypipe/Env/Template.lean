import Tinypipe.Env.Providers
import Tinypipe.Lib.Balanced
import Tinypipe.Lib.Scan
import Tinypipe.Lib.Split

/-! Placeholders in a text, for two readers: the resolver (`tinypipe-env/src/template.rs`) and the
extractor of the keys a plan needs (`tinypipe-ir/src/env_deps.rs`). -/

namespace Tinypipe.Environment.Template

open Lib

/-! ### The resolver -/

inductive EnvError where
  | missingRequired (key : Text)
  | template (message : Text)
deriving DecidableEq

/-- The key that `env.get` is asked for, and what comes of it. -/
def resolveSpec {u : Casing} (env : Env u) (spec : Text) : Text × Except EnvError Text :=
  match Text.splitOnce ":-" spec with
  | some (key, default) => (key, .ok ((env.get key).getD default))
  | none =>
    match Text.splitOnce ":?" spec with
    | some (key, _) =>
      (key, match env.get key with
        | some v => .ok v
        | none => .error (.missingRequired key))
    | none => (spec, .ok ((env.get spec).getD []))

/-- How a placeholder is written: with a dollar and a brace, or with two braces. -/
inductive Mark where
  | dollar | double

inductive Piece where
  | literal (c : Char)
  | escape
  | placeholder (m : Mark) (spec : Text)

/-- One turn of the loop of `resolve`: a `$` that escapes, a placeholder, or a character. -/
def nextPiece : Text → Option (Piece × Text)
  | [] => none
  | '$' :: '$' :: '{' :: cs => some (.escape, '{' :: cs)
  | '$' :: '{' :: cs =>
    match closing '{' '}' 1 cs with
    | some (spec, rest) => some (.placeholder .dollar spec, rest)
    | none => some (.literal '$', '{' :: cs)
  | '{' :: '{' :: cs =>
    match closing '{' '}' 1 cs with
    | some (spec, rest) => some (.placeholder .double spec, rest.drop 1)
    | none => some (.literal '{', '{' :: cs)
  | c :: cs => some (.literal c, cs)

/-- What a piece asks for, and what it writes. -/
def Piece.write {u : Casing} (env : Env u) : Piece → Option Text × Except EnvError Text
  | literal c => (none, .ok [c])
  | escape => (none, .ok ['$'])
  | placeholder _ spec => (some (resolveSpec env spec).1, (resolveSpec env spec).2)

/-- The keys that were looked up, with the places of their placeholders, and the result. -/
structure Run where
  looked : List (Nat × Text)
  result : Except EnvError Text

def resolveFrom {u : Casing} (env : Env u) : Nat → Text → Run
  | 0, _ => ⟨[], .ok []⟩
  | n + 1, s =>
    match nextPiece s with
    | none => ⟨[], .ok []⟩
    | some (piece, rest) =>
      let looked := (piece.write env).1.toList.map fun key => (s.length, key)
      match (piece.write env).2 with
      | .error e => ⟨looked, .error e⟩
      | .ok text =>
        let run := resolveFrom env n rest
        ⟨looked ++ run.looked, run.result.map fun out => text ++ out⟩

def resolve {u : Casing} (env : Env u) (s : Text) : Run := resolveFrom env s.length s

/-! ### The extractor -/

structure EnvDep where
  key : Text
  optional : Bool
deriving DecidableEq

/-- `str::strip_suffix` -/
def stripSuffix (suffix t : Text) : Option Text :=
  if suffix <:+ t then some (t.take (t.length - suffix.length)) else none

def specDep (spec : Text) : EnvDep :=
  match stripSuffix ":?" spec with
  | some key => ⟨key, false⟩
  | none =>
    match Text.splitOnce ":-" spec with
    | some (key, _) => ⟨key, true⟩
    | none => ⟨spec, false⟩

/-- One turn of the loop of `extract_template_keys`; `find_seq` takes the first `}` or `}}`. -/
def nextDep : Text → Option (Option EnvDep × Text)
  | [] => none
  | '{' :: '{' :: cs =>
    match Text.splitOnce ['}', '}'] cs with
    | some (spec, rest) => some (some (specDep spec), rest)
    | none => some (none, '{' :: cs)
  | '$' :: '{' :: cs =>
    match Text.splitOnce ['}'] cs with
    | some (spec, rest) => some (some (specDep spec), rest)
    | none => some (none, '{' :: cs)
  | _ :: cs => some (none, cs)

/-- The keys that are extracted, with the places of their placeholders. -/
def reports (s : Text) : List (Nat × EnvDep) :=
  (Scan.scanAll nextDep s).filterMap fun p => p.2.map fun d => (p.1, d)

def extractTemplateKeys (s : Text) : List EnvDep := (reports s).map Prod.snd

/-! ### What the two read in one text -/

namespace Mark

def first : Mark → Char
  | dollar => '$'
  | double => '{'

def opener (m : Mark) : Text := [m.first, '{']

def closer : Mark → Text
  | dollar => ['}']
  | double => ['}', '}']

theorem closer_ne_nil (m : Mark) : m.closer ≠ [] := by cases m <;> exact List.cons_ne_nil _ _

/-- The closer without the brace that the resolver looks for. -/
def extra (m : Mark) : Text := m.closer.drop 1

theorem closer_eq (m : Mark) : m.closer = '}' :: m.extra := by cases m <;> rfl

end Mark

def Piece.spec? : Piece → Option Text
  | placeholder _ spec => some spec
  | literal _ | escape => none

/-- A piece as it stands in a text. -/
def Piece.source : Piece → Text
  | literal c => [c]
  | escape => ['$', '$']
  | placeholder m spec => m.opener ++ (spec ++ m.closer)

def specKey (spec : Text) : Text :=
  match Text.splitOnce ":-" spec with
  | some (key, _) => key
  | none =>
    match Text.splitOnce ":?" spec with
    | some (key, _) => key
    | none => spec

/-- The pieces of a text with their places. They do not depend on the environment. -/
def pieces (s : Text) : List (Nat × Piece) := Scan.scanAll nextPiece s

def lookups (s : Text) : List (Nat × Text) :=
  (pieces s).filterMap fun p => p.2.spec?.map fun spec => (p.1, specKey spec)

def reportedKeys (s : Text) : List (Nat × Text) := (reports s).map fun p => (p.1, p.2.key)

/-- The text begins with an escape or with a placeholder. -/
def Opens (s : Text) : Prop := ['$', '$', '{'] <+: s ∨ ∃ m : Mark, m.opener <+: s

/-- The key of a placeholder for both readers, where one takes `spec` for its content and the other
its beginning `head`: it is all there is, or it is required, or it has a default. -/
inductive SameKey (head spec : Text) : Prop
  | plain : spec = head → ¬(":-" : Text) <:+: spec → ¬(":?" : Text) <:+: spec → SameKey head spec
  | required {key : Text} : head = key ++ (":?" : Text) → ¬(":?" : Text) <:+: key ++ [':'] →
      ¬(":-" : Text) <:+: spec → SameKey head spec
  | defaulted {key default : Text} : head = key ++ ((":-" : Text) ++ default) → ¬(":-" : Text) <:+: key ++ [':'] →
      ¬(":?" : Text) <:+ head → SameKey head spec

/-- No placeholder that opens in `tail` is closed. -/
def Silent (tail rest : Text) : Prop :=
  ∀ (m : Mark) (a b : Text), tail = a ++ (m.opener ++ b) → ¬m.closer <:+: b ++ rest

/-- The texts that both readers take apart alike. A placeholder ends for one at the brace that
matches, for the other at the first closer; what lies between the two opens nothing. -/
inductive Regular : Text → Prop
  | unclosed {s : Text} : '}' ∉ s → Regular s
  | plain {c : Char} {s : Text} : ¬Opens (c :: s) → Regular s → Regular (c :: s)
  | loose {m : Mark} {s : Text} : (∀ spec rest, s = spec ++ '}' :: rest → ¬Balanced '{' '}' spec) →
      ¬m.closer <:+: s → Regular ('{' :: s) → Regular (m.opener ++ s)
  | placeholder {m : Mark} {head spec tail rest : Text} : Balanced '{' '}' spec →
      ¬m.closer <:+: head ++ m.closer.dropLast → spec ++ m.closer = head ++ (m.closer ++ tail) →
      SameKey head spec → Silent tail rest → Regular rest → Regular (m.opener ++ (spec ++ (m.closer ++ rest)))

/-! ### One piece -/

theorem closing_some {t spec rest : Text} :
    closing '{' '}' 1 t = some (spec, rest) ↔ t = spec ++ '}' :: rest ∧ Balanced '{' '}' spec :=
  closing_eq_some_iff (by decide)

theorem nextPiece_placeholder {m : Mark} {s spec rest : Text} (h : closing '{' '}' 1 s = some (spec, rest)) :
    nextPiece (m.opener ++ s) = some (.placeholder m spec, rest.drop m.extra.length) := by
  cases m with
  | dollar =>
    change nextPiece ('$' :: '{' :: s) = _
    rw [nextPiece, h]
    rfl
  | double =>
    change nextPiece ('{' :: '{' :: s) = _
    rw [nextPiece, h]
    rfl

theorem nextPiece_loose {m : Mark} {s : Text} (h : closing '{' '}' 1 s = none) :
    nextPiece (m.opener ++ s) = some (.literal m.first, '{' :: s) := by
  cases m with
  | dollar =>
    change nextPiece ('$' :: '{' :: s) = _
    rw [nextPiece, h]
    rfl
  | double =>
    change nextPiece ('{' :: '{' :: s) = _
    rw [nextPiece, h]
    rfl

theorem nextDep_placeholder {m : Mark} {s head rest : Text} (h : Text.splitOnce m.closer s = some (head, rest)) :
    nextDep (m.opener ++ s) = some (some (specDep head), rest) := by
  cases m with
  | dollar =>
    change nextDep ('$' :: '{' :: s) = _
    rw [nextDep, show Text.splitOnce ['}'] s = some (head, rest) from h]
  | double =>
    change nextDep ('{' :: '{' :: s) = _
    rw [nextDep, show Text.splitOnce ['}', '}'] s = some (head, rest) from h]

theorem nextDep_loose {m : Mark} {s : Text} (h : Text.splitOnce m.closer s = none) :
    nextDep (m.opener ++ s) = some (none, '{' :: s) := by
  cases m with
  | dollar =>
    change nextDep ('$' :: '{' :: s) = _
    rw [nextDep, show Text.splitOnce ['}'] s = none from h]
  | double =>
    change nextDep ('{' :: '{' :: s) = _
    rw [nextDep, show Text.splitOnce ['}', '}'] s = none from h]

theorem opens_dollar (s : Text) : Opens ('$' :: '{' :: s) := Or.inr ⟨.dollar, s, rfl⟩

theorem opens_double (s : Text) : Opens ('{' :: '{' :: s) := Or.inr ⟨.double, s, rfl⟩

theorem nextPiece_plain {c : Char} {s : Text} (h : ¬Opens (c :: s)) : nextPiece (c :: s) = some (.literal c, s) := by
  rw [nextPiece.eq_def]
  split
  next heq => cases heq
  next cs heq => exact absurd (heq ▸ Or.inl ⟨cs, rfl⟩) h
  next cs heq => exact absurd (heq ▸ opens_dollar cs) h
  next cs heq => exact absurd (heq ▸ opens_double cs) h
  next d cs _ _ _ heq =>
    obtain ⟨rfl, rfl⟩ := List.cons.inj heq
    rfl

theorem nextDep_plain {c : Char} {s : Text} (h : ∀ m : Mark, ¬m.opener <+: c :: s) :
    nextDep (c :: s) = some (none, s) := by
  rw [nextDep.eq_def]
  split
  next heq => cases heq
  next cs heq => exact absurd (heq ▸ ⟨cs, rfl⟩) (h .double)
  next cs heq => exact absurd (heq ▸ ⟨cs, rfl⟩) (h .dollar)
  next d cs _ _ heq =>
    obtain ⟨rfl, rfl⟩ := List.cons.inj heq
    rfl

/-- A text that begins with a placeholder, if it opens at all and no escape comes first. -/
theorem not_opener_of_not_opens {s : Text} (h : ¬Opens s) (m : Mark) : ¬m.opener <+: s := fun hm => h (Or.inr ⟨m, hm⟩)

/-- Where nothing is extracted, the extractor goes on by one character. -/
theorem nextDep_cases (c : Char) (s : Text) : nextDep (c :: s) = some (none, s) ∧
      (∀ (m : Mark) (t : Text), c :: s = m.opener ++ t → ¬m.closer <:+: t) ∨
    ∃ (m : Mark) (t head rest : Text), c :: s = m.opener ++ t ∧ Text.splitOnce m.closer t = some (head, rest) ∧
      nextDep (c :: s) = some (some (specDep head), rest) := by
  by_cases hopen : ∃ m : Mark, m.opener <+: c :: s
  · obtain ⟨m, t, heq⟩ := hopen
    have htail : s = '{' :: t := (List.cons.inj heq).2.symm
    cases hsplit : Text.splitOnce m.closer t with
    | none =>
      left
      refine ⟨by rw [← heq, nextDep_loose hsplit, htail], fun m' t' heq' => ?_⟩
      have hsame : m = m' ∧ t = t' := by
        have h := heq.trans heq'
        cases m <;> cases m' <;> simp [Mark.opener, Mark.first] at h ⊢
        · exact h
        · exact h
      obtain ⟨rfl, rfl⟩ := hsame
      exact (Text.splitOnce_eq_none_iff m.closer_ne_nil).1 hsplit
    | some p => exact Or.inr ⟨m, t, p.1, p.2, heq.symm, hsplit, by rw [← heq, nextDep_placeholder hsplit]⟩
  · left
    refine ⟨nextDep_plain fun m hm => hopen ⟨m, hm⟩, fun m t heq => ?_⟩
    exact absurd ⟨m, t, heq.symm⟩ hopen

theorem nextDep_shrinks : Scan.Shrinks nextDep := by
  intro s x rest h
  cases s with
  | nil => cases h
  | cons c s =>
    rcases nextDep_cases c s with ⟨hnext, -⟩ | ⟨m, t, head, r, heq, hsplit, hnext⟩
    · rw [hnext, Option.some.injEq, Prod.mk.injEq] at h
      rw [← h.2]
      exact Nat.lt_succ_self _
    · rw [hnext, Option.some.injEq, Prod.mk.injEq] at h
      have hlen := congrArg List.length (Text.splitOnce_eq hsplit)
      rw [← h.2, heq, List.length_append]
      rw [List.length_append, List.length_append] at hlen
      have hopener : m.opener.length = 2 := rfl
      omega

theorem nextPiece_shrinks : Scan.Shrinks nextPiece := by
  intro s x rest h
  have hclosing : ∀ {t spec r : Text}, closing '{' '}' 1 t = some (spec, r) → r.length < t.length := by
    intro t spec r hc
    rw [(closing_some.1 hc).1, List.length_append, List.length_cons]
    omega
  rw [nextPiece.eq_def] at h
  split at h
  · cases h
  · cases h
    simp
  · split at h
    · next hc =>
      cases h
      have hlt := hclosing hc
      simp only [List.length_cons]
      omega
    · cases h
      simp
  · split at h
    · next hc =>
      cases h
      have hlt := hclosing hc
      simp only [List.length_cons, List.length_drop]
      omega
    · cases h
      simp
  · cases h
    simp

/-! ### Scanning on -/

theorem pieces_cons {s rest : Text} {p : Piece} (h : nextPiece s = some (p, rest)) :
    pieces s = (s.length, p) :: pieces rest := Scan.scanAll_some nextPiece_shrinks h

theorem reports_none {s rest : Text} (h : nextDep s = some (none, rest)) : reports s = reports rest := by
  rw [reports, Scan.scanAll_some nextDep_shrinks h]
  rfl

theorem reports_some {s rest : Text} {d : EnvDep} (h : nextDep s = some (some d, rest)) :
    reports s = (s.length, d) :: reports rest := by
  rw [reports, Scan.scanAll_some nextDep_shrinks h]
  rfl

theorem piece_place_le {n : Nat} {p : Piece} {s : Text} (h : (n, p) ∈ pieces s) : n ≤ s.length :=
  Scan.place_le nextPiece_shrinks h

theorem report_place_le {n : Nat} {d : EnvDep} {s : Text} (h : (n, d) ∈ reports s) : n ≤ s.length := by
  obtain ⟨⟨k, x⟩, hmem, hx⟩ := List.mem_filterMap.1 h
  obtain ⟨d', -, heq⟩ := Option.map_eq_some_iff.1 hx
  rw [← (Prod.mk.inj heq).1]
  exact Scan.place_le nextDep_shrinks hmem

/-- Over a silent text the extractor goes without a report. -/
theorem reports_silent {tail rest : Text} (h : Silent tail rest) (hend : tail.getLast? = some '}' ∨ tail = []) :
    reports (tail ++ rest) = reports rest := by
  induction tail with
  | nil => rfl
  | cons c tail ih =>
    have htail : tail.getLast? = some '}' ∨ tail = [] := by
      cases tail with
      | nil => exact Or.inr rfl
      | cons d ds =>
        left
        simpa using hend
    have hstep : nextDep (c :: (tail ++ rest)) = some (none, tail ++ rest) := by
      rcases nextDep_cases c (tail ++ rest) with ⟨hnext, -⟩ | ⟨m, t, head, r, heq, hsplit, -⟩
      · exact hnext
      · -- the opener would lie within the tail, which ends with a closing brace
        cases tail with
        | nil =>
          have hc : c = '}' := by simpa using hend
          have hfirst : m.first = '}' := (List.cons.inj heq).1.symm.trans hc
          cases m <;> exact absurd hfirst (by decide)
        | cons d ds =>
          obtain ⟨hc, hrest⟩ := List.cons.inj heq
          obtain ⟨hd, ht⟩ := List.cons.inj hrest
          have hopener : c :: d :: ds = [] ++ (m.opener ++ ds) := by rw [hc, hd]; rfl
          have htext : ds ++ rest = t := ht
          refine absurd ⟨head, r, ?_⟩ (h m [] ds hopener)
          rw [htext, Text.splitOnce_eq hsplit]
    rw [List.cons_append, reports_none hstep]
    refine ih (fun m a b heq => h m (c :: a) b (by rw [heq]; rfl)) htail

/-- Where all reports are behind a text, the text is silent. -/
theorem silent_of_places {tail rest : Text} (h : ∀ n d, (n, d) ∈ reports (tail ++ rest) → n ≤ rest.length) :
    Silent tail rest ∧ reports (tail ++ rest) = reports rest := by
  induction tail with
  | nil => exact ⟨fun m a b heq => by simp [Mark.opener] at heq, rfl⟩
  | cons c tail ih =>
    rcases nextDep_cases c (tail ++ rest) with ⟨hnext, hloose⟩ | ⟨m, t, head, r, -, -, hnext⟩
    · rw [List.cons_append, reports_none hnext] at h
      obtain ⟨hsilent, hreports⟩ := ih h
      refine ⟨fun m a b heq => ?_, by rw [List.cons_append, reports_none hnext, hreports]⟩
      cases a with
      | nil =>
        refine hloose m (b ++ rest) ?_
        rw [← List.cons_append, heq]
        simp
      | cons a as => exact hsilent m as b (List.cons.inj heq).2
    · rw [List.cons_append, reports_some hnext] at h
      have hle := h _ _ List.mem_cons_self
      rw [List.length_cons, List.length_append] at hle
      omega

/-! ### Keys -/

theorem stripSuffix_eq_some {suffix t key : Text} : stripSuffix suffix t = some key ↔ t = key ++ suffix := by
  rw [stripSuffix]
  constructor
  · intro h
    split at h
    case isTrue hsuffix =>
      obtain ⟨front, rfl⟩ := hsuffix
      rw [List.length_append, Nat.add_sub_cancel, List.take_left, Option.some.injEq] at h
      rw [h]
    case isFalse => cases h
  · rintro rfl
    rw [if_pos (List.suffix_append _ _), List.length_append, Nat.add_sub_cancel, List.take_left]

theorem stripSuffix_eq_none {suffix t : Text} : stripSuffix suffix t = none ↔ ¬suffix <:+ t := by
  rw [stripSuffix]
  split
  case isTrue h => exact iff_of_false (by simp) (not_not_intro h)
  case isFalse h => exact iff_of_true rfl h

/-- A placeholder for the extractor is a beginning of the one for the resolver, up to a brace. -/
def Begins (head spec : Text) : Prop := spec = head ∨ ∃ tail, spec = head ++ '}' :: tail

theorem Begins.prefix {head spec : Text} (h : Begins head spec) : head <+: spec := by
  rcases h with rfl | ⟨tail, rfl⟩
  · exact List.prefix_refl _
  · exact List.prefix_append _ _

theorem Begins.not_marked {head spec r : Text} {c : Char} (h : Begins head spec) (hc : c ≠ '}')
    (heq : spec = head ++ c :: r) : False := by
  rcases h with rfl | ⟨tail, rfl⟩
  · simp at heq
  · have htail := List.append_cancel_left heq
    exact hc (List.cons.inj htail).1.symm

theorem specKey_of_default {spec key r : Text} (h : Text.splitOnce ":-" spec = some (key, r)) : specKey spec = key := by
  rw [specKey, h]

theorem specKey_of_required {spec key r : Text} (hnone : Text.splitOnce ":-" spec = none)
    (h : Text.splitOnce ":?" spec = some (key, r)) : specKey spec = key := by
  rw [specKey, hnone]
  dsimp only
  rw [h]

theorem specKey_of_plain {spec : Text} (hnone : Text.splitOnce ":-" spec = none)
    (hnone' : Text.splitOnce ":?" spec = none) : specKey spec = spec := by
  rw [specKey, hnone]
  dsimp only
  rw [hnone']

theorem specDep_of_required {head key : Text} (h : head = key ++ (":?" : Text)) : specDep head = ⟨key, false⟩ := by
  rw [specDep, stripSuffix_eq_some.2 h]

theorem specDep_of_default {head key r : Text} (hnone : ¬(":?" : Text) <:+ head)
    (h : Text.splitOnce ":-" head = some (key, r)) : specDep head = ⟨key, true⟩ := by
  rw [specDep, stripSuffix_eq_none.2 hnone]
  dsimp only
  rw [h]

theorem specDep_of_plain {head : Text} (hnone : ¬(":?" : Text) <:+ head)
    (h : Text.splitOnce ":-" head = none) : specDep head = ⟨head, false⟩ := by
  rw [specDep, stripSuffix_eq_none.2 hnone]
  dsimp only
  rw [h]

theorem split_default {t key r : Text} : Text.splitOnce ":-" t = some (key, r) ↔
    t = key ++ ((":-" : Text) ++ r) ∧ ¬(":-" : Text) <:+: key ++ [':'] := Text.splitOnce_eq_some_iff (by decide)

theorem split_required {t key r : Text} : Text.splitOnce ":?" t = some (key, r) ↔
    t = key ++ ((":?" : Text) ++ r) ∧ ¬(":?" : Text) <:+: key ++ [':'] := Text.splitOnce_eq_some_iff (by decide)

/-- What the extractor says of a placeholder that the resolver reads as `spec`. -/
def Fits (spec : Text) (d : EnvDep) : Prop :=
  d.key = specKey spec ∧ (Text.splitOnce ":-" spec = none → d.optional = false)

theorem fits_of_sameKey {head spec : Text} (hbegins : Begins head spec) (h : SameKey head spec) :
    Fits spec (specDep head) := by
  cases h with
  | plain heq hdefault hrequired =>
    subst heq
    have hsuffix : ¬(":?" : Text) <:+ spec := fun hs => hrequired hs.isInfix
    have hnone := (Text.splitOnce_eq_none_iff (by decide)).2 hdefault
    rw [specDep_of_plain hsuffix hnone]
    exact ⟨(specKey_of_plain hnone ((Text.splitOnce_eq_none_iff (by decide)).2 hrequired)).symm, fun _ => rfl⟩
  | @required key heq hfirst hdefault =>
    have hnone := (Text.splitOnce_eq_none_iff (by decide)).2 hdefault
    obtain ⟨r, hr⟩ := hbegins.prefix
    have hsplit : Text.splitOnce ":?" spec = some (key, r) := by
      refine split_required.2 ⟨?_, hfirst⟩
      rw [← hr, heq, List.append_assoc]
    rw [specDep_of_required heq]
    exact ⟨(specKey_of_required hnone hsplit).symm, fun _ => rfl⟩
  | @defaulted key default heq hfirst hsuffix =>
    obtain ⟨r, hr⟩ := hbegins.prefix
    have hsplit : Text.splitOnce ":-" spec = some (key, default ++ r) := by
      refine split_default.2 ⟨?_, hfirst⟩
      rw [← hr, heq, List.append_assoc, List.append_assoc]
    rw [specDep_of_default hsuffix (split_default.2 ⟨heq, hfirst⟩)]
    refine ⟨(specKey_of_default hsplit).symm, fun hnone => ?_⟩
    rw [hsplit] at hnone
    cases hnone

theorem sameKey_of_key {head spec : Text} (hbegins : Begins head spec) (h : (specDep head).key = specKey spec) :
    SameKey head spec := by
  by_cases hsuffix : (":?" : Text) <:+ head
  · obtain ⟨key, hkey⟩ := hsuffix
    obtain ⟨r, hr⟩ := hbegins.prefix
    have hspec : spec = key ++ ((":?" : Text) ++ r) := by rw [← hr, ← hkey, List.append_assoc]
    rw [specDep_of_required hkey.symm] at h
    cases hdefault : Text.splitOnce ":-" spec with
    | some p =>
      -- the key would have to end before a `-` and before a `?`
      obtain ⟨heq, -⟩ := split_default.1 hdefault
      rw [specKey_of_default hdefault] at h
      rw [← h, hspec] at heq
      have hcons := List.append_cancel_left heq
      exact absurd (List.cons.inj (List.cons.inj hcons).2).1 (by decide)
    | none =>
      cases hrequired : Text.splitOnce ":?" spec with
      | none =>
        exact absurd ⟨key, r, by rw [hspec, List.append_assoc]⟩ ((Text.splitOnce_eq_none_iff (by decide)).1 hrequired)
      | some p =>
        obtain ⟨-, hfirst⟩ := split_required.1 hrequired
        rw [specKey_of_required hdefault hrequired] at h
        dsimp only at h
        exact .required hkey.symm (h ▸ hfirst) ((Text.splitOnce_eq_none_iff (by decide)).1 hdefault)
  · cases hdefault : Text.splitOnce ":-" head with
    | some p =>
      obtain ⟨heq, hfirst⟩ := split_default.1 hdefault
      exact .defaulted heq hfirst hsuffix
    | none =>
      rw [specDep_of_plain hsuffix hdefault] at h
      dsimp only at h
      cases hdefault' : Text.splitOnce ":-" spec with
      | some p =>
        rw [specKey_of_default hdefault'] at h
        exact (hbegins.not_marked (by decide) (h ▸ (split_default.1 hdefault').1)).elim
      | none =>
        cases hrequired : Text.splitOnce ":?" spec with
        | some p =>
          rw [specKey_of_required hdefault' hrequired] at h
          exact (hbegins.not_marked (by decide) (h ▸ (split_required.1 hrequired).1)).elim
        | none =>
          rw [specKey_of_plain hdefault' hrequired] at h
          exact .plain h.symm ((Text.splitOnce_eq_none_iff (by decide)).1 hdefault')
            ((Text.splitOnce_eq_none_iff (by decide)).1 hrequired)

/-! ### Regular texts -/

/-- Placeholder by placeholder, what is looked up is what is extracted. -/
structure Matched (s : Text) : Prop where
  piece : ∀ n m spec, (n, Piece.placeholder m spec) ∈ pieces s → ∃ d, (n, d) ∈ reports s ∧ Fits spec d
  report : ∀ n d, (n, d) ∈ reports s → ∃ m spec, (n, Piece.placeholder m spec) ∈ pieces s ∧ Fits spec d
  escaped : ∀ n, (n, Piece.escape) ∈ pieces s → ∀ d, (n - 1, d) ∉ reports s
  verbatim : (pieces s).flatMap (fun p => p.2.source) = s

theorem nextPiece_cases (c : Char) (s : Text) :
    (∃ t, c :: s = '$' :: '$' :: '{' :: t ∧ nextPiece (c :: s) = some (.escape, '{' :: t)) ∨
    nextPiece (c :: s) = some (.literal c, s) ∨
    ∃ (m : Mark) (t spec rest : Text), c :: s = m.opener ++ t ∧ closing '{' '}' 1 t = some (spec, rest) ∧
      nextPiece (c :: s) = some (.placeholder m spec, rest.drop m.extra.length) := by
  by_cases hopens : Opens (c :: s)
  · rcases hopens with ⟨t, heq⟩ | ⟨m, t, heq⟩
    · refine Or.inl ⟨t, heq.symm, ?_⟩
      rw [← heq]
      rfl
    · right
      cases hclosing : closing '{' '}' 1 t with
      | none =>
        left
        obtain ⟨hc, hs⟩ := List.cons.inj heq
        have hs' : '{' :: t = s := hs
        rw [← heq, nextPiece_loose hclosing, hc, hs']
      | some p => exact Or.inr ⟨m, t, p.1, p.2, heq.symm, hclosing, by rw [← heq, nextPiece_placeholder hclosing]⟩
  · exact Or.inr (Or.inl (nextPiece_plain hopens))

/-- A character is copied, and the extractor goes past it. -/
theorem Matched.literal {c : Char} {s : Text} (hpieces : nextPiece (c :: s) = some (.literal c, s))
    (hreports : nextDep (c :: s) = some (none, s)) (h : Matched s) : Matched (c :: s) := by
  have hcons := pieces_cons hpieces
  have hsame := reports_none hreports
  constructor
  case piece =>
    intro n m spec hmem
    rw [hcons, List.mem_cons] at hmem
    rcases hmem with heq | hmem
    · cases heq
    · rw [hsame]
      exact h.piece n m spec hmem
  case report =>
    intro n d hmem
    rw [hsame] at hmem
    obtain ⟨m, spec, hpiece, hfits⟩ := h.report n d hmem
    exact ⟨m, spec, by rw [hcons]; exact List.mem_cons_of_mem _ hpiece, hfits⟩
  case escaped =>
    intro n hmem
    rw [hcons, List.mem_cons] at hmem
    rcases hmem with heq | hmem
    · cases heq
    · rw [hsame]
      exact h.escaped n hmem
  case verbatim =>
    rw [hcons, List.flatMap_cons, h.verbatim]
    rfl

theorem not_mem_of_split {m : Mark} {t head r : Text} (h : Text.splitOnce m.closer t = some (head, r)) : '}' ∈ t := by
  rw [Text.splitOnce_eq h, m.closer_eq]
  simp

theorem reports_unclosed {s : Text} (h : '}' ∉ s) : reports s = [] := by
  induction s with
  | nil => rfl
  | cons c s ih =>
    rw [List.mem_cons, not_or] at h
    rcases nextDep_cases c s with ⟨hnext, -⟩ | ⟨m, t, head, r, heq, hsplit, -⟩
    · rw [reports_none hnext, ih h.2]
    · obtain ⟨-, hs⟩ := List.cons.inj heq
      exact absurd (hs ▸ List.mem_cons_of_mem _ (not_mem_of_split hsplit)) h.2

/-- Without a closing brace there is no placeholder. -/
theorem pieces_unclosed {s : Text} (h : '}' ∉ s) : (∀ n m spec, (n, Piece.placeholder m spec) ∉ pieces s) ∧
    (pieces s).flatMap (fun p => p.2.source) = s := by
  induction hlen : s.length using Nat.strong_induction_on generalizing s with
  | _ k ih =>
    cases s with
    | nil => exact ⟨fun _ _ _ => List.not_mem_nil, rfl⟩
    | cons c s =>
      have hstep : ∀ {p : Piece} {rest : Text}, nextPiece (c :: s) = some (p, rest) → (∀ m spec, p ≠ .placeholder m spec) →
          p.source ++ rest = c :: s → (∀ n m spec, (n, Piece.placeholder m spec) ∉ pieces (c :: s)) ∧
            (pieces (c :: s)).flatMap (fun p => p.2.source) = c :: s := by
        intro p rest hnext hp hsource
        have hlt := nextPiece_shrinks _ _ _ hnext
        have hrest : '}' ∉ rest := fun hmem => h (hsource ▸ List.mem_append_right _ hmem)
        obtain ⟨hnone, hverbatim⟩ := ih rest.length (hlen ▸ hlt) hrest rfl
        rw [pieces_cons hnext]
        refine ⟨fun n m spec hmem => ?_, by rw [List.flatMap_cons, hverbatim, hsource]⟩
        rcases List.mem_cons.1 hmem with heq | hmem
        · exact hp m spec (Prod.mk.inj heq).2.symm
        · exact hnone n m spec hmem
      rcases nextPiece_cases c s with ⟨t, heq, hnext⟩ | hnext | ⟨m, t, spec, rest, heq, hclosing, -⟩
      · exact hstep hnext (fun m spec h => by cases h) (by rw [heq]; rfl)
      · exact hstep hnext (fun m spec h => by cases h) rfl
      · refine absurd ?_ h
        rw [heq, (closing_some.1 hclosing).1]
        simp

/-- The two ends of a placeholder. -/
theorem begins_of_eq {m : Mark} {head spec tail : Text} (h : spec ++ m.closer = head ++ (m.closer ++ tail)) :
    Begins head spec ∧ (tail.getLast? = some '}' ∨ tail = []) := by
  constructor
  · rcases List.append_eq_append_iff.1 h with ⟨a, hhead, hclose⟩ | ⟨a, hspec, hclose⟩
    · have hlen := congrArg List.length hclose
      rw [List.length_append, List.length_append] at hlen
      obtain rfl : a = [] := List.eq_nil_of_length_eq_zero (by omega)
      rw [List.append_nil] at hhead
      exact Or.inl hhead.symm
    · cases a with
      | nil =>
        rw [List.append_nil] at hspec
        exact Or.inl hspec
      | cons x xs =>
        rw [m.closer_eq] at hclose
        have hx : '}' = x := (List.cons.inj hclose).1
        exact Or.inr ⟨xs, by rw [hspec, hx]⟩
  · cases tail using List.reverseRecOn with
    | nil => exact Or.inr rfl
    | append_singleton tail x =>
      left
      have hlast := congrArg List.getLast? h
      have hcloser : (spec ++ m.closer).getLast? = some '}' := by cases m <;> simp [Mark.closer]
      rw [hcloser, ← List.append_assoc, ← List.append_assoc, List.getLast?_concat] at hlast
      rw [List.getLast?_concat, hlast]

theorem drop_extra (m : Mark) (rest : Text) : (m.extra ++ rest).drop m.extra.length = rest := List.drop_left

theorem closing_placeholder {m : Mark} {spec : Text} (h : Balanced '{' '}' spec) (rest : Text) :
    closing '{' '}' 1 (spec ++ (m.closer ++ rest)) = some (spec, m.extra ++ rest) := by
  refine closing_some.2 ⟨?_, h⟩
  rw [m.closer_eq, List.cons_append]

theorem matched_of_regular {s : Text} (h : Regular s) : Matched s := by
  induction h with
  | @unclosed s h =>
    obtain ⟨hnone, hverbatim⟩ := pieces_unclosed h
    have hreports := reports_unclosed h
    refine ⟨fun n m spec hmem => absurd hmem (hnone n m spec), fun n d hmem => ?_, fun n _ d hmem => ?_, hverbatim⟩
    · rw [hreports] at hmem
      cases hmem
    · rw [hreports] at hmem
      cases hmem
  | plain hopens _ ih =>
    exact ih.literal (nextPiece_plain hopens) (nextDep_plain (not_opener_of_not_opens hopens))
  | @loose m s hclosing hsplit _ ih =>
    have hnone : closing '{' '}' 1 s = none := by
      cases hc : closing '{' '}' 1 s with
      | none => rfl
      | some p =>
        obtain ⟨heq, hbalanced⟩ := closing_some.1 hc
        exact absurd hbalanced (hclosing p.1 p.2 heq)
    exact ih.literal (nextPiece_loose hnone) (nextDep_loose ((Text.splitOnce_eq_none_iff m.closer_ne_nil).2 hsplit))
  | @placeholder m head spec tail rest hbalanced hfirst heq hkey hsilent _ ih =>
    obtain ⟨hbegins, hend⟩ := begins_of_eq heq
    have hpieces : pieces (m.opener ++ (spec ++ (m.closer ++ rest))) =
        ((m.opener ++ (spec ++ (m.closer ++ rest))).length, .placeholder m spec) :: pieces rest := by
      have hnext := nextPiece_placeholder (m := m) (closing_placeholder (m := m) hbalanced rest)
      rw [drop_extra] at hnext
      exact pieces_cons hnext
    have htext : spec ++ (m.closer ++ rest) = head ++ (m.closer ++ (tail ++ rest)) := by
      rw [← List.append_assoc, heq]
      simp
    have hreports : reports (m.opener ++ (spec ++ (m.closer ++ rest))) =
        ((m.opener ++ (spec ++ (m.closer ++ rest))).length, specDep head) :: reports rest := by
      have hsplit : Text.splitOnce m.closer (spec ++ (m.closer ++ rest)) = some (head, tail ++ rest) :=
        (Text.splitOnce_eq_some_iff m.closer_ne_nil).2 ⟨htext, hfirst⟩
      rw [reports_some (nextDep_placeholder hsplit), reports_silent hsilent hend]
    have hlong : rest.length < (m.opener ++ (spec ++ (m.closer ++ rest))).length := by
      rw [m.closer_eq]
      simp only [List.length_append, List.length_cons]
      omega
    have hfits := fits_of_sameKey hbegins hkey
    constructor
    case piece =>
      intro n m' spec' hmem
      rw [hpieces, List.mem_cons] at hmem
      rw [hreports]
      rcases hmem with hhead | hmem
      · obtain ⟨rfl, hp⟩ := Prod.mk.inj hhead
        obtain ⟨-, rfl⟩ := Piece.placeholder.inj hp
        exact ⟨_, List.mem_cons_self, hfits⟩
      · obtain ⟨d, hd, hfit⟩ := ih.piece n m' spec' hmem
        exact ⟨d, List.mem_cons_of_mem _ hd, hfit⟩
    case report =>
      intro n d hmem
      rw [hreports, List.mem_cons] at hmem
      rw [hpieces]
      rcases hmem with hhead | hmem
      · obtain ⟨rfl, rfl⟩ := Prod.mk.inj hhead
        exact ⟨m, spec, List.mem_cons_self, hfits⟩
      · obtain ⟨m', spec', hp, hfit⟩ := ih.report n d hmem
        exact ⟨m', spec', List.mem_cons_of_mem _ hp, hfit⟩
    case escaped =>
      intro n hmem d hreport
      rw [hpieces, List.mem_cons] at hmem
      rw [hreports, List.mem_cons] at hreport
      rcases hmem with hhead | hmem
      · cases (Prod.mk.inj hhead).2
      · rcases hreport with hhead | hreport
        · have hle := piece_place_le hmem
          have heq := (Prod.mk.inj hhead).1
          omega
        · exact ih.escaped n hmem d hreport
    case verbatim =>
      rw [hpieces, List.flatMap_cons, ih.verbatim, Piece.source]
      simp

/-- The two readers ask for the same keys at the same places, and no character is lost between them. -/
structure Agree (s : Text) : Prop where
  same : ∀ x, x ∈ lookups s ↔ x ∈ reportedKeys s
  verbatim : (pieces s).flatMap (fun p => p.2.source) = s

theorem lookups_literal {s rest : Text} {p : Piece} (h : nextPiece s = some (p, rest)) (hp : p.spec? = none) :
    lookups s = lookups rest := by
  rw [lookups, pieces_cons h, List.filterMap_cons, hp]
  rfl

theorem lookups_placeholder {s rest spec : Text} {m : Mark} (h : nextPiece s = some (.placeholder m spec, rest)) :
    lookups s = (s.length, specKey spec) :: lookups rest := by
  rw [lookups, pieces_cons h]
  rfl

theorem mem_lookups {n : Nat} {key s : Text} :
    (n, key) ∈ lookups s ↔ ∃ m spec, (n, Piece.placeholder m spec) ∈ pieces s ∧ specKey spec = key := by
  rw [lookups, List.mem_filterMap]
  constructor
  · rintro ⟨⟨k, p⟩, hmem, hp⟩
    cases p with
    | literal c => cases hp
    | escape => cases hp
    | placeholder m spec =>
      obtain ⟨rfl, hkey⟩ := Prod.mk.inj (Option.some.inj hp)
      exact ⟨m, spec, hmem, hkey⟩
  · rintro ⟨m, spec, hmem, rfl⟩
    exact ⟨_, hmem, rfl⟩

theorem mem_reportedKeys {n : Nat} {key s : Text} :
    (n, key) ∈ reportedKeys s ↔ ∃ d, (n, d) ∈ reports s ∧ d.key = key := by
  rw [reportedKeys, List.mem_map]
  constructor
  · rintro ⟨⟨k, d⟩, hmem, hd⟩
    obtain ⟨rfl, rfl⟩ := Prod.mk.inj hd
    exact ⟨d, hmem, rfl⟩
  · rintro ⟨d, hmem, rfl⟩
    exact ⟨_, hmem, rfl⟩

theorem lookup_place_le {n : Nat} {key s : Text} (h : (n, key) ∈ lookups s) : n ≤ s.length := by
  obtain ⟨m, spec, hmem, -⟩ := mem_lookups.1 h
  exact piece_place_le hmem

theorem reported_place_le {n : Nat} {key s : Text} (h : (n, key) ∈ reportedKeys s) : n ≤ s.length := by
  obtain ⟨d, hmem, -⟩ := mem_reportedKeys.1 h
  exact report_place_le hmem

theorem Matched.agree {s : Text} (h : Matched s) : Agree s := by
  refine ⟨fun ⟨n, key⟩ => ?_, h.verbatim⟩
  rw [mem_lookups, mem_reportedKeys]
  constructor
  · rintro ⟨m, spec, hmem, rfl⟩
    obtain ⟨d, hd, hfits⟩ := h.piece n m spec hmem
    exact ⟨d, hd, hfits.1⟩
  · rintro ⟨d, hd, rfl⟩
    obtain ⟨m, spec, hmem, hfits⟩ := h.report n d hd
    exact ⟨m, spec, hmem, hfits.1.symm⟩

/-- A character that both go past. -/
theorem Agree.rest {c : Char} {s : Text} (h : Agree (c :: s)) (hpieces : nextPiece (c :: s) = some (.literal c, s))
    (hreports : nextDep (c :: s) = some (none, s)) : Agree s := by
  constructor
  · intro x
    have hsame := h.same x
    rwa [lookups_literal hpieces rfl, reportedKeys, reports_none hreports] at hsame
  · have hverbatim := h.verbatim
    rw [pieces_cons hpieces, List.flatMap_cons] at hverbatim
    exact (List.cons.inj hverbatim).2

/-- The two ends of a placeholder, from the texts behind them. -/
theorem exists_tail {m : Mark} {spec head rest r : Text} (hfirst : ¬m.closer <:+: head ++ m.closer.dropLast)
    (h : spec ++ (m.closer ++ rest) = head ++ (m.closer ++ r)) :
    ∃ tail, r = tail ++ rest ∧ spec ++ m.closer = head ++ (m.closer ++ tail) := by
  rw [← List.append_assoc, ← List.append_assoc] at h
  rcases List.append_eq_append_iff.1 h with ⟨a, hhead, hrest⟩ | ⟨a, hspec, hr⟩
  · cases a using List.reverseRecOn with
    | nil =>
      rw [List.append_nil] at hhead
      exact ⟨[], hrest.symm, by rw [List.append_nil, hhead]⟩
    | append_singleton a x =>
      refine absurd ?_ hfirst
      have hdrop := congrArg List.dropLast hhead
      rw [List.dropLast_append_of_ne_nil m.closer_ne_nil, ← List.append_assoc, List.dropLast_concat] at hdrop
      rw [hdrop]
      exact ⟨spec, a, rfl⟩
  · exact ⟨a, hr, by rw [hspec, List.append_assoc]⟩

/-- A placeholder of both readers. -/
theorem regular_placeholder {m : Mark} {spec head rest r : Text} (hbalanced : Balanced '{' '}' spec)
    (hfirst : ¬m.closer <:+: head ++ m.closer.dropLast) (htext : spec ++ (m.closer ++ rest) = head ++ (m.closer ++ r))
    (hagree : Agree (m.opener ++ (spec ++ (m.closer ++ rest)))) (ih : Agree rest → Regular rest) :
    Regular (m.opener ++ (spec ++ (m.closer ++ rest))) := by
  have hlookups : lookups (m.opener ++ (spec ++ (m.closer ++ rest))) =
      ((m.opener ++ (spec ++ (m.closer ++ rest))).length, specKey spec) :: lookups rest := by
    have hnext := nextPiece_placeholder (m := m) (closing_placeholder (m := m) hbalanced rest)
    rw [drop_extra] at hnext
    exact lookups_placeholder hnext
  have hpieces : pieces (m.opener ++ (spec ++ (m.closer ++ rest))) =
      ((m.opener ++ (spec ++ (m.closer ++ rest))).length, .placeholder m spec) :: pieces rest := by
    have hnext := nextPiece_placeholder (m := m) (closing_placeholder (m := m) hbalanced rest)
    rw [drop_extra] at hnext
    exact pieces_cons hnext
  have hlong : rest.length < (m.opener ++ (spec ++ (m.closer ++ rest))).length := by
    rw [m.closer_eq]
    simp only [List.length_append, List.length_cons]
    omega
  obtain ⟨tail, rfl, heq⟩ := exists_tail hfirst htext
  have hreports : reports (m.opener ++ (spec ++ (m.closer ++ rest))) =
      ((m.opener ++ (spec ++ (m.closer ++ rest))).length, specDep head) :: reports (tail ++ rest) := by
    have hsplit : Text.splitOnce m.closer (spec ++ (m.closer ++ rest)) = some (head, tail ++ rest) :=
      (Text.splitOnce_eq_some_iff m.closer_ne_nil).2 ⟨htext, hfirst⟩
    exact reports_some (nextDep_placeholder hsplit)
  have hreported : reportedKeys (m.opener ++ (spec ++ (m.closer ++ rest))) =
      ((m.opener ++ (spec ++ (m.closer ++ rest))).length, (specDep head).key) :: reportedKeys (tail ++ rest) := by
    rw [reportedKeys, hreports]
    rfl
  have hsame := hagree.same
  rw [hlookups, hreported] at hsame
  have htail : (tail ++ rest).length < (m.opener ++ (spec ++ (m.closer ++ rest))).length := by
    have hlen := congrArg List.length heq
    rw [m.closer_eq] at hlen ⊢
    simp only [List.length_append, List.length_cons] at hlen ⊢
    omega
  have hkey : (specDep head).key = specKey spec := by
    rcases List.mem_cons.1 ((hsame _).2 List.mem_cons_self) with hhead | hmem
    · exact (Prod.mk.inj hhead).2
    · have hle := lookup_place_le hmem
      omega
  -- what is reported behind the first place is looked up behind the placeholder
  have hplaces : ∀ n d, (n, d) ∈ reports (tail ++ rest) → n ≤ rest.length := by
    intro n d hd
    have hle := report_place_le hd
    rcases List.mem_cons.1 ((hsame (n, d.key)).2 (List.mem_cons_of_mem _ (mem_reportedKeys.2 ⟨d, hd, rfl⟩))) with
      hhead | hmem
    · have hn := (Prod.mk.inj hhead).1
      omega
    · exact lookup_place_le hmem
  obtain ⟨hsilent, hskip⟩ := silent_of_places hplaces
  refine .placeholder hbalanced hfirst heq (sameKey_of_key (begins_of_eq heq).1 hkey) hsilent (ih ⟨fun x => ?_, ?_⟩)
  · have hkeys : reportedKeys (tail ++ rest) = reportedKeys rest := by rw [reportedKeys, hskip, reportedKeys]
    rw [hkeys] at hsame
    constructor
    · intro hx
      rcases List.mem_cons.1 ((hsame x).1 (List.mem_cons_of_mem _ hx)) with hhead | hmem
      · have hle := lookup_place_le (show (x.1, x.2) ∈ _ from hx)
        rw [hhead] at hle
        dsimp only at hle
        omega
      · exact hmem
    · intro hx
      rcases List.mem_cons.1 ((hsame x).2 (List.mem_cons_of_mem _ hx)) with hhead | hmem
      · have hle := reported_place_le (show (x.1, x.2) ∈ _ from hx)
        rw [hhead] at hle
        dsimp only at hle
        omega
      · exact hmem
  · have hverbatim := hagree.verbatim
    rw [hpieces, List.flatMap_cons, Piece.source] at hverbatim
    have hsource : m.opener ++ (spec ++ m.closer) ++ (pieces rest).flatMap (fun p => p.2.source) =
        m.opener ++ (spec ++ m.closer) ++ rest := by
      rw [hverbatim]
      simp
    exact List.append_cancel_left hsource

/-- An escape with a closing brace somewhere behind it is extracted. -/
theorem not_agree_escape {t : Text} (hbrace : '}' ∈ t) : ¬Agree ('$' :: '$' :: '{' :: t) := by
  intro h
  have hlookups : lookups ('$' :: '$' :: '{' :: t) = lookups ('{' :: t) :=
    lookups_literal (p := .escape) rfl rfl
  cases hsplit : Text.splitOnce ['}'] t with
  | none =>
    have hnot := (Text.splitOnce_eq_none_iff (List.cons_ne_nil _ _)).1 hsplit
    obtain ⟨l, r, rfl⟩ := List.append_of_mem hbrace
    exact hnot ⟨l, r, by simp⟩
  | some p =>
    have hdollar : nextDep ('$' :: '{' :: t) = some (some (specDep p.1), p.2) :=
      nextDep_placeholder (m := .dollar) hsplit
    have hescape : nextDep ('$' :: '$' :: '{' :: t) = some (none, '$' :: '{' :: t) := rfl
    have hmem : (t.length + 2, (specDep p.1).key) ∈ reportedKeys ('$' :: '$' :: '{' :: t) := by
      refine mem_reportedKeys.2 ⟨specDep p.1, ?_, rfl⟩
      rw [reports_none hescape, reports_some hdollar]
      exact List.mem_cons_self
    have hlooked := (h.same _).2 hmem
    rw [hlookups] at hlooked
    have hle := lookup_place_le hlooked
    rw [List.length_cons] at hle
    omega

theorem regular_of_agree {s : Text} (h : Agree s) : Regular s := by
  induction hlen : s.length using Nat.strong_induction_on generalizing s with
  | _ k ih =>
    by_cases hbrace : '}' ∈ s
    case neg => exact .unclosed hbrace
    case pos =>
    cases s with
    | nil => cases hbrace
    | cons c s =>
      have hs : s.length < k := by
        rw [← hlen]
        exact Nat.lt_succ_self _
      by_cases hopens : Opens (c :: s)
      case neg =>
        have hrest := h.rest (nextPiece_plain hopens) (nextDep_plain (not_opener_of_not_opens hopens))
        exact .plain hopens (ih s.length hs hrest rfl)
      case pos =>
      rcases hopens with ⟨t, heq⟩ | ⟨m, t, heq⟩
      · have hescape : '$' :: '$' :: '{' :: t = c :: s := heq
        rw [← hescape] at h hbrace
        refine absurd h (not_agree_escape ?_)
        simpa using hbrace
      · rw [← heq] at h hbrace ⊢
        have hlong : (m.opener ++ t).length = k := by rw [heq, hlen]
        have hshort : ('{' :: t).length < (m.opener ++ t).length := by
          rw [List.length_append, List.length_cons]
          have hopener : m.opener.length = 2 := rfl
          omega
        cases hclosing : closing '{' '}' 1 t with
        | none =>
          have hpiece := nextPiece_loose (m := m) hclosing
          cases hsplit : Text.splitOnce m.closer t with
          | none =>
            have hrest : Agree ('{' :: t) := Agree.rest h hpiece (nextDep_loose hsplit)
            refine .loose (fun spec rest heq hbalanced => ?_) ((Text.splitOnce_eq_none_iff m.closer_ne_nil).1 hsplit)
              (ih _ (hlong ▸ hshort) hrest rfl)
            rw [closing_some.2 ⟨heq, hbalanced⟩] at hclosing
            cases hclosing
          | some p =>
            -- extracted here, looked up only behind
            have hmem : ((m.opener ++ t).length, (specDep p.1).key) ∈ reportedKeys (m.opener ++ t) := by
              refine mem_reportedKeys.2 ⟨specDep p.1, ?_, rfl⟩
              rw [reports_some (nextDep_placeholder hsplit)]
              exact List.mem_cons_self
            have hlooked := (h.same _).2 hmem
            rw [lookups_literal hpiece rfl] at hlooked
            have hle := lookup_place_le hlooked
            omega
        | some p =>
          have hpiece := nextPiece_placeholder (m := m) hclosing
          cases hsplit : Text.splitOnce m.closer t with
          | none =>
            -- looked up here, extracted only behind
            have hmem : ((m.opener ++ t).length, specKey p.1) ∈ lookups (m.opener ++ t) := by
              rw [lookups_placeholder hpiece]
              exact List.mem_cons_self
            have hreported := (h.same _).1 hmem
            rw [reportedKeys, reports_none (nextDep_loose hsplit)] at hreported
            have hle := reported_place_le (s := '{' :: t) hreported
            omega
          | some q =>
            obtain ⟨htext, hbalanced⟩ := closing_some.1 hclosing
            obtain ⟨htext', hfirst⟩ := (Text.splitOnce_eq_some_iff m.closer_ne_nil).1 hsplit
            -- the pieces put the text together again, so the second brace is there as well
            have hrest : p.2 = m.extra ++ p.2.drop m.extra.length := by
              have hverbatim := h.verbatim
              rw [pieces_cons hpiece, List.flatMap_cons, Piece.source, htext, m.closer_eq] at hverbatim
              have hcancel : m.extra ++ (pieces (p.2.drop m.extra.length)).flatMap (fun p => p.2.source) = p.2 := by
                have h : m.opener ++ (p.1 ++ ('}' :: (m.extra ++
                    (pieces (p.2.drop m.extra.length)).flatMap (fun p => p.2.source)))) =
                      m.opener ++ (p.1 ++ ('}' :: p.2)) := by
                  rw [← hverbatim]
                  simp
                exact (List.cons.inj (List.append_cancel_left (List.append_cancel_left h))).2
              rw [← hcancel, drop_extra]
            have hsame : t = p.1 ++ (m.closer ++ p.2.drop m.extra.length) := by
              rw [htext, m.closer_eq, List.cons_append, ← hrest]
            rw [hsame] at h ⊢
            refine regular_placeholder hbalanced hfirst (hsame.symm.trans htext') h fun hagree => ?_
            refine ih _ ?_ hagree rfl
            rw [← hlong, hsame, m.closer_eq]
            simp only [List.length_append, List.length_cons]
            omega

theorem agree_iff_regular (s : Text) : Agree s ↔ Regular s :=
  ⟨regular_of_agree, fun h => (matched_of_regular h).agree⟩

/-! ### Resolving -/

section Resolving

variable {u : Casing} {env : Env u}

theorem resolveSpec_key (env : Env u) (spec : Text) : (resolveSpec env spec).1 = specKey spec := by
  rw [resolveSpec, specKey]
  cases Text.splitOnce ":-" spec with
  | some p => rfl
  | none => cases Text.splitOnce ":?" spec <;> rfl

/-- A key that is set is no error. -/
theorem resolveSpec_of_isSome {spec : Text} (h : (env.get (specKey spec)).isSome) :
    ∃ v, (resolveSpec env spec).2 = .ok v := by
  rw [specKey] at h
  rw [resolveSpec]
  cases hdefault : Text.splitOnce ":-" spec with
  | some p => exact ⟨_, rfl⟩
  | none =>
    cases hrequired : Text.splitOnce ":?" spec with
    | none => exact ⟨_, rfl⟩
    | some p =>
      rw [hdefault, hrequired] at h
      obtain ⟨v, hv⟩ := Option.isSome_iff_exists.1 h
      exact ⟨v, by dsimp only; rw [show env.get p.1 = some v from hv]⟩

/-- Only a required key is missed. -/
theorem resolveSpec_error {spec : Text} {e : EnvError} (h : (resolveSpec env spec).2 = .error e) :
    e = .missingRequired (specKey spec) ∧ Text.splitOnce ":-" spec = none := by
  rw [resolveSpec] at h
  rw [specKey]
  cases hdefault : Text.splitOnce ":-" spec with
  | some p =>
    rw [hdefault] at h
    cases h
  | none =>
    refine ⟨?_, rfl⟩
    rw [hdefault] at h
    cases hrequired : Text.splitOnce ":?" spec with
    | none =>
      rw [hrequired] at h
      cases h
    | some p =>
      rw [hrequired] at h
      dsimp only at h ⊢
      cases hget : env.get p.1 with
      | some v =>
        rw [hget] at h
        cases h
      | none =>
        rw [hget] at h
        exact (Except.error.inj h).symm

/-- What a piece writes, where it writes something. -/
def Piece.written (env : Env u) (p : Piece) : Text :=
  match (p.write env).2 with
  | .ok text => text
  | .error _ => []

/-- A run of the resolver over the pieces of a text. -/
structure Runs (env : Env u) (ps : List (Nat × Piece)) (run : Run) : Prop where
  looked : ∀ n key, (n, key) ∈ run.looked → ∃ m spec, (n, Piece.placeholder m spec) ∈ ps ∧ specKey spec = key
  ok : ∀ out, run.result = .ok out → out = ps.flatMap (fun p => p.2.written env) ∧
    ∀ n m spec, (n, Piece.placeholder m spec) ∈ ps → (n, specKey spec) ∈ run.looked
  error : ∀ e, run.result = .error e → ∃ p ∈ ps, (p.2.write env).2 = .error e

theorem runs_nil (env : Env u) : Runs env [] ⟨[], .ok []⟩ where
  looked n key h := by cases h
  ok out h := by
    cases h
    exact ⟨rfl, fun _ _ _ hmem => by cases hmem⟩
  error e h := by cases h

theorem runs_resolveFrom (env : Env u) (n : Nat) (s : Text) : Runs env (Scan.scan nextPiece n s) (resolveFrom env n s) := by
  induction n generalizing s with
  | zero => exact runs_nil env
  | succ n ih =>
    rw [Scan.scan, resolveFrom]
    cases hnext : nextPiece s with
    | none => exact runs_nil env
    | some p =>
      obtain ⟨piece, rest⟩ := p
      -- the key of a placeholder, at its own place
      have hown : ∀ k key, (k, key) ∈ (piece.write env).1.toList.map (fun key => (s.length, key)) ↔
          ∃ m spec, piece = .placeholder m spec ∧ k = s.length ∧ specKey spec = key := by
        intro k key
        cases piece with
        | literal c => simp [Piece.write]
        | escape => simp [Piece.write]
        | placeholder m spec =>
          simp only [Piece.write, resolveSpec_key, Option.toList_some, List.map_cons, List.map_nil, List.mem_singleton,
            Prod.mk.injEq]
          constructor
          · rintro ⟨rfl, rfl⟩
            exact ⟨m, spec, rfl, rfl, rfl⟩
          · rintro ⟨m', spec', hp, rfl, rfl⟩
            obtain ⟨-, rfl⟩ := Piece.placeholder.inj hp
            exact ⟨rfl, rfl⟩
      dsimp only
      cases hwrite : (piece.write env).2 with
      | error err =>
        dsimp only
        refine ⟨fun k key h => ?_, fun out h => (by cases h), fun e h => ?_⟩
        · obtain ⟨m, spec, rfl, rfl, hkey⟩ := (hown k key).1 h
          exact ⟨m, spec, List.mem_cons_self, hkey⟩
        · exact ⟨_, List.mem_cons_self, hwrite.trans (congrArg _ (Except.error.inj h))⟩
      | ok text =>
        dsimp only
        have hrest := ih rest
        refine ⟨fun k key h => ?_, fun out h => ?_, fun e h => ?_⟩
        · rcases List.mem_append.1 h with h | h
          · obtain ⟨m, spec, rfl, rfl, hkey⟩ := (hown k key).1 h
            exact ⟨m, spec, List.mem_cons_self, hkey⟩
          · obtain ⟨m, spec, hmem, hkey⟩ := hrest.looked k key h
            exact ⟨m, spec, List.mem_cons_of_mem _ hmem, hkey⟩
        · cases hres : (resolveFrom env n rest).result with
          | error e =>
            rw [hres] at h
            cases h
          | ok out' =>
            rw [hres] at h
            obtain ⟨hout, hall⟩ := hrest.ok out' hres
            have hwritten : piece.written env = text := by rw [Piece.written, hwrite]
            refine ⟨?_, fun k m spec hmem => List.mem_append.2 ?_⟩
            · rw [List.flatMap_cons, ← hout, hwritten]
              exact (Except.ok.inj h).symm
            · rcases List.mem_cons.1 hmem with heq | hmem
              · obtain ⟨rfl, rfl⟩ := Prod.mk.inj heq
                exact Or.inl ((hown _ _).2 ⟨m, spec, rfl, rfl, rfl⟩)
              · exact Or.inr (hall k m spec hmem)
        · cases hres : (resolveFrom env n rest).result with
          | ok out =>
            rw [hres] at h
            cases h
          | error err =>
            rw [hres] at h
            obtain ⟨p, hp, herr⟩ := hrest.error err hres
            exact ⟨p, List.mem_cons_of_mem _ hp, herr.trans (congrArg _ (Except.error.inj h))⟩

theorem runs_resolve (env : Env u) (s : Text) : Runs env (pieces s) (resolve env s) := runs_resolveFrom env s.length s

/-- Behind an escape the next place is that of the brace. -/
theorem escape_place {s : Text} {n : Nat} (h : (n, Piece.escape) ∈ pieces s) (p : Piece) : (n - 1, p) ∉ pieces s := by
  induction hlen : s.length using Nat.strong_induction_on generalizing s with
  | _ k ih =>
    cases hnext : nextPiece s with
    | none =>
      rw [pieces, Scan.scanAll_none hnext] at h
      cases h
    | some q =>
      have hlt := nextPiece_shrinks _ _ _ hnext
      rw [pieces_cons hnext, List.mem_cons] at h ⊢
      rintro (hhead | htail)
      · have hn := (Prod.mk.inj hhead).1
        rcases h with hhead' | hmem
        · have hpos := (Prod.mk.inj hhead').1
          omega
        · have hle := piece_place_le hmem
          omega
      · rcases h with hhead' | hmem
        · obtain ⟨hn, hq⟩ := Prod.mk.inj hhead'
          have hle := piece_place_le htail
          -- an escape takes two characters
          have htwo : q.2.length + 2 = s.length := by
            cases s with
            | nil => cases hnext
            | cons c s =>
              rcases nextPiece_cases c s with ⟨t, heq, hstep⟩ | hstep | ⟨m, t, spec, rest, -, -, hstep⟩
              · rw [hstep, Option.some.injEq] at hnext
                rw [← hnext, heq]
                rfl
              · rw [hstep, Option.some.injEq] at hnext
                rw [← hnext] at hq
                cases hq
              · rw [hstep, Option.some.injEq] at hnext
                rw [← hnext] at hq
                cases hq
          omega
        · exact ih _ (hlen ▸ hlt) hmem rfl htail

/-- The resolver and the extractor on one text in one environment, placeholder by placeholder. -/
structure Agreement (env : Env u) (s : Text) : Prop where
  required : ∀ k, (resolve env s).result = .error (.missingRequired k) → ⟨k, false⟩ ∈ extractTemplateKeys s
  looked : ∀ x ∈ (resolve env s).looked, x ∈ reportedKeys s
  reported : ∀ out, (resolve env s).result = .ok out → ∀ x ∈ reportedKeys s, x ∈ (resolve env s).looked
  escaped : ∀ n, (n, Piece.escape) ∈ pieces s →
    (∀ d, (n - 1, d) ∉ reports s) ∧ ∀ key, (n - 1, key) ∉ (resolve env s).looked
  copied : (pieces s).flatMap (fun p => p.2.source) = s ∧
    ∀ out, (resolve env s).result = .ok out → out = (pieces s).flatMap (fun p => p.2.written env)

theorem agreement_of_regular {s : Text} (h : Regular s) (env : Env u) : Agreement env s := by
  have hmatched := matched_of_regular h
  have hruns := runs_resolve env s
  constructor
  case required =>
    intro k herr
    obtain ⟨⟨n, p⟩, hmem, hp⟩ := hruns.error _ herr
    cases p with
    | literal c => cases hp
    | escape => cases hp
    | placeholder m spec =>
      obtain ⟨hkey, hnone⟩ := resolveSpec_error hp
      obtain ⟨d, hd, hsame, hoptional⟩ := hmatched.piece n m spec hmem
      have heq : d = ⟨k, false⟩ := by
        rw [EnvError.missingRequired.inj hkey, ← hsame, ← hoptional hnone]
      exact List.mem_map.2 ⟨_, hd, heq⟩
  case looked =>
    rintro ⟨n, key⟩ hx
    obtain ⟨m, spec, hmem, rfl⟩ := hruns.looked n key hx
    exact (hmatched.agree.same _).1 (mem_lookups.2 ⟨m, spec, hmem, rfl⟩)
  case reported =>
    rintro out hok ⟨n, key⟩ hx
    obtain ⟨m, spec, hmem, rfl⟩ := mem_lookups.1 ((hmatched.agree.same _).2 hx)
    exact (hruns.ok out hok).2 n m spec hmem
  case escaped =>
    intro n hmem
    refine ⟨hmatched.escaped n hmem, fun key hlooked => ?_⟩
    obtain ⟨m, spec, hp, -⟩ := hruns.looked _ key hlooked
    exact escape_place hmem _ hp
  case copied => exact ⟨hmatched.verbatim, fun out hok => (hruns.ok out hok).1⟩

/-- An environment in which every key of the text is set. -/
def allSet (u : Casing) (s : Text) : Env u :=
  .new [.static (.new u ((lookups s).map fun x => (x.2, [])))]

theorem get_allSet {s key : Text} {n : Nat} (h : (n, key) ∈ lookups s) : ((allSet u s).get key).isSome := by
  have hstored : (allSet u s).stored = (StaticEnvProvider.new u ((lookups s).map fun x => (x.2, []))).vars.entries :=
    List.flatMap_singleton _ _
  rw [allSet, Env.get_new, ← allSet, hstored]
  refine (Dict.isSome_get_ofList _ _).2 ?_
  rw [List.map_map, List.mem_map]
  exact ⟨_, List.mem_map.2 ⟨_, h, rfl⟩, rfl⟩

theorem resolve_allSet (u : Casing) (s : Text) : ∃ out, (resolve (allSet u s) s).result = .ok out := by
  cases hres : (resolve (allSet u s) s).result with
  | ok out => exact ⟨out, rfl⟩
  | error e =>
    obtain ⟨⟨n, p⟩, hmem, hp⟩ := (runs_resolve (allSet u s) s).error e hres
    cases p with
    | literal c => cases hp
    | escape => cases hp
    | placeholder m spec =>
      obtain ⟨v, hv⟩ := resolveSpec_of_isSome (get_allSet (u := u) (mem_lookups.2 ⟨m, spec, hmem, rfl⟩))
      have hp' : (resolveSpec (allSet u s) spec).2 = .error e := hp
      rw [hv] at hp'
      cases hp'

theorem regular_of_agreement {s : Text} (h : ∀ env : Env u, Agreement env s) : Regular s := by
  obtain ⟨out, hok⟩ := resolve_allSet u s
  have hagree := h (allSet u s)
  refine regular_of_agree ⟨fun ⟨n, key⟩ => ⟨fun hx => ?_, fun hx => ?_⟩, hagree.copied.1⟩
  · obtain ⟨m, spec, hmem, rfl⟩ := mem_lookups.1 hx
    exact hagree.looked _ (((runs_resolve (allSet u s) s).ok out hok).2 n m spec hmem)
  · obtain ⟨m, spec, hmem, rfl⟩ := (runs_resolve (allSet u s) s).looked n key (hagree.reported out hok _ hx)
    exact mem_lookups.2 ⟨m, spec, hmem, rfl⟩

/-- The same, for the keys alone. -/
structure KeysAgree (env : Env u) (s : Text) : Prop where
  required : ∀ k, (resolve env s).result = .error (.missingRequired k) → ⟨k, false⟩ ∈ extractTemplateKeys s
  looked : ∀ x ∈ (resolve env s).looked, ∃ d ∈ extractTemplateKeys s, d.key = x.2
  reported : ∀ out, (resolve env s).result = .ok out →
    ∀ d ∈ extractTemplateKeys s, ∃ x ∈ (resolve env s).looked, x.2 = d.key

theorem Agreement.keys {s : Text} (h : Agreement env s) : KeysAgree env s := by
  refine ⟨h.required, fun x hx => ?_, fun out hok d hd => ?_⟩
  · obtain ⟨d, hd, hkey⟩ := mem_reportedKeys.1 (h.looked x hx)
    exact ⟨d, List.mem_map.2 ⟨_, hd, rfl⟩, hkey⟩
  · obtain ⟨⟨n, d'⟩, hmem, rfl⟩ := List.mem_map.1 hd
    exact ⟨_, h.reported out hok _ (mem_reportedKeys.2 ⟨d', hmem, rfl⟩), rfl⟩

/-- In every environment the resolver looks up what the extractor reports, and the other way round,
leaves escapes alone and copies the rest, exactly if the text is regular. -/
theorem templates_agree (u : Casing) (s : Text) : ((∀ env : Env u, Agreement env s) ↔ Regular s) ∧
    (Regular s → ∀ env : Env u, KeysAgree env s) := by
  refine ⟨⟨regular_of_agreement, fun h env => agreement_of_regular h env⟩, fun h env => ?_⟩
  exact (agreement_of_regular h env).keys

end Resolving

/-- The escaped placeholder of `$$\x7bK\x7d` is extracted, and never looked up. -/
theorem templates_disagree_escape : ¬∀ (u : Casing) (s : Text) (env : Env u), KeysAgree env s := by
  intro h
  have hagree := h Casing.asciiOnly "$$\x7bK\x7d" (.new [])
  obtain ⟨x, hx, -⟩ := hagree.reported "$\x7bK\x7d" (by decide +kernel) ⟨"K", false⟩ (by decide +kernel)
  have hnone : (resolve (Env.new [] : Env Casing.asciiOnly) "$$\x7bK\x7d").looked = [] := by decide +kernel
  rw [hnone] at hx
  cases hx

end Tinypipe.Environment.Template
