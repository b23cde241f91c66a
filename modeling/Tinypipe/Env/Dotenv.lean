import Tinypipe.Lib.Casing
import Tinypipe.Lib.Dict
import Tinypipe.Lib.Split

/-! The `.env` file (`tinypipe-env/src/dotenv.rs`): its parser, and the files that are written for it. -/

namespace Tinypipe.Dotenv

open Lib

/-! ### The parser -/

/-- `str::lines`: a line ends at a line feed, with the carriage return before it. -/
def lines : Text → List Text
  | [] => []
  | c :: cs =>
    if c = '\n' then [] :: lines cs
    else if c = '\r' ∧ cs.head? = some '\n' then lines cs
    else match lines cs with
      | [] => [[c]]
      | line :: rest => (c :: line) :: rest

/-- The same quote at both ends. -/
def isQuoted (q : Char) (v : Text) : Bool := v.head? == some q && v.getLast? == some q

def unquote (v : Text) : Text :=
  let v := Text.trim v
  if 2 ≤ Text.utf8Len v ∧ (isQuoted '"' v ∨ isQuoted '\'' v) then (v.drop 1).dropLast
  else match Text.splitOnce " #" v with
    | some (val, _) => Text.trim val
    | none => v

def parsePair (u : Casing) (line : Text) : Option (Text × Text) :=
  match Text.splitOnce ['='] line with
  | none => none
  | some (key, value) =>
    let key := u.toUppercase (Text.trim key)
    if key = [] then none else some (key, unquote (Text.trim value))

/-- One line of `parse_dotenv`, where it sets a key. -/
def parseLine (u : Casing) (line : Text) : Option (Text × Text) :=
  let line := Text.trim line
  if line = [] ∨ line.head? = some '#' then none
  else parsePair u (Text.trim ((Text.stripPrefix "export " line).getD line))

def insertLine (u : Casing) (out : Dict Text Text) (line : Text) : Dict Text Text :=
  match parseLine u line with
  | some (key, value) => out.set key value
  | none => out

def parseDotenv (u : Casing) (content : Text) : Dict Text Text :=
  (lines content).foldl (insertLine u) Dict.empty

/-! ### Files -/

/-- How a value is written. -/
inductive Quoting where
  | bare | double | single
deriving DecidableEq

def Quoting.mark : Quoting → Option Char
  | bare => none
  | double => some '"'
  | single => some '\''

def Quoting.write (q : Quoting) (value : Text) : Text :=
  match q.mark with
  | none => value
  | some m => m :: (value ++ [m])

/-- What the value may be, written so. -/
def Quoting.Fits (q : Quoting) (value : Text) : Prop :=
  match q.mark with
  | none => Text.trim value = value ∧ Text.contains " #" value = false ∧
      value.head? ≠ some '"' ∧ value.head? ≠ some '\''
  | some m => m ∉ value

instance (q : Quoting) (value : Text) : Decidable (q.Fits value) :=
  match q with
  | .bare => inferInstanceAs (Decidable (Text.trim value = value ∧ Text.contains " #" value = false ∧
      value.head? ≠ some '"' ∧ value.head? ≠ some '\''))
  | .double => inferInstanceAs (Decidable ('"' ∉ value))
  | .single => inferInstanceAs (Decidable ('\'' ∉ value))

/-- What stands behind a value. -/
inductive Trail where
  | spaces (s : Text)
  | comment (gap text : Text)

def Trail.text : Trail → Text
  | spaces s => s
  | comment gap text => gap ++ (" #" : Text) ++ text

def Trail.Valid : Trail → Prop
  | spaces s => Text.Spaces s
  | comment gap text => Text.Spaces gap ∧ '\n' ∉ text

instance (t : Trail) : Decidable t.Valid :=
  match t with
  | .spaces s => inferInstanceAs (Decidable (Text.Spaces s))
  | .comment gap text => inferInstanceAs (Decidable (Text.Spaces gap ∧ '\n' ∉ text))

structure Entry where
  key : Text
  value : Text
  quoting : Quoting
  indent : Text
  /-- The blanks behind `export `. -/
  exported : Option Text
  afterKey : Text
  beforeValue : Text
  trail : Trail

namespace Entry

def front (e : Entry) : Text :=
  match e.exported with
  | none => []
  | some gap => ("export " : Text) ++ gap

def text (e : Entry) : Text :=
  e.indent ++ (e.front ++ (e.key ++ (e.afterKey ++ '=' ::
    (e.beforeValue ++ (e.quoting.write e.value ++ e.trail.text)))))

/-- An uppercase identifier, or any key that reads back as one. -/
@[mk_iff]
structure UpperKey (u : Casing) (key : Text) : Prop where
  nonempty : key ≠ []
  solid : ∀ c ∈ key, Text.isBlank c = false ∧ c ≠ '='
  first : key.head? ≠ some '#'
  upper : u.toUppercase key = key

instance (u : Casing) (key : Text) : Decidable (UpperKey u key) := decidable_of_iff' _ (upperKey_iff u key)

@[mk_iff]
structure Valid (u : Casing) (e : Entry) : Prop where
  key : UpperKey u e.key
  value : e.quoting.Fits e.value
  single : '\n' ∉ e.value
  indent : Text.Spaces e.indent
  exported : ∀ gap ∈ e.exported, Text.Spaces gap
  afterKey : Text.Spaces e.afterKey
  beforeValue : Text.Spaces e.beforeValue
  trail : e.trail.Valid

instance (u : Casing) (e : Entry) : Decidable (e.Valid u) := decidable_of_iff' _ (valid_iff u e)

/-- No comment stands behind a quoted or an empty value. -/
def Plain (e : Entry) : Prop :=
  match e.trail with
  | .spaces _ => True
  | .comment _ _ => e.quoting = .bare ∧ e.value ≠ []

end Entry

inductive Line where
  | blank (s : Text)
  | comment (indent text : Text)
  | entry (e : Entry)

namespace Line

def text : Line → Text
  | blank s => s
  | comment indent t => indent ++ '#' :: t
  | entry e => e.text

def Valid (u : Casing) : Line → Prop
  | blank s => Text.Spaces s
  | comment indent t => Text.Spaces indent ∧ '\n' ∉ t
  | entry e => e.Valid u

instance (u : Casing) (l : Line) : Decidable (l.Valid u) :=
  match l with
  | .blank s => inferInstanceAs (Decidable (Text.Spaces s))
  | .comment indent t => inferInstanceAs (Decidable (Text.Spaces indent ∧ '\n' ∉ t))
  | .entry e => inferInstanceAs (Decidable (e.Valid u))

def pair? : Line → Option (Text × Text)
  | entry e => some (e.key, e.value)
  | blank _ | comment _ _ => none

end Line

def render (ls : List Line) : Text := Text.intercalate ['\n'] (ls.map Line.text)

/-- The map that a file is written for. -/
def pairs (ls : List Line) : List (Text × Text) := ls.filterMap Line.pair?

structure File (u : Casing) (ls : List Line) : Prop where
  valid : ∀ l ∈ ls, l.Valid u
  distinct : ((pairs ls).map Prod.fst).Nodup

/-! ### Lines -/

/-- Up to a carriage return, the first line of a text is what stands before the first line feed. -/
theorem lines_append {l : Text} (h : '\n' ∉ l) (rest : Text) :
    ∃ l', (l = l' ∨ l = l' ++ ['\r']) ∧ lines (l ++ '\n' :: rest) = l' :: lines rest := by
  induction l with
  | nil => exact ⟨[], Or.inl rfl, by rw [List.nil_append, lines, if_pos rfl]⟩
  | cons c cs ih =>
    rw [List.mem_cons, not_or] at h
    obtain ⟨l', hl', hlines⟩ := ih h.2
    rw [List.cons_append, lines, if_neg (Ne.symm h.1), hlines]
    by_cases hcr : c = '\r' ∧ (cs ++ '\n' :: rest).head? = some '\n'
    · have hnil : cs = [] := by
        cases cs with
        | nil => rfl
        | cons d ds =>
          have hd : d = '\n' := by simpa using hcr.2
          exact absurd (hd ▸ List.mem_cons_self) h.2
      subst hnil
      have hempty : l' = [] := by simpa using hl'
      exact ⟨[], Or.inr (by rw [hcr.1]; rfl), by rw [if_pos hcr, hempty]⟩
    · refine ⟨c :: l', ?_, by rw [if_neg hcr]⟩
      exact hl'.imp (congrArg _) (congrArg (c :: ·))

theorem lines_of_not_mem {l : Text} (h : '\n' ∉ l) : lines l = if l = [] then [] else [l] := by
  induction l with
  | nil => rfl
  | cons c cs ih =>
    rw [List.mem_cons, not_or] at h
    have hhead : ¬(c = '\r' ∧ cs.head? = some '\n') := by
      rintro ⟨-, hcs⟩
      exact h.2 (List.mem_of_head? hcs)
    rw [lines, if_neg (Ne.symm h.1), if_neg hhead, ih h.2, if_neg (List.cons_ne_nil c cs)]
    by_cases hcs : cs = []
    · rw [if_pos hcs, hcs]
    · rw [if_neg hcs]

theorem parseLine_cr (u : Casing) (l : Text) : parseLine u (l ++ ['\r']) = parseLine u l := by
  rw [parseLine, parseLine, Text.trim_append_blank (by decide)]

theorem parseLine_nil (u : Casing) : parseLine u [] = none := rfl

/-- The lines of a text that is put together from lines are parsed one by one. -/
theorem parse_intercalate (u : Casing) (ls : List Text) (h : ∀ l ∈ ls, '\n' ∉ l) :
    (lines (Text.intercalate ['\n'] ls)).filterMap (parseLine u) = ls.filterMap (parseLine u) := by
  induction ls with
  | nil => rfl
  | cons l ls ih =>
    have hl := h l List.mem_cons_self
    cases ls with
    | nil =>
      rw [Text.intercalate, lines_of_not_mem hl]
      by_cases hnil : l = []
      · rw [if_pos hnil, hnil]
        rfl
      · rw [if_neg hnil]
    | cons m ms =>
      obtain ⟨l', hl', hlines⟩ := lines_append hl (Text.intercalate ['\n'] (m :: ms))
      have hparse : parseLine u l' = parseLine u l := by
        rcases hl' with heq | heq
        · rw [heq]
        · rw [heq, parseLine_cr]
      rw [Text.intercalate, List.append_assoc, List.singleton_append, hlines, List.filterMap_cons, List.filterMap_cons,
        hparse, ih fun k hk => h k (List.mem_cons_of_mem _ hk)]
      exact fun hnil => List.cons_ne_nil _ _ hnil

theorem foldl_insertLine (u : Casing) (ls : List Text) (out : Dict Text Text) :
    ls.foldl (insertLine u) out = (ls.filterMap (parseLine u)).foldl (fun m e => m.set e.1 e.2) out := by
  induction ls generalizing out with
  | nil => rfl
  | cons l ls ih =>
    rw [List.foldl_cons, ih, List.filterMap_cons, insertLine]
    cases parseLine u l <;> rfl

/-! ### One entry -/

namespace Entry

variable {u : Casing} {e : Entry}

/-- What stands behind the `=`. -/
def rest (e : Entry) : Text := e.beforeValue ++ (e.quoting.write e.value ++ e.trail.text)

theorem UpperKey.head_ne {k : Char} {ks : Text} (h : UpperKey u (k :: ks)) : k ≠ 'e' := by
  rintro rfl
  have hupper := h.upper
  rw [Casing.toUppercase, List.flatMap_cons, u.ascii 'e' (by decide)] at hupper
  exact absurd (List.cons.inj hupper).1 (by decide)

/-- From the key on, an entry is parsed into its key and what stands behind the `=`. -/
theorem parsePair_key (h : e.Valid u) (Y : Text) :
    parsePair u (e.key ++ (e.afterKey ++ '=' :: Y)) = some (e.key, unquote (Text.trim Y)) := by
  have hkey : '=' ∉ e.key ++ e.afterKey := by
    rw [List.mem_append, not_or]
    exact ⟨fun hmem => (h.key.solid _ hmem).2 rfl, h.afterKey.not_mem (by decide)⟩
  have htrim : Text.trim (e.key ++ e.afterKey) = e.key := by
    rw [Text.trim_append_blanks h.afterKey.blank]
    exact Text.trim_eq_self_of_solid fun c hc => (h.key.solid c hc).1
  rw [parsePair, ← List.append_assoc, Text.splitOnce_append Y hkey]
  dsimp only
  rw [htrim, h.key.upper, if_neg h.key.nonempty]

theorem parseLine_text (h : e.Valid u) : parseLine u e.text = some (e.key, unquote (Text.trim e.rest)) := by
  obtain ⟨k, ks, hk⟩ := List.exists_cons_of_ne_nil h.key.nonempty
  have hsolid : Text.isBlank k = false := (h.key.solid k (hk ▸ List.mem_cons_self)).1
  have heq : Text.isBlank '=' = false := by decide
  have htrim : Text.trim (Text.trimEnd (Text.trimEnd e.rest)) = Text.trim e.rest := by
    rw [Text.trim_trimEnd, Text.trim_trimEnd]
  -- from the key on, only the blanks at the end are trimmed
  have hcore : ∀ X : Text, Text.trim (e.key ++ (e.afterKey ++ '=' :: X)) =
      e.key ++ (e.afterKey ++ '=' :: Text.trimEnd X) := by
    intro X
    rw [hk, List.cons_append, ← List.append_assoc, Text.trim_solid hsolid heq, List.append_assoc]
    rfl
  have hline : Text.trim e.text = e.front ++ (e.key ++ (e.afterKey ++ '=' :: Text.trimEnd e.rest)) := by
    rw [text, Text.trim_blanks_append h.indent.blank, ← rest, front]
    cases hex : e.exported with
    | none => exact hcore e.rest
    | some gap =>
      have hsplit : ∀ X : Text, (("export " : Text) ++ gap) ++ (e.key ++ (e.afterKey ++ X)) =
          'e' :: ((("xport " : Text) ++ gap ++ e.key ++ e.afterKey) ++ X) := by
        intro X
        simp
      dsimp only
      rw [hsplit, hsplit, Text.trim_solid (by decide) heq]
  rw [parseLine, hline]
  cases hex : e.exported with
  | none =>
    have hfirst : k ≠ '#' := fun hkey => h.key.first (by rw [hk, hkey]; rfl)
    have hstrip : Text.stripPrefix "export " (e.key ++ (e.afterKey ++ '=' :: Text.trimEnd e.rest)) = none := by
      rw [hk, List.cons_append, Text.stripPrefix]
      refine if_neg fun hpre => ?_
      obtain ⟨he, -⟩ := List.cons_prefix_cons.1 (List.isPrefixOf_iff_prefix.1 hpre)
      exact (hk ▸ h.key : UpperKey u (k :: ks)).head_ne he.symm
    have hfront : e.front = [] := by rw [front, hex]
    have hguard : ¬(e.key ++ (e.afterKey ++ '=' :: Text.trimEnd e.rest) = [] ∨
        (e.key ++ (e.afterKey ++ '=' :: Text.trimEnd e.rest)).head? = some '#') := by
      rw [hk]
      simp [hfirst]
    rw [hfront, List.nil_append, if_neg hguard, hstrip, Option.getD_none, hcore, parsePair_key h, htrim]
  | some gap =>
    have hfront : e.front = ("export " : Text) ++ gap := by rw [front, hex]
    have hstrip : Text.stripPrefix "export " (("export " : Text) ++ (gap ++
        (e.key ++ (e.afterKey ++ '=' :: Text.trimEnd e.rest)))) =
          some (gap ++ (e.key ++ (e.afterKey ++ '=' :: Text.trimEnd e.rest))) := by
      rw [Text.stripPrefix, if_pos (List.isPrefixOf_iff_prefix.2 (List.prefix_append _ _)), List.drop_left']
      rfl
    have hguard : ¬(("export " : Text) ++ (gap ++ (e.key ++ (e.afterKey ++ '=' :: Text.trimEnd e.rest))) = [] ∨
        (("export " : Text) ++ (gap ++ (e.key ++ (e.afterKey ++ '=' :: Text.trimEnd e.rest)))).head? = some '#') := by
      simp
    rw [hfront, List.append_assoc, if_neg hguard, hstrip, Option.getD_some,
      Text.trim_blanks_append (h.exported gap hex).blank, hcore, parsePair_key h, htrim]

end Entry

/-! ### Values -/

theorem Quoting.mark_cases {q : Quoting} {m : Char} (h : q.mark = some m) : m = '"' ∨ m = '\'' := by
  cases q with
  | bare => cases h
  | double => exact Or.inl (Option.some.inj h).symm
  | single => exact Or.inr (Option.some.inj h).symm

theorem Quoting.mark_solid {q : Quoting} {m : Char} (h : q.mark = some m) : Text.isBlank m = false := by
  rcases Quoting.mark_cases h with rfl | rfl <;> decide

theorem Quoting.trim_write {q : Quoting} {value : Text} (h : q.Fits value) :
    Text.trim (q.write value) = q.write value := by
  rw [Quoting.Fits] at h
  rw [Quoting.write]
  cases hm : q.mark with
  | none =>
    rw [hm] at h
    exact h.1
  | some m =>
    have hsolid := Quoting.mark_solid hm
    exact Text.trim_solid hsolid hsolid value []

theorem isQuoted_of_ne {q : Char} {v : Text} (h : v.head? ≠ some q) : isQuoted q v = false := by
  rw [isQuoted, beq_eq_false_iff_ne.2 h]
  rfl

theorem unquote_bare {v : Text} (htrim : Text.trim v = v) (hdouble : v.head? ≠ some '"') (hsingle : v.head? ≠ some '\'') :
    unquote v = ((Text.splitOnce " #" v).map fun p => Text.trim p.1).getD v := by
  rw [unquote, htrim, isQuoted_of_ne hdouble, isQuoted_of_ne hsingle, if_neg (by simp)]
  cases Text.splitOnce " #" v <;> rfl

theorem unquote_write {q : Quoting} {value : Text} (h : q.Fits value) : unquote (q.write value) = value := by
  have htrim := Quoting.trim_write h
  rw [Quoting.Fits] at h
  rw [Quoting.write] at htrim ⊢
  cases hm : q.mark with
  | none =>
    rw [hm] at h htrim
    have hnone : Text.splitOnce " #" value = none := by
      rw [Text.splitOnce_eq_none_iff (by decide), ← Text.contains_iff_infix (by decide), h.2.1]
      exact Bool.false_ne_true
    dsimp only at htrim ⊢
    rw [unquote_bare htrim h.2.2.1 h.2.2.2, hnone]
    rfl
  | some m =>
    rw [hm] at htrim
    dsimp only at htrim ⊢
    have hlen : 2 ≤ Text.utf8Len (m :: (value ++ [m])) := by
      have hsize := Char.utf8Size_pos m
      simp only [Text.utf8Len, List.map_cons, List.map_append, List.sum_cons, List.sum_append, List.map_nil, List.sum_nil]
      omega
    have hlast : (m :: (value ++ [m])).getLast? = some m := by
      rw [← List.cons_append, List.getLast?_concat]
    have hquoted : isQuoted m (m :: (value ++ [m])) = true := by
      rw [isQuoted, hlast]
      simp
    have hguard : 2 ≤ Text.utf8Len (m :: (value ++ [m])) ∧
        (isQuoted '"' (m :: (value ++ [m])) ∨ isQuoted '\'' (m :: (value ++ [m]))) := by
      refine ⟨hlen, ?_⟩
      rcases Quoting.mark_cases hm with rfl | rfl
      · exact Or.inl hquoted
      · exact Or.inr hquoted
    rw [unquote, htrim, if_pos hguard]
    simp

/-- A quote that closes before the end of the text stays in the value. -/
theorem mem_unquote {m : Char} (hm : Text.isBlank m = false) {l r : Text} (hr : r ≠ [])
    (htrim : Text.trim (m :: (l ++ m :: r)) = m :: (l ++ m :: r)) : m ∈ unquote (m :: (l ++ m :: r)) := by
  rw [unquote, htrim]
  split
  · rw [List.drop_one, List.tail_cons, List.dropLast_append_of_ne_nil (List.cons_ne_nil m r),
      List.dropLast_cons_of_ne_nil hr]
    simp
  · cases hsplit : Text.splitOnce " #" (m :: (l ++ m :: r)) with
    | none => exact List.mem_cons_self
    | some p =>
      have heq := Text.splitOnce_eq hsplit
      rw [List.append_assoc] at heq
      cases hval : p.1 with
      | nil =>
        rw [hval] at heq
        have hspace : m = ' ' := (List.cons.inj heq).1
        rw [hspace] at hm
        exact absurd hm (by decide)
      | cons d ds =>
        rw [hval] at heq
        obtain rfl : m = d := (List.cons.inj heq).1
        dsimp only
        rw [hval]
        exact Text.mem_trim List.mem_cons_self hm

/-! ### Values with something behind them -/

namespace Entry

variable {u : Casing} {e : Entry}

/-- Of a comment the last blanks are trimmed, and all those before the value. -/
theorem trim_rest_comment (h : e.Valid u) {gap c : Text} (htrail : e.trail = .comment gap c) {d : Char} {ds : Text}
    (hd : Text.isBlank d = false) (hwrite : e.quoting.write e.value = d :: ds) :
    Text.trim e.rest = d :: (ds ++ gap ++ [' '] ++ '#' :: Text.trimEnd c) := by
  have hrest : e.rest = e.beforeValue ++ d :: (ds ++ gap ++ [' '] ++ '#' :: c) := by
    rw [rest, hwrite, htrail, Trail.text]
    simp
  rw [hrest, Text.trim_blanks_append h.beforeValue.blank, Text.trim_solid hd (by decide)]

theorem trim_rest_spaces (h : e.Valid u) {s : Text} (htrail : e.trail = .spaces s) :
    Text.trim e.rest = e.quoting.write e.value := by
  have hs : Text.Spaces s := by
    have hvalid := h.trail
    rw [htrail] at hvalid
    exact hvalid
  rw [rest, htrail, Trail.text, Text.trim_blanks_append h.beforeValue.blank, Text.trim_append_blanks hs.blank,
    Quoting.trim_write h.value]

/-- A comment behind a bare value is cut off. -/
theorem unquote_bare_comment (h : e.Valid u) {gap c : Text} (htrail : e.trail = .comment gap c)
    (hbare : e.quoting = .bare) {d : Char} {ds : Text} (hvalue : e.value = d :: ds) :
    unquote (Text.trim e.rest) = e.value := by
  have hfits := h.value
  rw [hbare, hvalue] at hfits
  obtain ⟨htrim, hhash, hdouble, hsingle⟩ : Text.trim (d :: ds) = d :: ds ∧ Text.contains " #" (d :: ds) = false ∧
    (d :: ds).head? ≠ some '"' ∧ (d :: ds).head? ≠ some '\'' := hfits
  have hgap : Text.Spaces gap := by
    have hvalid := h.trail
    rw [htrail] at hvalid
    exact hvalid.1
  have hd : Text.isBlank d = false := by
    rw [Text.trim_eq_self_iff] at htrim
    exact htrim.1 d rfl
  have hwrite : e.quoting.write e.value = d :: ds := by rw [hbare, hvalue]; rfl
  have hrest := trim_rest_comment h htrail hd hwrite
  have hcut : Text.splitOnce " #" (Text.trim e.rest) = some (d :: ds ++ gap, Text.trimEnd c) := by
    rw [Text.splitOnce_eq_some_iff (by decide), hrest]
    refine ⟨by simp, fun hin => ?_⟩
    have hmem : '#' ∉ gap ++ [' '] := by
      rw [List.mem_append, not_or]
      exact ⟨hgap.not_mem (by decide), by decide⟩
    have hin' : [' ', '#'] <:+: d :: ds := by
      rw [← Text.pair_infix_append hmem, ← List.append_assoc]
      exact hin
    have hcontains : Text.contains " #" (d :: ds) = true := (Text.contains_iff_infix (by decide)).2 hin'
    rw [hhash] at hcontains
    cases hcontains
  have hhead : (Text.trim e.rest).head? = (d :: ds).head? := by rw [hrest]; rfl
  rw [unquote_bare (Text.trim_trim _) (hhead ▸ hdouble) (hhead ▸ hsingle), hcut, hvalue, Option.map_some, Option.getD_some,
    Text.trim_append_blanks hgap.blank, htrim]

/-- A comment behind nothing is taken for the value. -/
theorem unquote_empty_comment (h : e.Valid u) {gap c : Text} (htrail : e.trail = .comment gap c)
    (hbare : e.quoting = .bare) (hvalue : e.value = []) : unquote (Text.trim e.rest) ≠ e.value := by
  have hgap : Text.Spaces gap := by
    have hvalid := h.trail
    rw [htrail] at hvalid
    exact hvalid.1
  have hrest : Text.trim e.rest = '#' :: Text.trimEnd c := by
    have hsplit : e.rest = e.beforeValue ++ (gap ++ ([' '] ++ '#' :: c)) := by
      rw [rest, htrail, hbare, hvalue, Trail.text, List.append_assoc]
      rfl
    have hspace : ∀ b ∈ [' '], Text.isBlank b = true := by
      intro b hb
      rw [List.mem_singleton.1 hb]
      decide
    have hstart : Text.trimStart ('#' :: c) = [] ++ '#' :: c := rfl
    rw [hsplit, Text.trim_blanks_append h.beforeValue.blank, Text.trim_blanks_append hgap.blank,
      Text.trim_blanks_append hspace, Text.trim, hstart, Text.trimEnd_append (by decide)]
    rfl
  have hmem : '#' ∈ unquote (Text.trim e.rest) := by
    rw [unquote_bare (Text.trim_trim _) (by rw [hrest]; simp) (by rw [hrest]; simp)]
    cases hsplit : Text.splitOnce " #" (Text.trim e.rest) with
    | none => rw [Option.map_none, Option.getD_none, hrest]; exact List.mem_cons_self
    | some p =>
      have heq := Text.splitOnce_eq hsplit
      rw [hrest, List.append_assoc] at heq
      cases hval : p.1 with
      | nil =>
        rw [hval] at heq
        exact absurd (List.cons.inj heq).1 (by decide)
      | cons d ds =>
        rw [hval] at heq
        rw [Option.map_some, Option.getD_some, hval, ← (List.cons.inj heq).1]
        exact Text.mem_trim List.mem_cons_self (by decide)
  rw [hvalue]
  exact List.ne_nil_of_mem hmem

/-- A comment behind a quoted value leaves the quote in it. -/
theorem unquote_quoted_comment (h : e.Valid u) {gap c : Text} (htrail : e.trail = .comment gap c) {m : Char}
    (hm : e.quoting.mark = some m) : unquote (Text.trim e.rest) ≠ e.value := by
  have hsolid := Quoting.mark_solid hm
  have hfits : m ∉ e.value := by
    have hvalue := h.value
    rw [Quoting.Fits, hm] at hvalue
    exact hvalue
  have hwrite : e.quoting.write e.value = m :: (e.value ++ [m]) := by rw [Quoting.write, hm]
  have hrest : Text.trim e.rest = m :: (e.value ++ m :: (gap ++ [' '] ++ '#' :: Text.trimEnd c)) := by
    rw [trim_rest_comment h htrail hsolid hwrite]
    simp
  intro heq
  have hmem : m ∈ unquote (Text.trim e.rest) := by
    have htrim := Text.trim_trim e.rest
    rw [hrest] at htrim ⊢
    exact mem_unquote hsolid (by simp) htrim
  exact hfits (heq ▸ hmem)

/-- The value is read back exactly if no comment stands behind a quote or behind nothing. -/
theorem unquote_rest (h : e.Valid u) : unquote (Text.trim e.rest) = e.value ↔ e.Plain := by
  rw [Plain]
  cases htrail : e.trail with
  | spaces s =>
    rw [trim_rest_spaces h htrail, unquote_write h.value]
    exact iff_of_true rfl trivial
  | comment gap c =>
    cases hq : e.quoting.mark with
    | none =>
      have hbare : e.quoting = .bare := by
        cases hquoting : e.quoting with
        | bare => rfl
        | double => rw [hquoting] at hq; cases hq
        | single => rw [hquoting] at hq; cases hq
      cases hvalue : e.value with
      | nil =>
        refine iff_of_false (fun heq => ?_) fun hplain => hplain.2 rfl
        exact unquote_empty_comment h htrail hbare hvalue (heq.trans hvalue.symm)
      | cons d ds =>
        rw [← hvalue, unquote_bare_comment h htrail hbare hvalue]
        exact iff_of_true rfl ⟨hbare, by rw [hvalue]; exact List.cons_ne_nil d ds⟩
    | some m =>
      refine iff_of_false (unquote_quoted_comment h htrail hq) fun hplain => ?_
      rw [hplain.1] at hq
      cases hq

end Entry

/-! ### Whole files -/

theorem spaces_newline {t : Text} (h : Text.Spaces t) : '\n' ∉ t := fun hmem => (h _ hmem).2 rfl

theorem Entry.newline {u : Casing} {e : Entry} (h : e.Valid u) : '\n' ∉ e.text := by
  have hfront : '\n' ∉ e.front := by
    rw [Entry.front]
    cases hex : e.exported with
    | none => exact List.not_mem_nil
    | some gap =>
      rw [List.mem_append, not_or]
      exact ⟨by decide, spaces_newline (h.exported gap hex)⟩
  have hkey : '\n' ∉ e.key := by
    intro hmem
    have hsolid := (h.key.solid _ hmem).1
    exact absurd hsolid (by decide)
  have hwrite : '\n' ∉ e.quoting.write e.value := by
    rw [Quoting.write]
    cases hm : e.quoting.mark with
    | none => exact h.single
    | some m =>
      have hne : '\n' ≠ m := by
        rcases Quoting.mark_cases hm with rfl | rfl <;> decide
      simp [hne, h.single]
  have htrail : '\n' ∉ e.trail.text := by
    have hvalid := h.trail
    cases ht : e.trail with
    | spaces s =>
      rw [ht] at hvalid
      exact spaces_newline hvalid
    | comment gap c =>
      rw [ht] at hvalid
      simp [Trail.text, spaces_newline hvalid.1, hvalid.2]
  simp [Entry.text, hfront, hkey, hwrite, htrail, spaces_newline h.indent, spaces_newline h.afterKey,
    spaces_newline h.beforeValue]

namespace Line

variable {u : Casing} {l : Line}

/-- What the parser makes of a line. -/
def parsed? : Line → Option (Text × Text)
  | entry e => some (e.key, unquote (Text.trim e.rest))
  | blank _ | comment _ _ => none

theorem newline (h : l.Valid u) : '\n' ∉ l.text := by
  cases l with
  | blank s => exact spaces_newline h
  | comment indent t =>
    rw [text, List.mem_append, List.mem_cons, not_or, not_or]
    exact ⟨spaces_newline h.1, by decide, h.2⟩
  | entry e => exact Entry.newline h

theorem parseLine_text (h : l.Valid u) : parseLine u l.text = l.parsed? := by
  cases l with
  | blank s =>
    have hblank : Text.trim s = [] := by
      have h := Text.trim_append_blanks (Text.Spaces.blank h) []
      exact h
    rw [text, parseLine, hblank]
    rfl
  | comment indent t =>
    have htrim : Text.trim (indent ++ '#' :: t) = '#' :: Text.trimEnd t := by
      have hstart : Text.trimStart ('#' :: t) = [] ++ '#' :: t := rfl
      rw [Text.trim_blanks_append (Text.Spaces.blank h.1), Text.trim, hstart, Text.trimEnd_append (by decide)]
      rfl
    rw [text, parseLine, htrim]
    exact if_pos (Or.inr rfl)
  | entry e => exact Entry.parseLine_text h

end Line

theorem parsed_keys (ls : List Line) : (ls.filterMap Line.parsed?).map Prod.fst = (pairs ls).map Prod.fst := by
  rw [pairs, List.map_filterMap, List.map_filterMap]
  refine List.filterMap_congr fun l _ => ?_
  cases l <;> rfl

/-- A file sets what its entries are read as. -/
theorem get_parseDotenv {u : Casing} {ls : List Line} (h : File u ls) (k : Text) :
    (parseDotenv u (render ls)).get k = Dict.find k (ls.filterMap Line.parsed?) := by
  have htexts : ∀ t ∈ ls.map Line.text, '\n' ∉ t := by
    intro t ht
    obtain ⟨l, hl, rfl⟩ := List.mem_map.1 ht
    exact Line.newline (h.valid l hl)
  have hparsed : (ls.map Line.text).filterMap (parseLine u) = ls.filterMap Line.parsed? := by
    rw [List.filterMap_map]
    exact List.filterMap_congr fun l hl => Line.parseLine_text (h.valid l hl)
  rw [parseDotenv, foldl_insertLine, render, parse_intercalate u _ htexts, hparsed, Dict.get_foldl_set, Dict.get_empty,
    Option.or_none]
  rw [parsed_keys]
  exact h.distinct

/-- A file is read back as the map it was written for exactly if none of its comments stands behind a
quoted or an empty value. -/
theorem parse_render (u : Casing) (ls : List Line) (h : File u ls) :
    (∀ k, (parseDotenv u (render ls)).get k = Dict.find k (pairs ls)) ↔ ∀ e, Line.entry e ∈ ls → e.Plain := by
  constructor
  · intro hround e he
    have hvalid : e.Valid u := h.valid _ he
    have hpair : (e.key, e.value) ∈ pairs ls := List.mem_filterMap.2 ⟨_, he, rfl⟩
    have hread : (e.key, unquote (Text.trim e.rest)) ∈ ls.filterMap Line.parsed? := List.mem_filterMap.2 ⟨_, he, rfl⟩
    have hget := hround e.key
    rw [get_parseDotenv h, (Dict.find_eq_some_iff h.distinct).2 hpair,
      (Dict.find_eq_some_iff (parsed_keys ls ▸ h.distinct)).2 hread, Option.some.injEq] at hget
    exact (Entry.unquote_rest hvalid).1 hget
  · intro hplain k
    rw [get_parseDotenv h]
    congr 1
    refine List.filterMap_congr fun l hl => ?_
    cases l with
    | blank s => rfl
    | comment indent t => rfl
    | entry e =>
      have hvalue := (Entry.unquote_rest (h.valid _ hl)).2 (hplain e hl)
      rw [Line.parsed?, hvalue, Line.pair?]

def exportedEntry : Entry where
  key := "DB_URL"
  value := "db #1 'main'"
  quoting := .double
  indent := "  "
  exported := some " "
  afterKey := " "
  beforeValue := " "
  trail := .spaces " "

def commentedEntry : Entry where
  key := "MODE"
  value := "a#b c"
  quoting := .bare
  indent := []
  exported := none
  afterKey := []
  beforeValue := []
  trail := .comment [] " who"

/-- `  export  DB_URL = "db #1 'main'" `, a blank line, a comment and `MODE=a#b c # who`. -/
def sample : List Line := [.entry exportedEntry, .blank " ", .comment [] " notes", .entry commentedEntry]

theorem parse_render_sample :
    (∀ k, (parseDotenv Casing.asciiOnly (render sample)).get k = Dict.find k (pairs sample)) ↔
      ∀ e, Line.entry e ∈ sample → e.Plain :=
  parse_render Casing.asciiOnly sample ⟨by decide +kernel, by decide +kernel⟩

/-- `MODE="a#b c" # who` sets `MODE` to a value in quotes. -/
theorem parse_render_quoted_comment : ¬∀ (u : Casing) (ls : List Line), File u ls →
    ∀ k, (parseDotenv u (render ls)).get k = Dict.find k (pairs ls) := by
  intro h
  have hfile : File Casing.asciiOnly [.entry { commentedEntry with quoting := .double }] :=
    ⟨by decide +kernel, by decide +kernel⟩
  have hget := h _ _ hfile "MODE"
  revert hget
  decide +kernel

end Tinypipe.Dotenv
