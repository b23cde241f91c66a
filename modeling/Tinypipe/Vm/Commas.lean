import Tinypipe.Lib.Cuts
import Tinypipe.Vm.Eval

/-! Where `split_top_level_commas` of `tinypipe-vm/src/compiled_executor.rs` cuts a text. Its scan counts
brackets of every kind together; where they nest, the count is the number of brackets that are open. -/

namespace Tinypipe

open Lib

/-- What the scan knows between two characters. -/
structure BracketScan where
  depth : Int
  quote : Option Char
deriving DecidableEq

namespace BracketScan

def start : BracketScan := ⟨0, none⟩

def next (s : BracketScan) (c : Char) : BracketScan :=
  match s.quote with
  | some q => ⟨s.depth, if c = q then none else some q⟩
  | none =>
    if isQuote c then ⟨s.depth, some c⟩
    else if isOpening c then ⟨s.depth + 1, none⟩
    else if isClosing c then ⟨s.depth - 1, none⟩
    else s

def outside (s : BracketScan) : Bool := s.quote.isNone && s.depth == 0

end BracketScan

def commas : Cutter Char BracketScan where
  next := BracketScan.next
  sep := ','
  free := BracketScan.outside

theorem commas_next (s : BracketScan) (c : Char) : commas.next s c = s.next c := rfl

theorem intercalate_comma (ps : List Text) : Text.intercalate [','] ps = commas.join ps := by
  induction ps with
  | nil => rfl
  | cons p ps ih =>
    cases ps with
    | nil => exact (commas.join_singleton p).symm
    | cons q qs =>
      have hstep : Text.intercalate [','] (p :: q :: qs) = p ++ [','] ++ Text.intercalate [','] (q :: qs) := rfl
      rw [hstep, ih, commas.join_cons_cons, List.append_assoc, List.singleton_append]
      rfl

def dropBlankLast : List Text → List Text
  | [] => []
  | [p] => if (Text.trim p).isEmpty then [] else [p]
  | p :: ps => p :: dropBlankLast ps

theorem dropBlankLast_cons (p : Text) {ps : List Text} (h : ps ≠ []) :
    dropBlankLast (p :: ps) = p :: dropBlankLast ps := by
  obtain ⟨q, qs, rfl⟩ := List.exists_cons_of_ne_nil h
  rfl

theorem dropBlankLast_append (ps : List Text) (p : Text) :
    dropBlankLast (ps ++ [p]) = if (Text.trim p).isEmpty then ps else ps ++ [p] := by
  induction ps with
  | nil => rfl
  | cons q ps ih =>
    rw [List.cons_append, dropBlankLast_cons q (by simp), ih]
    split <;> rfl

theorem dropBlankLast_eq_self {ps : List Text} (h : ∀ p ∈ ps, Text.trim p ≠ []) : dropBlankLast ps = ps := by
  induction ps with
  | nil => rfl
  | cons p ps ih =>
    cases ps with
    | nil =>
      have hp := h p List.mem_cons_self
      rw [dropBlankLast, List.isEmpty_eq_false_iff.2 hp, if_neg Bool.false_ne_true]
    | cons q qs =>
      rw [dropBlankLast_cons p (List.cons_ne_nil q qs), ih fun r hr => h r (List.mem_cons_of_mem p hr)]

theorem go_eq (t : Text) : ∀ (s : BracketScan) (current : Text), splitTopLevelCommas.go s.depth s.quote current t =
    dropBlankLast ((commas.pieces s t).modifyHead (current.reverse ++ ·)) := by
  induction t with
  | nil =>
    intro s current
    rw [Cutter.pieces, List.modifyHead_cons, List.append_nil, dropBlankLast]
    cases s.quote <;> rfl
  | cons c cs ih =>
    -- a character that does not cut is the last one of `current`
    have hnext : ∀ (s s' : BracketScan) (current : Text), ¬(c = ',' ∧ s.outside = true) → s.next c = s' →
        splitTopLevelCommas.go s'.depth s'.quote (c :: current) cs =
          dropBlankLast ((commas.pieces s (c :: cs)).modifyHead (current.reverse ++ ·)) := by
      rintro s _ current hcut rfl
      obtain ⟨p, ps, hps, heq⟩ := commas.pieces_cons hcut cs
      rw [ih, ← commas_next, hps, heq, List.modifyHead_cons, List.modifyHead_cons, List.reverse_cons,
        List.append_assoc, List.singleton_append]
    rintro ⟨depth, quote⟩ current
    cases quote with
    | some q => exact hnext ⟨depth, some q⟩ ⟨depth, _⟩ current (by simp [BracketScan.outside]) rfl
    | none =>
      rw [splitTopLevelCommas.go]
      by_cases hquote : isQuote c = true
      · rw [if_pos hquote]
        refine hnext ⟨depth, none⟩ ⟨depth, some c⟩ current ?_ (if_pos hquote)
        rintro ⟨rfl, -⟩
        cases hquote
      · rw [if_neg hquote]
        by_cases hopen : isOpening c = true
        · rw [if_pos hopen]
          refine hnext ⟨depth, none⟩ ⟨depth + 1, none⟩ current ?_ ((if_neg hquote).trans (if_pos hopen))
          rintro ⟨rfl, -⟩
          cases hopen
        · rw [if_neg hopen]
          by_cases hclose : isClosing c = true
          · rw [if_pos hclose]
            refine hnext ⟨depth, none⟩ ⟨depth - 1, none⟩ current ?_
              ((if_neg hquote).trans ((if_neg hopen).trans (if_pos hclose)))
            rintro ⟨rfl, -⟩
            cases hclose
          · rw [if_neg hclose]
            have hsame : BracketScan.next ⟨depth, none⟩ c = ⟨depth, none⟩ :=
              (if_neg hquote).trans ((if_neg hopen).trans (if_neg hclose))
            by_cases hcut : c = ',' ∧ depth = 0
            · rw [if_pos hcut]
              obtain ⟨rfl, rfl⟩ := hcut
              have hpieces : commas.pieces .start (',' :: cs) = [] :: commas.pieces .start cs :=
                commas.pieces_cons_free rfl cs
              obtain ⟨p, ps, hps⟩ := List.exists_cons_of_ne_nil (commas.pieces_ne_nil .start cs)
              have hrest := ih .start []
              rw [hps, List.modifyHead_cons] at hrest
              change current.reverse :: splitTopLevelCommas.go 0 none [] cs =
                dropBlankLast ((commas.pieces .start (',' :: cs)).modifyHead _)
              rw [hpieces, hps, List.modifyHead_cons, List.append_nil,
                dropBlankLast_cons _ (List.cons_ne_nil p ps)]
              exact congrArg (current.reverse :: ·) hrest
            · rw [if_neg hcut]
              refine hnext ⟨depth, none⟩ ⟨depth, none⟩ current ?_ hsame
              simpa [BracketScan.outside] using hcut

theorem splitTopLevelCommas_eq (t : Text) : splitTopLevelCommas t = dropBlankLast (commas.pieces .start t) := by
  have h := go_eq t .start []
  obtain ⟨p, ps, hps⟩ := List.exists_cons_of_ne_nil (commas.pieces_ne_nil .start t)
  rw [hps, List.modifyHead_cons] at h
  rw [hps]
  exact h

/-- No quote is open behind the text, and as many brackets are closed as are opened. -/
def Outside (u : Text) : Prop := (commas.run .start u).outside = true

/-- The parts are what stands between the commas that have `P` of the text before them. -/
structure CutsAt (P : Text → Prop) (t : Text) (parts : List Text) : Prop where
  joined : Text.intercalate [','] parts = t
  exact : ∀ u v, t = u ++ ',' :: v → (P u ↔ ∃ ps qs, ps ≠ [] ∧ qs ≠ [] ∧ parts = ps ++ qs ∧
    Text.intercalate [','] ps = u ∧ Text.intercalate [','] qs = v)

theorem cutsAt_pieces (t : Text) : CutsAt Outside t (commas.pieces .start t) := by
  constructor
  · rw [intercalate_comma, commas.join_pieces]
  · rintro u v rfl
    simp only [intercalate_comma]
    exact commas.free_iff_between .start u v

/-- The parts of a text, of which a blank last one is left out. -/
theorem splitTopLevelCommas_cuts (t : Text) : ∃ parts last, CutsAt Outside t (parts ++ [last]) ∧
    splitTopLevelCommas t = if (Text.trim last).isEmpty then parts else parts ++ [last] := by
  have hne := commas.pieces_ne_nil .start t
  have hlast := List.dropLast_append_getLast hne
  refine ⟨(commas.pieces .start t).dropLast, (commas.pieces .start t).getLast hne, ?_, ?_⟩
  · rw [hlast]
    exact cutsAt_pieces t
  · rw [← dropBlankLast_append, hlast, splitTopLevelCommas_eq]

/-! ### Brackets that nest -/

def closes (o c : Char) : Bool := (o == '(' && c == ')') || (o == '[' && c == ']') || (o == '{' && c == '\x7d')

def enclosingStep : List Char × Option Char → Char → Option (List Char × Option Char)
  | (os, some q), c => some (os, if c = q then none else some q)
  | (os, none), c =>
    if isQuote c then some (os, some c)
    else if isOpening c then some (c :: os, none)
    else if isClosing c then
      match os with
      | o :: os => if closes o c then some (os, none) else none
      | [] => none
    else some (os, none)

/-- The brackets and the quote that are open behind the text, the innermost bracket first; `none` where a
bracket closes one of another kind, or none at all. -/
def enclosing (t : Text) : Option (List Char × Option Char) := t.foldlM enclosingStep ([], none)

theorem next_of_enclosingStep {os os' : List Char} {q q' : Option Char} {c : Char}
    (h : enclosingStep (os, q) c = some (os', q')) :
    BracketScan.next ⟨os.length, q⟩ c = ⟨os'.length, q'⟩ := by
  cases q with
  | some q =>
    cases h
    rfl
  | none =>
    rw [enclosingStep.eq_def] at h
    rw [BracketScan.next]
    dsimp only at h ⊢
    split at h
    case isTrue hquote =>
      cases h
      rw [if_pos hquote]
    case isFalse hquote =>
      rw [if_neg hquote]
      split at h
      case isTrue hopen =>
        cases h
        rw [if_pos hopen, List.length_cons, Int.natCast_succ]
      case isFalse hopen =>
        rw [if_neg hopen]
        split at h
        case isTrue hclose =>
          rw [if_pos hclose]
          cases os with
          | nil => cases h
          | cons o os =>
            dsimp only at h
            split at h
            · cases h
              rw [List.length_cons, Int.natCast_succ, Int.add_sub_cancel]
            · cases h
        case isFalse hclose =>
          cases h
          rw [if_neg hclose]

theorem run_of_enclosing {t : Text} : ∀ {os os' : List Char} {q q' : Option Char},
    t.foldlM enclosingStep (os, q) = some (os', q') → commas.run ⟨os.length, q⟩ t = ⟨os'.length, q'⟩ := by
  induction t with
  | nil =>
    intro os os' q q' h
    cases h
    rfl
  | cons c cs ih =>
    intro os os' q q' h
    rw [List.foldlM_cons] at h
    obtain ⟨⟨os₁, q₁⟩, hstep, hrest⟩ := Option.bind_eq_some_iff.1 h
    rw [Cutter.run_cons, commas_next, next_of_enclosingStep hstep]
    exact ih hrest

/-- Every closing bracket closes the innermost open one. -/
def Nested (t : Text) : Prop := (enclosing t).isSome = true

/-- Where brackets nest, the scan counts the open ones. -/
theorem outside_iff_enclosing {u v : Text} (h : Nested (u ++ v)) : Outside u ↔ enclosing u = some ([], none) := by
  rw [Nested, enclosing, List.foldlM_append] at h
  obtain ⟨last, hlast⟩ := Option.isSome_iff_exists.1 h
  obtain ⟨⟨os, q⟩, hu, -⟩ := Option.bind_eq_some_iff.1 hlast
  have hrun : commas.run .start u = ⟨os.length, q⟩ := run_of_enclosing hu
  rw [Outside, hrun, enclosing, hu]
  cases q <;> simp [BracketScan.outside]

theorem splitTopLevelCommas_nested {t : Text} (h : Nested t) : ∃ parts last,
    CutsAt (fun u => enclosing u = some ([], none)) t (parts ++ [last]) ∧
    splitTopLevelCommas t = if (Text.trim last).isEmpty then parts else parts ++ [last] := by
  obtain ⟨parts, last, hcuts, hsplit⟩ := splitTopLevelCommas_cuts t
  refine ⟨parts, last, ⟨hcuts.joined, fun u v ht => ?_⟩, hsplit⟩
  rw [ht] at h
  rw [← outside_iff_enclosing h]
  exact hcuts.exact u v ht

/-! ### Texts that are not cut -/

/-- The scan comes back to the depth it started from, and is never above it on the way. -/
structure Level (t : Text) : Prop where
  back : ∀ d, commas.run ⟨d, none⟩ t = ⟨d, none⟩
  inside : ∀ d u, u <+: t → d ≤ (commas.run ⟨d, none⟩ u).depth

/-- No comma stands at the depth of the text. -/
def NoCut (t : Text) : Prop := ∀ d u v, t = u ++ ',' :: v → commas.run ⟨d, none⟩ u ≠ ⟨d, none⟩

/-- The characters that the scan looks at. -/
def marks : Text := ['"', '\'', '(', '[', '{', ')', ']', '\x7d', ',']

theorem next_of_not_mark {c : Char} (h : c ∉ marks) (d : Int) : commas.next ⟨d, none⟩ c = ⟨d, none⟩ := by
  have hne : ∀ m ∈ marks, c ≠ m := by
    rintro m hm rfl
    exact h hm
  have hquote : isQuote c = false := by
    simp [isQuote, hne '"' (by decide), hne '\'' (by decide)]
  have hopen : isOpening c = false := by
    simp [isOpening, hne '(' (by decide), hne '[' (by decide), hne '{' (by decide)]
  have hclose : isClosing c = false := by
    simp [isClosing, hne ')' (by decide), hne ']' (by decide), hne '\x7d' (by decide)]
  simp [commas_next, BracketScan.next, hquote, hopen, hclose]

theorem level_nil : Level [] := by
  refine ⟨fun d => rfl, fun d u hu => ?_⟩
  rw [List.prefix_nil.1 hu]
  exact le_refl d

theorem level_single {c : Char} (h : ∀ d, commas.next ⟨d, none⟩ c = ⟨d, none⟩) : Level [c] := by
  refine ⟨h, fun d u hu => ?_⟩
  rcases List.prefix_cons_iff.1 hu with rfl | ⟨v, rfl, hv⟩
  · exact le_refl d
  · rw [List.prefix_nil.1 hv, Cutter.run_cons, h d]
    exact le_refl d

theorem prefix_append_cases {s t u : Text} (h : u <+: s ++ t) : u <+: s ∨ ∃ v, v <+: t ∧ u = s ++ v := by
  rcases List.prefix_or_prefix_of_prefix h (List.prefix_append s t) with hu | ⟨v, rfl⟩
  · exact .inl hu
  · exact .inr ⟨v, (List.prefix_append_right_inj s).1 h, rfl⟩

theorem Level.append {s t : Text} (hs : Level s) (ht : Level t) : Level (s ++ t) := by
  refine ⟨fun d => ?_, fun d u hu => ?_⟩
  · rw [Cutter.run_append, hs.back, ht.back]
  · rcases prefix_append_cases hu with hu | ⟨v, hv, rfl⟩
    · exact hs.inside d u hu
    · rw [Cutter.run_append, hs.back]
      exact ht.inside d v hv

theorem NoCut.append {s t : Text} (hlevel : Level s) (hs : NoCut s) (ht : NoCut t) : NoCut (s ++ t) := by
  intro d u v h
  rcases List.append_eq_append_iff.1 h with ⟨w, hu, hw⟩ | ⟨w, hs', hw⟩
  · rw [hu, Cutter.run_append, hlevel.back]
    exact ht d w v hw
  · cases w with
    | nil =>
      rw [List.append_nil] at hs'
      rw [← hs', hlevel.back]
      exact fun _ => ht d [] v hw.symm (by rfl)
    | cons c w =>
      obtain ⟨rfl, -⟩ := List.cons.inj hw
      exact hs d u w hs'

theorem level_of_no_mark {t : Text} (h : ∀ c ∈ t, c ∉ marks) : Level t := by
  induction t with
  | nil => exact level_nil
  | cons c cs ih =>
    rw [List.forall_mem_cons] at h
    exact (level_single (next_of_not_mark h.1)).append (ih h.2)

theorem noCut_of_not_mem {t : Text} (h : ',' ∉ t) : NoCut t := by
  rintro d u v rfl
  exact absurd (List.mem_append_right u List.mem_cons_self) h

theorem prefix_wrap {o c : Char} {t u : Text} (h : u <+: o :: t ++ [c]) :
    u = [] ∨ (∃ w, w <+: t ∧ u = o :: w) ∨ u = o :: t ++ [c] := by
  rw [List.cons_append] at h
  rcases List.prefix_cons_iff.1 h with rfl | ⟨w, rfl, hw⟩
  · exact .inl rfl
  · rcases prefix_append_cases hw with hw | ⟨w', hw', rfl⟩
    · exact .inr (.inl ⟨w, hw, rfl⟩)
    · rcases List.prefix_cons_iff.1 hw' with rfl | ⟨w'', rfl, hw''⟩
      · exact .inr (.inl ⟨t, List.prefix_rfl, by rw [List.append_nil]⟩)
      · rw [List.prefix_nil.1 hw'']
        exact .inr (.inr rfl)

theorem comma_wrap {o c : Char} (ho : o ≠ ',') {t u v : Text} (h : o :: t ++ [c] = u ++ ',' :: v) :
    ∃ w, w <+: t ∧ u = o :: w := by
  rcases prefix_wrap (h ▸ List.prefix_append u _) with rfl | hw | rfl
  · exact absurd (List.cons.inj h).1 ho
  · exact hw
  · have hlen := congrArg List.length h
    simp at hlen

theorem level_brackets {o c : Char} (ho : ∀ d, commas.next ⟨d, none⟩ o = ⟨d + 1, none⟩)
    (hc : ∀ d, commas.next ⟨d, none⟩ c = ⟨d - 1, none⟩) (hcomma : o ≠ ',') {t : Text} (h : Level t) :
    Level (o :: t ++ [c]) ∧ NoCut (o :: t ++ [c]) := by
  have hback : ∀ d, commas.run ⟨d, none⟩ (o :: t ++ [c]) = ⟨d, none⟩ := by
    intro d
    rw [List.cons_append, Cutter.run_cons, ho, Cutter.run_append, h.back, Cutter.run_cons, hc, Cutter.run_nil,
      Int.add_sub_cancel]
  refine ⟨⟨hback, fun d u hu => ?_⟩, fun d u v heq hrun => ?_⟩
  · rcases prefix_wrap hu with rfl | ⟨w, hw, rfl⟩ | rfl
    · exact le_refl d
    · rw [Cutter.run_cons, ho]
      have hdepth := h.inside (d + 1) w hw
      omega
    · rw [hback]
  · obtain ⟨w, hw, rfl⟩ := comma_wrap hcomma heq
    have hdepth := h.inside (d + 1) w hw
    rw [Cutter.run_cons, ho] at hrun
    rw [hrun] at hdepth
    change d + 1 ≤ d at hdepth
    omega

theorem level_plain {t : Text} (h : ∀ c ∈ marks, c ∉ t) : Level t ∧ NoCut t :=
  ⟨level_of_no_mark fun c hc hmark => h c hmark hc, noCut_of_not_mem (h ',' (by decide))⟩

theorem eq_start_of_outside {s : BracketScan} (h : s.outside = true) : s = ⟨0, none⟩ := by
  obtain ⟨depth, quote⟩ := s
  cases quote with
  | none =>
    have hdepth : depth = 0 := by simpa [BracketScan.outside] using h
    rw [hdepth]
  | some q => cases h

/-- Texts that keep to their own depth are cut at the commas put between them. -/
theorem apart_of_level {ps : List Text} (h : ∀ p ∈ ps, Level p ∧ NoCut p) : commas.Apart .start ps := by
  have hwhole : ∀ {p : Text}, NoCut p → commas.Whole .start p := by
    intro p hp
    rw [commas.whole_iff]
    intro u v heq
    rw [← Bool.not_eq_true]
    intro hfree
    exact hp 0 u v heq (eq_start_of_outside hfree)
  induction ps with
  | nil => trivial
  | cons p ps ih =>
    rw [List.forall_mem_cons] at h
    cases ps with
    | nil => exact hwhole h.1.2
    | cons q qs =>
      have hback : commas.run .start p = .start := h.1.1.back 0
      rw [commas.apart_cons (List.cons_ne_nil q qs), hback]
      exact ⟨hwhole h.1.2, rfl, ih h.2⟩

theorem level_join {ps : List Text} (h : ∀ p ∈ ps, Level p) : Level (commas.join ps) := by
  induction ps with
  | nil => exact level_nil
  | cons p ps ih =>
    rw [List.forall_mem_cons] at h
    cases ps with
    | nil =>
      rw [Cutter.join_singleton]
      exact h.1
    | cons q qs =>
      rw [Cutter.join_cons_cons]
      exact h.1.append ((level_single (c := ',') fun d => rfl).append (ih h.2))

end Tinypipe
