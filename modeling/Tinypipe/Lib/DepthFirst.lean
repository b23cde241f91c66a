import Mathlib.Data.List.Nodup

/-! A depth-first walk over names: a name is resolved to a vertex, a vertex is opened once, and the
names found in it are walked in their order. A failure ends the walk. -/

namespace Lib.DepthFirst

/-- Names that stand for vertices, what tells vertices apart, and the names found in a vertex. -/
structure Net (ν γ κ ε : Type) where
  resolve : ν → Except ε γ
  key : γ → κ
  children : γ → Except ε (List ν)

/-- The vertices on the way to a vertex, and the vertex. -/
abbrev Visit (γ : Type) := List γ × γ

section Walk

variable {ν σ ε : Type}

/-- The names in their order, until a walk fails or runs out of fuel. -/
def eachOf (walk : ν → σ → Option (Except ε σ)) : List ν → σ → Option (Except ε σ)
  | [], s => some (.ok s)
  | name :: names, s =>
    match walk name s with
    | some (.ok s) => eachOf walk names s
    | some (.error e) => some (.error e)
    | none => none

theorem eachOf_eq_ok {walk : ν → σ → Option (Except ε σ)} {name : ν} {names : List ν} {s u : σ}
    (h : eachOf walk (name :: names) s = some (.ok u)) :
    ∃ t, walk name s = some (.ok t) ∧ eachOf walk names t = some (.ok u) := by
  rw [eachOf] at h
  split at h
  case h_1 t ht => exact ⟨t, ht, h⟩
  case h_2 => cases h
  case h_3 => cases h

end Walk

variable {ν γ κ ε : Type} (net : Net ν γ κ ε)

namespace Net

def keys (done : List (Visit γ)) : List κ := done.map fun v => net.key v.2

theorem keys_append (done new : List (Visit γ)) : net.keys (done ++ new) = net.keys done ++ net.keys new :=
  List.map_append

/-- The visits so far and those of a name. The first argument bounds the depth. -/
def visit [DecidableEq κ] : Nat → List γ → ν → List (Visit γ) → Option (Except ε (List (Visit γ)))
  | 0, _, _, _ => none
  | n + 1, trail, name, done =>
    match net.resolve name with
    | .error e => some (.error e)
    | .ok g =>
      if net.key g ∈ net.keys done then some (.ok done)
      else match net.children g with
        | .error e => some (.error e)
        | .ok names => eachOf (visit n (trail ++ [g])) names (done ++ [(trail, g)])

/-- The names that are met from a name on. -/
inductive Met (root : ν) : ν → Prop
  | root : Met root root
  | step {name child : ν} {g : γ} {names : List ν} (h : Met root name) (hg : net.resolve name = .ok g)
      (hnames : net.children g = .ok names) (hchild : child ∈ names) : Met root child

/-- A way from a name to a vertex. -/
inductive Trail (root : ν) : List γ → γ → Prop
  | root {g : γ} (hg : net.resolve root = .ok g) : Trail root [] g
  | step {above : List γ} {g g' : γ} {names : List ν} {child : ν} (h : Trail root above g)
      (hnames : net.children g = .ok names) (hchild : child ∈ names) (hg : net.resolve child = .ok g') :
      Trail root (above ++ [g]) g'

/-- A name cannot be resolved, or its vertex not be opened. -/
def Fails (name : ν) (e : ε) : Prop :=
  net.resolve name = .error e ∨ ∃ g, net.resolve name = .ok g ∧ net.children g = .error e

/-- The name is resolved to a vertex that has been visited. -/
def Seen (done : List (Visit γ)) (name : ν) : Prop := ∃ g, net.resolve name = .ok g ∧ net.key g ∈ net.keys done

/-- No two vertices that names stand for have the same key. -/
def Keyed : Prop :=
  ∀ {name name' : ν} {g g' : γ}, net.resolve name = .ok g → net.resolve name' = .ok g' → net.key g = net.key g' → g = g'

/-- The vertex is open, and so is whatever its names stand for. -/
def Closed (done : List (Visit γ)) (g : γ) : Prop :=
  ∃ names, net.children g = .ok names ∧ ∀ name ∈ names, net.Seen done name

variable {net}

theorem Seen.mono {done new : List (Visit γ)} {name : ν} (h : net.Seen done name) : net.Seen (done ++ new) name := by
  obtain ⟨g, hg, hkey⟩ := h
  exact ⟨g, hg, by rw [keys_append]; exact List.mem_append_left _ hkey⟩

theorem Closed.mono {done new : List (Visit γ)} {g : γ} (h : net.Closed done g) : net.Closed (done ++ new) g := by
  obtain ⟨names, hnames, hseen⟩ := h
  exact ⟨names, hnames, fun name hname => (hseen name hname).mono⟩

/-- What is known of a visit is known of the visits of what is in it. -/
def Descends (net : Net ν γ κ ε) (P : List γ → γ → Prop) : Prop :=
  ∀ above g g' names child, P above g → net.children g = .ok names → child ∈ names → net.resolve child = .ok g' →
    P (above ++ [g]) g'

/-- What the visits of a name, or of some names, add. -/
structure Adds (net : Net ν γ κ ε) (P : List γ → γ → Prop) (done done' : List (Visit γ)) : Prop where
  added : ∃ new, done' = done ++ new ∧ (∀ v ∈ new, net.Closed done' v.2) ∧ ∀ v ∈ new, P v.1 v.2
  nodup : (net.keys done).Nodup → (net.keys done').Nodup

theorem Adds.refl {P : List γ → γ → Prop} (done : List (Visit γ)) : Adds net P done done :=
  ⟨⟨[], (List.append_nil _).symm, fun _ h => absurd h List.not_mem_nil, fun _ h => absurd h List.not_mem_nil⟩, id⟩

theorem Adds.trans {P : List γ → γ → Prop} {done done' done'' : List (Visit γ)} (h : Adds net P done done')
    (h' : Adds net P done' done'') : Adds net P done done'' := by
  obtain ⟨new, rfl, hclosed, htrail⟩ := h.added
  obtain ⟨new', rfl, hclosed', htrail'⟩ := h'.added
  refine ⟨⟨new ++ new', List.append_assoc .., fun v hv => ?_, fun v hv => ?_⟩, fun hd => h'.nodup (h.nodup hd)⟩
  · exact (List.mem_append.1 hv).elim (fun hv => (hclosed v hv).mono) (hclosed' v)
  · exact (List.mem_append.1 hv).elim (htrail v) (htrail' v)

theorem Adds.seen {P : List γ → γ → Prop} {done done' : List (Visit γ)} (h : Adds net P done done') {name : ν}
    (hname : net.Seen done name) : net.Seen done' name := by
  obtain ⟨new, rfl, -⟩ := h.added
  exact hname.mono

/-- If the walk of a name adds to the visits, so does that of a list of names. -/
theorem eachOf_adds {P : List γ → γ → Prop} {walk : ν → List (Visit γ) → Option (Except ε (List (Visit γ)))}
    {names : List ν}
    (hwalk : ∀ name ∈ names, ∀ done done', walk name done = some (.ok done') →
      Adds net P done done' ∧ net.Seen done' name) {done done' : List (Visit γ)}
    (h : eachOf walk names done = some (.ok done')) :
    Adds net P done done' ∧ ∀ name ∈ names, net.Seen done' name := by
  induction names generalizing done with
  | nil =>
    obtain rfl : done = done' := by
      rw [eachOf] at h
      cases h
      rfl
    exact ⟨.refl done, fun _ hn => absurd hn List.not_mem_nil⟩
  | cons name names ih =>
    obtain ⟨mid, hmid, hrest⟩ := eachOf_eq_ok h
    obtain ⟨hadds, hseen⟩ := hwalk name List.mem_cons_self done mid hmid
    obtain ⟨hadds', hseen'⟩ := ih (fun m hm => hwalk m (List.mem_cons_of_mem _ hm)) hrest
    refine ⟨hadds.trans hadds', fun m hm => ?_⟩
    rcases List.mem_cons.1 hm with rfl | hm
    · exact hadds'.seen hseen
    · exact hseen' m hm

/-- Every name that is met is resolved, and its vertex opened and visited, if the visits are closed and their
keys tell vertices apart. -/
theorem Met.seen {root : ν} {done : List (Visit γ)} (hkey : net.Keyed) (hclosed : ∀ v ∈ done, net.Closed done v.2)
    (hroot : net.Seen done root) (hgraph : ∀ v ∈ done, ∃ name, net.resolve name = .ok v.2) {name : ν}
    (h : net.Met root name) : ∃ v ∈ done, net.resolve name = .ok v.2 := by
  have hvisit : ∀ m, net.Seen done m → ∃ v ∈ done, net.resolve m = .ok v.2 := by
    rintro m ⟨g, hg, hmem⟩
    obtain ⟨v, hv, heq⟩ := List.mem_map.1 hmem
    obtain ⟨m', hm'⟩ := hgraph v hv
    exact ⟨v, hv, by rw [hg, hkey hm' hg heq]⟩
  induction h with
  | root => exact hvisit root hroot
  | @step name child g names _ hg hnames hchild ih =>
    obtain ⟨v, hv, hresolve⟩ := ih
    rw [hg] at hresolve
    cases hresolve
    obtain ⟨names', hnames', hseen⟩ := hclosed v hv
    rw [hnames] at hnames'
    cases hnames'
    exact hvisit child (hseen child hchild)

/-- What a way leads to is what a name that is met stands for. -/
theorem Trail.met {root : ν} {above : List γ} {g : γ} (h : net.Trail root above g) :
    ∃ name, net.Met root name ∧ net.resolve name = .ok g := by
  induction h with
  | root hg => exact ⟨root, .root, hg⟩
  | step _ hnames hchild hg ih =>
    obtain ⟨name, hmet, hname⟩ := ih
    exact ⟨_, .step hmet hname hnames hchild, hg⟩

variable [DecidableEq κ]

/-- A walk that ends well visits the name, opens every vertex it adds, and closes it. -/
theorem visit_adds {P : List γ → γ → Prop} (hP : net.Descends P) :
    ∀ {n : Nat} {trail : List γ} {name : ν} {done done' : List (Visit γ)},
    net.visit n trail name done = some (.ok done') → (∀ g, net.resolve name = .ok g → P trail g) →
      Adds net P done done' ∧ net.Seen done' name
  | 0, _, _, _, _, h, _ => by cases h
  | n + 1, trail, name, done, done', h, htrail => by
    rw [visit] at h
    split at h
    · cases h
    case h_2 g hg =>
      split at h
      case isTrue hkey =>
        cases h
        exact ⟨.refl done, g, hg, hkey⟩
      case isFalse hkey =>
        split at h
        · cases h
        case h_2 names hnames =>
          have hchild : ∀ m ∈ names, ∀ d d', net.visit n (trail ++ [g]) m d = some (.ok d') →
              Adds net P d d' ∧ net.Seen d' m := fun m hm d d' hd =>
            visit_adds hP hd fun g' hg' => hP _ _ _ _ _ (htrail g hg) hnames hm hg'
          obtain ⟨hadds, hseen⟩ := eachOf_adds hchild h
          obtain ⟨new, rfl, hclosed, htrails⟩ := hadds.added
          rw [List.append_assoc, List.singleton_append] at hclosed hseen hadds ⊢
          have hkeys : net.keys (done ++ (trail, g) :: new) = net.keys done ++ net.key g :: net.keys new := by
            rw [keys_append]
            rfl
          refine ⟨⟨⟨(trail, g) :: new, rfl, ?_, ?_⟩, fun hd => ?_⟩, g, hg, ?_⟩
          · rw [List.forall_mem_cons]
            exact ⟨⟨names, hnames, hseen⟩, hclosed⟩
          · rw [List.forall_mem_cons]
            exact ⟨htrail g hg, htrails⟩
          · refine hadds.nodup ?_
            rw [keys_append, List.nodup_append]
            refine ⟨hd, List.nodup_singleton _, fun a ha b hb => ?_⟩
            rintro rfl
            rw [List.mem_singleton.1 hb] at ha
            exact hkey ha
          · rw [hkeys]
            exact List.mem_append_right _ List.mem_cons_self

theorem visit_extends {n : Nat} {trail : List γ} {name : ν} {done done' : List (Visit γ)}
    (h : net.visit n trail name done = some (.ok done')) : ∃ new, done' = done ++ new := by
  have htrue : net.Descends fun _ _ => True := fun _ _ _ _ _ _ _ _ _ => trivial
  obtain ⟨new, hnew, -⟩ := (visit_adds htrue h fun _ _ => trivial).1.added
  exact ⟨new, hnew⟩

/-- A walk fails at a name that it meets. -/
theorem visit_error {root : ν} {e : ε} : ∀ {n : Nat} {trail : List γ} {name : ν} {done : List (Visit γ)},
    net.visit n trail name done = some (.error e) → net.Met root name → ∃ m, net.Met root m ∧ net.Fails m e
  | 0, _, _, _, h, _ => by cases h
  | n + 1, trail, name, done, h, hmet => by
    rw [visit] at h
    split at h
    case h_1 e' hresolve =>
      cases h
      exact ⟨name, hmet, .inl hresolve⟩
    case h_2 g hg =>
      split at h
      · cases h
      · split at h
        case h_1 e' hchildren =>
          cases h
          exact ⟨name, hmet, .inr ⟨g, hg, hchildren⟩⟩
        case h_2 names hnames =>
          have hmets : ∀ m ∈ names, net.Met root m := fun m hm => .step hmet hg hnames hm
          generalize done ++ [(trail, g)] = d at h
          clear hnames
          induction names generalizing d with
          | nil => cases h
          | cons m names ih =>
            rw [eachOf] at h
            split at h
            · exact ih (fun m' hm' => hmets m' (List.mem_cons_of_mem _ hm')) _ h
            case h_2 hm =>
              cases h
              exact visit_error hm (hmets m List.mem_cons_self)
            · cases h

/-! ### Enough fuel -/

/-- How many of the keys have no visit yet. -/
def fresh (net : Net ν γ κ ε) (all : List κ) (done : List (Visit γ)) : Nat := (all.filter (· ∉ net.keys done)).length

theorem fresh_append_le (all : List κ) (done new : List (Visit γ)) :
    net.fresh all (done ++ new) ≤ net.fresh all done := by
  refine List.Sublist.length_le (List.monotone_filter_right all fun k hk => ?_)
  rw [decide_eq_true_eq] at hk ⊢
  exact fun hmem => hk (by rw [keys_append]; exact List.mem_append_left _ hmem)

theorem fresh_lt {all : List κ} {done : List (Visit γ)} {v : Visit γ} (hall : net.key v.2 ∈ all)
    (hnew : net.key v.2 ∉ net.keys done) : net.fresh all (done ++ [v]) < net.fresh all done := by
  have hdrop : all.filter (· ∉ net.keys (done ++ [v]))
      = (all.filter (· ∉ net.keys done)).filter (· ≠ net.key v.2) := by
    rw [List.filter_filter]
    refine List.filter_congr fun k _ => ?_
    rw [Bool.eq_iff_iff, Bool.and_eq_true, decide_eq_true_eq, decide_eq_true_eq, decide_eq_true_eq, keys_append,
      List.mem_append, not_or, and_comm]
    exact and_congr_left' (not_congr List.mem_singleton)
  rw [fresh, hdrop, fresh]
  refine List.length_filter_lt_length_iff_exists.2 ⟨net.key v.2, List.mem_filter.2 ⟨hall, ?_⟩, ?_⟩
  · rw [decide_eq_true_eq]
    exact hnew
  · simp

/-- A walk with more fuel than there are keys without a visit comes to an end. -/
theorem visit_ne_none {all : List κ} (hall : ∀ name g, net.resolve name = .ok g → net.key g ∈ all) :
    ∀ {n : Nat} {trail : List γ} {name : ν} {done : List (Visit γ)}, net.fresh all done < n →
      net.visit n trail name done ≠ none
  | 0, _, _, _, h => absurd h (Nat.not_lt_zero _)
  | n + 1, trail, name, done, h => by
    rw [visit]
    split
    · exact Option.some_ne_none _
    case h_2 g hg =>
      split
      · exact Option.some_ne_none _
      case isFalse hkey =>
        split
        · exact Option.some_ne_none _
        case h_2 names hnames =>
          clear hnames
          have hfresh := fresh_lt (v := (trail, g)) (hall name g hg) hkey
          have hless : net.fresh all (done ++ [(trail, g)]) < n := by omega
          generalize done ++ [(trail, g)] = d at hless
          clear hfresh
          induction names generalizing d with
          | nil => exact Option.some_ne_none _
          | cons m names ih =>
            rw [eachOf]
            split
            case h_1 d' hd' =>
              obtain ⟨new, rfl⟩ := visit_extends hd'
              exact ih (d ++ new) (Nat.lt_of_le_of_lt (fresh_append_le all d new) hless)
            · exact Option.some_ne_none _
            case h_3 hm => exact absurd hm (visit_ne_none hall hless)

/-! ### The walk from a root -/

/-- The visits of a walk that ends well: each has a way to it, no vertex is visited twice, and the visits are
those of the names that are met, all of which are opened. -/
structure Covers (net : Net ν γ κ ε) (root : ν) (done : List (Visit γ)) : Prop where
  nodup : (net.keys done).Nodup
  trail : ∀ v ∈ done, net.Trail root v.1 v.2
  met : ∀ name, net.Met root name → ∃ v ∈ done, net.resolve name = .ok v.2
  opened : ∀ v ∈ done, ∃ names, net.children v.2 = .ok names

theorem visit_covers (hkey : net.Keyed) {root : ν} {n : Nat} {done : List (Visit γ)}
    (h : net.visit n [] root [] = some (.ok done)) : net.Covers root done := by
  have hdescends : net.Descends (net.Trail root) := fun _ _ _ _ _ htrail hnames hchild hg =>
      .step htrail hnames hchild hg
  obtain ⟨hadds, hroot⟩ := visit_adds hdescends h fun g hg => .root hg
  obtain ⟨new, hnew, hclosed, htrail⟩ := hadds.added
  rw [List.nil_append] at hnew
  subst hnew
  refine ⟨hadds.nodup List.nodup_nil, htrail, fun name hmet => ?_, fun v hv => ?_⟩
  · refine hmet.seen hkey hclosed hroot fun v hv => ?_
    obtain ⟨m, -, hm⟩ := (htrail v hv).met
    exact ⟨m, hm⟩
  · obtain ⟨names, hnames, -⟩ := hclosed v hv
    exact ⟨names, hnames⟩

end Net

end Lib.DepthFirst
