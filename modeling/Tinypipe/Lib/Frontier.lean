import Mathlib

/-! Vertices of a graph contracted away: the frontier of a vertex is where the paths from it leave a
set of inner vertices. The search follows each arc again and again, so that a cycle of inner vertices
keeps it from ending, and a list of arcs without one bounds how deep it goes. -/

namespace Lib.Frontier

variable {α : Type}

/-! ### The search -/

/-- Append what is not there yet. -/
def addNew [DecidableEq α] : List α → List α → List α
  | found, [] => found
  | found, x :: xs => addNew (if x ∈ found then found else found ++ [x]) xs

/-- What `search` finds behind the arcs that leave `v`. -/
def gather [DecidableEq α] (search : α → Option (List α)) (v : α) : List (α × α) → List α → Option (List α)
  | [], found => some found
  | e :: es, found =>
    if e.1 = v then (search e.2).bind fun xs => gather search v es (addNew found xs)
    else gather search v es found

def frontier [DecidableEq α] (inner : Finset α) (arcs : List (α × α)) : Nat → α → Option (List α)
  | 0, _ => none
  | fuel + 1, v => if v ∈ inner then gather (frontier inner arcs fuel) v arcs [] else some [v]

/-! ### The graph -/

def Arc (arcs : List (α × α)) (a b : α) : Prop := (a, b) ∈ arcs

/-- A step of the search. -/
def Step (inner : Finset α) (arcs : List (α × α)) (a b : α) : Prop := a ∈ inner ∧ Arc arcs a b

/-- A path on which all but the ends are inner vertices. -/
def Through (inner : Finset α) (arcs : List (α × α)) (a b : α) : Prop :=
  ∃ c, Arc arcs a c ∧ Relation.ReflTransGen (Step inner arcs) c b

def Acyclic (r : α → α → Prop) : Prop := ∀ x, ¬Relation.TransGen r x x

theorem acyclic_of_lt {r : α → α → Prop} (f : α → Nat) (h : ∀ a b, r a b → f a < f b) : Acyclic r := by
  have hpath : ∀ a b, Relation.TransGen r a b → f a < f b := by
    intro a b hab
    induction hab with
    | single hstep => exact h _ _ hstep
    | tail _ hstep ih => exact ih.trans (h _ _ hstep)
  exact fun x hx => lt_irrefl _ (hpath x x hx)

/-- The arcs turned around. -/
def turned (arcs : List (α × α)) : List (α × α) := arcs.map Prod.swap

theorem arc_turned {arcs : List (α × α)} {a b : α} : Arc (turned arcs) a b ↔ Arc arcs b a := by
  simp [Arc, turned]

variable {inner : Finset α} {arcs : List (α × α)}

theorem turned_turned : turned (turned arcs) = arcs := by
  simp [turned]

theorem not_step {a b : α} (ha : a ∉ inner) : ¬Step inner arcs a b := fun h => ha h.1

/-- A relation into finitely many vertices that has no cycle goes down in some measure. -/
theorem Acyclic.exists_rank {r : α → α → Prop} (h : Acyclic r) (vs : Finset α) (hr : ∀ a b, r a b → b ∈ vs) :
    ∃ rank : α → Nat, (∀ a b, r a b → rank b < rank a) ∧ ∀ a, rank a ≤ vs.card := by
  classical
  refine ⟨fun a => (vs.filter fun y => Relation.TransGen r a y).card, fun a b hab => ?_,
    fun a => Finset.card_filter_le _ _⟩
  refine Finset.card_lt_card (Finset.ssubset_iff_subset_ne.2 ⟨fun y hy => ?_, fun heq => ?_⟩)
  · obtain ⟨hmem, hpath⟩ := Finset.mem_filter.1 hy
    exact Finset.mem_filter.2 ⟨hmem, Relation.TransGen.head hab hpath⟩
  · have hb : b ∈ vs.filter fun y => Relation.TransGen r b y := by
      rw [heq]
      exact Finset.mem_filter.2 ⟨hr a b hab, Relation.TransGen.single hab⟩
    exact h b (Finset.mem_filter.1 hb).2

/-! ### Both directions -/

theorem step_turned {a b : α} : Step inner (turned arcs) a b ↔ a ∈ inner ∧ Arc arcs b a := by
  rw [Step, arc_turned]

/-- A vertex on a cycle of inner vertices lies on one against the arcs too. -/
theorem cycle_turned {v : α} (h : Relation.TransGen (Step inner arcs) v v) :
    Relation.TransGen (Step inner (turned arcs)) v v := by
  have hflip : ∀ {a b : α}, b ∈ inner → Relation.TransGen (Step inner arcs) a b →
      Relation.TransGen (Step inner (turned arcs)) b a := by
    intro a b hb hpath
    induction hpath using Relation.TransGen.head_induction_on with
    | single hstep => exact Relation.TransGen.single (step_turned.2 ⟨hb, hstep.2⟩)
    | head hstep hrest ih =>
      obtain ⟨d, hd, -⟩ := Relation.TransGen.head'_iff.1 hrest
      exact ih.tail (step_turned.2 ⟨hd.1, hstep.2⟩)
  obtain ⟨b, hstep, -⟩ := Relation.TransGen.head'_iff.1 h
  exact hflip hstep.1 h

theorem acyclic_turned : Acyclic (Step inner (turned arcs)) ↔ Acyclic (Step inner arcs) := by
  constructor
  · exact fun h v hv => h v (cycle_turned hv)
  · intro h v hv
    have hback := cycle_turned hv
    rw [turned_turned] at hback
    exact h v hback

/-! ### The contracted graph -/

/-- Back from the source of an arc and on from its target. -/
theorem through_of_ends {a b x y : α} (hxy : Arc arcs x y) (hback : Relation.ReflTransGen (Step inner (turned arcs)) x a)
    (hon : Relation.ReflTransGen (Step inner arcs) y b) : Through inner arcs a b := by
  induction hback using Relation.ReflTransGen.head_induction_on generalizing y with
  | refl => exact ⟨y, hxy, hon⟩
  | head hstep _ ih =>
    obtain ⟨hx, harc⟩ := step_turned.1 hstep
    exact ih harc (hon.head ⟨hx, hxy⟩)

theorem Through.path {a b : α} (h : Through inner arcs a b) : Relation.TransGen (Arc arcs) a b := by
  obtain ⟨c, hc, hpath⟩ := h
  exact Relation.TransGen.head' hc (hpath.lift id fun _ _ hstep => hstep.2)

/-- The arcs between the vertices that stay. -/
def Link (inner : Finset α) (arcs : List (α × α)) (a b : α) : Prop := a ∉ inner ∧ b ∉ inner ∧ Through inner arcs a b

/-- A path is a path of the contracted graph and a last stretch through inner vertices. -/
theorem exists_last_stretch {a b : α} (ha : a ∉ inner) (h : Relation.TransGen (Arc arcs) a b) :
    ∃ d, d ∉ inner ∧ Relation.ReflTransGen (Link inner arcs) a d ∧ Through inner arcs d b := by
  induction h with
  | single hab => exact ⟨a, ha, Relation.ReflTransGen.refl, _, hab, Relation.ReflTransGen.refl⟩
  | tail _ hxy ih =>
    rename_i x y _
    obtain ⟨d, hd, hpath, hlast⟩ := ih
    by_cases hx : x ∈ inner
    · obtain ⟨c, hc, hstretch⟩ := hlast
      exact ⟨d, hd, hpath, c, hc, hstretch.tail ⟨hx, hxy⟩⟩
    · exact ⟨x, hx, hpath.tail ⟨hd, hx, hlast⟩, y, hxy, Relation.ReflTransGen.refl⟩

/-- Contraction keeps which of the vertices that stay are connected. -/
theorem connected_iff {a b : α} (ha : a ∉ inner) (hb : b ∉ inner) :
    Relation.TransGen (Link inner arcs) a b ↔ Relation.TransGen (Arc arcs) a b := by
  constructor
  · intro h
    clear hb
    induction h with
    | single hab => exact hab.2.2.path
    | tail _ hxy ih => exact ih.trans hxy.2.2.path
  · intro h
    obtain ⟨d, hd, hpath, hlast⟩ := exists_last_stretch ha h
    exact Relation.TransGen.tail' hpath ⟨hd, hb, hlast⟩

variable [DecidableEq α]

/-! ### What is found -/

theorem mem_addNew {x : α} : ∀ {xs found : List α}, x ∈ addNew found xs ↔ x ∈ found ∨ x ∈ xs
  | [], _ => by simp [addNew]
  | y :: ys, found => by
    rw [addNew, mem_addNew, List.mem_cons]
    by_cases hy : y ∈ found
    · rw [if_pos hy]
      constructor
      · exact Or.imp_right Or.inr
      · rintro (h | rfl | h)
        · exact Or.inl h
        · exact Or.inl hy
        · exact Or.inr h
    · rw [if_neg hy, List.mem_append, List.mem_singleton, or_assoc]

theorem mem_gather {search : α → Option (List α)} {v x : α} : ∀ {es : List (α × α)} {found l : List α},
    gather search v es found = some l →
      (x ∈ l ↔ x ∈ found ∨ ∃ b, Arc es v b ∧ ∃ xs, search b = some xs ∧ x ∈ xs)
  | [], found, l, h => by
    obtain rfl : found = l := by simpa [gather] using h
    simp [Arc]
  | e :: es, found, l, h => by
    rw [gather] at h
    by_cases he : e.1 = v
    · rw [if_pos he] at h
      obtain ⟨ys, hys, hrest⟩ := Option.bind_eq_some_iff.1 h
      rw [mem_gather hrest, mem_addNew, or_assoc]
      refine or_congr_right ⟨?_, ?_⟩
      · rintro (hx | ⟨b, hb, hfound⟩)
        · exact ⟨e.2, List.mem_cons.2 (Or.inl (Prod.ext he.symm rfl)), ys, hys, hx⟩
        · exact ⟨b, List.mem_cons_of_mem _ hb, hfound⟩
      · rintro ⟨b, hb, xs, hxs, hx⟩
        rcases List.mem_cons.1 hb with hhead | htail
        · obtain rfl : b = e.2 := congrArg Prod.snd hhead
          obtain rfl : ys = xs := Option.some.inj (hys.symm.trans hxs)
          exact Or.inl hx
        · exact Or.inr ⟨b, htail, xs, hxs, hx⟩
    · rw [if_neg he] at h
      rw [mem_gather h]
      refine or_congr_right (exists_congr fun b => and_congr_left fun _ => ?_)
      rw [Arc, Arc, List.mem_cons]
      exact (or_iff_right fun hhead => he (congrArg Prod.fst hhead).symm).symm

theorem search_of_gather {search : α → Option (List α)} {v b : α} : ∀ {es : List (α × α)} {found l : List α},
    gather search v es found = some l → Arc es v b → ∃ xs, search b = some xs
  | [], _, _, _, hb => absurd hb List.not_mem_nil
  | e :: es, found, l, h, hb => by
    rw [gather] at h
    by_cases he : e.1 = v
    · rw [if_pos he] at h
      obtain ⟨ys, hys, hrest⟩ := Option.bind_eq_some_iff.1 h
      rcases List.mem_cons.1 hb with hhead | htail
      · obtain rfl : b = e.2 := congrArg Prod.snd hhead
        exact ⟨ys, hys⟩
      · exact search_of_gather hrest htail
    · rw [if_neg he] at h
      rcases List.mem_cons.1 hb with hhead | htail
      · exact absurd (congrArg Prod.fst hhead).symm he
      · exact search_of_gather h htail

theorem gather_isSome {search : α → Option (List α)} {v : α} : ∀ {es : List (α × α)} (found : List α),
    (∀ b, Arc es v b → (search b).isSome) → (gather search v es found).isSome
  | [], _, _ => rfl
  | e :: es, found, h => by
    have htail : ∀ b, Arc es v b → (search b).isSome := fun b hb => h b (List.mem_cons_of_mem _ hb)
    rw [gather]
    by_cases he : e.1 = v
    · obtain ⟨xs, hxs⟩ := Option.isSome_iff_exists.1 (h e.2 (List.mem_cons.2 (Or.inl (Prod.ext he.symm rfl))))
      rw [if_pos he, hxs, Option.bind_some]
      exact gather_isSome _ htail
    · rw [if_neg he]
      exact gather_isSome _ htail

/-- The search finds the vertices outside the set to which a path of inner vertices leads. -/
theorem mem_frontier {y : α} : ∀ {fuel : Nat} {v : α} {l : List α}, frontier inner arcs fuel v = some l →
    (y ∈ l ↔ y ∉ inner ∧ Relation.ReflTransGen (Step inner arcs) v y) := by
  intro fuel
  induction fuel with
  | zero =>
    intro v l h
    cases h
  | succ fuel ih =>
    intro v l h
    rw [frontier] at h
    by_cases hv : v ∈ inner
    · rw [if_pos hv] at h
      rw [mem_gather h]
      constructor
      · rintro (hnil | ⟨b, hb, xs, hxs, hy⟩)
        · cases hnil
        · obtain ⟨hout, hpath⟩ := (ih hxs).1 hy
          exact ⟨hout, hpath.head ⟨hv, hb⟩⟩
      · rintro ⟨hout, hpath⟩
        rcases hpath.cases_head with rfl | ⟨b, hstep, hrest⟩
        · exact absurd hv hout
        · obtain ⟨xs, hxs⟩ := search_of_gather h hstep.2
          exact Or.inr ⟨b, hstep.2, xs, hxs, (ih hxs).2 ⟨hout, hrest⟩⟩
    · rw [if_neg hv, Option.some.injEq] at h
      subst h
      rw [List.mem_singleton]
      constructor
      · rintro rfl
        exact ⟨hv, Relation.ReflTransGen.refl⟩
      · rintro ⟨-, hpath⟩
        rcases hpath.cases_head with rfl | ⟨b, hstep, -⟩
        · rfl
        · exact absurd hstep (not_step hv)

/-! ### When the search ends -/

theorem frontier_isSome_of_rank {rank : α → Nat} (hrank : ∀ a b, Step inner arcs a b → rank b < rank a) :
    ∀ {fuel : Nat} {v : α}, rank v < fuel → (frontier inner arcs fuel v).isSome := by
  intro fuel
  induction fuel with
  | zero =>
    intro v hv
    omega
  | succ fuel ih =>
    intro v hv
    rw [frontier]
    by_cases hin : v ∈ inner
    · rw [if_pos hin]
      refine gather_isSome _ fun b hb => ih ?_
      have hlt := hrank v b ⟨hin, hb⟩
      omega
    · rw [if_neg hin]
      rfl

/-- Without a cycle of inner vertices the arcs bound the depth of the search. -/
theorem frontier_isSome (h : Acyclic (Step inner arcs)) {fuel : Nat} (hfuel : arcs.length < fuel) (v : α) :
    (frontier inner arcs fuel v).isSome := by
  obtain ⟨rank, hrank, hle⟩ := h.exists_rank (arcs.map Prod.snd).toFinset fun a b hab =>
    List.mem_toFinset.2 (List.mem_map.2 ⟨(a, b), hab.2, rfl⟩)
  refine frontier_isSome_of_rank hrank ?_
  have hcard := (arcs.map Prod.snd).toFinset_card_le
  rw [List.length_map] at hcard
  have := hle v
  omega

/-- On a cycle of inner vertices the search does not end. -/
theorem frontier_eq_none_of_cycle : ∀ {fuel : Nat} {v : α}, Relation.TransGen (Step inner arcs) v v →
    frontier inner arcs fuel v = none := by
  intro fuel
  induction fuel with
  | zero => exact fun _ => rfl
  | succ fuel ih =>
    intro v hcycle
    obtain ⟨b, hstep, hback⟩ := Relation.TransGen.head'_iff.1 hcycle
    have hb : frontier inner arcs fuel b = none := ih (Relation.TransGen.tail' hback hstep)
    rw [frontier, if_pos hstep.1]
    cases hgather : gather (frontier inner arcs fuel) v arcs [] with
    | none => rfl
    | some l =>
      obtain ⟨xs, hxs⟩ := search_of_gather hgather hstep.2
      cases hb.symm.trans hxs

end Lib.Frontier
