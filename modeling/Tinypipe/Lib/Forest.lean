import Mathlib

/-! Rose trees that are grown from the children of each key. Where no key has two parents and some rank
goes up from parents to children, a tree has every descendant of its root once. -/

namespace Lib

inductive Rose (α : Type) where
  | node (root : α) (subtrees : List (Rose α))

namespace Rose

variable {α κ : Type}

def root : Rose α → α
  | node a _ => a

mutual

def elems : Rose α → List α
  | node a ts => a :: elemsAll ts

def elemsAll : List (Rose α) → List α
  | [] => []
  | t :: ts => elems t ++ elemsAll ts

end

theorem elemsAll_eq (ts : List (Rose α)) : elemsAll ts = ts.flatMap elems := by
  induction ts with
  | nil => rfl
  | cons t ts ih => rw [elemsAll, List.flatMap_cons, ih]

theorem elems_node (a : α) (ts : List (Rose α)) : (node a ts).elems = a :: ts.flatMap elems := by
  rw [elems, elemsAll_eq]

/-- Under every element stand its children, in their order. -/
inductive Grown (key : α → κ) (children : κ → List κ) : Rose α → Prop
  | node {a : α} {ts : List (Rose α)} (hroots : (ts.map fun t => key t.root) = children (key a))
      (hgrown : ∀ t ∈ ts, Grown key children t) : Grown key children (node a ts)

variable {key : α → κ} {children : κ → List κ} {t : Rose α}

/-- From a key to one below it. -/
def Below (children : κ → List κ) : κ → κ → Prop := Relation.ReflTransGen fun p c => c ∈ children p

theorem Grown.mem_keys_iff (h : Grown key children t) (k : κ) :
    k ∈ t.elems.map key ↔ Below children (key t.root) k := by
  induction h with
  | @node a ts hroots _ ih =>
    have hstep : (∃ t ∈ ts, k ∈ t.elems.map key) ↔ ∃ c, c ∈ children (key a) ∧ Below children c k := by
      simp only [← hroots, List.mem_map, exists_exists_and_eq_and]
      exact exists_congr fun t => and_congr_right fun ht => List.mem_map.symm.trans (ih t ht)
    rw [elems_node, List.map_cons, List.mem_cons, List.map_flatMap, List.mem_flatMap, hstep, root, Below,
      Relation.ReflTransGen.cases_head_iff, eq_comm]

section Forest

variable (hparent : ∀ p p' c, c ∈ children p → c ∈ children p' → p = p')
  {rank : κ → Nat} (hrank : ∀ p c, c ∈ children p → rank p < rank c)

theorem Below.rank_le (hrank : ∀ p c, c ∈ children p → rank p < rank c) {a b : κ} (h : Below children a b) :
    rank a ≤ rank b := by
  induction h with
  | refl => exact le_rfl
  | tail _ hstep ih => exact ih.trans (hrank _ _ hstep).le

include hparent

/-- What is above a key lies on one line. -/
theorem Below.total {a b c : κ} (ha : Below children a c) (hb : Below children b c) :
    Below children a b ∨ Below children b a := by
  have hunique : Relator.RightUnique fun c p => c ∈ children p := fun c p p' h h' => hparent p p' c h h'
  have hup : ∀ {x y : κ}, Below children x y → Relation.ReflTransGen (fun c p => c ∈ children p) y x :=
    fun h => Relation.reflTransGen_swap.1 h
  have hdown : ∀ {x y : κ}, Relation.ReflTransGen (fun c p => c ∈ children p) y x → Below children x y :=
    fun h => Relation.reflTransGen_swap.1 h
  exact ((hup ha).total_of_right_unique hunique (hup hb)).symm.imp hdown hdown

include hrank

/-- Two siblings have nothing below them in common. -/
theorem eq_of_common {p c c' k : κ} (hc : c ∈ children p) (hc' : c' ∈ children p) (h : Below children c k)
    (h' : Below children c' k) : c = c' := by
  have hstay : ∀ {c c' : κ}, c ∈ children p → c' ∈ children p → Below children c c' → c = c' := by
    intro c c' hc hc' hbelow
    obtain rfl | ⟨q, hq, hlast⟩ := Relation.ReflTransGen.cases_tail hbelow
    · rfl
    -- The last step would come from the parent, which is not below its child.
    · obtain rfl := hparent q p c' hlast hc'
      exact absurd (Below.rank_le hrank hq) (Nat.not_le.2 (hrank q c hc))
  rcases Below.total hparent h h' with hbelow | hbelow
  · exact hstay hc hc' hbelow
  · exact (hstay hc' hc hbelow).symm

theorem Grown.nodup_keys (hnodup : ∀ p, (children p).Nodup) (h : Grown key children t) :
    (t.elems.map key).Nodup := by
  induction h with
  | @node a ts hroots hgrown ih =>
    have hmem : ∀ t ∈ ts, key t.root ∈ children (key a) := fun t ht => hroots ▸ List.mem_map_of_mem ht
    rw [elems_node, List.map_cons, List.nodup_cons, List.map_flatMap, List.mem_flatMap, List.nodup_flatMap]
    refine ⟨?_, ih, ?_⟩
    · rintro ⟨t, ht, hk⟩
      have hbelow := ((hgrown t ht).mem_keys_iff _).1 hk
      exact absurd (Below.rank_le hrank hbelow) (Nat.not_le.2 (hrank _ _ (hmem t ht)))
    · have hroot : ts.Pairwise fun t t' => key t.root ≠ key t'.root := by
        have hkeys : (ts.map fun t => key t.root).Nodup := hroots ▸ hnodup (key a)
        exact List.pairwise_map.1 hkeys
      refine hroot.imp_of_mem fun {t t'} ht ht' hne k hk hk' => hne ?_
      exact eq_of_common hparent hrank (hmem t ht) (hmem t' ht') (((hgrown t ht).mem_keys_iff k).1 hk)
        (((hgrown t' ht').mem_keys_iff k).1 hk')

end Forest

end Rose

end Lib
