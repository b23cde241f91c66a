import Tinypipe.Lib.Dict

/-! Keys in several spellings. A function gives each key its normal form; entries are listed under
the normal form of their key, the first of each, and looked up under a key as it is spelled. -/

namespace Lib.Lookup

variable {α β : Type} [DecidableEq α] {f : α → α}

theorem find_append (k : α) (es ds : List (α × β)) : Dict.find k (es ++ ds) = (Dict.find k es).or (Dict.find k ds) := by
  induction es with
  | nil => rfl
  | cons e es ih =>
    obtain ⟨j, v⟩ := e
    rw [List.cons_append, Dict.find, Dict.find]
    by_cases h : j = k
    · rw [if_pos h, if_pos h, Option.some_or]
    · rw [if_neg h, if_neg h, ih]

theorem exists_find {k : α} {es : List (α × β)} (h : k ∈ es.map Prod.fst) : ∃ v, Dict.find k es = some v := by
  induction es with
  | nil => cases h
  | cons e es ih =>
    obtain ⟨j, v⟩ := e
    by_cases hk : j = k
    · exact ⟨v, by rw [Dict.find, if_pos hk]⟩
    · rw [List.map_cons, List.mem_cons] at h
      rw [Dict.find, if_neg hk]
      exact ih (h.resolve_left (Ne.symm hk))

/-- List an entry, unless one with the same normal form was listed. -/
def keepFirst (f : α → α) (out : List (α × β)) (e : α × β) : List (α × β) :=
  if f e.1 ∈ out.map Prod.fst then out else out ++ [(f e.1, e.2)]

def normal (f : α → α) (es : List (α × β)) : List (α × β) := es.map fun e => (f e.1, e.2)

theorem nodup_keepFirst {out : List (α × β)} (h : (out.map Prod.fst).Nodup) (es : List (α × β)) :
    ((es.foldl (keepFirst f) out).map Prod.fst).Nodup := by
  induction es generalizing out with
  | nil => exact h
  | cons e es ih =>
    refine ih ?_
    rw [keepFirst]
    split
    case isTrue => exact h
    case isFalse hnew =>
      rw [List.map_append, List.map_singleton, List.nodup_append]
      refine ⟨h, List.nodup_singleton _, fun a ha b hb hab => hnew ?_⟩
      have heq : a = f e.1 := hab.trans (List.mem_singleton.1 hb)
      rwa [← heq]

/-- Listed is the first entry with the normal form. -/
theorem find_keepFirst (k : α) (es out : List (α × β)) :
    Dict.find k (es.foldl (keepFirst f) out) = (Dict.find k out).or (Dict.find k (normal f es)) := by
  induction es generalizing out with
  | nil => exact Option.or_none.symm
  | cons e es ih =>
    have hcons : Dict.find k (normal f (e :: es)) = if f e.1 = k then some e.2 else Dict.find k (normal f es) := rfl
    have hone : Dict.find k [(f e.1, e.2)] = if f e.1 = k then some e.2 else none := rfl
    rw [List.foldl_cons, ih, hcons, keepFirst]
    by_cases hk : f e.1 = k
    · rw [if_pos hk]
      split
      case isTrue hmem =>
        obtain ⟨v, hv⟩ := exists_find (hk ▸ hmem)
        rw [hv, Option.some_or, Option.some_or]
      case isFalse =>
        rw [find_append, hone, if_pos hk, Option.or_assoc, Option.some_or]
    · rw [if_neg hk]
      split
      case isTrue => rfl
      case isFalse => rw [find_append, hone, if_neg hk, Option.or_none]

/-- An entry in a spelling that is not the normal one stands behind another spelling of its key, or
before the same value in the normal spelling. -/
def Spelled (f : α → α) (es : List (α × β)) : Prop :=
  ∀ before e after, es = before ++ e :: after → f e.1 ≠ e.1 →
    (∃ d ∈ before, f d.1 = f e.1) ∨ Dict.find (f e.1) after = some e.2

theorem find_normal_of_first {k : α} {before after : List (α × β)} {e : α × β}
    (hbefore : ∀ d ∈ before, f d.1 ≠ k) (he : f e.1 = k) :
    Dict.find k (normal f (before ++ e :: after)) = some e.2 := by
  have hnone : Dict.find k (normal f before) = none := by
    refine Dict.find_eq_none fun hmem => ?_
    rw [normal, List.map_map] at hmem
    obtain ⟨d, hd, hk⟩ := List.mem_map.1 hmem
    exact hbefore d hd hk
  rw [normal, List.map_append, find_append, ← normal, hnone, Option.none_or, List.map_cons, Dict.find, if_pos he]

/-- Listing and looking up agree on the normal spellings exactly if the entries are spelled so. -/
theorem find_normal_iff (hf : ∀ k, f (f k) = f k) (es : List (α × β)) :
    (∀ k, f k = k → Dict.find k (normal f es) = Dict.find k es) ↔ Spelled f es := by
  have hexact : ∀ {k : α} {l : List (α × β)}, f k = k → (∀ d ∈ l, f d.1 ≠ k) → Dict.find k l = none := by
    intro k l hk h
    refine Dict.find_eq_none fun hmem => ?_
    obtain ⟨d, hd, rfl⟩ := List.mem_map.1 hmem
    exact h d hd hk
  constructor
  · rintro h before e after rfl hne
    by_cases hfirst : ∃ d ∈ before, f d.1 = f e.1
    · exact Or.inl hfirst
    · right
      have hbefore : ∀ d ∈ before, f d.1 ≠ f e.1 := fun d hd heq => hfirst ⟨d, hd, heq⟩
      have hfind := h (f e.1) (hf e.1)
      rw [find_normal_of_first hbefore rfl, find_append, hexact (hf e.1) hbefore, Option.none_or, Dict.find,
        if_neg (Ne.symm hne)] at hfind
      exact hfind.symm
  · intro h k hk
    by_cases hany : ∃ e ∈ es, f e.1 = k
    · obtain ⟨before, e, after, rfl, he, hbefore⟩ : ∃ before e after, es = before ++ e :: after ∧ f e.1 = k ∧
          ∀ d ∈ before, f d.1 ≠ k := by
        have hsome : (es.find? fun e => f e.1 == k).isSome := by simpa using hany
        obtain ⟨e, he⟩ := Option.isSome_iff_exists.1 hsome
        obtain ⟨hek, before, after, heq, hb⟩ := List.find?_eq_some_iff_append.1 he
        exact ⟨before, e, after, heq, by simpa using hek, fun d hd => by simpa using hb d hd⟩
      rw [find_normal_of_first hbefore he, find_append, hexact hk hbefore, Option.none_or]
      by_cases hspell : e.1 = k
      · rw [Dict.find, if_pos hspell]
      · rw [Dict.find, if_neg hspell]
        rcases h before e after rfl (he.trans_ne (Ne.symm hspell)) with ⟨d, hd, hdk⟩ | hfind
        · exact absurd (hdk.trans he) (hbefore d hd)
        · rw [← he]
          exact hfind.symm
    · have hnot : ∀ d ∈ es, f d.1 ≠ k := fun d hd heq => hany ⟨d, hd, heq⟩
      rw [hexact hk hnot]
      refine Dict.find_eq_none fun hmem => ?_
      rw [normal, List.map_map] at hmem
      obtain ⟨d, hd, hdk⟩ := List.mem_map.1 hmem
      exact hnot d hd hdk

end Lib.Lookup
