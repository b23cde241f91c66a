import Tinypipe.Env.Dotenv
import Tinypipe.Lib.Lookup

/-! The environment (`tinypipe-env/src/lib.rs`, `static_provider.rs`, `dotenv.rs`, `os.rs`): layers of
providers, of which the first that knows a key wins. The order in which a `HashMap` is iterated is
that of the entries of the `Dict` that stands for it, and no theorem says which it is. -/

namespace Tinypipe.Environment

open Lib

/-! ### Keys -/

/-- `str::replace` of a character by an underscore. -/
def underscore (c : Char) (t : Text) : Text := t.map fun d => if d = c then '_' else d

def normalizeKey (u : Casing) (key : Text) : Text :=
  underscore ' ' (underscore '.' (underscore '-' (u.toUppercase (Text.trim key))))

/-- What the replacements leave of a character. -/
def plainChar (c : Char) : Char := if c = '-' ∨ c = '.' ∨ c = ' ' then '_' else c

theorem normalizeKey_eq (u : Casing) (key : Text) :
    normalizeKey u key = (u.toUppercase (Text.trim key)).map plainChar := by
  simp only [normalizeKey, underscore, List.map_map]
  refine List.map_congr_left fun c _ => ?_
  rw [plainChar]
  by_cases hdash : c = '-'
  · simp [hdash]
  · by_cases hdot : c = '.'
    · simp [hdot]
    · simp [hdash, hdot]

theorem plainChar_cases (c : Char) : plainChar c = '_' ∨ plainChar c = c := by
  rw [plainChar]
  exact ite_eq_or_eq _ _ _

theorem plainChar_solid {c : Char} (h : Text.isBlank c = false) : Text.isBlank (plainChar c) = false := by
  rcases plainChar_cases c with hc | hc
  · rw [hc]
    decide
  · rw [hc]
    exact h

theorem plainChar_plainChar (c : Char) : plainChar (plainChar c) = plainChar c := by
  rcases plainChar_cases c with hc | hc
  · rw [hc]
    rfl
  · rw [hc, hc]

theorem upper_plainChar (u : Casing) {c d : Char} (hd : d ∈ u.upper c) : u.upper (plainChar d) = [plainChar d] := by
  rcases plainChar_cases d with h | h
  · rw [h]
    exact u.ascii '_' (by decide)
  · rw [h]
    exact u.idempotent c d hd

/-- A normalised key has no blank at its ends. -/
theorem trim_normalizeKey (u : Casing) (key : Text) : Text.trim (normalizeKey u key) = normalizeKey u key := by
  rw [normalizeKey_eq, Casing.toUppercase]
  obtain ⟨hhead, hlast⟩ := Text.trim_eq_self_iff.1 (Text.trim_trim key)
  generalize Text.trim key = t at hhead hlast
  refine Text.trim_eq_self (fun c hc => ?_) fun c hc => ?_
  · cases t with
    | nil => cases hc
    | cons k ks =>
      obtain ⟨d, ds, hd⟩ := List.exists_cons_of_ne_nil (u.nonempty k)
      rw [List.flatMap_cons, hd] at hc
      obtain rfl : plainChar d = c := by simpa using hc
      exact plainChar_solid (u.solid k (hhead k rfl) d (by rw [hd]; exact List.mem_cons_self))
  · cases t using List.reverseRecOn with
    | nil => cases hc
    | append_singleton ks k =>
      have hlastk : Text.isBlank k = false := hlast k List.getLast?_concat
      cases hd : u.upper k using List.reverseRecOn with
      | nil => exact absurd hd (u.nonempty k)
      | append_singleton ds d =>
        rw [List.flatMap_append, List.flatMap_singleton, hd, ← List.append_assoc, List.map_append, List.map_singleton,
          List.getLast?_concat, Option.some.injEq] at hc
        rw [← hc]
        exact plainChar_solid (u.solid k hlastk d (by rw [hd]; simp))

theorem normalizeKey_idem (u : Casing) (key : Text) : normalizeKey u (normalizeKey u key) = normalizeKey u key := by
  have hfix : ∀ t : Text, (∀ d ∈ t, u.upper (plainChar d) = [plainChar d]) →
      (u.toUppercase (t.map plainChar)).map plainChar = t.map plainChar := by
    intro t
    induction t with
    | nil => exact fun _ => rfl
    | cons d ds ih =>
      intro h
      have htail := ih fun e he => h e (List.mem_cons_of_mem _ he)
      rw [Casing.toUppercase] at htail ⊢
      rw [List.map_cons, List.flatMap_cons, h d List.mem_cons_self, List.singleton_append, List.map_cons,
        plainChar_plainChar, htail]
  rw [normalizeKey_eq u (normalizeKey u key), trim_normalizeKey, normalizeKey_eq u key]
  refine hfix _ fun d hd => ?_
  obtain ⟨c, -, hdc⟩ := List.mem_flatMap.1 hd
  exact upper_plainChar u hdc

/-! ### Providers -/

/-- Its keys are normalised when it is made. -/
structure StaticEnvProvider (u : Casing) where
  vars : Dict Text Text
  normalized : ∀ k ∈ vars.keys, normalizeKey u k = k

def StaticEnvProvider.new (u : Casing) (vars : List (Text × Text)) : StaticEnvProvider u where
  vars := Dict.ofList (vars.map fun e => (normalizeKey u e.1, e.2))
  normalized k hk := by
    obtain ⟨v, hv⟩ := Dict.mem_keys.1 hk
    obtain ⟨e, -, he⟩ := List.mem_map.1 (Dict.mem_of_get_ofList (Dict.get_eq_some_iff.2 hv))
    rw [← (Prod.mk.inj he).1]
    exact normalizeKey_idem u e.1

/-- What the file has when it is first read, if it is there, and the parsed entries in the order in
which they are iterated. -/
structure DotEnvFileProvider (u : Casing) where
  content : Option Text
  vars : Dict Text Text
  loaded : vars.entries.Perm ((content.map (Dotenv.parseDotenv u)).getD Dict.empty).entries

inductive EnvProvider (u : Casing) where
  | static (p : StaticEnvProvider u)
  | dotenv (p : DotEnvFileProvider u)
  /-- The variables of the process. -/
  | os (vars : Dict Text Text)

namespace EnvProvider

variable {u : Casing}

def vars : EnvProvider u → Dict Text Text
  | static p => p.vars
  | dotenv p => p.vars
  | os vars => vars

def get : EnvProvider u → Text → Option Text
  | static p, key => p.vars.get (normalizeKey u key)
  | dotenv p, key => p.vars.get key
  | os vars, key => vars.get key

def list (p : EnvProvider u) : List (Text × Text) := p.vars.entries

end EnvProvider

/-! ### The environment -/

structure Env (u : Casing) where
  providers : List (EnvProvider u)
  scopes : List Text

def joinScopes (scopes : List Text) (key : Text) : Text :=
  if scopes = [] then key else Text.intercalate ['_'] scopes ++ '_' :: key

namespace Env

variable {u : Casing}

def new (providers : List (EnvProvider u)) : Env u := ⟨providers, []⟩

def scopedTo (env : Env u) (module : Text) : Env u :=
  { env with scopes := env.scopes ++ [normalizeKey u module] }

def lookup (env : Env u) (key : Text) : Option Text := env.providers.findSome? fun p => p.get key

/-- From the innermost scope outwards. -/
def get (env : Env u) (key : Text) : Option Text :=
  (List.range (env.scopes.length + 1)).reverse.findSome? fun i =>
    env.lookup (joinScopes (env.scopes.take i) (normalizeKey u key))

/-- An entry is listed unless its normalised key was seen. -/
def listEntry (u : Casing) (out : List (Text × Text)) (e : Text × Text) : List (Text × Text) :=
  if normalizeKey u e.1 ∈ out.map Prod.fst then out else out ++ [(normalizeKey u e.1, e.2)]

def list (env : Env u) : List (Text × Text) :=
  (env.providers.flatMap EnvProvider.list).foldl (listEntry u) []

/-! ### Listing and looking up -/

/-- The entries of all layers, as they are stored. -/
def stored (env : Env u) : List (Text × Text) := env.providers.flatMap EnvProvider.list

theorem find_vars (p : EnvProvider u) {key : Text} (hkey : normalizeKey u key = key) :
    p.get key = Dict.find key p.list := by
  cases p with
  | static p =>
    rw [EnvProvider.get, hkey]
    rfl
  | dotenv p => rfl
  | os vars => rfl

/-- Only the normalised spelling is asked for. -/
theorem get_new (providers : List (EnvProvider u)) (key : Text) :
    (new providers).get key = Dict.find (normalizeKey u key) (new providers).stored := by
  have hlookup : (new providers).get key = providers.findSome? fun p => p.get (normalizeKey u key) := by
    have hone : (List.range 1).reverse = [0] := rfl
    rw [get, new, List.length_nil, Nat.zero_add, hone, List.findSome?_cons]
    cases hfound : lookup ⟨providers, []⟩ (joinScopes (List.take 0 []) (normalizeKey u key)) with
    | none => exact hfound.symm
    | some v => exact hfound.symm
  have hlayers : ∀ ps : List (EnvProvider u), ps.findSome? (fun p => p.get (normalizeKey u key)) =
      Dict.find (normalizeKey u key) (ps.flatMap EnvProvider.list) := by
    intro ps
    induction ps with
    | nil => rfl
    | cons p ps ih =>
      rw [List.findSome?_cons, List.flatMap_cons, Lookup.find_append, find_vars p (normalizeKey_idem u key), ih]
      cases Dict.find (normalizeKey u key) p.list <;> rfl
  rw [hlookup, hlayers]
  rfl

theorem list_eq (env : Env u) : env.list = env.stored.foldl (Lookup.keepFirst (normalizeKey u)) [] := by
  have hentry : listEntry u = Lookup.keepFirst (normalizeKey u) := by
    funext out e
    rw [listEntry, Lookup.keepFirst]
    by_cases h : normalizeKey u e.1 ∈ out.map Prod.fst
    · rw [if_pos h, if_pos h]
    · rw [if_neg h, if_neg h]
  rw [list, hentry]
  rfl

theorem nodup_list (env : Env u) : (env.list.map Prod.fst).Nodup := by
  rw [list_eq]
  refine Lookup.nodup_keepFirst ?_ env.stored
  exact List.nodup_nil

theorem mem_list {env : Env u} {k v : Text} :
    (k, v) ∈ env.list ↔ Dict.find k (Lookup.normal (normalizeKey u) env.stored) = some v := by
  have hfind := Lookup.find_keepFirst (f := normalizeKey u) k env.stored []
  rw [Dict.find, Option.none_or] at hfind
  rw [← Dict.find_eq_some_iff env.nodup_list, ← hfind, list_eq]

/-- Listing and getting agree on the normalised keys, and no key is listed twice, exactly if every key
that a layer stores in another spelling stands behind a spelling of it that comes first, or before the
same value under the normalised key. -/
theorem list_get_iff (u : Casing) (providers : List (EnvProvider u)) :
    ((∀ k v, normalizeKey u k = k → ((k, v) ∈ (new providers).list ↔ (new providers).get k = some v)) ∧
      ((new providers).list.map Prod.fst).Nodup) ↔
    Lookup.Spelled (normalizeKey u) (new providers).stored := by
  rw [← Lookup.find_normal_iff (normalizeKey_idem u)]
  constructor
  · rintro ⟨hagree, -⟩ k hk
    refine Option.ext fun v => ?_
    have hget := get_new providers k
    rw [hk] at hget
    rw [← hget, ← hagree k v hk, mem_list]
  · intro hfind
    refine ⟨fun k v hk => ?_, nodup_list _⟩
    rw [mem_list, hfind k hk, get_new providers k, hk]

/-- The layer of a `.env` file that sets `DB-URL`. -/
def dashed : EnvProvider Casing.asciiOnly :=
  .dotenv ⟨some "DB-URL=x", Dotenv.parseDotenv Casing.asciiOnly "DB-URL=x", List.Perm.refl _⟩

/-- `DB_URL` is listed and not found. -/
theorem list_get_dashed : ¬∀ (u : Casing) (providers : List (EnvProvider u)),
    (∀ k v, normalizeKey u k = k → ((k, v) ∈ (new providers).list ↔ (new providers).get k = some v)) ∧
      ((new providers).list.map Prod.fst).Nodup := by
  intro h
  have hiff := (h Casing.asciiOnly [dashed]).1 "DB_URL" "x" (by decide +kernel)
  revert hiff
  decide +kernel

end Env

end Tinypipe.Environment
