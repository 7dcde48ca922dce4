import Mathlib.Data.List.Forall2
import Descent.Table
/-!
Finding a name in a table. In one that need not be sorted the first entry of a name counts; environments and
scopes are such tables, because what is defined last stands in front. A table that is sorted is known by
what is found in it.
-/
namespace Descent.Table

variable {α β : Type} {table : Table α} {name : String}

theorem memOfFind {a : α} (found : find? name table = some a) : (name, a) ∈ table := by
  induction table with
  | nil => contradiction
  | cons entry table ih =>
    obtain ⟨key, b⟩ := entry
    rw [findCons] at found
    split at found
    · rename_i same
      cases found
      exact same ▸ List.mem_cons_self
    · exact List.mem_cons_of_mem _ (ih found)

theorem findMap (f : α → β) (table : Table α) (name : String) :
    find? name (table.map fun entry => (entry.1, f entry.2)) = (find? name table).map f := by
  induction table with
  | nil => rfl
  | cons entry table ih =>
    rw [List.map_cons, findCons, findCons]
    split
    · rfl
    · exact ih

theorem insertMap (f : α → β) (table : Table α) (name : String) (a : α) :
    insert name (f a) (table.map fun entry => (entry.1, f entry.2)) =
      (insert name a table).map fun entry => (entry.1, f entry.2) := by
  induction table with
  | nil => rfl
  | cons entry table ih =>
    rw [List.map_cons, insertCons, insertCons]
    split
    · rfl
    · split
      · rfl
      · rw [ih, List.map_cons]

theorem eraseMap (f : α → β) (table : Table α) (name : String) :
    erase name (table.map fun entry => (entry.1, f entry.2)) =
      (erase name table).map fun entry => (entry.1, f entry.2) :=
  List.filter_map

theorem findPast (apart : name ∉ table.map Prod.fst) (rest : Table α) :
    find? name (table ++ rest) = find? name rest := by
  induction table with
  | nil => rfl
  | cons entry table ih =>
    simp only [List.map_cons, List.mem_cons, not_or] at apart
    rw [List.cons_append, findCons, if_neg apart.1, ih apart.2]

theorem findElse (missing : find? name table = none) (rest : Table α) :
    find? name (table ++ rest) = find? name rest := by
  induction table with
  | nil => rfl
  | cons entry table ih =>
    rw [findCons] at missing
    split at missing
    · contradiction
    · rename_i apart
      rw [List.cons_append, findCons, if_neg apart, ih missing]

theorem findNone (outside : name ∉ table.map Prod.fst) : find? name table = none := by
  have past := findPast outside []
  rwa [List.append_nil] at past

theorem findDistinct (distinct : (table.map Prod.fst).Nodup) {entry : String × α}
    (inside : entry ∈ table) : find? entry.1 table = some entry.2 := by
  induction table with
  | nil => contradiction
  | cons first table ih =>
    obtain ⟨fresh, distinct⟩ := List.nodup_cons.mp distinct
    rcases List.mem_cons.mp inside with rfl | later
    · rw [findCons, if_pos rfl]
    · have apart : entry.1 ≠ first.1 := fun same => fresh (same ▸ List.mem_map_of_mem later)
      rw [findCons, if_neg apart, ih distinct later]

theorem findBefore (related : α → β → Prop) {entries : Table α} {entries' : Table β}
    (paired : List.Forall₂ (fun a b => a.1 = b.1 ∧ related a.2 b.2) entries entries')
    (rest : Table α) (rest' : Table β) (name : String) :
    (∃ a b, related a b ∧ find? name (entries ++ rest) = some a ∧
      find? name (entries' ++ rest') = some b) ∨
    find? name (entries ++ rest) = find? name rest ∧
      find? name (entries' ++ rest') = find? name rest' := by
  induction paired with
  | nil => exact .inr ⟨rfl, rfl⟩
  | @cons entry entry' entries entries' pair _ ih =>
    obtain ⟨key, a⟩ := entry
    obtain ⟨key', b⟩ := entry'
    obtain ⟨same, holds⟩ := pair
    dsimp only at same holds
    subst same
    simp only [List.cons_append, findCons]
    split
    · exact .inl ⟨a, b, holds, rfl, rfl⟩
    · exact ih

theorem findHead (name : String) (a : α) (t : Table α) : find? name ((name, a) :: t) = some a :=
  if_pos rfl

theorem findBehind {name other : String} {a : α} {t : Table α} (sorted : Sorted ((name, a) :: t))
    (upTo : ¬ name < other) : t.find? other = none := by
  apply findNone
  intro inside
  obtain ⟨entry, among, own⟩ := List.mem_map.mp inside
  exact upTo (own ▸ (List.pairwise_cons.mp sorted).1 entry among)

theorem headNotBefore {k l : String} {a b : α} {s t : Table α} (sorted : Sorted ((k, a) :: s))
    (same : ∀ name, find? name ((k, a) :: s) = find? name ((l, b) :: t)) : ¬ l < k := by
  intro before
  have here := same l
  rw [findHead, findCons, if_neg (String.ne_of_lt before), findBehind sorted (String.lt_asymm before)]
    at here
  contradiction

theorem sortedUnique {s t : Table α} (first : s.Sorted) (second : t.Sorted)
    (same : ∀ name, s.find? name = t.find? name) : s = t := by
  induction s generalizing t with
  | nil =>
    cases t with
    | nil => rfl
    | cons entry t =>
      have here := same entry.1
      rw [findHead] at here
      contradiction
  | cons entry s ih =>
    obtain ⟨k, a⟩ := entry
    cases t with
    | nil =>
      have here := same k
      rw [findHead] at here
      contradiction
    | cons entry' t =>
      obtain ⟨l, b⟩ := entry'
      obtain rfl : k = l := String.le_antisymm (headNotBefore first same)
        (headNotBefore second fun name => (same name).symm)
      have value := same k
      rw [findHead, findHead] at value
      obtain rfl := Option.some.inj value
      congr 1
      refine ih first.tail second.tail fun name => ?_
      by_cases own : name = k
      · subst own
        rw [findBehind first (String.lt_irrefl _), findBehind second (String.lt_irrefl _)]
      · have here := same name
        rwa [findCons, findCons, if_neg own, if_neg own] at here

theorem findIff {t : Table α} (sorted : t.Sorted) {a : α} : t.find? name = some a ↔ (name, a) ∈ t := by
  have distinct : (t.map Prod.fst).Nodup := List.pairwise_map.mpr (sorted.imp String.ne_of_lt)
  exact ⟨memOfFind, fun inside => findDistinct distinct inside⟩

theorem findOfList (entries : List (String × α)) (name : String) : (ofList entries).find? name =
    (entries.reverse.find? fun entry => entry.1 == name).map Prod.snd := by
  rw [ofList, ← List.foldr_reverse]
  induction entries.reverse with
  | nil => rfl
  | cons entry rest ih =>
    rw [List.foldr_cons, findInsert, ih]
    by_cases own : name = entry.1
    · simp [own]
    · simp [own, Ne.symm own]

end Descent.Table
