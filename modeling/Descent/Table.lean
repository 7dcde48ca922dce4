/-!
Things under names, in the order of the names. A name stands once, so what is found under it is what
was put there last.
-/
namespace Descent

abbrev Table (α : Type) := List (String × α)

namespace Table

variable {α : Type}

def find? (name : String) : Table α → Option α
  | [] => none
  | (k, a) :: rest => if name = k then some a else find? name rest

def insert (name : String) (a : α) : Table α → Table α
  | [] => [(name, a)]
  | (k, b) :: rest =>
    if name = k then (name, a) :: rest
    else if name < k then (name, a) :: (k, b) :: rest
    else (k, b) :: insert name a rest

theorem findCons (name k : String) (a : α) (rest : Table α) :
    find? name ((k, a) :: rest) = if name = k then some a else find? name rest := rfl

theorem insertCons (name k : String) (a b : α) (rest : Table α) : insert name a ((k, b) :: rest) =
    if name = k then (name, a) :: rest
    else if name < k then (name, a) :: (k, b) :: rest
    else (k, b) :: insert name a rest := rfl

def erase (name : String) (t : Table α) : Table α :=
  t.filter fun entry => entry.1 != name

def insert? (name : Option String) (a : α) (t : Table α) : Table α :=
  match name with
  | none => t
  | some name => t.insert name a

def ofList (entries : List (String × α)) : Table α :=
  entries.foldl (fun t entry => t.insert entry.1 entry.2) []

def Sorted (t : Table α) : Prop :=
  t.Pairwise fun a b => a.1 < b.1

theorem findInsert (t : Table α) (name other : String) (a : α) :
    (t.insert name a).find? other = if other = name then some a else t.find? other := by
  induction t with
  | nil => rfl
  | cons entry rest ih =>
    obtain ⟨k, b⟩ := entry
    rw [insertCons]
    split
    · rename_i same
      subst same
      simp only [findCons]
      split <;> rfl
    · rename_i different
      split
      · rfl
      · simp only [findCons, ih]
        split
        · rename_i same
          rw [if_neg fun h => different (h.symm.trans same)]
        · rfl

theorem findErase (t : Table α) (name other : String) :
    (t.erase name).find? other = if other = name then none else t.find? other := by
  induction t with
  | nil => exact (ite_self none).symm
  | cons entry rest ih =>
    obtain ⟨k, b⟩ := entry
    by_cases kept : k = name
    · subst kept
      simp only [erase, bne_self_eq_false, Bool.false_eq_true, not_false_eq_true,
        List.filter_cons_of_neg]
      rw [← erase, ih]
      simp only [findCons]
      split <;> simp_all
    · have stays : erase name ((k, b) :: rest) = (k, b) :: erase name rest := by
        simp [erase, kept]
      rw [stays]
      simp only [findCons, ih]
      split
      · rename_i same
        rw [if_neg fun h => kept (same.symm.trans h)]
      · rfl

theorem memInsert {t : Table α} {name : String} {a : α} {entry : String × α}
    (inside : entry ∈ t.insert name a) : entry = (name, a) ∨ entry ∈ t := by
  induction t with
  | nil => exact Or.inl (List.mem_singleton.mp inside)
  | cons first rest ih =>
    obtain ⟨k, b⟩ := first
    rw [insertCons] at inside
    split at inside
    · rcases List.mem_cons.mp inside with same | later
      · exact Or.inl same
      · exact Or.inr (List.mem_cons_of_mem _ later)
    · split at inside
      · exact List.mem_cons.mp inside
      · rcases List.mem_cons.mp inside with same | later
        · exact Or.inr (same ▸ List.mem_cons_self)
        · exact (ih later).imp id (List.mem_cons_of_mem _)

theorem insertSorted {t : Table α} (sorted : t.Sorted) (name : String) (a : α) :
    (t.insert name a).Sorted := by
  induction t with
  | nil => exact List.pairwise_singleton ..
  | cons first rest ih =>
    obtain ⟨k, b⟩ := first
    obtain ⟨below, ordered⟩ := List.pairwise_cons.mp sorted
    rw [insertCons]
    split
    · rename_i same
      subst same
      exact List.pairwise_cons.mpr ⟨below, ordered⟩
    · rename_i different
      split
      · rename_i before
        refine List.pairwise_cons.mpr ⟨?_, sorted⟩
        intro entry inside
        rcases List.mem_cons.mp inside with rfl | later
        · exact before
        · exact String.lt_trans before (below entry later)
      · rename_i notBefore
        refine List.pairwise_cons.mpr ⟨?_, ih ordered⟩
        intro entry inside
        rcases memInsert inside with rfl | later
        · exact Classical.byContradiction fun notAfter =>
            different (String.le_antisymm notAfter notBefore)
        · exact below entry later

theorem ofListSorted (entries : List (String × α)) : (ofList entries).Sorted := by
  have step : ∀ (t : Table α), t.Sorted →
      (entries.foldl (fun t entry => t.insert entry.1 entry.2) t).Sorted := by
    induction entries with
    | nil => exact fun _ sorted => sorted
    | cons entry rest ih => exact fun t sorted => ih _ (insertSorted sorted _ _)
  exact step [] List.Pairwise.nil

end Table
end Descent
