import Descent.Proofs.Uses
/-!
Handles that are issued while a grammar is assembled. Each is issued with a number of its own, and the
numbers only go up, so the handles of a cell that one rule holds are all different, if nothing that the
rule was made of held any.
-/
namespace Descent

structure Issued (cell first next : Nat) (refs : List Reference) : Prop where
  order : first ≤ next
  distinct : (refs.filter (·.handles cell)).Nodup
  tags : ∀ r ∈ refs, r.handles cell → ∃ tag, r = .handle cell tag ∧ first ≤ tag ∧ tag < next

def Scope.Clear (scope : Scope) (cell : Nat) : Prop :=
  ∀ name rule, (name, Meaning.rule rule) ∈ scope → ∀ r ∈ rule.references, ¬ r.handles cell

namespace Issued

variable {cell first middle next : Nat} {refs others : List Reference}

theorem nothing (order : first ≤ next) (none : ∀ r ∈ refs, ¬ r.handles cell) :
    Issued cell first next refs where
  order := order
  distinct := by
    rw [List.filter_eq_nil_iff.mpr none]
    exact List.nodup_nil
  tags r inside handles := absurd handles (none r inside)

theorem both (one : Issued cell first middle refs) (other : Issued cell middle next others) :
    Issued cell first next (refs ++ others) where
  order := Nat.le_trans one.order other.order
  distinct := by
    rw [List.filter_append, List.nodup_append]
    refine ⟨one.distinct, other.distinct, fun r inside q among same => ?_⟩
    -- What was issued first has a lower number than what was issued later.
    obtain ⟨inside, handles⟩ := List.mem_filter.mp inside
    obtain ⟨among, _⟩ := List.mem_filter.mp among
    obtain ⟨tag, rfl, -, below⟩ := one.tags r inside handles
    obtain ⟨tag', own, above, -⟩ := other.tags q among (same ▸ handles)
    cases same.trans own
    exact Nat.not_lt_of_le above below
  tags r inside handles := by
    rcases List.mem_append.mp inside with left | right
    · obtain ⟨tag, own, lower, upper⟩ := one.tags r left handles
      exact ⟨tag, own, lower, Nat.lt_of_lt_of_le upper other.order⟩
    · obtain ⟨tag, own, lower, upper⟩ := other.tags r right handles
      exact ⟨tag, own, Nat.le_trans one.order lower, upper⟩

theorem fewer (issued : Issued cell first next refs) (sub : others.Sublist refs) :
    Issued cell first next others where
  order := issued.order
  distinct := issued.distinct.sublist (sub.filter _)
  tags r inside := issued.tags r (sub.subset inside)

theorem three {last : Nat} {rest : List Reference} (one : Issued cell first middle refs)
    (two : Issued cell middle next others) (third : Issued cell next last rest) :
    Issued cell first last (refs ++ others ++ rest) :=
  both (both one two) third

end Issued

namespace Scope

variable {scope names : Scope} {cell : Nat}

theorem clearAppend (first : names.Clear cell) (second : scope.Clear cell) :
    Clear (names ++ scope) cell := fun name rule inside =>
  (List.mem_append.mp inside).elim (first name rule) (second name rule)

theorem clearReverse (clear : names.Clear cell) : Clear names.reverse cell :=
  fun name rule inside => clear name rule (List.mem_reverse.mp inside)

theorem clearOpened (cells : List (String × Nat)) (clear : scope.Clear cell) :
    (opened cells scope).Clear cell := by
  refine clearAppend (fun name rule inside => ?_) clear
  obtain ⟨d, -, same⟩ := List.mem_map.mp (List.mem_reverse.mp inside)
  simp at same

theorem clearCons (name : String) {rule : Rule} (clear : scope.Clear cell)
    (own : ∀ r ∈ rule.references, ¬ r.handles cell) : Clear ((name, .rule rule) :: scope) cell := by
  intro x made inside
  rcases List.mem_cons.mp inside with same | old
  · cases same
    exact own
  · exact clear x made old

end Scope

namespace Assembly

theorem allocateAllIssued (names : List String) (b : Blueprint) :
    (allocateAll names b).2.store.issued = b.store.issued := by
  rw [allocateAllEq]

theorem defineAllIssued (alive : List Rule) (cells : List (String × Nat)) (rules : List Rule)
    (b : Blueprint) : (defineAll alive cells rules b).2.store.issued = b.store.issued ∧
      (defineAll alive cells rules b).2.store.cells.length = b.store.cells.length ∧
      ∀ cell, Scope.Clear (defineAll alive cells rules b).1 cell := by
  induction cells generalizing rules b with
  | nil => exact ⟨rfl, rfl, fun _ _ _ inside => absurd inside List.not_mem_nil⟩
  | cons entry cells ih =>
    cases rules with
    | nil => exact ⟨rfl, rfl, fun _ _ _ inside => absurd inside List.not_mem_nil⟩
    | cons rule rules =>
      obtain ⟨same, length, clear⟩ := ih rules (define alive entry.2 rule b).2
      rw [defineStore, Store.defineLength] at length
      refine ⟨same, length, fun cell => Scope.clearCons _ (clear cell) fun r inside => ?_⟩
      cases List.mem_singleton.mp inside
      exact Bool.false_ne_true

theorem lookupIssued {scope : Scope} {cell : Nat} (clear : scope.Clear cell) (name : String)
    (b : Blueprint) : Issued cell b.store.issued (lookup scope name b).2.store.issued
      (lookup scope name b).1.references := by
  cases found : Table.find? name scope with
  | none =>
    simp only [lookup, found]
    exact .nothing (Nat.le_refl _) fun _ inside => absurd inside List.not_mem_nil
  | some meaning =>
    cases meaning with
    | rule rule =>
      simp only [lookup, found]
      exact .nothing (Nat.le_refl _) (clear name rule (Table.memOfFind found))
    | cell c =>
      simp only [lookup, found]
      refine ⟨Nat.le_succ _, List.Nodup.filter _ (List.nodup_singleton _), fun r inside handles => ?_⟩
      cases List.mem_singleton.mp inside
      cases Reference.handlesCell handles
      exact ⟨b.store.issued, rfl, Nat.le_refl _, Nat.lt_succ_self _⟩

end Assembly

namespace Grammar
open Assembly (allocate allocateAll defineAll)

variable {cell : Nat}

theorem assembleLonger (g : Grammar) (scope : Scope) {b : Blueprint}
    (made : cell < b.store.cells.length) :
    cell < (g.assemble scope b).2.store.cells.length :=
  Nat.lt_of_lt_of_le made (assembleLays g scope b).1.longer

mutual

theorem assembleIssued : ∀ (g : Grammar) (scope : Scope) (b : Blueprint), scope.Clear cell →
    cell < b.store.cells.length → Issued cell b.store.issued (g.assemble scope b).2.store.issued
      (g.assemble scope b).1.references
  | .leaf _, _, _, _, _ => .nothing (Nat.le_refl _) fun _ inside => absurd inside List.not_mem_nil
  | .wrap w body, scope, b, clear, made => by
    refine (assembleIssued body scope b clear made).fewer ?_
    change (if w.keeps then _ else []).Sublist _
    split
    · exact List.Sublist.refl _
    · exact List.nil_sublist _
  | .choice members, scope, b, clear, made => assembleAllIssued members scope b clear made
  | .sequence members, scope, b, clear, made => assembleAllIssued members scope b clear made
  | .choiceOf n member last, scope, b, clear, made => by
    have first := assembleIssued member scope b clear made
    have second := assembleIssued last scope _ clear (assembleLonger member scope made)
    refine (first.both second).fewer ?_
    change ((if n = 0 then [] else _) ++ _).Sublist _
    split
    · exact List.sublist_append_right _ _
    · exact List.Sublist.refl _
  | .between left middle right, scope, b, clear, made => by
    have order := assembleLonger left scope made
    exact .three (assembleIssued left scope b clear made) (assembleIssued middle scope _ clear order)
      (assembleIssued right scope _ clear (assembleLonger middle scope order))
  | .block start terminator escape, scope, b, clear, made => by
    have order := assembleLonger start scope made
    exact .three (assembleIssued start scope b clear made)
      (assembleIssued terminator scope _ clear order)
      (assembleIssued escape scope _ clear (assembleLonger terminator scope order))
  | .ref name, _, b, clear, _ => Assembly.lookupIssued clear name b
  | .recursive name body, scope, b, clear, made => by
    -- The handle that the name gives belongs to a cell that is made only now.
    have apart : ∀ r ∈ (Rule.refer (.weak b.store.cells.length)).references, ¬ r.handles cell := by
      intro r inside handles
      cases List.mem_singleton.mp inside
      exact Nat.ne_of_gt made (Reference.handlesCell handles)
    have longer : cell < (allocate b).2.store.cells.length := by
      rw [Assembly.allocateStore, Store.allocateLength]
      exact Nat.lt_succ_of_lt made
    have inner := assembleIssued body _ (allocate b).2 (Scope.clearCons name clear apart) longer
    refine .nothing inner.order fun r inside => ?_
    cases List.mem_singleton.mp inside
    exact Bool.false_ne_true
  | .together definitions body, scope, b, clear, made => by
    let opened := allocateAll (definitions.map Prod.fst) b
    let laid := assembleDefinitions (Scope.opened opened.1 scope) definitions opened.2
    have longer : cell < opened.2.store.cells.length := by
      simp only [opened, Assembly.allocateAllEq, List.length_append]
      exact Nat.lt_add_right _ made
    have inner := assembleDefinitionsIssued definitions _ opened.2 (Scope.clearOpened opened.1 clear)
      longer
    obtain ⟨same, length, finished⟩ := Assembly.defineAllIssued laid.1 opened.1 laid.1 laid.2
    have room : cell < (defineAll laid.1 opened.1 laid.1 laid.2).2.store.cells.length := by
      rw [length]
      exact Nat.lt_of_lt_of_le longer (assembleDefinitionsLays definitions _ opened.2).1.longer
    have outer := assembleIssued body _ _
      (Scope.clearAppend (Scope.clearReverse (finished cell)) clear) room
    have order := inner.order
    rw [Assembly.allocateAllIssued] at order
    rw [same] at outer
    have none : Issued cell b.store.issued laid.2.store.issued [] :=
      .nothing order fun _ inside => absurd inside List.not_mem_nil
    exact none.both outer

theorem assembleAllIssued : ∀ (gs : List Grammar) (scope : Scope) (b : Blueprint),
    scope.Clear cell → cell < b.store.cells.length →
      Issued cell b.store.issued (assembleAll scope gs b).2.store.issued
        (Rule.referencesOfAll (assembleAll scope gs b).1)
  | [], _, _, _, _ => .nothing (Nat.le_refl _) fun _ inside => absurd inside List.not_mem_nil
  | g :: gs, scope, b, clear, made =>
    (assembleIssued g scope b clear made).both
      (assembleAllIssued gs scope _ clear (assembleLonger g scope made))

theorem assembleDefinitionsIssued : ∀ (gs : List (String × Grammar)) (scope : Scope)
    (b : Blueprint), scope.Clear cell → cell < b.store.cells.length →
      Issued cell b.store.issued (assembleDefinitions scope gs b).2.store.issued
        (Rule.referencesOfAll (assembleDefinitions scope gs b).1)
  | [], _, _, _, _ => .nothing (Nat.le_refl _) fun _ inside => absurd inside List.not_mem_nil
  | (_, g) :: gs, scope, b, clear, made =>
    (assembleIssued g scope b clear made).both
      (assembleDefinitionsIssued gs scope _ clear (assembleLonger g scope made))

end

end Grammar
end Descent
