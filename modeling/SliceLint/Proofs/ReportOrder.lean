import Mathlib.Order.Defs.LinearOrder
import SliceLint.Report

set_option autoImplicit false

/-! # The order of reports

Paths are compared component by component, and components by kind and then by name, so locations
have a total preorder (`Report.compareLocations` is a `TransCmp`). Sorting by it is stable: to leave
violations out, or to change them without moving them, can be done before or after
(`Report.filterMap_mergeSort`). -/

namespace SliceLint

/-! ## Paths -/

namespace Path

/-- The text of a component that is a name. -/
def Component.label : Component → String
  | name s => s
  | _ => ""

theorem Component.compare_eq :
    Component.compare = compareLex (compareOn rank) (compareOn label) := by
  funext a b
  -- Two names have the same rank; in all other cases the ranks decide, or nothing differs.
  cases a <;> cases b <;> rfl

theorem compareComponents_eq : compareComponents = List.compareLex Component.compare := by
  funext as bs
  induction as generalizing bs with
  | nil => cases bs <;> rfl
  | cons a as ih =>
      cases bs with
      | nil => rfl
      | cons b bs => rw [compareComponents, List.compareLex_cons_cons, ih]

instance : Std.TransCmp Component.compare := by
  rw [Component.compare_eq]
  infer_instance

instance : Std.TransCmp compareComponents := by
  rw [compareComponents_eq]
  infer_instance

instance : Std.TransCmp Path.compare :=
  inferInstanceAs (Std.TransCmp (Ordering.byKey components compareComponents))

end Path

/-! ## Locations -/

namespace Report

instance : Std.TransCmp compareLocations :=
  inferInstanceAs (Std.TransCmp
    (compareLex (Ordering.byKey Location.file Path.compare)
      (compareLex (compareOn Location.line) (compareOn Location.column))))

/-- Whether a violation may stand in front of another one. -/
def inOrder (a b : Violation) : Bool :=
  (compareLocations a.location b.location).isLE

theorem inOrder_trans (a b c : Violation) (hab : inOrder a b = true) (hbc : inOrder b c = true) :
    inOrder a c = true :=
  Std.TransCmp.isLE_trans hab hbc

theorem inOrder_total (a b : Violation) : (inOrder a b || inOrder b a) = true := by
  unfold inOrder
  have hswap : compareLocations b.location a.location
      = (compareLocations a.location b.location).swap := Std.OrientedCmp.eq_swap
  rw [hswap]
  cases compareLocations a.location b.location <;> rfl

end Report

/-! ## Stable sorting -/

/-- A list is divided in one way into elements without a property and elements with it. -/
theorem eq_of_append_eq_append {α : Type} {p : α → Prop} {xs ys xs' ys' : List α}
    (h : xs ++ ys = xs' ++ ys') (hxs : ∀ a ∈ xs, ¬ p a) (hys : ∀ a ∈ ys, p a)
    (hxs' : ∀ a ∈ xs', ¬ p a) (hys' : ∀ a ∈ ys', p a) : xs = xs' ∧ ys = ys' := by
  rcases List.append_eq_append_iff.1 h with ⟨middle, hx, hy⟩ | ⟨middle, hx, hy⟩
  · cases middle with
    | nil => simp_all
    | cons a middle => exact absurd (hys a (by simp [hy])) (hxs' a (by simp [hx]))
  · cases middle with
    | nil => simp_all
    | cons a middle => exact absurd (hys' a (by simp [hy])) (hxs a (by simp [hx]))

namespace Report

/-- The first violation of a list is sorted in before all those that it may stand in front of. -/
theorem mergeSort_cons (v : Violation) (vs : List Violation) :
    ∃ before after, (v :: vs).mergeSort inOrder = before ++ v :: after ∧
      vs.mergeSort inOrder = before ++ after ∧
      (∀ u ∈ before, ¬ inOrder v u = true) ∧ ∀ u ∈ after, inOrder v u = true := by
  obtain ⟨before, after, hsort, hrest, hbefore⟩ :=
    List.mergeSort_cons inOrder_trans inOrder_total v vs
  have hsorted := List.pairwise_mergeSort inOrder_trans inOrder_total (v :: vs)
  rw [hsort, List.pairwise_append, List.pairwise_cons] at hsorted
  exact ⟨before, after, hsort, hrest, fun u hu => by simpa using hbefore u hu, hsorted.2.1.1⟩

/-- Violations can be left out or changed before or after sorting, if none of them is moved. -/
theorem filterMap_mergeSort {change : Violation → Option Violation}
    (hchange : ∀ v v', change v = some v' → v'.location = v.location) (vs : List Violation) :
    (vs.mergeSort inOrder).filterMap change = (vs.filterMap change).mergeSort inOrder := by
  have hkeeps : ∀ u u' v v', change u = some u' → change v = some v' →
      inOrder u' v' = inOrder u v := by
    intro u u' v v' hu hv
    rw [inOrder, inOrder, hchange u u' hu, hchange v v' hv]
  induction vs with
  | nil => simp
  | cons v vs ih =>
      obtain ⟨before, after, hsort, hrest, hbefore, hafter⟩ := mergeSort_cons v vs
      rw [hrest, List.filterMap_append] at ih
      rw [hsort, List.filterMap_append]
      cases hv : change v with
      | none => rw [List.filterMap_cons_none hv, List.filterMap_cons_none hv, ih]
      | some v' =>
          rw [List.filterMap_cons_some hv, List.filterMap_cons_some hv]
          obtain ⟨before', after', hsort', hrest', hbefore', hafter'⟩ :=
            mergeSort_cons v' (vs.filterMap change)
          -- Both sides put `v'` directly before all that it may stand in front of.
          have hsplit : before.filterMap change = before' ∧ after.filterMap change = after' := by
            refine eq_of_append_eq_append (p := fun u => inOrder v' u = true) (ih.trans hrest')
              ?_ ?_ hbefore' hafter'
            · intro u' hu'
              obtain ⟨u, hu, hchanged⟩ := List.mem_filterMap.1 hu'
              rw [hkeeps v v' u u' hv hchanged]
              exact hbefore u hu
            · intro u' hu'
              obtain ⟨u, hu, hchanged⟩ := List.mem_filterMap.1 hu'
              rw [hkeeps v v' u u' hv hchanged]
              exact hafter u hu
          rw [hsort', hsplit.1, hsplit.2]

end Report

end SliceLint
