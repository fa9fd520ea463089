import Mathlib.Data.List.Forall2
import Mathlib.Data.List.Sort
import Mathlib.Order.Compare

/-!
Lists of named values. Two lists whose names are distinct hold related values under the same names exactly when, put in the
order of their names, they are related place by place.
-/
namespace Kimmy.SortedPairs

section
variable {κ ν β : Type} [Ord β]

def sortKeys (rank : κ → β) (l : List (κ × ν)) : List (κ × ν) := 
  l.mergeSort fun a b => (compare (rank a.1) (rank b.1)).isLE

variable {rank : κ → β} {x y : List (κ × ν)} {R : ν → ν → Prop}

theorem sortKeysPerm (rank : κ → β) (l : List (κ × ν)) : (sortKeys rank l).Perm l := List.mergeSort_perm ..

variable [Std.TransOrd β]

theorem isLETotal (a b : β) : ((compare a b).isLE || (compare b a).isLE) = true := by
  have turned : compare a b = (compare b a).swap := Std.OrientedCmp.eq_swap
  rw [turned]
  cases compare b a <;> rfl

theorem sortKeysSorted (rank : κ → β) (l : List (κ × ν)) :
    (sortKeys rank l).Pairwise fun a b => (compare (rank a.1) (rank b.1)).isLE = true :=
  List.pairwise_mergeSort (fun _ _ _ => Std.TransCmp.isLE_trans) (fun a b => isLETotal (rank a.1) (rank b.1)) l

variable [Std.LawfulEqOrd β]

/- Distinct names that are the same names stand in the same order. -/
theorem sameNames (injective : Function.Injective rank) (once : (x.map Prod.fst).Nodup) (length : x.length = y.length)
    (inside : ∀ p ∈ x, p.1 ∈ y.map Prod.fst) : (sortKeys rank x).map Prod.fst = (sortKeys rank y).map Prod.fst := by
  have subset : x.map Prod.fst ⊆ y.map Prod.fst := by
    intro name member
    obtain ⟨p,listed,rfl⟩ := List.mem_map.mp member
    exact inside p listed
  have names : (x.map Prod.fst).Perm (y.map Prod.fst) :=
    (List.subperm_of_subset once subset).perm_of_length_le (by simp [length])
  have sorted : ∀ l : List (κ × ν), ((sortKeys rank l).map Prod.fst).Pairwise fun a b => (compare (rank a) (rank b)).isLE = true := fun l =>
    List.pairwise_map.mpr (sortKeysSorted rank l)
  refine List.Perm.eq_of_pairwise (fun a b _ _ low high => injective (Std.LawfulEqOrd.compare_eq_iff_eq.mp (Std.OrientedCmp.isLE_antisymm low high))) (sorted x) (sorted y) ?_
  exact ((sortKeysPerm rank x).map Prod.fst).trans (names.trans ((sortKeysPerm rank y).map Prod.fst).symm)

theorem valueOnce (once : (y.map Prod.fst).Nodup) {k : κ} {v w : ν} (first : (k,v) ∈ y) (second : (k,w) ∈ y) : v = w := by
  have same := List.inj_on_of_nodup_map once first second rfl
  exact congrArg Prod.snd same

theorem matchSorted (injective : Function.Injective rank) (onceX : (x.map Prod.fst).Nodup) (onceY : (y.map Prod.fst).Nodup) :
    (x.length = y.length ∧ ∀ p ∈ x, ∃ w, (p.1,w) ∈ y ∧ R p.2 w) ↔
      List.Forall₂ (fun p q => p.1 = q.1 ∧ R p.2 q.2) (sortKeys rank x) (sortKeys rank y) := by
  have permX := sortKeysPerm rank x
  have permY := sortKeysPerm rank y
  constructor
  · rintro ⟨length,related⟩
    have names := sameNames injective onceX length fun p member =>
      have ⟨w,listed,_⟩ := related p member
      List.mem_map.mpr ⟨_,listed,rfl⟩
    have lengths : (sortKeys rank x).length = (sortKeys rank y).length := by rw [permX.length_eq, permY.length_eq, length]
    refine List.forall₂_iff_get.mpr ⟨lengths,fun i first second => ?_⟩
    have name : ((sortKeys rank x).get ⟨i,first⟩).1 = ((sortKeys rank y).get ⟨i,second⟩).1 := by
      have here := congrArg (fun l : List κ => l[i]?) names
      simpa [List.getElem?_eq_getElem first, List.getElem?_eq_getElem second] using here
    refine ⟨name,?_⟩
    obtain ⟨w,listed,holds⟩ := related _ (permX.mem_iff.mp (List.get_mem _ _))
    have own : (((sortKeys rank x).get ⟨i,first⟩).1,((sortKeys rank y).get ⟨i,second⟩).2) ∈ y := by
      rw [name]
      exact permY.mem_iff.mp (List.get_mem _ _)
    rw [valueOnce onceY own listed]
    exact holds
  · intro related
    have lengths := related.length_eq
    rw [permX.length_eq, permY.length_eq] at lengths
    refine ⟨lengths,fun p member => ?_⟩
    obtain ⟨q,listed,name,holds⟩ : ∃ q ∈ sortKeys rank y, p.1 = q.1 ∧ R p.2 q.2 := by
      have place : ∀ {l m : List (κ × ν)}, List.Forall₂ (fun p q => p.1 = q.1 ∧ R p.2 q.2) l m → p ∈ l →
          ∃ q ∈ m, p.1 = q.1 ∧ R p.2 q.2 := by
        intro l m pairs inside
        induction pairs with
        | nil => cases inside
        | cons own _ ih =>
          rcases List.mem_cons.mp inside with rfl | later
          · exact ⟨_,List.mem_cons_self,own⟩
          · obtain ⟨q,listed,holds⟩ := ih later
            exact ⟨q,List.mem_cons_of_mem _ listed,holds⟩
      exact place related (permX.mem_iff.mpr member)
    exact ⟨q.2,by rw [name]; exact permY.mem_iff.mp listed,holds⟩

end

end Kimmy.SortedPairs
