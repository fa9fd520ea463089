import Mathlib.Data.Nat.Init
import Mathlib.Logic.Function.Iterate
import Mathlib.Logic.Relation
import Mathlib.Order.Nat
import Mathlib.Tactic.Common

/-!
Union-find in an array of parents none of which is above its child. A node's top is found by going from parent to
parent; two nodes are joined when they have one top. Halving a path changes no top, and hanging one top under a
lower one joins exactly the two trees.
-/
namespace Kimmy.OrderedForest

/- No parent is above its child, so the way up ends. -/
def Below (parent : Nat → Nat) : Prop := ∀ i, parent i ≤ i

def top (parent : Nat → Nat) (i : Nat) : Nat := parent^[i] i

variable {parent : Nat → Nat}

theorem iterateSame {i : Nat} (fixed : parent i = i) (k : Nat) : parent^[k] i = i := Function.iterate_fixed fixed k

/- More steps than the node's own number change nothing. -/
theorem iterateTop (below : Below parent) {i k : Nat} (enough : i ≤ k) : parent^[k] i = top parent i := by
  induction i using Nat.strong_induction_on generalizing k with
  | _ i ih =>
  by_cases fixed : parent i = i
  · rw [top, iterateSame fixed, iterateSame fixed]
  · have less : parent i < i := lt_of_le_of_ne (below i) fixed
    obtain ⟨k,rfl⟩ : ∃ j, k = j + 1 := ⟨k - 1,by omega⟩
    obtain ⟨j,is⟩ : ∃ j, i = j + 1 := ⟨i - 1,by omega⟩
    have long : parent^[k + 1] i = top parent (parent i) := by
      rw [Function.iterate_succ_apply]
      exact ih _ less (by omega)
    have short : top parent i = top parent (parent i) := by
      unfold top
      rw [show parent^[i] i = parent^[j] (parent i) by rw [is, Function.iterate_succ_apply]]
      exact ih _ less (by omega)
    rw [long, short]

theorem topParent (below : Below parent) (i : Nat) : top parent (parent i) = top parent i := by
  rw [← iterateTop below (show i ≤ i + 1 by omega), Function.iterate_succ_apply]
  exact (iterateTop below (below i)).symm

theorem topFixed (below : Below parent) (i : Nat) : parent (top parent i) = top parent i := by
  have further : parent^[i + 1] i = top parent i := iterateTop below (Nat.le_succ i)
  rwa [Function.iterate_succ_apply'] at further

theorem topSelf {i : Nat} (fixed : parent i = i) : top parent i = i := iterateSame fixed i

theorem topLe (below : Below parent) (i : Nat) : top parent i ≤ i := by
  induction i using Nat.strong_induction_on with
  | _ i ih =>
  by_cases fixed : parent i = i
  · exact le_of_eq (topSelf fixed)
  · have less : parent i < i := lt_of_le_of_ne (below i) fixed
    rw [← topParent below]
    exact Nat.le_trans (ih _ less) (below i)

/-! Halving. -/

def halve (parent : Nat → Nat) (i : Nat) : Nat → Nat := Function.update parent i (parent (parent i))

theorem halveBelow (below : Below parent) (i : Nat) : Below (halve parent i) := by
  intro j
  unfold halve
  rw [Function.update_apply]
  split_ifs with is
  · rw [is]
    exact Nat.le_trans (below _) (below i)
  · exact below j

theorem halveTop (below : Below parent) (i j : Nat) : top (halve parent i) j = top parent j := by
  induction j using Nat.strong_induction_on with
  | _ j ih =>
  have same : top parent (halve parent i j) = top parent j := by
    unfold halve
    rw [Function.update_apply]
    split_ifs with is
    · rw [is, topParent below, topParent below]
    · exact topParent below j
  by_cases fixed : halve parent i j = j
  · rw [topSelf fixed]
    -- A node that halving leaves its own parent had itself for a parent already.
    have own : parent j = j := by
      unfold halve at fixed
      rw [Function.update_apply] at fixed
      split_ifs at fixed with is
      · subst is
        exact Nat.le_antisymm (below j) (by
          have := below (parent j)
          omega)
      · exact fixed
    exact (topSelf own).symm
  · have less : halve parent i j < j := lt_of_le_of_ne (halveBelow below i j) fixed
    rw [← topParent (halveBelow below i), ih _ less, same]

/-! Joining. -/

theorem hangBelow (below : Below parent) {a b : Nat} (less : a < b) : Below (Function.update parent b a) := by
  intro j
  rw [Function.update_apply]
  split_ifs with is
  · omega
  · exact below j

theorem hangTop (below : Below parent) {a b : Nat} (less : a < b) (low : parent a = a) (high : parent b = b) (j : Nat) :
    top (Function.update parent b a) j = if top parent j = b then a else top parent j := by
  have hung := hangBelow below less
  have lowest : top (Function.update parent b a) a = a := by
    refine topSelf ?_
    rw [Function.update_of_ne (by omega), low]
  induction j using Nat.strong_induction_on with
  | _ j ih =>
  by_cases is : j = b
  · subst is
    rw [← topParent hung, Function.update_self, lowest, if_pos (topSelf high)]
  · have kept : Function.update parent b a j = parent j := Function.update_of_ne is _ _
    by_cases fixed : parent j = j
    · rw [topSelf (by rw [kept, fixed]), topSelf fixed, if_neg is]
    · rw [← topParent hung, kept, ih _ (lt_of_le_of_ne (below j) fixed), topParent below]

/- The forest stands for the links made: joined nodes are those a chain of links connects. -/
def Stands (parent : Nat → Nat) (links : Nat → Nat → Prop) : Prop :=
  Below parent ∧ ∀ i j, top parent i = top parent j ↔ Relation.EqvGen links i j

/- What every link keeps, a chain of them keeps. -/
theorem chainSame {α : Type} {links : Nat → Nat → Prop} {value : Nat → α} (same : ∀ i j, links i j → value i = value j)
    {i j : Nat} (chain : Relation.EqvGen links i j) : value i = value j := by
  induction chain with
  | rel i j made => exact same i j made
  | refl _ => rfl
  | symm _ _ _ ih => exact ih.symm
  | trans _ _ _ _ _ first second => exact first.trans second

theorem standsNone : Stands id fun _ _ => False := by
  refine ⟨fun i => Nat.le_refl i,fun i j => ?_⟩
  rw [topSelf rfl, topSelf rfl]
  constructor
  · rintro rfl
    exact .refl i
  · intro chain
    exact @chainSame _ _ id (fun _ _ => False.elim) i j chain

/- One link more, by any forest whose tops are the old ones with the two ends' made one. -/
theorem Stands.link {links : Nat → Nat → Prop} (stands : Stands parent links) {next : Nat → Nat} (below : Below next)
    {a b : Nat} (ends : top next a = top next b)
    (kept : ∀ i j, top parent i = top parent j → top next i = top next j)
    (only : ∀ i j, top next i = top next j → top parent i = top parent j ∨
      top parent i = top parent a ∧ top parent j = top parent b ∨
      top parent i = top parent b ∧ top parent j = top parent a) :
    Stands next fun i j => links i j ∨ i = a ∧ j = b := by
  have widen : ∀ {i j}, Relation.EqvGen links i j → Relation.EqvGen (fun i j => links i j ∨ i = a ∧ j = b) i j :=
    fun chain => chain.mono fun _ _ => Or.inl
  have new : Relation.EqvGen (fun i j => links i j ∨ i = a ∧ j = b) a b := .rel _ _ (Or.inr ⟨rfl,rfl⟩)
  refine ⟨below,fun i j => ⟨fun same => ?_,fun chain => ?_⟩⟩
  · rcases only i j same with before | ⟨first,second⟩ | ⟨first,second⟩
    · exact widen ((stands.2 i j).mp before)
    · exact (widen ((stands.2 i a).mp first)).trans _ _ _ (new.trans _ _ _ (widen ((stands.2 b j).mp second.symm)))
    · exact (widen ((stands.2 i b).mp first)).trans _ _ _
        ((new.symm _ _).trans _ _ _ (widen ((stands.2 a j).mp second.symm)))
  · refine chainSame (fun i j made => ?_) chain
    rcases made with old | ⟨rfl,rfl⟩
    · exact kept i j ((stands.2 i j).mpr (.rel _ _ old))
    · exact ends

/- A forest with the same tops stands for the same links. -/
theorem Stands.sameTops {links : Nat → Nat → Prop} (stands : Stands parent links) {next : Nat → Nat} (below : Below next)
    (same : ∀ i, top next i = top parent i) : Stands next links :=
  ⟨below,fun i j => by rw [same, same]; exact stands.2 i j⟩

end Kimmy.OrderedForest
