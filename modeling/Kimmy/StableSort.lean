import Mathlib.Data.List.Basic
import Mathlib.Data.List.Perm.Basic
import Mathlib.Order.Defs.LinearOrder

/-!
Stable sorting under a comparison that may call two different values equal. A list is the stable sort of another when
it is in order and holds the values of each rank as they came; there is one such list, merging two of them gives one,
and the standard sort is one.
-/
namespace Kimmy.StableSort
variable {α : Type} {cmp : α → α → Ordering}

/- `sort_by`. -/
def sortBy (cmp : α → α → Ordering) (list : List α) : List α := list.mergeSort fun a b => (cmp a b).isLE

/- The values that compare equal to one. -/
def ranked (cmp : α → α → Ordering) (x : α) (list : List α) : List α := list.filter fun y => cmp x y == .eq

structure Stable (cmp : α → α → Ordering) (list sorted : List α) : Prop where
  order : sorted.Pairwise fun a b => (cmp a b).isLE = true
  ties : ∀ x, ranked cmp x sorted = ranked cmp x list

theorem rankedAppend (x : α) (a b : List α) : ranked cmp x (a ++ b) = ranked cmp x a ++ ranked cmp x b := List.filter_append ..

theorem rankedCons (x y : α) (rest : List α) :
    ranked cmp x (y :: rest) = if cmp x y = .eq then y :: ranked cmp x rest else ranked cmp x rest := by
  unfold ranked
  rw [List.filter_cons]
  by_cases same : cmp x y = .eq <;> simp [same]

theorem memRanked {x y : α} {list : List α} : y ∈ ranked cmp x list ↔ y ∈ list ∧ cmp x y = .eq := by
  simp [ranked]

theorem Stable.nil : Stable cmp ([] : List α) [] := ⟨List.Pairwise.nil,fun _ => rfl⟩

section
variable [Std.TransCmp cmp]

theorem Stable.mem {list sorted : List α} (stable : Stable cmp list sorted) {x : α} : x ∈ sorted ↔ x ∈ list := by
  have same : cmp x x = .eq := Std.ReflCmp.compare_self
  have held {l : List α} : x ∈ l ↔ x ∈ ranked cmp x l := by
    rw [memRanked, and_iff_left same]
  rw [held, stable.ties, ← held]

/- Two lists in order that hold each rank alike are the same. -/
theorem orderedUnique : ∀ {a b : List α}, a.Pairwise (fun x y => (cmp x y).isLE = true) →
    b.Pairwise (fun x y => (cmp x y).isLE = true) → (∀ x, ranked cmp x a = ranked cmp x b) → a = b := by
  intro a
  induction a with
  | nil =>
    intro b _ _ same
    cases b with
    | nil => rfl
    | cons y rest =>
      have held := same y
      rw [rankedCons, if_pos Std.ReflCmp.compare_self] at held
      cases held
  | cons x rest ih =>
    intro b first second same
    have mine := same x
    rw [rankedCons, if_pos Std.ReflCmp.compare_self] at mine
    cases b with
    | nil => cases mine
    | cons y more =>
      obtain ⟨leastX,tailX⟩ := List.pairwise_cons.mp first
      obtain ⟨leastY,tailY⟩ := List.pairwise_cons.mp second
      -- each head is at most the other, so they are of one rank and the first of it
      have inB : x ∈ y :: more := (memRanked.mp (mine ▸ List.mem_cons_self : x ∈ ranked cmp x (y :: more))).1
      have yours := same y
      rw [@rankedCons _ cmp y y, if_pos Std.ReflCmp.compare_self] at yours
      have inA : y ∈ x :: rest := (memRanked.mp (yours.symm ▸ List.mem_cons_self : y ∈ ranked cmp y (x :: rest))).1
      have below : (cmp x y).isLE = true := by
        rcases List.mem_cons.mp inA with rfl | later
        · exact Std.ReflCmp.isLE_rfl
        · exact leastX y later
      have above : (cmp y x).isLE = true := by
        rcases List.mem_cons.mp inB with rfl | later
        · exact Std.ReflCmp.isLE_rfl
        · exact leastY x later
      have level : cmp x y = .eq := Std.OrientedCmp.isLE_antisymm below above
      rw [rankedCons, if_pos level] at mine
      obtain ⟨rfl,_⟩ := List.cons.inj mine
      rw [ih tailX tailY fun z => ?_]
      have both := same z
      rw [rankedCons, rankedCons] at both
      split_ifs at both with held
      · exact (List.cons.inj both).2
      · exact both

theorem Stable.unique {list a b : List α} (first : Stable cmp list a) (second : Stable cmp list b) : a = b :=
  orderedUnique first.order second.order fun x => (first.ties x).trans (second.ties x).symm

/- What holds along each rank holds of any two that are level. -/
theorem levelPairs {R : α → α → Prop} {list : List α} (order : list.Pairwise fun x y => (cmp x y).isLE = true)
    (ranks : ∀ x, (ranked cmp x list).Pairwise R) : list.Pairwise fun x y => cmp x y = .lt ∨ cmp x y = .eq ∧ R x y := by
  induction list with
  | nil => exact .nil
  | cons x rest ih =>
    obtain ⟨least,tail⟩ := List.pairwise_cons.mp order
    refine List.pairwise_cons.mpr ⟨fun y member => ?_,ih tail fun z => ?_⟩
    · have low := least y member
      cases is : cmp x y with
      | lt => exact .inl rfl
      | eq =>
        have mine := ranks x
        rw [rankedCons, if_pos Std.ReflCmp.compare_self] at mine
        exact .inr ⟨rfl,(List.pairwise_cons.mp mine).1 y (memRanked.mpr ⟨member,is⟩)⟩
      | gt =>
        rw [is] at low
        cases low
    · exact (ranks z).sublist ((List.sublist_cons_self x rest).filter _)

theorem trans' (a b c : α) (first : (cmp a b).isLE = true) (second : (cmp b c).isLE = true) : (cmp a c).isLE = true :=
  Std.TransCmp.isLE_trans first second

theorem total' (a b : α) : ((cmp a b).isLE || (cmp b a).isLE) = true := by
  rw [@Std.OrientedCmp.eq_swap _ cmp _ a b]
  cases cmp b a <;> rfl

theorem stableSort (list : List α) : Stable cmp list (sortBy cmp list) := by
  refine ⟨List.pairwise_mergeSort trans' total' list,fun x => ?_⟩
  -- the values of a rank are in order as they came, so sorting leaves them so
  have level : (ranked cmp x list).Pairwise fun a b => (cmp a b).isLE = true := by
    refine List.Pairwise.imp_of_mem (fun {a b} first second _ => ?_) (List.pairwise_of_forall (R := fun _ _ => True) fun _ _ => trivial)
    have here := (memRanked.mp first).2
    have there := (memRanked.mp second).2
    rw [Std.TransCmp.eq_trans (Std.OrientedCmp.eq_symm here) there]
    rfl
  have kept := List.sublist_mergeSort trans' total' level (List.filter_sublist (p := fun y => cmp x y == .eq))
  have inside := kept.filter fun y => cmp x y == .eq
  have again : (ranked cmp x list).filter (fun y => cmp x y == .eq) = ranked cmp x list := by
    unfold ranked
    rw [List.filter_filter]
    simp
  rw [again] at inside
  refine (inside.eq_of_length ?_).symm
  exact ((List.mergeSort_perm list _).filter _).length_eq.symm

/- The right side goes first only when strictly less. -/
def mergeTwo (cmp : α → α → Ordering) (left right : List α) : List α := left.merge right fun l r => cmp r l != .lt

theorem leftFirst (l r : α) : (cmp r l != .lt) = (cmp l r).isLE := by
  rw [@Std.OrientedCmp.eq_swap _ cmp _ l r]
  cases cmp r l <;> rfl

theorem rankedMerge (x : α) : ∀ {a b : List α}, a.Pairwise (fun x y => (cmp x y).isLE = true) →
    ranked cmp x (mergeTwo cmp a b) = ranked cmp x a ++ ranked cmp x b := by
  intro a
  induction a with
  | nil => exact fun {b} _ => by simp [mergeTwo, ranked]
  | cons l left ih =>
    intro b order
    obtain ⟨least,tail⟩ := List.pairwise_cons.mp order
    induction b with
    | nil => simp [mergeTwo, ranked]
    | cons r right again =>
      unfold mergeTwo at *
      rw [List.cons_merge_cons, leftFirst]
      split_ifs with first
      · rw [rankedCons, rankedCons, ih tail]
        split_ifs <;> rfl
      · rw [rankedCons, again, rankedCons x r right]
        by_cases mine : cmp x r = .eq
        · -- what is left on the left side is all above
          have above : cmp l r = .gt := by
            cases is : cmp l r with
            | gt => rfl
            | lt => rw [is] at first; exact absurd rfl first
            | eq => rw [is] at first; exact absurd rfl first
          have none : ranked cmp x (l :: left) = [] := by
            refine List.eq_nil_iff_forall_not_mem.mpr fun y member => ?_
            obtain ⟨inside,same⟩ := memRanked.mp member
            have low : (cmp l y).isLE = true := by
              rcases List.mem_cons.mp inside with rfl | later
              · exact Std.ReflCmp.isLE_rfl
              · exact least y later
            have level := Std.TransCmp.eq_trans (Std.OrientedCmp.eq_symm same) mine
            have under := Std.TransCmp.isLE_trans low (by rw [level]; rfl : (cmp y r).isLE = true)
            rw [above] at under
            cases under
          rw [if_pos mine, if_pos mine, none]
          rfl
        · rw [if_neg mine, if_neg mine]

theorem stableMerge {xs ys a b : List α} (left : Stable cmp xs a) (right : Stable cmp ys b) :
    Stable cmp (xs ++ ys) (mergeTwo cmp a b) := by
  refine ⟨?_,fun x => ?_⟩
  · have test : (fun l r => cmp r l != .lt) = fun l r => (cmp l r).isLE := funext fun l => funext fun r => leftFirst l r
    unfold mergeTwo
    rw [test]
    exact List.pairwise_merge trans' total' a b left.order right.order
  · rw [rankedMerge x left.order, left.ties, right.ties, rankedAppend]

end

end Kimmy.StableSort
