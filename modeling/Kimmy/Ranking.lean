import Mathlib.Data.List.Basic
import Mathlib.Data.List.Perm.Basic
import Mathlib.Order.Defs.LinearOrder

/-!
An ordered set as the list of its members in order, under a comparison that is transitive and oriented but may call
two different values equal. A member goes in and comes out where the comparison finds its place.
-/
namespace Kimmy.Ranking

variable {α β : Type}

/- One that compares equal to a member is not put in again. -/
def place (cmp : α → α → Ordering) (x : α) : List α → List α
  | [] => [x]
  | y :: rest => match cmp x y with
      | .lt => x :: y :: rest
      | .eq => y :: rest
      | .gt => y :: place cmp x rest

def takeOut (cmp : α → α → Ordering) (x : α) : List α → List α
  | [] => []
  | y :: rest => match cmp x y with
      | .lt => y :: rest
      | .eq => rest
      | .gt => y :: takeOut cmp x rest

def Ranked (cmp : α → α → Ordering) (set : List α) : Prop := set.Pairwise fun x y => cmp x y = .lt

attribute [local simp] place takeOut

variable {cmp : α → α → Ordering}

theorem placeMem {x y : α} {set : List α} (member : y ∈ place cmp x set) : y = x ∨ y ∈ set := by
  induction set with
  | nil => exact Or.inl (List.mem_singleton.mp member)
  | cons z rest ih =>
    unfold place at member
    split at member
    · exact List.mem_cons.mp member
    · exact Or.inr member
    · rcases List.mem_cons.mp member with rfl | later
      · exact Or.inr List.mem_cons_self
      · exact (ih later).imp_right (List.mem_cons_of_mem z)

/- One that compares equal to no member is put in. -/
theorem placePerm {x : α} {set : List α} (apart : ∀ y ∈ set, cmp x y ≠ .eq) : (place cmp x set).Perm (x :: set) := by
  induction set with
  | nil => exact List.Perm.refl _
  | cons z rest ih =>
    unfold place
    split
    · exact List.Perm.refl _
    · rename_i same
      exact absurd same (apart z List.mem_cons_self)
    · have tail := ih fun y member => apart y (List.mem_cons_of_mem z member)
      exact (tail.cons z).trans (List.Perm.swap x z rest)

theorem takeOutRanked {x : α} {set : List α} (ranked : Ranked cmp set) : Ranked cmp (takeOut cmp x set) := by
  have sub : ∀ set : List α, (takeOut cmp x set).Sublist set := by
    intro set
    induction set with
    | nil => exact List.Sublist.refl _
    | cons z rest ih =>
      unfold takeOut
      split
      · exact List.Sublist.refl _
      · exact List.sublist_cons_self ..
      · exact ih.cons_cons z
  exact ranked.sublist (sub set)

section
variable [Std.TransCmp cmp]

theorem placeRanked {x : α} {set : List α} (ranked : Ranked cmp set) : Ranked cmp (place cmp x set) := by
  induction set with
  | nil => exact List.pairwise_singleton ..
  | cons z rest ih =>
    obtain ⟨least,tail⟩ := List.pairwise_cons.mp ranked
    unfold place
    split
    · rename_i below
      refine List.pairwise_cons.mpr ⟨fun y member => ?_,ranked⟩
      rcases List.mem_cons.mp member with rfl | later
      · exact below
      · exact Std.TransCmp.lt_trans below (least y later)
    · exact ranked
    · rename_i above
      refine List.pairwise_cons.mpr ⟨fun y member => ?_,ih tail⟩
      rcases placeMem member with rfl | later
      · exact Std.OrientedCmp.gt_iff_lt.mp above
      · exact least y later

/- A member comes out, and nothing else. -/
theorem takeOutPerm {x : α} {set : List α} (ranked : Ranked cmp set) (member : x ∈ set) :
    (x :: takeOut cmp x set).Perm set := by
  induction set with
  | nil => cases member
  | cons z rest ih =>
    obtain ⟨least,tail⟩ := List.pairwise_cons.mp ranked
    unfold takeOut
    rcases List.mem_cons.mp member with rfl | later
    · have same : cmp x x = .eq := Std.ReflCmp.compare_self
      rw [same]
    · have above : cmp x z = .gt := Std.OrientedCmp.gt_iff_lt.mpr (least x later)
      rw [above]
      exact (List.Perm.swap z x _).trans ((ih tail later).cons z)

/- The order settles the list. -/
theorem rankedUnique {set other : List α} (first : Ranked cmp set) (second : Ranked cmp other) (same : set.Perm other) :
    set = other := by
  refine List.Perm.eq_of_pairwise (fun x y _ _ below above => ?_) first second same
  have turned := Std.OrientedCmp.gt_iff_lt.mpr below
  rw [above] at turned
  cases turned

end

/- What comes before it all stays in front. -/
theorem placePast {x : α} {rest : List α} : ∀ {front : List α}, (∀ y ∈ front, cmp x y = .gt) →
    place cmp x (front ++ rest) = front ++ place cmp x rest
  | [], _ => rfl
  | y :: front, past => by
      rw [List.cons_append, place, past y List.mem_cons_self]
      exact congrArg (y :: ·) (placePast fun z member => past z (List.mem_cons_of_mem _ member))

/- What it comes before, and all after that, stays behind. -/
theorem placeBefore {x y : α} {rest : List α} (below : cmp x y = .lt) : ∀ {front : List α},
    place cmp x (front ++ y :: rest) = place cmp x front ++ y :: rest
  | [] => by
      simp only [List.nil_append, place, below]
      rfl
  | z :: front => by
      simp only [List.cons_append, place]
      cases cmp x z with
      | lt => rfl
      | eq => rfl
      | gt => exact congrArg (z :: ·) (placeBefore below)

theorem permMap {f : α → β} {list : List α} {set : List β} (same : set.Perm (list.map f)) :
    ∃ core : List α, core.Perm list ∧ set = core.map f := by
  generalize is : list.map f = image at same
  induction same generalizing list with
  | nil => exact ⟨[],by rw [List.map_eq_nil_iff.mp is],rfl⟩
  | cons x _ ih =>
    obtain ⟨a,rest,rfl,rfl,tail⟩ := List.map_eq_cons_iff.mp is
    obtain ⟨core,perm,rfl⟩ := ih tail
    exact ⟨a :: core,perm.cons a,rfl⟩
  | swap x y rest =>
    obtain ⟨a,more,rfl,rfl,tail⟩ := List.map_eq_cons_iff.mp is
    obtain ⟨b,last,rfl,rfl,rfl⟩ := List.map_eq_cons_iff.mp tail
    exact ⟨b :: a :: last,List.Perm.swap .. ,rfl⟩
  | trans _ _ first second =>
    obtain ⟨middle,perm,rfl⟩ := second is
    obtain ⟨core,perm',rfl⟩ := first rfl
    exact ⟨core,perm'.trans perm,rfl⟩

/- Two numberings of the same values, each ranked: one order underlies both. -/
theorem renumbered [Std.TransCmp cmp] {f g : β → α} {list : List β} {set other : List α} (first : Ranked cmp set)
    (second : Ranked cmp other) (held : set.Perm (list.map f)) (again : other.Perm (list.map g))
    (keeps : ∀ x y, cmp (f x) (f y) = cmp (g x) (g y)) : ∃ core : List β, set = core.map f ∧ other = core.map g := by
  obtain ⟨core,perm,rfl⟩ := permMap held
  refine ⟨core,rfl,rankedUnique second ?_ (again.trans (perm.map g).symm)⟩
  refine List.pairwise_map.mpr ((List.pairwise_map.mp first).imp fun {x y} below => ?_)
  rw [← keeps]
  exact below

end Kimmy.Ranking
