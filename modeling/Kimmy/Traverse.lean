import Mathlib.Data.List.Forall2
import Mathlib.Data.List.Induction

/-!
A list mapped by a function that can fail: the result holds, place by place, what the function gave.
-/
namespace Kimmy.Traverse
variable {α β : Type} {f : α → Option β}

theorem mappedPairs {l : List α} {m : List β} : l.mapM f = some m ↔ List.Forall₂ (fun x y => f x = some y) l m := by
  constructor
  · intro mapped
    induction l generalizing m with
    | nil =>
      cases mapped
      exact .nil
    | cons x rest ih =>
      rw [List.mapM_cons] at mapped
      obtain ⟨first,is,mapped⟩ := Option.bind_eq_some_iff.mp mapped
      obtain ⟨more,others,same⟩ := Option.bind_eq_some_iff.mp mapped
      cases same
      exact .cons is (ih others)
  · intro pairs
    induction pairs with
    | nil => rfl
    | cons is _ ih =>
      rw [List.mapM_cons, is, ih]
      rfl

theorem memMapped {l : List α} {m : List β} {y : β} (mapped : l.mapM f = some m) (member : y ∈ m) :
    ∃ x ∈ l, f x = some y := by
  rw [mappedPairs] at mapped
  induction mapped with
  | nil => cases member
  | cons is _ ih =>
    rcases List.mem_cons.mp member with rfl | later
    · exact ⟨_,List.mem_cons_self,is⟩
    · obtain ⟨x,there,same⟩ := ih later
      exact ⟨x,List.mem_cons_of_mem _ there,same⟩

theorem memMapM {l : List α} {m : List β} (mapped : l.mapM f = some m) : ∀ x ∈ l, ∃ y ∈ m, f x = some y := by
  rw [mappedPairs] at mapped
  induction mapped with
  | nil => nofun
  | cons is _ ih =>
    intro x member
    rcases List.mem_cons.mp member with rfl | later
    · exact ⟨_,List.mem_cons_self,is⟩
    · obtain ⟨y,there,same⟩ := ih x later
      exact ⟨y,List.mem_cons_of_mem _ there,same⟩

theorem mappedAt {l : List α} {m : List β} (mapped : l.mapM f = some m) {i : Nat} {y : β} (found : m[i]? = some y) :
    ∃ x, l[i]? = some x ∧ f x = some y := by
  rw [mappedPairs] at mapped
  induction mapped generalizing i with
  | nil => cases found
  | cons is _ ih =>
    cases i with
    | zero =>
      cases found
      exact ⟨_,rfl,is⟩
    | succ i => exact ih found

theorem mapFound {g : α → β} {l : List α} (found : ∀ x ∈ l, f x = some (g x)) : l.mapM f = some (l.map g) := by
  rw [mappedPairs, List.forall₂_map_right_iff, List.forall₂_same]
  exact found

theorem mapMCongr {g : α → Option β} {l : List α} (same : ∀ x ∈ l, f x = g x) : l.mapM f = l.mapM g := by
  induction l with
  | nil => rfl
  | cons x rest ih =>
    rw [List.mapM_cons, List.mapM_cons, same x List.mem_cons_self, ih fun y member => same y (List.mem_cons_of_mem _ member)]

/- By the places of the list. -/
theorem mapMRange {g : Nat → Option β} {l : List α} (same : ∀ i x, l[i]? = some x → g i = f x) :
    (List.range l.length).mapM g = l.mapM f := by
  induction l using List.reverseRecOn with
  | nil => rfl
  | append_singleton rest x ih =>
    have before : (List.range rest.length).mapM g = rest.mapM f := by
      refine ih fun i y found => same i y ?_
      rw [List.getElem?_append_left (List.getElem?_eq_some_iff.mp found).1, found]
    have last : g rest.length = f x := same _ _ List.getElem?_concat_length
    rw [List.length_append, List.length_singleton, List.range_succ, List.mapM_append, List.mapM_append, before,
      List.mapM_cons, List.mapM_cons, last]
    rfl

/-! Failures with a reason. -/

section
variable {ε : Type} {g : α → Except ε β}

theorem bindOk {γ : Type} {x : Except ε α} {next : α → Except ε γ} {r : γ} (done : (x >>= next) = .ok r) :
    ∃ a, x = .ok a ∧ next a = .ok r := by
  cases x with
  | error _ => cases done
  | ok a => exact ⟨a,rfl,done⟩

theorem okPairs {l : List α} {m : List β} : l.mapM g = .ok m ↔ List.Forall₂ (fun x y => g x = .ok y) l m := by
  constructor
  · intro mapped
    induction l generalizing m with
    | nil =>
      cases mapped
      exact .nil
    | cons x rest ih =>
      rw [List.mapM_cons] at mapped
      obtain ⟨first,is,mapped⟩ := bindOk mapped
      obtain ⟨more,others,same⟩ := bindOk mapped
      cases same
      exact .cons is (ih others)
  · intro pairs
    induction pairs with
    | nil => rfl
    | cons is _ ih =>
      rw [List.mapM_cons, is, ih]
      rfl

end

end Kimmy.Traverse
