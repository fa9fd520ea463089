import Mathlib.Tactic

/-!
Last writer wins, over any values with a stamp in a linear order. A later value of a higher
stamp replaces what is held, and a tie keeps it. Where one value stands behind each stamp,
the outcome is the value of the highest stamp and the order does not matter.
-/
namespace Kimmy.LastWriter
variable {α σ : Type} [LinearOrder σ] (stamp : α → σ)

def keep (held : Option α) (x : α) : Option α :=
  match held with
  | none => some x
  | some h => if stamp h < stamp x then some x else some h

def fold (xs : List α) : Option α := xs.foldl (keep stamp) none

/- The value is among those given and none of them has a higher stamp. -/
def Highest (xs : List α) (r : α) : Prop := r ∈ xs ∧ ∀ x ∈ xs, stamp x ≤ stamp r

variable {stamp}

theorem foldlKeepSome (stamp : α → σ) (xs : List α) (h : α) : ∃ r, xs.foldl (keep stamp) (some h) = some r ∧
    (r = h ∨ r ∈ xs) ∧ stamp h ≤ stamp r ∧ ∀ x ∈ xs, stamp x ≤ stamp r := by
  induction xs generalizing h with
  | nil => exact ⟨h,rfl,Or.inl rfl,le_refl _,fun _ member => absurd member List.not_mem_nil⟩
  | cons x rest ih =>
      by_cases above : stamp h < stamp x
      · obtain ⟨r, found, source, least, all⟩ := ih x
        refine ⟨r,?_,?_,above.le.trans least,List.forall_mem_cons.mpr ⟨least,all⟩⟩
        · rw [List.foldl_cons, keep, if_pos above, found]
        · exact Or.inr (source.elim (fun same => same ▸ List.mem_cons_self) (List.mem_cons_of_mem _))
      · obtain ⟨r, found, source, least, all⟩ := ih h
        refine ⟨r,?_,source.imp_right (List.mem_cons_of_mem _),least,?_⟩
        · rw [List.foldl_cons, keep, if_neg above, found]
        · exact List.forall_mem_cons.mpr ⟨(not_lt.mp above).trans least,all⟩

theorem foldHighest {xs : List α} {r : α} (found : fold stamp xs = some r) : Highest stamp xs r := by
  cases xs with
  | nil => cases found
  | cons x rest =>
      obtain ⟨s, settled, source, least, all⟩ := foldlKeepSome stamp rest x
      obtain rfl : s = r := Option.some.inj (settled.symm.trans found)
      refine ⟨?_,List.forall_mem_cons.mpr ⟨least,all⟩⟩
      exact source.elim (fun same => same ▸ List.mem_cons_self) (List.mem_cons_of_mem _)

theorem foldNone {xs : List α} : fold stamp xs = none ↔ xs = [] := by
  cases xs with
  | nil => exact iff_of_true rfl rfl
  | cons x rest =>
      obtain ⟨r, settled, _⟩ := foldlKeepSome stamp rest x
      refine iff_of_false (fun nothing => ?_) (List.cons_ne_nil _ _)
      cases settled.symm.trans nothing

/- One value stands behind each stamp. -/
theorem foldEq {xs : List α} {r : α} (single : ∀ x ∈ xs, ∀ y ∈ xs, stamp x = stamp y → x = y)
    (highest : Highest stamp xs r) : fold stamp xs = some r := by
  cases found : fold stamp xs with
  | none =>
      rw [foldNone.mp found] at highest
      exact absurd highest.1 List.not_mem_nil
  | some s =>
      obtain ⟨member, all⟩ := foldHighest found
      rw [single s member r highest.1 (le_antisymm (highest.2 s member) (all r highest.1))]

end Kimmy.LastWriter
