import Mathlib

/-!
Bins of a line. The starts of the bins and the bin each point is in are a Galois connection: a start is at or before a
point exactly when its number is at most the point's. Going back to the start of one's bin is then a floor, and two
points have one floor exactly when no start lies between them.
-/
namespace Kimmy.Bins

section
variable {α : Type} [LinearOrder α] {start : Int → α} {place : α → Int}

/- The starts between two points, whichever comes first. -/
def Between (start : Int → α) (d e : α) : Prop := ∃ k, min d e < start k ∧ start k ≤ max d e

theorem floorAlike (bins : GaloisConnection start place) {d e : α} :
    start (place d) = start (place e) ↔ ¬Between start d e := by
  have ordered : ∀ {a b : α}, a ≤ b → (start (place a) = start (place b) ↔ ¬∃ k, a < start k ∧ start k ≤ b) := by
    intro a b low
    constructor
    · rintro same ⟨k,above,below⟩
      have back : start k ≤ a :=
        calc start k ≤ start (place b) := bins.monotone_l ((bins k b).mp below)
          _ = start (place a) := same.symm
          _ ≤ a := bins.l_u_le a
      exact absurd above (not_lt_of_ge back)
    · intro none
      have back : start (place b) ≤ a := by
        by_contra beyond
        exact none ⟨place b,lt_of_not_ge beyond,bins.l_u_le b⟩
      exact congrArg start (le_antisymm (bins.monotone_u low) ((bins (place b) a).mp back))
  unfold Between
  rcases le_total d e with low | high
  · rw [min_eq_left low, max_eq_right low]
    exact ordered low
  · rw [min_eq_right high, max_eq_left high, eq_comm]
    exact ordered high

/- Bins of several, counted from one of them. -/
theorem binned (bins : GaloisConnection start place) (origin : Int) {size : Int} (positive : 0 < size) :
    GaloisConnection (fun k => start (origin + k * size)) fun d => (place d - origin) / size := by
  intro k d
  rw [bins, Int.le_ediv_iff_mul_le positive]
  omega

end

end Kimmy.Bins
