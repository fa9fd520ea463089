import Mathlib.Order.Basic
import Mathlib.Data.List.Basic
import Mathlib.Data.Nat.Init

/-!
Distances in a graph whose edges are keys. A node is entered by some keys and offers others; a node is at distance
nought when a starting key enters it, and one further than a node that offers a key that enters it.
-/
namespace Kimmy

structure Links (ν κ : Type) where
  start : κ → Prop
  enters : ν → κ → Prop
  offers : ν → κ → Prop

namespace Links
variable {ν κ : Type} (g : Links ν κ)

/- In that many links. -/
def Reach : Nat → ν → Prop
  | 0, x => ∃ k, g.start k ∧ g.enters x k
  | n + 1, x => ∃ y, Reach n y ∧ ∃ k, g.offers y k ∧ g.enters x k

def Distance (n : Nat) (x : ν) : Prop := g.Reach n x ∧ ∀ m < n, ¬g.Reach m x

/- What a level hands to the next: the starting keys, then those its nodes offer. -/
def Handed : Nat → κ → Prop
  | 0, k => g.start k
  | n + 1, k => ∃ y, g.Distance n y ∧ g.offers y k

variable {g}

theorem Distance.unique {n m : Nat} {x : ν} (first : g.Distance n x) (second : g.Distance m x) : n = m := by
  rcases Nat.lt_trichotomy n m with less | same | more
  · exact absurd first.1 (second.2 n less)
  · exact same
  · exact absurd second.1 (first.2 m more)

theorem reachDistance {n : Nat} {x : ν} (reach : g.Reach n x) : ∃ m ≤ n, g.Distance m x := by
  induction n using Nat.strong_induction_on with
  | _ n ih =>
  by_cases first : ∀ m < n, ¬g.Reach m x
  · exact ⟨n,Nat.le_refl n,reach,first⟩
  · push Not at first
    obtain ⟨m,less,sooner⟩ := first
    obtain ⟨l,low,distance⟩ := ih m less sooner
    exact ⟨l,Nat.le_trans low (Nat.le_of_lt less),distance⟩

theorem handedReach {n : Nat} {k : κ} {x : ν} (handed : g.Handed n k) (enters : g.enters x k) : g.Reach n x := by
  cases n with
  | zero => exact ⟨k,handed,enters⟩
  | succ n =>
    obtain ⟨y,distance,offers⟩ := handed
    exact ⟨y,distance.1,k,offers,enters⟩

/- A shortest way goes through a node whose own way is shortest. -/
theorem Distance.handed {n : Nat} {x : ν} (distance : g.Distance n x) : ∃ k, g.Handed n k ∧ g.enters x k := by
  cases n with
  | zero => exact distance.1
  | succ n =>
    obtain ⟨⟨y,reach,k,offers,enters⟩,first⟩ := distance
    refine ⟨k,⟨y,⟨reach,fun m less sooner => ?_⟩,offers⟩,enters⟩
    exact first (m + 1) (by omega) ⟨y,sooner,k,offers,enters⟩

/- A node not reached before is at this distance when a key handed here enters it; that key was not handed before. -/
theorem distanceHere {n : Nat} {x : ν} : g.Distance n x ↔
    (∀ m < n, ¬g.Distance m x) ∧ ∃ k, g.Handed n k ∧ (∀ m < n, ¬g.Handed m k) ∧ g.enters x k := by
  constructor
  · intro distance
    obtain ⟨k,handed,enters⟩ := distance.handed
    refine ⟨fun m less sooner => distance.2 m less sooner.1,k,handed,fun m less sooner => ?_,enters⟩
    exact distance.2 m less (handedReach sooner enters)
  · rintro ⟨fresh,k,handed,_,enters⟩
    refine ⟨handedReach handed enters,fun m less sooner => ?_⟩
    obtain ⟨l,low,distance⟩ := reachDistance sooner
    exact fresh l (by omega) distance

/- Nothing is further than a level that hands on no new key. -/
theorem noneBeyond {n : Nat} (none : ∀ k, g.Handed n k → ∃ m < n, g.Handed m k) : ∀ m, n ≤ m → ∀ x, ¬g.Distance m x := by
  intro m beyond
  induction m, beyond using Nat.le_induction with
  | base =>
    intro x distance
    obtain ⟨_,k,handed,fresh,_⟩ := distanceHere.mp distance
    obtain ⟨m,less,sooner⟩ := none k handed
    exact fresh m less sooner
  | succ m _ ih =>
    intro x distance
    obtain ⟨k,⟨y,before,_⟩,_⟩ := distance.handed
    exact ih y before

end Links

end Kimmy
