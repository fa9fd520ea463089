import Mathlib.Data.Nat.ModEq
import Mathlib.Tactic.Ring
import Mathlib.Tactic.Linarith

/-!
No multiple `c · t` with `c < limit` lies less than `limit` below a multiple of `modulus`.
One factor `m` with `m` and `m · t mod modulus` both small settles it for every `c`: the
sum `c · (m · t mod modulus) + m · d` would be a multiple of `modulus` below it. Factors
come from a two-sided Euclid, and nothing proved here depends on how they are found.
-/
namespace Kimmy.NearMultiple

structure Bounds where
  modulus : Nat
  limit : Nat
  -- the search stops at a factor this small
  stop : Nat

def Clear (b : Bounds) (t : Nat) : Prop :=
  ∀ c d, 0 < c → c < b.limit → 0 < d → d < b.limit → ¬ b.modulus ∣ c * t + d

/- The operations are named, not their signs: the kernel evaluates each in one step. -/
def clears (modulus limit t m : Nat) : Bool :=
  Nat.blt 0 m && Nat.ble (Nat.mul (Nat.add m (Nat.mod (Nat.mul m t) modulus)) limit) modulus

theorem clearsSound {b : Bounds} {t m : Nat} (h : clears b.modulus b.limit t m = true) : Clear b t := by
  simp only [clears, Bool.and_eq_true, Nat.blt_eq, Nat.ble_eq] at h
  obtain ⟨factor,room⟩ := h
  change (m + m * t % b.modulus) * b.limit ≤ b.modulus at room
  intro c d hc smallC hd smallD divides
  have whole := Nat.div_add_mod (m * t) b.modulus
  have same : m * (c * t + d) =
      b.modulus * (c * (m * t / b.modulus)) + (c * (m * t % b.modulus) + m * d) := by
    calc m * (c * t + d) = c * (m * t) + m * d := by ring
      _ = c * (b.modulus * (m * t / b.modulus) + m * t % b.modulus) + m * d := by rw [whole]
      _ = _ := by ring
  have small : b.modulus ∣ c * (m * t % b.modulus) + m * d := by
    have product := Dvd.dvd.mul_left divides m
    rw [same] at product
    exact (Nat.dvd_add_right (Nat.dvd_mul_right _ _)).mp product
  have positive : 0 < m * d := Nat.mul_pos factor hd
  have below : c * (m * t % b.modulus) + m * d < b.modulus := by
    have first : c * (m * t % b.modulus) ≤ b.limit * (m * t % b.modulus) := Nat.mul_le_mul_right _ smallC.le
    have second : m * d < m * b.limit := Nat.mul_lt_mul_of_pos_left smallD factor
    calc c * (m * t % b.modulus) + m * d < b.limit * (m * t % b.modulus) + m * b.limit :=
          Nat.add_lt_add_of_le_of_lt first second
      _ = (m + m * t % b.modulus) * b.limit := by ring
      _ ≤ b.modulus := room
  have := Nat.le_of_dvd (by omega) small
  omega

/- The kernel evaluates `n` before it goes on with `k`. -/
def force {β : Type} (n : Nat) (k : Nat → β) : β := Nat.rec (k 0) (fun m _ => k (Nat.succ m)) n

@[simp] theorem forceEq {β : Type} (n : Nat) (k : Nat → β) : force n k = k n := by
  cases n <;> rfl

/- Factors with the least positive and the least negative residue, one Euclidean step each. -/
def search (stop : Nat) : Nat → Nat → Nat → Nat → Nat → Nat
  | 0, above, _, _, _ => above
  | fuel + 1, above, excess, below, deficit =>
      bif Nat.ble (Nat.add above excess) stop then above
      else
        force (Nat.add below (Nat.mul (Nat.div deficit excess) above)) fun below =>
        force (Nat.mod deficit excess) fun deficit =>
        force (Nat.add above (Nat.mul (Nat.div excess deficit) below)) fun above =>
        force (Nat.mod excess deficit) fun excess => search stop fuel above excess below deficit

/- Neighbouring entries differ by a factor of five, so that factor is tried first. -/
def chain (modulus limit stop : Nat) (t : Nat → Nat) : Nat → Nat → Nat → Bool
  | 0, _, _ => true
  | n + 1, i, m =>
      force i fun i => force (t i) fun entry => force (Nat.mul 5 m) fun next =>
      bif clears modulus limit entry next then chain modulus limit stop t n (Nat.succ i) next
      else
        force (Nat.mod entry modulus) fun residue =>
        force (search stop 80 1 residue 0 modulus) fun found =>
        bif clears modulus limit entry found then chain modulus limit stop t n (Nat.succ i) found else false

def allClear (b : Bounds) (t : Nat → Nat) (n i : Nat) : Bool :=
  force b.modulus fun modulus => force b.limit fun limit => force b.stop fun stop => chain modulus limit stop t n i 0

theorem chainSound {b : Bounds} {t : Nat → Nat} {n i m : Nat} (h : chain b.modulus b.limit b.stop t n i m = true) :
    ∀ j < n, Clear b (t (i + j)) := by
  induction n generalizing i m with
  | zero => intro j hj; omega
  | succ n ih =>
    simp only [chain, forceEq] at h
    -- whichever factor was used, it clears this entry and the rest of the chain holds
    have step : Clear b (t i) ∧ ∃ m, chain b.modulus b.limit b.stop t n (i + 1) m = true := by
      cases near : clears b.modulus b.limit (t i) (Nat.mul 5 m) with
      | true =>
        rw [near, cond_true] at h
        exact ⟨clearsSound near,_,h⟩
      | false =>
        rw [near, cond_false] at h
        cases found : clears b.modulus b.limit (t i) (search b.stop 80 1 (Nat.mod (t i) b.modulus) 0 b.modulus) with
        | true =>
          rw [found, cond_true] at h
          exact ⟨clearsSound found,_,h⟩
        | false =>
          rw [found, cond_false] at h
          contradiction
    obtain ⟨here,_,rest⟩ := step
    intro j hj
    cases j with
    | zero => exact here
    | succ j =>
      have later := ih rest j (by omega)
      rwa [show i + 1 + j = i + (j + 1) by omega] at later

theorem allClearSound {b : Bounds} {t : Nat → Nat} {n i : Nat} (h : allClear b t n i = true) : ∀ j < n, Clear b (t (i + j)) := by
  simp only [allClear, forceEq] at h
  exact chainSound h

end Kimmy.NearMultiple
