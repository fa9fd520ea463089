import Mathlib.Data.List.Basic
import Mathlib.Data.List.TakeWhile

/-!
Values at increasing positions, as a log keeps them, and the spans between two positions.
-/
namespace Kimmy.Positions
variable {α : Type}

def Increasing (log : List (Nat × α)) : Prop := log.Pairwise fun x y => x.1 < y.1

/- From `p` on and before `f`. -/
def between (log : List (Nat × α)) (p f : Nat) : List (Nat × α) := log.filter fun x => p ≤ x.1 && x.1 < f

theorem memBetween {log : List (Nat × α)} {p f} {x : Nat × α} : x ∈ between log p f ↔ x ∈ log ∧ p ≤ x.1 ∧ x.1 < f := by
  simp [between]

theorem betweenCons {log : List (Nat × α)} {x : Nat × α} {p f} :
    between (x :: log) p f = if p ≤ x.1 ∧ x.1 < f then x :: between log p f else between log p f := by
  simp only [between, List.filter_cons, Bool.and_eq_true, decide_eq_true_eq]

/- Spans that hold the same positions of the log are the same. -/
theorem betweenSame {log : List (Nat × α)} {p f q g}
    (same : ∀ x ∈ log, (p ≤ x.1 ∧ x.1 < f) ↔ (q ≤ x.1 ∧ x.1 < g)) : between log p f = between log q g := by
  refine List.filter_congr fun x member => ?_
  rw [Bool.eq_iff_iff, Bool.and_eq_true, Bool.and_eq_true, decide_eq_true_iff, decide_eq_true_iff, decide_eq_true_iff,
    decide_eq_true_iff]
  exact same x member

theorem betweenNone (log : List (Nat × α)) (p : Nat) : between log p p = [] := by
  rw [List.eq_nil_iff_forall_not_mem]
  intro x there
  have inside := memBetween.mp there
  omega

/- Nothing lies in the gap. -/
theorem betweenGap {log : List (Nat × α)} {s p f} (empty : between log p f = []) (order : p ≤ f) :
    between log s f = between log s p := by
  refine betweenSame fun x member => ⟨fun inside => ⟨inside.1,?_⟩,fun inside => ⟨inside.1,by omega⟩⟩
  by_contra beyond
  have there : x ∈ between log p f := memBetween.mpr ⟨member,by omega,inside.2⟩
  rw [empty] at there
  exact List.not_mem_nil there

/- The first of a span: what is left of it, and any span that ended before it with it added. -/
theorem betweenHead {log : List (Nat × α)} {p f} {x : Nat × α} {rest} (increasing : Increasing log)
    (head : between log p f = x :: rest) :
    x ∈ log ∧ p ≤ x.1 ∧ x.1 < f ∧ between log (x.1 + 1) f = rest ∧
      ∀ s ≤ p, between log s (x.1 + 1) = between log s p ++ [x] := by
  have inside : x ∈ between log p f := head ▸ List.mem_cons_self
  obtain ⟨member, low, high⟩ := memBetween.mp inside
  refine ⟨member,low,high,?_⟩
  clear inside member
  induction log with
  | nil => cases head
  | cons y log ih =>
      obtain ⟨least, tail⟩ := List.pairwise_cons.mp increasing
      rw [betweenCons] at head
      split_ifs at head with first
      · obtain ⟨rfl, rfl⟩ := List.cons.inj head
        constructor
        · rw [betweenCons, if_neg (by omega)]
          refine betweenSame fun z member => ?_
          have above := least z member
          omega
        · intro s below
          rw [betweenCons, if_pos (by omega), betweenCons, if_neg (by omega)]
          have nothing {g} (bound : g ≤ y.1 + 1) : between log s g = [] := by
            rw [List.eq_nil_iff_forall_not_mem]
            intro z there
            obtain ⟨member, _, small⟩ := memBetween.mp there
            have above := least z member
            omega
          rw [nothing (le_refl _), nothing (by omega)]
          rfl
      · obtain ⟨left, spans⟩ := ih tail head
        have order : x ∈ log := (memBetween.mp (head ▸ List.mem_cons_self : x ∈ between log p f)).1
        have above := least x order
        constructor
        · rw [betweenCons, if_neg (by omega)]
          exact left
        · intro s below
          have other := spans s below
          rw [betweenCons, betweenCons]
          by_cases from' : s ≤ y.1
          · rw [if_pos (by omega), if_pos (by omega), other]
            rfl
          · rw [if_neg (by omega), if_neg (by omega), other]

/- The first few values from a position on are the span up to the last of them. -/
theorem betweenTake {log : List (Nat × α)} {f k : Nat} {last : Nat × α} (increasing : Increasing log)
    (found : ((log.filter fun x => f ≤ x.1).take k).getLast? = some last) :
    (log.filter fun x => f ≤ x.1).take k = between log f (last.1 + 1) := by
  have sorted : Increasing (log.filter fun x => f ≤ x.1) := increasing.filter _
  have span : between log f (last.1 + 1) = (log.filter fun x => f ≤ x.1).filter fun x => x.1 < last.1 + 1 := by
    rw [between, List.filter_filter]
    refine List.filter_congr fun x _ => ?_
    rw [Bool.and_comm]
  rw [span]
  generalize log.filter (fun x => f ≤ x.1) = tail at found sorted
  induction tail generalizing k with
  | nil => simp
  | cons x tail ih =>
      obtain ⟨least, rest⟩ := List.pairwise_cons.mp sorted
      cases k with
      | zero => simp at found
      | succ k =>
          rw [List.take_succ_cons] at found ⊢
          cases shorter : tail.take k with
          | nil =>
              rw [shorter] at found
              obtain rfl : x = last := by simpa using found
              rw [List.filter_cons_of_pos (by simp)]
              congr 1
              refine (List.filter_eq_nil_iff.mpr fun y member => ?_).symm
              have above := least y member
              simp only [decide_eq_true_eq]
              omega
          | cons y more =>
              rw [shorter, List.getLast?_cons_cons] at found
              have inner : (tail.take k).getLast? = some last := by rw [shorter, found]
              have member : last ∈ tail := List.mem_of_mem_take (List.mem_of_getLast? inner)
              have above := least last member
              rw [List.filter_cons_of_pos (by simp only [decide_eq_true_eq]; omega), ←ih inner rest, shorter]

/- A value at a later position than all others is in no span that ends before it. -/
theorem betweenSnoc {log : List (Nat × α)} {p f n : Nat} {x : α} (bound : f ≤ n) :
    between (log ++ [(n,x)]) p f = between log p f := by
  rw [between, List.filter_append, List.filter_cons_of_neg]
  · simp [between]
  · simp only [Bool.and_eq_true, decide_eq_true_eq, not_and, not_lt]
    exact fun _ => bound

end Kimmy.Positions
