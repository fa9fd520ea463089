import Kimmy.SortedMap

/-!
Walking a sorted table in stretches. A cursor splits the table into what it passed and what is still to come, and a stretch that
is taken from what is to come moves the cursor to its last entry.
-/
namespace Kimmy.SortedMap
variable {κ ν : Type} [LinearOrder κ]

/- The entries after a cursor, and those up to it. -/
def past (m : SortedMap κ ν) (after : Option κ) : List (κ × ν) := m.entries.filter fun x => after.all (· < x.1)

def upTo (m : SortedMap κ ν) (after : Option κ) : List (κ × ν) := m.entries.filter fun x => !after.all (· < x.1)

theorem upToNone (m : SortedMap κ ν) : m.upTo none = [] := by simp [upTo]

theorem upToPast (m : SortedMap κ ν) (after : Option κ) : m.upTo after ++ m.past after = m.entries := by
  cases after with
  | none => simp [upTo, past]
  | some cursor =>
    have each : ∀ {rows : List (κ × ν)}, rows.Pairwise (fun x y => x.1 < y.1) →
        (rows.filter fun x => !decide (cursor < x.1)) ++ (rows.filter fun x => decide (cursor < x.1)) = rows := by
      intro rows
      induction rows with
      | nil => exact fun _ => rfl
      | cons x rest ih =>
        intro sorted
        obtain ⟨least,tail⟩ := List.pairwise_cons.mp sorted
        by_cases above : cursor < x.1
        · have all : ∀ y ∈ rest, cursor < y.1 := fun y member => above.trans (least y member)
          have low : (rest.filter fun y => !decide (cursor < y.1)) = [] :=
            List.filter_eq_nil_iff.mpr fun y member => by simp [all y member]
          have high : (rest.filter fun y => decide (cursor < y.1)) = rest :=
            List.filter_eq_self.mpr fun y member => by simp [all y member]
          simp [above, low, high]
        · simp [above, ih tail]
    simpa [upTo, past] using each m.sorted

/- Up to the last entry of a stretch that starts the table is the stretch. -/
theorem upToLast {m : SortedMap κ ν} {rows rest : List (κ × ν)} {y : κ × ν} (split : (rows ++ [y]) ++ rest = m.entries) :
    m.upTo (some y.1) = rows ++ [y] := by
  have sorted := m.sorted
  rw [← split] at sorted
  obtain ⟨front,_,across⟩ := List.pairwise_append.mp sorted
  have low : ∀ x ∈ rows ++ [y], x.1 ≤ y.1 := by
    intro x member
    rcases List.mem_append.mp member with earlier | last
    · exact ((List.pairwise_append.mp front).2.2 x earlier y (List.mem_singleton_self y)).le
    · rw [List.mem_singleton.mp last]
  have high : ∀ x ∈ rest, y.1 < x.1 := fun x member => across y (by simp) x member
  have first : ((rows ++ [y]).filter fun x => !decide (y.1 < x.1)) = rows ++ [y] :=
    List.filter_eq_self.mpr fun x member => by simp [low x member]
  have last : (rest.filter fun x => !decide (y.1 < x.1)) = [] :=
    List.filter_eq_nil_iff.mpr fun x member => by simp [high x member]
  have whole : m.upTo (some y.1) = m.entries.filter fun x => !decide (y.1 < x.1) := rfl
  rw [whole, ← split, List.filter_append, first, last, List.append_nil]

/- Where a stretch leaves the cursor. -/
theorem upToStretch {m : SortedMap κ ν} {after : Option κ} {taken rest : List (κ × ν)} (split : taken ++ rest = m.past after) :
    m.upTo (((taken.getLast?).map Prod.fst).or after) = m.upTo after ++ taken := by
  rcases List.eq_nil_or_concat taken with none | ⟨rows,y,is⟩
  · rw [none, List.append_nil]
    rfl
  · have whole : ((m.upTo after ++ rows) ++ [y]) ++ rest = m.entries := by
      rw [← upToPast m after, ← split, is]
      simp
    rw [is]
    simpa using upToLast whole

end Kimmy.SortedMap
