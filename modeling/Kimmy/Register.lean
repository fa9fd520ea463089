import Mathlib.Data.List.Induction
import Mathlib.Order.MinMax

/-!
A register with tombstones. Creations and drops carry stamps: the latest creation above every drop
stands. A creation that differs from the one it replaces ends it, and leaves its own stamp behind as a
drop does. Events applied in any order, any number of times, leave the same creation standing.
-/
namespace Kimmy

structure Register (σ δ : Type) where
  held : Option (δ × σ)
  tomb : Option σ

namespace Register

inductive Event (σ δ : Type) where
  | create (d : δ) (s : σ)
  | drop (s : σ)

def Event.stamp {σ δ : Type} : Event σ δ → σ
  | .create _ s => s
  | .drop s => s

section
variable {σ δ : Type} [LinearOrder σ] (same : δ → δ → Prop)

/- The latest of a tombstone and a stamp. -/
def later (tomb : Option σ) (s : σ) : σ := tomb.elim s (max · s)

def apply [DecidableRel same] (r : Register σ δ) : Event σ δ → Register σ δ
  | .create d s =>
      if r.tomb.any (s < ·) then r
      else match r.held with
        | none => ⟨some (d,s),r.tomb⟩
        | some (e,t) =>
            if s ≤ t then r
            else if same e d then ⟨some (e,s),r.tomb⟩
            else ⟨some (d,s),some (later r.tomb s)⟩
  | .drop s => ⟨r.held.filter fun x => s < x.2,some (later r.tomb s)⟩

def run [DecidableRel same] (events : List (Event σ δ)) : Register σ δ := events.foldl (apply same) ⟨none,none⟩

/- What the events say: a creation stands when it is above every drop and no creation is above it. -/
def Stands (events : List (Event σ δ)) (d : δ) (s : σ) : Prop :=
  .create d s ∈ events ∧ (∀ t, .drop t ∈ events → t < s) ∧ ∀ e t, .create e t ∈ events → t ≤ s

/- What a register holds once it has taken the events, whatever their order. -/
structure Settled (events : List (Event σ δ)) (r : Register σ δ) : Prop where
  held : ∀ d s, r.held = some (d,s) → ∃ e, Stands events e s ∧ same d e
  gone : r.held = none → ∀ d s, .create d s ∈ events → ∃ t, .drop t ∈ events ∧ s < t
  covers : ∀ s, .drop s ∈ events → ∃ t, r.tomb = some t ∧ s ≤ t
  below : ∀ d s t, r.held = some (d,s) → r.tomb = some t → t ≤ s
  dropped : ∀ t, r.tomb = some t → .drop t ∈ events ∨
    r.held ≠ none ∧ ∃ d e u, .create d t ∈ events ∧ .create e u ∈ events ∧ u < t ∧ ¬same e d

/- No two events share a stamp. -/
def Distinct (events : List (Event σ δ)) : Prop := ∀ x ∈ events, ∀ y ∈ events, x.stamp = y.stamp → x = y

theorem laterLe {tomb : Option σ} {s t : σ} : later tomb s ≤ t ↔ (∀ u, tomb = some u → u ≤ t) ∧ s ≤ t := by
  cases tomb with
  | none => simp [later]
  | some u => simp [later]

theorem laterOr (tomb : Option σ) (s : σ) : later tomb s = s ∨ tomb = some (later tomb s) := by
  cases tomb with
  | none => exact .inl rfl
  | some u =>
      rcases max_choice u s with held | fresh
      · exact .inr (congrArg some held.symm)
      · exact .inl fresh

section
variable {same} {events : List (Event σ δ)} {r : Register σ δ} {d : δ} {s : σ}

omit [LinearOrder σ] in
theorem memSnoc {x y : Event σ δ} : x ∈ events ++ [y] ↔ x ∈ events ∨ x = y := by
  rw [List.mem_append, List.mem_singleton]

/- Another creation below the standing one, or no creation at all, changes nothing that stands. -/
theorem Stands.create {e : δ} {t : σ} (stands : Stands events d s) (below : t ≤ s) :
    Stands (events ++ [.create e t]) d s := by
  refine ⟨memSnoc.mpr (.inl stands.1),fun u dropped => ?_,fun f u created => ?_⟩
  · rcases memSnoc.mp dropped with before | now
    · exact stands.2.1 u before
    · cases now
  · rcases memSnoc.mp created with before | now
    · exact stands.2.2 f u before
    · cases now
      exact below

theorem Stands.drop {t : σ} (stands : Stands events d s) (below : t < s) : Stands (events ++ [.drop t]) d s := by
  refine ⟨memSnoc.mpr (.inl stands.1),fun u dropped => ?_,fun f u created => ?_⟩
  · rcases memSnoc.mp dropped with before | now
    · exact stands.2.1 u before
    · cases now
      exact below
  · rcases memSnoc.mp created with before | now
    · exact stands.2.2 f u before
    · cases now

/- A creation the register leaves as it is. -/
theorem Settled.passed (settled : Settled same events r)
    (passed : (∃ t, r.tomb = some t ∧ s < t) ∨ ∃ e t, r.held = some (e,t) ∧ s ≤ t) :
    Settled same (events ++ [.create d s]) r where
  held e t holds := by
    obtain ⟨f, stands, alike⟩ := settled.held e t holds
    refine ⟨f,stands.create ?_,alike⟩
    rcases passed with ⟨u, buried, below⟩ | ⟨g, u, standing, below⟩
    · exact below.le.trans (settled.below e t u holds buried)
    · rw [holds] at standing
      cases standing
      exact below
  gone none e t created := by
    rcases memSnoc.mp created with before | now
    · obtain ⟨u, dropped, above⟩ := settled.gone none e t before
      exact ⟨u,memSnoc.mpr (.inl dropped),above⟩
    cases now
    rcases passed with ⟨u, buried, below⟩ | ⟨g, u, standing, -⟩
    · rcases settled.dropped u buried with dropped | ⟨stands, -⟩
      · exact ⟨u,memSnoc.mpr (.inl dropped),below⟩
      · exact absurd none stands
    · rw [none] at standing
      cases standing
  covers t dropped := by
    rcases memSnoc.mp dropped with before | now
    · exact settled.covers t before
    · cases now
  below := settled.below
  dropped t buried := by
    rcases settled.dropped t buried with dropped | ⟨stands, e, f, u, created, other, lower, differs⟩
    · exact .inl (memSnoc.mpr (.inl dropped))
    · exact .inr ⟨stands,e,f,u,memSnoc.mpr (.inl created),memSnoc.mpr (.inl other),lower,differs⟩

/- A creation above the tombstone and above the one that stands is the one that stands then. -/
theorem Settled.newest (settled : Settled same events r) (distinct : Distinct (events ++ [.create d s]))
    (unburied : ∀ t, r.tomb = some t → t ≤ s) (highest : ∀ e t, r.held = some (e,t) → t ≤ s) :
    Stands (events ++ [.create d s]) d s := by
  have own : Event.create d s ∈ events ++ [.create d s] := memSnoc.mpr (.inr rfl)
  have above : ∀ t, .drop t ∈ events ++ [.create d s] → t < s := by
    intro t dropped
    have apart : t ≠ s := by
      intro equal
      cases distinct _ dropped _ own equal
    rcases memSnoc.mp dropped with before | now
    · obtain ⟨u, buried, covered⟩ := settled.covers t before
      exact lt_of_le_of_ne (covered.trans (unburied u buried)) apart
    · cases now
  refine ⟨own,above,fun e t created => ?_⟩
  rcases memSnoc.mp created with before | now
  · cases holds : r.held with
    | none =>
        obtain ⟨u, dropped, below⟩ := settled.gone holds e t before
        exact (below.trans (above u (memSnoc.mpr (.inl dropped)))).le
    | some standing =>
        obtain ⟨f, stands, -⟩ := settled.held standing.1 standing.2 holds
        exact (stands.2.2 e t before).trans (highest _ _ holds)
  · cases now
    exact le_refl _

theorem Settled.coversDrop (settled : Settled same events r) {u : σ} (dropped : .drop u ∈ events ++ [.drop s]) :
    u ≤ later r.tomb s := by
  have both := laterLe.mp (le_refl (later r.tomb s))
  rcases memSnoc.mp dropped with before | now
  · obtain ⟨v, buried, covered⟩ := settled.covers u before
    exact covered.trans (both.1 v buried)
  · cases now
    exact both.2

/- A drop below the creation that stands is remembered and changes nothing. -/
theorem Settled.declined (settled : Settled same events r) {t : σ} (holds : r.held = some (d,t)) (below : s < t) :
    Settled same (events ++ [.drop s]) ⟨some (d,t),some (later r.tomb s)⟩ where
  held e u standing := by
    cases standing
    obtain ⟨f, stands, alike⟩ := settled.held d t holds
    exact ⟨f,stands.drop below,alike⟩
  gone none := by cases none
  covers u dropped := ⟨_,rfl,settled.coversDrop dropped⟩
  below e u v standing buried := by
    cases standing
    cases buried
    exact laterLe.mpr ⟨fun w buried => settled.below d t w holds buried,below.le⟩
  dropped u buried := by
    cases buried
    rcases laterOr r.tomb s with fresh | kept
    · exact .inl (memSnoc.mpr (.inr (congrArg _ fresh)))
    · rcases settled.dropped _ kept with dropped | ⟨-, e, f, v, created, other, lower, differs⟩
      · exact .inl (memSnoc.mpr (.inl dropped))
      · exact .inr ⟨nofun,e,f,v,memSnoc.mpr (.inl created),memSnoc.mpr (.inl other),lower,differs⟩

/- A drop above the creation that stands, or of nothing, is the tombstone or lies below it. -/
theorem Settled.ended (settled : Settled same events r) (distinct : Distinct (events ++ [.drop s]))
    (reaches : ∀ e t, r.held = some (e,t) → t ≤ s) :
    Settled same (events ++ [.drop s]) ⟨none,some (later r.tomb s)⟩ where
  held e u standing := by cases standing
  gone _ e u created := by
    have own : Event.drop s ∈ events ++ [.drop (δ := δ) s] := memSnoc.mpr (.inr rfl)
    have apart : u ≠ s := by
      intro equal
      cases distinct _ created _ own equal
    rcases memSnoc.mp created with before | now
    · cases holds : r.held with
      | none =>
          obtain ⟨v, dropped, below⟩ := settled.gone holds e u before
          exact ⟨v,memSnoc.mpr (.inl dropped),below⟩
      | some standing =>
          obtain ⟨f, stands, -⟩ := settled.held standing.1 standing.2 holds
          exact ⟨s,own,lt_of_le_of_ne ((stands.2.2 e u before).trans (reaches _ _ holds)) apart⟩
    · cases now
  covers u dropped := ⟨_,rfl,settled.coversDrop dropped⟩
  below e u v standing := by cases standing
  dropped u buried := by
    cases buried
    rcases laterOr r.tomb s with fresh | kept
    · exact .inl (memSnoc.mpr (.inr (congrArg _ fresh)))
    rcases settled.dropped _ kept with dropped | ⟨stands, -⟩
    · exact .inl (memSnoc.mpr (.inl dropped))
    · -- what stood was at most the drop, so the tombstone below it is too
      obtain ⟨⟨e, t⟩, holds⟩ := Option.ne_none_iff_exists'.mp stands
      have below : later r.tomb s ≤ s := (settled.below e t _ holds kept).trans (reaches e t holds)
      have fresh : later r.tomb s = s := le_antisymm below (laterLe.mp (le_refl _)).2
      exact .inl (memSnoc.mpr (.inr (congrArg _ fresh)))

/- A creation that stands alone, or over one it is the same as: the tombstone stays. -/
theorem Settled.kept (settled : Settled same events r) {e : δ} (stands : Stands (events ++ [.create d s]) d s)
    (alike : same e d) (unburied : ∀ t, r.tomb = some t → t ≤ s) :
    Settled same (events ++ [.create d s]) ⟨some (e,s),r.tomb⟩ where
  held f t holds := by
    cases holds
    exact ⟨d,stands,alike⟩
  gone none := by cases none
  covers t dropped := by
    rcases memSnoc.mp dropped with before | now
    · exact settled.covers t before
    · cases now
  below f t u holds buried := by
    cases holds
    exact unburied u buried
  dropped t buried := by
    rcases settled.dropped t buried with dropped | ⟨-, f, g, u, created, other, lower, differs⟩
    · exact .inl (memSnoc.mpr (.inl dropped))
    · exact .inr ⟨nofun,f,g,u,memSnoc.mpr (.inl created),memSnoc.mpr (.inl other),lower,differs⟩

/- A creation that ends a different one below it, and leaves its stamp. -/
theorem Settled.superseded (settled : Settled same events r) (equivalence : Equivalence same) {e : δ} {t : σ}
    (stands : Stands (events ++ [.create d s]) d s) (unburied : ∀ u, r.tomb = some u → u ≤ s)
    (holds : r.held = some (e,t)) (above : t < s) (differs : ¬same e d) :
    Settled same (events ++ [.create d s]) ⟨some (d,s),some (later r.tomb s)⟩ where
  held f u holds := by
    cases holds
    exact ⟨d,stands,equivalence.refl d⟩
  gone none := by cases none
  covers u dropped := by
    rcases memSnoc.mp dropped with before | now
    · obtain ⟨v, buried, covered⟩ := settled.covers u before
      exact ⟨_,rfl,covered.trans ((laterLe.mp (le_refl _)).1 v buried)⟩
    · cases now
  below f u v holds buried := by
    cases holds
    cases buried
    exact laterLe.mpr ⟨unburied,le_refl _⟩
  dropped u buried := by
    cases buried
    have fresh : later r.tomb s = s := le_antisymm (laterLe.mpr ⟨unburied,le_refl _⟩) (laterLe.mp (le_refl _)).2
    obtain ⟨f, lower, alike⟩ := settled.held e t holds
    refine .inr ⟨nofun,d,f,t,?_,memSnoc.mpr (.inl lower.1),by rwa [fresh],fun equal => ?_⟩
    · rw [fresh]
      exact stands.1
    · exact differs (equivalence.trans alike equal)

theorem Settled.apply [DecidableRel same] (settled : Settled same events r) (equivalence : Equivalence same)
    {x : Event σ δ} (distinct : Distinct (events ++ [x])) : Settled same (events ++ [x]) (r.apply same x) := by
  cases x with
  | create d s =>
      simp only [Register.apply]
      split_ifs with buried
      · obtain ⟨t, tomb, below⟩ := (Option.any_eq_true _ _).mp buried
        exact settled.passed (.inl ⟨t,tomb,of_decide_eq_true below⟩)
      have unburied : ∀ t, r.tomb = some t → t ≤ s := by
        intro t tomb
        rw [tomb] at buried
        exact not_lt.mp fun below => buried (decide_eq_true below)
      cases holds : r.held with
      | none =>
          have stands := settled.newest distinct unburied fun e t some => by rw [holds] at some; cases some
          exact settled.kept stands (equivalence.refl d) unburied
      | some standing =>
          obtain ⟨e, t⟩ := standing
          by_cases older : s ≤ t
          · simp only [older, if_true]
            exact settled.passed (.inr ⟨e,t,holds,older⟩)
          have above : t < s := not_le.mp older
          have stands := settled.newest distinct unburied fun f u some => by rw [holds] at some; cases some; exact above.le
          simp only [older, if_false]
          split_ifs with alike
          · exact settled.kept stands alike unburied
          · exact settled.superseded equivalence stands unburied holds above alike
  | drop s =>
      simp only [Register.apply]
      cases holds : r.held with
      | none => exact settled.ended distinct fun e t some => by rw [holds] at some; cases some
      | some standing =>
          obtain ⟨e, t⟩ := standing
          by_cases below : s < t
          · simp only [Option.filter_some, below, decide_true, if_true]
            exact settled.declined holds below
          · simp only [Option.filter_some, below, decide_false, Bool.false_eq_true, if_false]
            refine settled.ended distinct fun f u some => ?_
            rw [holds] at some
            cases some
            exact not_lt.mp below

end

omit [LinearOrder σ] in
theorem Distinct.before {events : List (Event σ δ)} {x : Event σ δ} (distinct : Distinct (events ++ [x])) :
    Distinct events := fun y first z second =>
  distinct y (List.mem_append_left _ first) z (List.mem_append_left _ second)

/- Any order, any number of times. -/
theorem runSettled [DecidableRel same] (equivalence : Equivalence same) (events : List (Event σ δ))
    (distinct : Distinct events) : Settled same events (run same events) := by
  induction events using List.reverseRecOn with
  | nil => exact ⟨nofun,nofun,nofun,nofun,nofun⟩
  | append_singleton events x ih =>
      unfold run at *
      rw [List.foldl_append]
      exact (ih distinct.before).apply equivalence distinct

end

end Register

end Kimmy
