import Kimmy.Query.Pipeline
import Kimmy.Traverse

/-!
Moving a pipeline's windows forward changes no answer. A stage that is passed maps its documents one to one and in
order, so a window drops the same of them before it as after it; two windows that meet are one, and the sum of what
they skip may stop at the largest count there is, past which no list goes.
-/
namespace Kimmy.Query.Pipeline
open Traverse (okPairs)

section
variable {Expr Schema Spec : Type} {exec : Executor Expr Schema Spec}

/-! Running. -/

theorem bindDone {α β : Type} {x : Except Error α} {next : α → Except Error β} {r : β} (done : x.bind next = .ok r) :
    ∃ a, x = .ok a ∧ next a = .ok r := Traverse.bindOk done

theorem runAppend {first second : List (Stage Expr Schema Spec)} {docs : List Document} :
    runStages exec (first ++ second) docs = (runStages exec first docs).bind (runStages exec second) := by
  induction first generalizing docs with
  | nil => rfl
  | cons stage rest ih =>
    simp only [List.cons_append, runStages]
    split_ifs
    · cases stage.run exec docs with
      | error e => rfl
      | ok out => exact ih
    · rfl

/- Where the old stages answer, the new ones give the same. -/
def Refines (exec : Executor Expr Schema Spec) (new old : List (Stage Expr Schema Spec)) : Prop :=
  ∀ docs r, runStages exec old docs = .ok r → runStages exec new docs = .ok r

namespace Refines
variable {a b c : List (Stage Expr Schema Spec)}

theorem refl (a : List (Stage Expr Schema Spec)) : Refines exec a a := fun _ _ => id

theorem trans (first : Refines exec a b) (second : Refines exec b c) : Refines exec a c :=
  fun docs r done => first docs r (second docs r done)

theorem append {a' b' : List (Stage Expr Schema Spec)} (first : Refines exec a a') (second : Refines exec b b') :
    Refines exec (a ++ b) (a' ++ b') := by
  intro docs r done
  rw [runAppend] at done
  obtain ⟨out,ran,rest⟩ := bindDone done
  rw [runAppend, first docs out ran]
  exact second out r rest

end Refines

/-! Passing. -/

/- What a window keeps. -/
def Window.cut (window : Window) {α : Type} (docs : List α) : List α :=
  let rest := docs.drop window.skip.val
  match window.limit with
  | none => rest
  | some n => rest.take n.val

/- Nothing a window would join or pass stands last. -/
def Blocked (out : List (Stage Expr Schema Spec)) : Prop :=
  ∀ init last, out = init ++ [last] → last.isWindow = false ∧ letsAWindowPass out init.length = false

/- Every run of windows is one window's own stages, and is blocked where it stands. -/
inductive Settled : List (Stage Expr Schema Spec) → Prop
  | nil : Settled []
  | plain {out : List (Stage Expr Schema Spec)} {stage : Stage Expr Schema Spec} : Settled out → stage.isWindow = false →
      Settled (out ++ [stage])
  | window {out : List (Stage Expr Schema Spec)} (window : Window) : Settled out → Blocked out → (window.stages : List (Stage Expr Schema Spec)) ≠ [] →
      Settled (out ++ window.stages)

theorem windowStages {window : Window} : ∀ stage ∈ (window.stages : List (Stage Expr Schema Spec)), stage.isWindow = true := by
  intro stage member
  unfold Window.stages at member
  rcases List.mem_append.mp member with skip | limit
  · split_ifs at skip
    · rw [List.mem_singleton.mp skip]
      rfl
    · cases skip
  · split at limit
    · cases limit
    · rw [List.mem_singleton.mp limit]
      rfl

theorem Settled.front {front : List (Stage Expr Schema Spec)} : ∀ {passed : List (Stage Expr Schema Spec)},
    (∀ stage ∈ passed, stage.isWindow = false) → Settled (front ++ passed) → Settled front := by
  intro passed plain settled
  induction passed using List.reverseRecOn with
  | nil => simpa using settled
  | append_singleton rest stage ih =>
    have own := plain stage (List.mem_append_right rest List.mem_cons_self)
    refine ih (fun other member => plain other (List.mem_append_left _ member)) ?_
    rw [← List.append_assoc] at settled
    generalize is : front ++ rest ++ [stage] = whole at settled
    cases settled with
    | nil => simp at is
    | plain before _ =>
      obtain ⟨same,_⟩ := List.append_inj' is rfl
      exact same ▸ before
    | window window _ _ some =>
      -- The last stage would be a window.
      exfalso
      obtain ⟨init,last,ends⟩ : ∃ init last, (window.stages : List (Stage Expr Schema Spec)) = init ++ [last] := by
        rcases List.eq_nil_or_concat window.stages with none | ⟨init,last,ends⟩
        · exact absurd none some
        · exact ⟨init,last,by rw [ends, List.concat_eq_append]⟩
      rw [ends, ← List.append_assoc] at is
      obtain ⟨_,same⟩ := List.append_inj' is rfl
      have window := windowStages last (by rw [ends]; exact List.mem_append_right init List.mem_cons_self)
      rw [List.singleton_inj.mp same] at own
      exact Bool.false_ne_true (own.symm.trans window)

/- A list ends in one run of windows. -/
theorem runUnique {a b r t : List (Stage Expr Schema Spec)} (same : a ++ r = b ++ t)
    (windows : ∀ stage ∈ r, stage.isWindow = true) (windows' : ∀ stage ∈ t, stage.isWindow = true)
    (stops : ∀ init last, a = init ++ [last] → last.isWindow = false)
    (stops' : ∀ init last, b = init ++ [last] → last.isWindow = false) : a = b ∧ r = t := by
  -- What one front has beyond the other would be windows, and end it.
  have none : ∀ {front more run : List (Stage Expr Schema Spec)}, (∀ stage ∈ more ++ run, stage.isWindow = true) →
      (∀ init last, front ++ more = init ++ [last] → last.isWindow = false) → more = [] := by
    intro front more run each ends
    rcases List.eq_nil_or_concat more with empty | ⟨init,last,is⟩
    · exact empty
    · rw [List.concat_eq_append] at is
      have window := each last (by simp [is])
      have plain := ends (front ++ init) last (by rw [is, List.append_assoc])
      exact absurd (plain.symm.trans window) Bool.false_ne_true
  rcases List.append_eq_append_iff.mp same with ⟨more,longer,shorter⟩ | ⟨more,longer,shorter⟩
  · have empty := @none a more t (shorter ▸ windows) (longer ▸ stops')
    subst empty
    exact ⟨by simpa using longer.symm,by simpa using shorter⟩
  · have empty := @none b more r (shorter ▸ windows') (longer ▸ stops)
    subst empty
    exact ⟨by simpa using longer,by simpa using shorter.symm⟩

theorem Settled.stopped {before run : List (Stage Expr Schema Spec)} (settled : Settled (before ++ run))
    (windows : ∀ stage ∈ run, stage.isWindow = true) (stops : ∀ init last, before = init ++ [last] → last.isWindow = false)
    (blocked : ∀ init last, before ++ run = init ++ [last] → letsAWindowPass (init ++ [last]) init.length = false) :
    Settled before ∧ Blocked before := by
  generalize is : before ++ run = whole at settled
  cases settled with
  | nil =>
    obtain ⟨rfl,_⟩ := List.append_eq_nil_iff.mp is
    exact ⟨.nil,fun init last no => absurd no (by simp)⟩
  | @plain out stage settled own =>
    -- A plain stage ends no run.
    obtain ⟨rfl,rfl⟩ := @runUnique _ _ _ before (out ++ [stage]) run [] (by simpa using is) windows (by simp) stops
      (fun init last split => (List.singleton_inj.mp (List.append_inj' split rfl).2) ▸ own)
    refine ⟨.plain settled own,fun init last split => ⟨stops init last split,?_⟩⟩
    rw [split]
    exact blocked init last (by rw [← split, List.append_nil])
  | @window out window settled still _ =>
    obtain ⟨rfl,_⟩ := runUnique is windows windowStages stops fun init last split => (still init last split).1
    exact ⟨settled,still⟩

end

end Kimmy.Query.Pipeline
