import Kimmy.KeyOrder
import Kimmy.Query.Lead
import Kimmy.Traverse

/-!
Splitting the leading filter. A conjunction is decided by its leaves in order; the leaves that hold may be left out, and one
that does not hold leaves it refuted or at an error that may not wait.
-/
namespace Kimmy.Query.Lookup
open CanonicalCmp KeyOrder

/-! Clauses that read no variable. -/

section
variable {Op Schema : Type} (m : Matchers Op Schema) {names : List String} {vars vars' : Bindings}

/- The variables differ in some names alone. -/
def Differ (names : List String) (vars vars' : Bindings) : Prop := Apart names (.withBindings vars) (.withBindings vars')

mutual

theorem evaluateApart (apart : Differ names vars vars') : (f : Filter (Expr Op) Schema) → readsVariable names f = false →
    ∀ doc, evaluate m.language vars f doc = evaluate m.language vars' f doc
  | .alwaysTrue, _, doc | .jsonSchema _, _, doc | .sampleRate _, _, doc => by simp only [evaluate]
  | .and fs, unread, doc | .or fs, unread, doc | .nor fs, unread, doc => by
      simp only [evaluate]
      rw [eachApart apart fs (by simpa only [readsVariable] using unread) doc]
  | .field path cs, unread, doc => by
      simp only [evaluate]
      rw [conditionsApart apart cs (by simpa only [readsVariable] using unread)]
  | .expr e, unread, doc => by
      simp only [evaluate, Matchers.language]
      rw [evalVariables doc e (by simpa only [readsVariable] using unread) apart]

theorem eachApart (apart : Differ names vars vars') : (fs : List (Filter (Expr Op) Schema)) → anyReads names fs = false →
    ∀ doc, evaluateEach m.language vars fs doc = evaluateEach m.language vars' fs doc
  | [], _, doc => by simp only [evaluateEach]
  | f :: fs, unread, doc => by
      simp only [anyReads, Bool.or_eq_false_iff] at unread
      simp only [evaluateEach]
      rw [evaluateApart apart f unread.1, eachApart apart fs unread.2]

theorem conditionApart (apart : Differ names vars vars') : (c : Condition (Expr Op) Schema) → conditionReads names c = false →
    ∀ values, conditionMatches m.language vars c values = conditionMatches m.language vars' c values
  | .elemMatch inner, unread, values => by
      simp only [conditionReads] at unread
      simp only [conditionMatches]
      congr 1
      refine List.map_congr_left fun v _ => ?_
      cases v with
      | array items =>
          refine congrArg anyOf (List.map_congr_left fun item _ => ?_)
          cases item with
          | document d => exact evaluateApart apart inner unread d
          | _ => exact scalarApart apart inner unread _
      | _ => rfl
  | .not inner, unread, values => by
      simp only [conditionReads] at unread
      simp only [conditionMatches]
      rw [conditionApart apart inner unread]
  | .both a b, unread, values => by
      simp only [conditionReads, Bool.or_eq_false_iff] at unread
      simp only [conditionMatches]
      rw [conditionApart apart a unread.1, conditionApart apart b unread.2]
  | .alwaysTrue, _, values | .eq _, _, values | .ne _, _, values | .gt _, _, values | .gte _, _, values
  | .lt _, _, values | .lte _, _, values | .inList _, _, values | .nin _, _, values | .exist _, _, values
  | .type _, _, values | .regex _, _, values | .all _, _, values | .size _, _, values | .mod _ _, _, values
  | .bits _ _, _, values => by simp only [conditionMatches]

theorem conditionsApart (apart : Differ names vars vars') : (cs : List (Condition (Expr Op) Schema)) →
    anyConditionReads names cs = false → ∀ values, conditionsMatch m.language vars cs values = conditionsMatch m.language vars' cs values
  | [], _, values => by simp only [conditionsMatch]
  | c :: cs, unread, values => by
      simp only [anyConditionReads, Bool.or_eq_false_iff] at unread
      simp only [conditionsMatch]
      rw [conditionApart apart c unread.1, conditionsApart apart cs unread.2]

theorem scalarApart (apart : Differ names vars vars') : (f : Filter (Expr Op) Schema) → readsVariable names f = false →
    ∀ scalar, matchesScalarAgainst m.language vars f scalar = matchesScalarAgainst m.language vars' f scalar
  | .alwaysTrue, _, scalar | .expr _, _, scalar | .jsonSchema _, _, scalar | .sampleRate _, _, scalar => by
      simp only [matchesScalarAgainst]
  | .and fs, unread, scalar | .or fs, unread, scalar | .nor fs, unread, scalar => by
      simp only [matchesScalarAgainst]
      rw [scalarsApart apart fs (by simpa only [readsVariable] using unread)]
  | .field path cs, unread, scalar => by
      simp only [matchesScalarAgainst]
      rw [conditionsApart apart cs (by simpa only [readsVariable] using unread)]

theorem scalarsApart (apart : Differ names vars vars') : (fs : List (Filter (Expr Op) Schema)) → anyReads names fs = false →
    ∀ scalar, scalarEach m.language vars fs scalar = scalarEach m.language vars' fs scalar
  | [], _, scalar => by simp only [scalarEach]
  | f :: fs, unread, scalar => by
      simp only [anyReads, Bool.or_eq_false_iff] at unread
      simp only [scalarEach]
      rw [scalarApart apart f unread.1, scalarsApart apart fs unread.2]

end

theorem truthApart (apart : Differ names vars vars') {f : Filter (Expr Op) Schema} (unread : readsVariable names f = false)
    (doc : Document) : truth m f doc vars = truth m f doc vars' := by
  unfold truth
  rw [evaluateApart m apart f unread]

/- Binding names of the scope alone. -/
theorem differNone (own : ∀ bound ∈ vars, bound.1 ∈ names) : Differ names [] vars := by
  intro name outside
  unfold Scope.get Scope.withBindings
  rw [List.map_nil, List.reverse_nil, List.find?_nil, List.find?_eq_none.mpr]
  intro bound member
  obtain ⟨source,listed,rfl⟩ := List.mem_map.mp (List.mem_reverse.mp member)
  intro same
  exact outside (beq_iff_eq.mp same ▸ own source listed)

end

/-! Conjunctions. -/

/- The conjunction of what the leaves come to. -/
def conj (undecided : Option Error) : List (Except Error Bool) → Except Error Bool
  | [] => match undecided with
      | none => .ok true
      | some e => .error e
  | .ok true :: rest => conj undecided rest
  | .ok false :: _ => .ok false
  | .error e :: rest => if e.isDeferrable then conj (undecided.or (some e)) rest else .error e

theorem conjError (undecided : Option Error) (e : Error) (rest : List (Except Error Bool)) :
    conj undecided (.error e :: rest) = if e.isDeferrable then conj (undecided.or (some e)) rest else .error e := rfl

theorem decideConj (undecided : Option Error) (items : List (Eval Unit Bool)) :
    (decideFrom false undecided items ()).1 = conj undecided (items.map fun item => (item ()).1) := by
  induction items generalizing undecided with
  | nil => cases undecided <;> rfl
  | cons item rest ih =>
    rw [List.map_cons, decideFrom]
    rcases item () with ⟨result,⟨⟩⟩
    cases result with
    | ok v =>
      cases v with
      | true => exact ih undecided
      | false => rfl
    | error e =>
      simp only [conjError]
      split_ifs
      · exact ih _
      · rfl

theorem conjOne (r : Except Error Bool) : conj none [r] = r := by
  rcases r with e | v
  · rw [conjError]
    split_ifs <;> rfl
  · cases v <;> rfl

/- An error that waits inside waits outside as well. -/
theorem conjNested {u w : Option Error} (waits : ∀ e ∈ w, e.isDeferrable = true) (xs ys : List (Except Error Bool)) :
    conj u (conj w xs :: ys) = conj (u.or w) (xs ++ ys) := by
  induction xs generalizing w with
  | nil =>
    cases w with
    | none => rw [Option.or_none]; rfl
    | some e =>
      change conj u (.error e :: ys) = _
      rw [conjError, if_pos (waits e rfl), List.nil_append]
  | cons x xs ih =>
    rcases x with e | v
    · rw [conjError, List.cons_append, conjError]
      split_ifs with later
      · rw [ih, Option.or_assoc]
        intro e' met
        cases w with
        | none => cases met; exact later
        | some first => exact waits e' met
      · rw [conjError, if_neg later]
    · cases v with
      | true => exact ih waits
      | false => rfl

/- Leaves that hold may be left out. -/
theorem conjFilter {α : Type} (p : α → Bool) {t : α → Except Error Bool} {l : List α} (holds : ∀ x ∈ l, p x = false → t x = .ok true)
    (u : Option Error) : conj u (l.map t) = conj u ((l.filter p).map t) := by
  induction l generalizing u with
  | nil => rfl
  | cons x l ih =>
    have rest := ih fun y member => holds y (List.mem_cons_of_mem x member)
    cases own : p x with
    | false =>
      rw [List.filter_cons_of_neg (by simp [own]), List.map_cons, holds x List.mem_cons_self own]
      exact rest u
    | true =>
      rw [List.filter_cons_of_pos own, List.map_cons, List.map_cons]
      rcases t x with e | v
      · rw [conjError, conjError]
        split_ifs
        · exact rest _
        · rfl
      · cases v with
        | true => exact rest u
        | false => rfl

theorem conjErase {u : Option Error} (xs ys : List (Except Error Bool)) : conj u (xs ++ .ok true :: ys) = conj u (xs ++ ys) := by
  induction xs generalizing u with
  | nil => rfl
  | cons x xs ih =>
    rcases x with e | v
    · rw [List.cons_append, List.cons_append, conjError, conjError, ih]
    · cases v with
      | true => exact ih
      | false => rfl

theorem conjTrue {u : Option Error} {xs : List (Except Error Bool)} (holds : conj u xs = .ok true) : ∀ x ∈ xs, x = .ok true := by
  induction xs generalizing u with
  | nil => nofun
  | cons x xs ih =>
    rcases x with e | v
    · rw [conjError] at holds
      split_ifs at holds
      -- An error that waits is never dropped by what holds after it.
      exfalso
      have kept : ∀ {w : Option Error} {ys : List (Except Error Bool)}, w ≠ none → conj w ys ≠ .ok true := by
        intro w ys
        induction ys generalizing w with
        | nil =>
          intro some
          cases w with
          | none => exact absurd rfl some
          | some e => nofun
        | cons y ys ih =>
          intro some
          rcases y with e | v
          · rw [conjError]
            split_ifs
            · exact ih (by cases w <;> nofun)
            · nofun
          · cases v with
            | true => exact ih some
            | false => nofun
      exact kept (by cases u <;> nofun) holds
    · cases v with
      | true =>
        intro x member
        rcases List.mem_cons.mp member with rfl | later
        · rfl
        · exact ih holds x later
      | false => cases holds

theorem conjFalse {u : Option Error} {xs : List (Except Error Bool)} (refuted : conj u xs = .ok false) : .ok false ∈ xs := by
  induction xs generalizing u with
  | nil => cases u <;> cases refuted
  | cons x xs ih =>
    rcases x with e | v
    · rw [conjError] at refuted
      split_ifs at refuted
      exact List.mem_cons_of_mem _ (ih refuted)
    · cases v with
      | true => exact List.mem_cons_of_mem _ (ih refuted)
      | false => exact List.mem_cons_self

end Kimmy.Query.Lookup
