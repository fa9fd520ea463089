import Kimmy.Query.MovedWindows

/-!
The leading `$match` stages as one filter of the source. A document a stage drops never reaches the next, while the
merged filter may ask it a later clause first: only one without an expression, and that one always answers.
-/
namespace Kimmy.Query

/-! Filters without an expression always answer. -/

section
variable {σ : Type}

def Sure (item : Eval σ Bool) : Prop := ∀ s, ∃ v t, item s = (.ok v,t)

theorem sureAnswer (v : Bool) : Sure (answer (σ := σ) v) := fun s => ⟨v,s,rfl⟩

theorem sureNegated {item : Eval σ Bool} (sure : Sure item) : Sure (negated item) := by
  intro s
  obtain ⟨v,t,is⟩ := sure s
  exact ⟨!v,t,by simp [negated, is]⟩

theorem sureDecide {decider : Bool} {items : List (Eval σ Bool)} (each : ∀ item ∈ items, Sure item) :
    Sure (decideFrom decider none items) := by
  induction items with
  | nil => exact fun s => ⟨!decider,s,rfl⟩
  | cons item rest ih =>
    intro s
    obtain ⟨v,t,is⟩ := each item List.mem_cons_self s
    by_cases decides : v = decider
    · exact ⟨decider,t,by simp [decideFrom, is, decides]⟩
    · obtain ⟨w,u,later⟩ := ih (fun other member => each other (List.mem_cons_of_mem item member)) t
      exact ⟨w,u,by simp [decideFrom, is, decides, later]⟩

theorem sureMap {α : Type} {f : α → Eval σ Bool} {decider : Bool} (each : ∀ x, Sure (f x)) (xs : List α) :
    Sure (decideFrom decider none (xs.map f)) := by
  refine sureDecide fun item member => ?_
  obtain ⟨x,_,rfl⟩ := List.mem_map.mp member
  exact each x

end

section
variable {Expr Schema σ : Type} {lang : Language Expr Schema σ} {vars : Bindings}

mutual

theorem sureFilter : (f : Filter Expr Schema) → filterHasExpr f = false → ∀ doc, Sure (evaluate lang vars f doc)
  | .alwaysTrue, _, doc => by
      simp only [evaluate]
      exact sureAnswer true
  | .and fs, cheap, doc | .or fs, cheap, doc => by
      simp only [evaluate]
      exact sureDecide (sureEach fs (by simpa only [filterHasExpr] using cheap) doc)
  | .nor fs, cheap, doc => by
      simp only [evaluate]
      exact sureNegated (sureDecide (sureEach fs (by simpa only [filterHasExpr] using cheap) doc))
  | .field path cs, cheap, doc => by
      simp only [evaluate]
      exact sureDecide (sureConditions cs (by simpa only [filterHasExpr] using cheap) (resolve doc path))
  | .expr e, cheap, doc => by simp [filterHasExpr] at cheap
  | .jsonSchema schema, _, doc => by
      simp only [evaluate]
      exact sureAnswer _
  | .sampleRate rate, _, doc => by
      simp only [evaluate]
      exact fun s => ⟨_,_,rfl⟩

theorem sureEach : (fs : List (Filter Expr Schema)) → anyHasExpr fs = false → ∀ doc,
    ∀ item ∈ evaluateEach lang vars fs doc, Sure item
  | [], _, doc, item, member => by
      simp only [evaluateEach] at member
      cases member
  | f :: fs, cheap, doc, item, member => by
      simp only [anyHasExpr, Bool.or_eq_false_iff] at cheap
      simp only [evaluateEach] at member
      rcases List.mem_cons.mp member with rfl | later
      · exact sureFilter f cheap.1 doc
      · exact sureEach fs cheap.2 doc item later

theorem sureCondition : (c : Condition Expr Schema) → conditionHasExpr c = false → ∀ values,
    Sure (conditionMatches lang vars c values)
  | .elemMatch inner, cheap, values => by
      simp only [conditionHasExpr] at cheap
      simp only [conditionMatches]
      refine sureMap (fun v => ?_) values
      cases v with
      | array items =>
          refine sureMap (fun item => ?_) items
          cases item with
          | document d => exact sureFilter inner cheap d
          | _ => exact sureScalar inner cheap _
      | _ => exact sureAnswer false
  | .not inner, cheap, values => by
      simp only [conditionHasExpr] at cheap
      simp only [conditionMatches]
      exact sureNegated (sureCondition inner cheap values)
  | .both a b, cheap, values => by
      simp only [conditionHasExpr, Bool.or_eq_false_iff] at cheap
      simp only [conditionMatches]
      refine sureDecide fun item member => ?_
      rcases List.mem_cons.mp member with rfl | other
      · exact sureCondition a cheap.1 values
      · rw [List.mem_singleton.mp other]
        exact sureCondition b cheap.2 values
  | .alwaysTrue, _, values | .eq _, _, values | .ne _, _, values | .gt _, _, values | .gte _, _, values
  | .lt _, _, values | .lte _, _, values | .inList _, _, values | .nin _, _, values | .exist _, _, values
  | .type _, _, values | .regex _, _, values | .all _, _, values | .size _, _, values | .mod _ _, _, values
  | .bits _ _, _, values => by
      simp only [conditionMatches]
      exact sureAnswer _

theorem sureConditions : (cs : List (Condition Expr Schema)) → conditionsHaveExpr cs = false → ∀ values,
    ∀ item ∈ conditionsMatch lang vars cs values, Sure item
  | [], _, values, item, member => by
      simp only [conditionsMatch] at member
      cases member
  | c :: cs, cheap, values, item, member => by
      simp only [conditionsHaveExpr, Bool.or_eq_false_iff] at cheap
      simp only [conditionsMatch] at member
      rcases List.mem_cons.mp member with rfl | later
      · exact sureCondition c cheap.1 values
      · exact sureConditions cs cheap.2 values item later

theorem sureScalar : (f : Filter Expr Schema) → filterHasExpr f = false → ∀ scalar,
    Sure (matchesScalarAgainst lang vars f scalar)
  | .alwaysTrue, _, scalar => by
      simp only [matchesScalarAgainst]
      exact sureAnswer true
  | .and fs, cheap, scalar | .or fs, cheap, scalar => by
      simp only [matchesScalarAgainst]
      exact sureDecide (sureScalars fs (by simpa only [filterHasExpr] using cheap) scalar)
  | .nor fs, cheap, scalar => by
      simp only [matchesScalarAgainst]
      exact sureNegated (sureDecide (sureScalars fs (by simpa only [filterHasExpr] using cheap) scalar))
  | .field path cs, cheap, scalar => by
      simp only [matchesScalarAgainst]
      split
      · exact sureDecide (sureConditions cs (by simpa only [filterHasExpr] using cheap) [scalar])
      · exact sureAnswer false
  | .expr _, _, scalar | .jsonSchema _, _, scalar | .sampleRate _, _, scalar => by
      simp only [matchesScalarAgainst]
      exact sureAnswer false

theorem sureScalars : (fs : List (Filter Expr Schema)) → anyHasExpr fs = false → ∀ scalar,
    ∀ item ∈ scalarEach lang vars fs scalar, Sure item
  | [], _, scalar, item, member => by
      simp only [scalarEach] at member
      cases member
  | f :: fs, cheap, scalar, item, member => by
      simp only [anyHasExpr, Bool.or_eq_false_iff] at cheap
      simp only [scalarEach] at member
      rcases List.mem_cons.mp member with rfl | later
      · exact sureScalar f cheap.1 scalar
      · exact sureScalars fs cheap.2 scalar item later

end

end

namespace Pipeline

/-! A conjunction whose clauses answer up to the one that is false. -/

section
variable {items rest : List (Eval Unit Bool)}

end

section
variable {Expr Schema Spec : Type} {exec : Executor Expr Schema Spec}

/- The clauses one after another, until one is false. -/
def chained (exec : Executor Expr Schema Spec) : List (Filter Expr Schema) → Document → Except Error Bool
  | [], _ => .ok true
  | filter :: rest, doc => do
      let keeps ← matchesWith exec filter doc
      if keeps then chained exec rest doc else .ok false

end

section
variable {Expr Schema Spec : Type}

end

end Pipeline

end Kimmy.Query
