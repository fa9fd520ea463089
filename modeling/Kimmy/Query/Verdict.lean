import Kimmy.Query.Filter

/-!
The verdict of a filter and the order it is written in. What a filter decides is three-valued: true, false or
an error; false decides a conjunction and true a disjunction over errors. The parser moves the clauses that hold
an expression behind the others, and an error waits for a clause that decides, so the order never shows.
-/
namespace Kimmy.Query

/-! Three values. -/

/- What is left of an evaluation: its truth, or that it failed. -/
def verdict : Except Error Bool → Option Bool
  | .ok v => some v
  | .error _ => none

/- An error about the request ends the evaluation where it is met. -/
def Refused : Except Error Bool → Prop
  | .ok _ => False
  | .error e => e.isDeferrable = false

/- The decider decides over errors, an error over the rest. -/
def settled (decider : Bool) (items : List (Option Bool)) : Option Bool :=
  if some decider ∈ items then some decider else if none ∈ items then none else some !decider

theorem settledSame {decider : Bool} {items others : List (Option Bool)} (same : ∀ v, v ∈ items ↔ v ∈ others) :
    settled decider items = settled decider others := by
  simp only [settled, same]

theorem settledThree (x y z : Option Bool) : settled false [settled false [x,y],z] = settled false [settled false [x,z],y] := by
  rcases x with _ | _ | _ <;> rcases y with _ | _ | _ <;> rcases z with _ | _ | _ <;> rfl

section
variable {σ : Type}

/- An evaluation that draws nothing and, unless it is refused, has the given verdict. -/
def Answers (item : Eval σ Bool) (v : Option Bool) : Prop :=
  ∃ r, (∀ s, item s = (r,s)) ∧ (¬Refused r → verdict r = v)

theorem answerAnswers (v : Bool) : Answers (answer (σ := σ) v) (some v) := ⟨.ok v,fun _ => rfl,fun _ => rfl⟩

theorem negatedAnswers {item : Eval σ Bool} {v : Option Bool} (answers : Answers item v) :
    Answers (negated item) (v.map (!·)) := by
  obtain ⟨r, draws, tells⟩ := answers
  cases r with
  | ok b =>
      refine ⟨.ok !b,fun s => by simp [negated, draws],fun _ => ?_⟩
      rw [←tells id]
      rfl
  | error e =>
      refine ⟨.error e,fun s => by simp [negated, draws],fun unrefused => ?_⟩
      rw [←tells unrefused]
      rfl

theorem forall₂Map {α β γ : Type} {R : β → γ → Prop} {f : α → β} {g : α → γ} (each : ∀ x, R (f x) (g x)) :
    ∀ {xs : List α}, List.Forall₂ R (xs.map f) (xs.map g)
  | [] => .nil
  | x :: _ => .cons (each x) (forall₂Map each)

/- Items in the order they are met; an error met before waits with them. -/
theorem decideAnswers {decider : Bool} {items : List (Eval σ Bool)} {verdicts : List (Option Bool)}
    (each : List.Forall₂ Answers items verdicts) : ∀ undecided : Option Error,
      ∃ r, (∀ s, decideFrom decider undecided items s = (r,s)) ∧
        (¬Refused r → verdict r = if some decider ∈ verdicts then some decider
          else if undecided.isSome ∨ none ∈ verdicts then none else some !decider) := by
  induction each with
  | nil =>
      intro undecided
      cases undecided with
      | none => exact ⟨.ok !decider,fun _ => rfl,fun _ => by simp [verdict]⟩
      | some e => exact ⟨.error e,fun _ => rfl,fun _ => by simp [verdict]⟩
  | @cons item v rest others first _ ih =>
      intro undecided
      obtain ⟨r, draws, tells⟩ := first
      cases r with
      | ok b =>
          have own : v = some b := (tells id).symm
          by_cases decides : b = decider
          · refine ⟨.ok decider,fun s => by simp [decideFrom, draws, decides],fun _ => ?_⟩
            simp [verdict, own, decides]
          · obtain ⟨r, later, tells⟩ := ih undecided
            refine ⟨r,fun s => by simp [decideFrom, draws, decides, later],fun unrefused => ?_⟩
            rw [tells unrefused, own]
            simp [Ne.symm decides]
      | error e =>
          by_cases waits : e.isDeferrable = true
          · have own : v = none := (tells (by simp [Refused, waits])).symm
            obtain ⟨r, later, tells⟩ := ih (undecided.or (some e))
            refine ⟨r,fun s => by simpa [decideFrom, draws, waits] using later s,fun unrefused => ?_⟩
            rw [tells unrefused, own]
            cases undecided <;> simp
          · refine ⟨.error e,fun s => by simp [decideFrom, draws, waits],fun unrefused => ?_⟩
            exact absurd (show Refused (.error e) by simpa [Refused] using waits) unrefused

theorem settledAnswers {decider : Bool} {items : List (Eval σ Bool)} {verdicts : List (Option Bool)}
    (each : List.Forall₂ Answers items verdicts) : Answers (decideFrom decider none items) (settled decider verdicts) := by
  obtain ⟨r, draws, tells⟩ := decideAnswers each none
  exact ⟨r,draws,fun unrefused => by simpa [settled] using tells unrefused⟩

end

/-! What a filter means. -/

section
variable {Expr Schema σ : Type} (lang : Language Expr Schema σ) (start : σ)

mutual

/- The truth of a filter of a document. Expressions and draws have the verdict of the evaluation. -/
def meaning (vars : Bindings) (filter : Filter Expr Schema) (doc : Document) : Option Bool :=
  match filter with
  | .alwaysTrue => some true
  | .and branches => settled false (meaningEach vars branches doc)
  | .or branches => settled true (meaningEach vars branches doc)
  | .nor branches => (settled true (meaningEach vars branches doc)).map (!·)
  | .field path conditions => settled false (conditionMeanings vars conditions (resolve doc path))
  | .expr e => verdict (lang.expression e doc vars start).1
  | .jsonSchema schema => some (lang.isValid schema doc)
  | .sampleRate rate => some (lang.randomDraw rate start).1

def meaningEach (vars : Bindings) (branches : List (Filter Expr Schema)) (doc : Document) : List (Option Bool) :=
  match branches with
  | [] => []
  | filter :: rest => meaning vars filter doc :: meaningEach vars rest doc

/- A condition without parts holds or not; one element decides for an array. -/
def conditionMeaning (vars : Bindings) (condition : Condition Expr Schema) (values : List Bson) : Option Bool :=
  match condition with
  | .elemMatch inner => settled true (values.map fun v => match v with
      | .array items => settled true (items.map fun item => match item with
          | .document d => meaning vars inner d
          | scalar => scalarMeaning vars inner scalar)
      | _ => some false)
  | .not inner => (conditionMeaning vars inner values).map (!·)
  | .both a b => settled false [conditionMeaning vars a values,conditionMeaning vars b values]
  | other => verdict (conditionMatches lang vars other values start).1

def conditionMeanings (vars : Bindings) (conditions : List (Condition Expr Schema)) (values : List Bson) :
    List (Option Bool) :=
  match conditions with
  | [] => []
  | condition :: rest => conditionMeaning vars condition values :: conditionMeanings vars rest values

def scalarMeaning (vars : Bindings) (filter : Filter Expr Schema) (scalar : Bson) : Option Bool :=
  match filter with
  | .alwaysTrue => some true
  | .and branches => settled false (scalarMeanings vars branches scalar)
  | .or branches => settled true (scalarMeanings vars branches scalar)
  | .nor branches => (settled true (scalarMeanings vars branches scalar)).map (!·)
  | .field path conditions =>
      if path.isEmpty then settled false (conditionMeanings vars conditions [scalar]) else some false
  | .expr _ | .jsonSchema _ | .sampleRate _ => some false

def scalarMeanings (vars : Bindings) (branches : List (Filter Expr Schema)) (scalar : Bson) : List (Option Bool) :=
  match branches with
  | [] => []
  | filter :: rest => scalarMeaning vars filter scalar :: scalarMeanings vars rest scalar

end

end

/-! Random numbers and expressions in a filter. -/

section
variable {Expr Schema : Type} (exprDraws : Expr → Bool)

mutual

def drawsRandom : Filter Expr Schema → Bool
  | .sampleRate _ => true
  | .alwaysTrue | .jsonSchema _ => false
  | .and branches | .or branches | .nor branches => anyDraws branches
  | .field _ conditions => conditionsDraw conditions
  | .expr e => exprDraws e

def anyDraws : List (Filter Expr Schema) → Bool
  | [] => false
  | filter :: rest => drawsRandom filter || anyDraws rest

def conditionDraws : Condition Expr Schema → Bool
  | .elemMatch inner => drawsRandom inner
  | .not inner => conditionDraws inner
  | .both a b => conditionDraws a || conditionDraws b
  | _ => false

def conditionsDraw : List (Condition Expr Schema) → Bool
  | [] => false
  | condition :: rest => conditionDraws condition || conditionsDraw rest

end

end

section
variable {Expr Schema : Type}

mutual

def filterHasExpr : Filter Expr Schema → Bool
  | .expr _ => true
  | .and branches | .or branches | .nor branches => anyHasExpr branches
  | .field _ conditions => conditionsHaveExpr conditions
  | .alwaysTrue | .jsonSchema _ | .sampleRate _ => false

def anyHasExpr : List (Filter Expr Schema) → Bool
  | [] => false
  | filter :: rest => filterHasExpr filter || anyHasExpr rest

def conditionHasExpr : Condition Expr Schema → Bool
  | .elemMatch inner => filterHasExpr inner
  | .not inner => conditionHasExpr inner
  | .both a b => conditionHasExpr a || conditionHasExpr b
  | _ => false

def conditionsHaveExpr : List (Condition Expr Schema) → Bool
  | [] => false
  | condition :: rest => conditionHasExpr condition || conditionsHaveExpr rest

end

/- Those that hold an expression go to the end, each group in its order. -/
def cheapFirst {α : Type} (hasExpr : α → Bool) (items : List α) : List α :=
  items.filter (fun item => !hasExpr item) ++ items.filter hasExpr

mutual

/- A filter as the parser leaves it, every list in the order it is evaluated in. -/
def arranged : Filter Expr Schema → Filter Expr Schema
  | .and branches => .and (cheapFirst filterHasExpr (arrangedEach branches))
  | .or branches => .or (cheapFirst filterHasExpr (arrangedEach branches))
  | .nor branches => .nor (cheapFirst filterHasExpr (arrangedEach branches))
  | .field path conditions => .field path (cheapFirst conditionHasExpr (arrangedConditions conditions))
  | .alwaysTrue => .alwaysTrue
  | .expr e => .expr e
  | .jsonSchema schema => .jsonSchema schema
  | .sampleRate rate => .sampleRate rate

def arrangedEach : List (Filter Expr Schema) → List (Filter Expr Schema)
  | [] => []
  | filter :: rest => arranged filter :: arrangedEach rest

def arrangedCondition : Condition Expr Schema → Condition Expr Schema
  | .elemMatch inner => .elemMatch (arranged inner)
  | .not inner => .not (arrangedCondition inner)
  | .both a b => .both (arrangedCondition a) (arrangedCondition b)
  | other => other

def arrangedConditions : List (Condition Expr Schema) → List (Condition Expr Schema)
  | [] => []
  | condition :: rest => arrangedCondition condition :: arrangedConditions rest

end

end

/-! Filters that differ in the order they are written in. -/

section
variable {Expr Schema : Type}

mutual

inductive Reordered : Filter Expr Schema → Filter Expr Schema → Prop
  | same (f : Filter Expr Schema) : Reordered f f
  | trans {f g h : Filter Expr Schema} : Reordered f g → Reordered g h → Reordered f h
  | and {fs gs : List (Filter Expr Schema)} : ReorderedEach fs gs → Reordered (.and fs) (.and gs)
  | or {fs gs : List (Filter Expr Schema)} : ReorderedEach fs gs → Reordered (.or fs) (.or gs)
  | nor {fs gs : List (Filter Expr Schema)} : ReorderedEach fs gs → Reordered (.nor fs) (.nor gs)
  | field (path : String) {cs ds : List (Condition Expr Schema)} : ReorderedConditions cs ds →
      Reordered (.field path cs) (.field path ds)

inductive ReorderedEach : List (Filter Expr Schema) → List (Filter Expr Schema) → Prop
  | nil : ReorderedEach [] []
  | cons {f g : Filter Expr Schema} {fs gs : List (Filter Expr Schema)} : Reordered f g → ReorderedEach fs gs →
      ReorderedEach (f :: fs) (g :: gs)
  | swap (f g : Filter Expr Schema) (fs : List (Filter Expr Schema)) : ReorderedEach (f :: g :: fs) (g :: f :: fs)
  | trans {fs gs hs : List (Filter Expr Schema)} : ReorderedEach fs gs → ReorderedEach gs hs → ReorderedEach fs hs

/- Operators under one `$not` are held two by two. -/
inductive ReorderedCondition : Condition Expr Schema → Condition Expr Schema → Prop
  | same (c : Condition Expr Schema) : ReorderedCondition c c
  | trans {c d e : Condition Expr Schema} : ReorderedCondition c d → ReorderedCondition d e → ReorderedCondition c e
  | elemMatch {f g : Filter Expr Schema} : Reordered f g → ReorderedCondition (.elemMatch f) (.elemMatch g)
  | not {c d : Condition Expr Schema} : ReorderedCondition c d → ReorderedCondition (.not c) (.not d)
  | both {c d e f : Condition Expr Schema} : ReorderedCondition c d → ReorderedCondition e f →
      ReorderedCondition (.both c e) (.both d f)
  | swap (c d : Condition Expr Schema) : ReorderedCondition (.both c d) (.both d c)
  | rotate (c d e : Condition Expr Schema) : ReorderedCondition (.both (.both c d) e) (.both (.both c e) d)

inductive ReorderedConditions : List (Condition Expr Schema) → List (Condition Expr Schema) → Prop
  | nil : ReorderedConditions [] []
  | cons {c d : Condition Expr Schema} {cs ds : List (Condition Expr Schema)} : ReorderedCondition c d →
      ReorderedConditions cs ds → ReorderedConditions (c :: cs) (d :: ds)
  | swap (c d : Condition Expr Schema) (cs : List (Condition Expr Schema)) :
      ReorderedConditions (c :: d :: cs) (d :: c :: cs)
  | trans {cs ds es : List (Condition Expr Schema)} : ReorderedConditions cs ds → ReorderedConditions ds es →
      ReorderedConditions cs es

end

/-! The meaning does not see the order. -/

section
variable {σ : Type} {lang : Language Expr Schema σ} {start : σ} {vars : Bindings}

theorem memConsCongr {v x y : Option Bool} {xs ys : List (Option Bool)} (head : x = y) (tail : v ∈ xs ↔ v ∈ ys) :
    v ∈ x :: xs ↔ v ∈ y :: ys := by
  rw [List.mem_cons, List.mem_cons, head, tail]

theorem memConsSwap {v x y : Option Bool} {xs : List (Option Bool)} : v ∈ x :: y :: xs ↔ v ∈ y :: x :: xs := by
  simp only [List.mem_cons, or_left_comm]

mutual

theorem meaningReordered {f g : Filter Expr Schema} : Reordered f g →
    (∀ doc, meaning lang start vars f doc = meaning lang start vars g doc) ∧
      ∀ scalar, scalarMeaning lang start vars f scalar = scalarMeaning lang start vars g scalar
  | .same f => ⟨fun _ => rfl,fun _ => rfl⟩
  | .trans first second =>
      ⟨fun doc => ((meaningReordered first).1 doc).trans ((meaningReordered second).1 doc),
        fun scalar => ((meaningReordered first).2 scalar).trans ((meaningReordered second).2 scalar)⟩
  | .and each => by
      refine ⟨fun doc => ?_,fun scalar => ?_⟩
      · simp only [meaning]
        exact settledSame ((eachReordered each).1 doc)
      · simp only [scalarMeaning]
        exact settledSame ((eachReordered each).2 scalar)
  | .or each => by
      refine ⟨fun doc => ?_,fun scalar => ?_⟩
      · simp only [meaning]
        exact settledSame ((eachReordered each).1 doc)
      · simp only [scalarMeaning]
        exact settledSame ((eachReordered each).2 scalar)
  | .nor each => by
      refine ⟨fun doc => ?_,fun scalar => ?_⟩
      · simp only [meaning]
        exact congrArg _ (settledSame ((eachReordered each).1 doc))
      · simp only [scalarMeaning]
        exact congrArg _ (settledSame ((eachReordered each).2 scalar))
  | .field path each => by
      refine ⟨fun doc => ?_,fun scalar => ?_⟩
      · simp only [meaning]
        exact settledSame (conditionsReordered each (resolve doc path))
      · simp only [scalarMeaning]
        split
        · exact settledSame (conditionsReordered each [scalar])
        · rfl

theorem eachReordered {fs gs : List (Filter Expr Schema)} : ReorderedEach fs gs →
    (∀ doc v, v ∈ meaningEach lang start vars fs doc ↔ v ∈ meaningEach lang start vars gs doc) ∧
      ∀ scalar v, v ∈ scalarMeanings lang start vars fs scalar ↔ v ∈ scalarMeanings lang start vars gs scalar
  | .nil => ⟨fun _ _ => Iff.rfl,fun _ _ => Iff.rfl⟩
  | .cons first rest => by
      refine ⟨fun doc v => ?_,fun scalar v => ?_⟩
      · simp only [meaningEach]
        exact memConsCongr ((meaningReordered first).1 doc) ((eachReordered rest).1 doc v)
      · simp only [scalarMeanings]
        exact memConsCongr ((meaningReordered first).2 scalar) ((eachReordered rest).2 scalar v)
  | .swap f g fs => by
      refine ⟨fun doc v => ?_,fun scalar v => ?_⟩
      · simp only [meaningEach]
        exact memConsSwap
      · simp only [scalarMeanings]
        exact memConsSwap
  | .trans first second =>
      ⟨fun doc v => ((eachReordered first).1 doc v).trans ((eachReordered second).1 doc v),
        fun scalar v => ((eachReordered first).2 scalar v).trans ((eachReordered second).2 scalar v)⟩

theorem conditionReordered {c d : Condition Expr Schema} : ReorderedCondition c d →
    ∀ values, conditionMeaning lang start vars c values = conditionMeaning lang start vars d values
  | .same c => fun _ => rfl
  | .trans first second => fun values => (conditionReordered first values).trans (conditionReordered second values)
  | .elemMatch inner => by
      intro values
      have document := (meaningReordered inner).1
      have scalar := (meaningReordered inner).2
      simp only [conditionMeaning, document, scalar]
  | .not inner => by
      intro values
      simp only [conditionMeaning, conditionReordered inner values]
  | .both first second => by
      intro values
      simp only [conditionMeaning, conditionReordered first values, conditionReordered second values]
  | .swap c d => by
      intro values
      simp only [conditionMeaning]
      exact settledSame fun v => memConsSwap
  | .rotate c d e => by
      intro values
      simp only [conditionMeaning]
      exact settledThree _ _ _

theorem conditionsReordered {cs ds : List (Condition Expr Schema)} : ReorderedConditions cs ds →
    ∀ values v, v ∈ conditionMeanings lang start vars cs values ↔ v ∈ conditionMeanings lang start vars ds values
  | .nil => fun _ _ => Iff.rfl
  | .cons first rest => by
      intro values v
      simp only [conditionMeanings]
      exact memConsCongr (conditionReordered first values) (conditionsReordered rest values v)
  | .swap c d cs => by
      intro values v
      simp only [conditionMeanings]
      exact memConsSwap
  | .trans first second => fun values v =>
      (conditionsReordered first values v).trans (conditionsReordered second values v)

end

/-! Evaluating gives the meaning. -/

section
variable {exprDraws : Expr → Bool}
  (steady : ∀ e, exprDraws e = false → ∀ doc vars, ∃ r, ∀ s, lang.expression e doc vars s = (r,s))
include steady

set_option linter.unusedSectionVars false in
mutual

theorem evaluateAnswers : (f : Filter Expr Schema) → drawsRandom exprDraws f = false → ∀ doc,
    Answers (evaluate lang vars f doc) (meaning lang start vars f doc)
  | .alwaysTrue, _, doc => by
      simp only [evaluate, meaning]
      exact answerAnswers true
  | .and fs, quiet, doc => by
      simp only [evaluate, meaning]
      exact settledAnswers (evaluateEachAnswers fs (by simpa only [drawsRandom] using quiet) doc)
  | .or fs, quiet, doc => by
      simp only [evaluate, meaning]
      exact settledAnswers (evaluateEachAnswers fs (by simpa only [drawsRandom] using quiet) doc)
  | .nor fs, quiet, doc => by
      simp only [evaluate, meaning]
      exact negatedAnswers (settledAnswers (evaluateEachAnswers fs (by simpa only [drawsRandom] using quiet) doc))
  | .field path cs, quiet, doc => by
      simp only [evaluate, meaning]
      exact settledAnswers (conditionsAnswers cs (by simpa only [drawsRandom] using quiet) (resolve doc path))
  | .expr e, quiet, doc => by
      simp only [evaluate, meaning]
      obtain ⟨r, draws⟩ := steady e (by simpa only [drawsRandom] using quiet) doc vars
      exact ⟨r,draws,fun _ => by rw [draws start]⟩
  | .jsonSchema schema, _, doc => by
      simp only [evaluate, meaning]
      exact answerAnswers _
  | .sampleRate rate, quiet, doc => by simp [drawsRandom] at quiet

theorem evaluateEachAnswers : (fs : List (Filter Expr Schema)) → anyDraws exprDraws fs = false → ∀ doc,
    List.Forall₂ Answers (evaluateEach lang vars fs doc) (meaningEach lang start vars fs doc)
  | [], _, doc => by
      simp only [evaluateEach, meaningEach]
      exact .nil
  | f :: fs, quiet, doc => by
      simp only [anyDraws, Bool.or_eq_false_iff] at quiet
      simp only [evaluateEach, meaningEach]
      exact .cons (evaluateAnswers f quiet.1 doc) (evaluateEachAnswers fs quiet.2 doc)

theorem conditionAnswers : (c : Condition Expr Schema) → conditionDraws exprDraws c = false → ∀ values,
    Answers (conditionMatches lang vars c values) (conditionMeaning lang start vars c values)
  | .elemMatch inner, quiet, values => by
      simp only [conditionDraws] at quiet
      simp only [conditionMatches, conditionMeaning]
      refine settledAnswers (forall₂Map fun v => ?_)
      cases v with
      | array items =>
          refine settledAnswers (forall₂Map fun item => ?_)
          cases item with
          | document d => exact evaluateAnswers inner quiet d
          | _ => exact scalarAnswers inner quiet _
      | _ => exact answerAnswers false
  | .not inner, quiet, values => by
      simp only [conditionDraws] at quiet
      simp only [conditionMatches, conditionMeaning]
      exact negatedAnswers (conditionAnswers inner quiet values)
  | .both a b, quiet, values => by
      simp only [conditionDraws, Bool.or_eq_false_iff] at quiet
      simp only [conditionMatches, conditionMeaning]
      exact settledAnswers (.cons (conditionAnswers a quiet.1 values) (.cons (conditionAnswers b quiet.2 values) .nil))
  | .alwaysTrue, _, values | .eq _, _, values | .ne _, _, values | .gt _, _, values | .gte _, _, values
  | .lt _, _, values | .lte _, _, values | .inList _, _, values | .nin _, _, values | .exist _, _, values
  | .type _, _, values | .regex _, _, values | .all _, _, values | .size _, _, values | .mod _ _, _, values
  | .bits _ _, _, values => by
      simp only [conditionMatches, conditionMeaning]
      exact answerAnswers _

theorem conditionsAnswers : (cs : List (Condition Expr Schema)) → conditionsDraw exprDraws cs = false → ∀ values,
    List.Forall₂ Answers (conditionsMatch lang vars cs values) (conditionMeanings lang start vars cs values)
  | [], _, values => by
      simp only [conditionsMatch, conditionMeanings]
      exact .nil
  | c :: cs, quiet, values => by
      simp only [conditionsDraw, Bool.or_eq_false_iff] at quiet
      simp only [conditionsMatch, conditionMeanings]
      exact .cons (conditionAnswers c quiet.1 values) (conditionsAnswers cs quiet.2 values)

theorem scalarAnswers : (f : Filter Expr Schema) → drawsRandom exprDraws f = false → ∀ scalar,
    Answers (matchesScalarAgainst lang vars f scalar) (scalarMeaning lang start vars f scalar)
  | .alwaysTrue, _, scalar => by
      simp only [matchesScalarAgainst, scalarMeaning]
      exact answerAnswers true
  | .and fs, quiet, scalar => by
      simp only [matchesScalarAgainst, scalarMeaning]
      exact settledAnswers (scalarEachAnswers fs (by simpa only [drawsRandom] using quiet) scalar)
  | .or fs, quiet, scalar => by
      simp only [matchesScalarAgainst, scalarMeaning]
      exact settledAnswers (scalarEachAnswers fs (by simpa only [drawsRandom] using quiet) scalar)
  | .nor fs, quiet, scalar => by
      simp only [matchesScalarAgainst, scalarMeaning]
      exact negatedAnswers (settledAnswers (scalarEachAnswers fs (by simpa only [drawsRandom] using quiet) scalar))
  | .field path cs, quiet, scalar => by
      simp only [matchesScalarAgainst, scalarMeaning]
      split
      · exact settledAnswers (conditionsAnswers cs (by simpa only [drawsRandom] using quiet) [scalar])
      · exact answerAnswers false
  | .expr _, _, scalar | .jsonSchema _, _, scalar | .sampleRate _, _, scalar => by
      simp only [matchesScalarAgainst, scalarMeaning]
      exact answerAnswers false

theorem scalarEachAnswers : (fs : List (Filter Expr Schema)) → anyDraws exprDraws fs = false → ∀ scalar,
    List.Forall₂ Answers (scalarEach lang vars fs scalar) (scalarMeanings lang start vars fs scalar)
  | [], _, scalar => by
      simp only [scalarEach, scalarMeanings]
      exact .nil
  | f :: fs, quiet, scalar => by
      simp only [anyDraws, Bool.or_eq_false_iff] at quiet
      simp only [scalarEach, scalarMeanings]
      exact .cons (scalarAnswers f quiet.1 scalar) (scalarEachAnswers fs quiet.2 scalar)

end

end

/-! The parser's order is one of them, and draws as much. -/

theorem eachOfPerm {fs gs : List (Filter Expr Schema)} (perm : fs.Perm gs) : ReorderedEach fs gs := by
  induction perm with
  | nil => exact .nil
  | cons f _ ih => exact .cons (.same f) ih
  | swap f g fs => exact .swap g f fs
  | trans _ _ first second => exact .trans first second

theorem conditionsOfPerm {cs ds : List (Condition Expr Schema)} (perm : cs.Perm ds) : ReorderedConditions cs ds := by
  induction perm with
  | nil => exact .nil
  | cons c _ ih => exact .cons (.same c) ih
  | swap c d cs => exact .swap d c cs
  | trans _ _ first second => exact .trans first second

theorem cheapFirstPerm {α : Type} (hasExpr : α → Bool) (items : List α) : items.Perm (cheapFirst hasExpr items) := by
  have parts := List.filter_append_perm (fun item => !hasExpr item) items
  simp only [Bool.not_not] at parts
  exact parts.symm

mutual

theorem arrangedReordered : (f : Filter Expr Schema) → Reordered f (arranged f)
  | .and fs => .and (.trans (arrangedEachReordered fs) (eachOfPerm (cheapFirstPerm _ _)))
  | .or fs => .or (.trans (arrangedEachReordered fs) (eachOfPerm (cheapFirstPerm _ _)))
  | .nor fs => .nor (.trans (arrangedEachReordered fs) (eachOfPerm (cheapFirstPerm _ _)))
  | .field path cs => .field path (.trans (arrangedConditionsReordered cs) (conditionsOfPerm (cheapFirstPerm _ _)))
  | .alwaysTrue => .same _
  | .expr _ => .same _
  | .jsonSchema _ => .same _
  | .sampleRate _ => .same _

theorem arrangedEachReordered : (fs : List (Filter Expr Schema)) → ReorderedEach fs (arrangedEach fs)
  | [] => .nil
  | f :: fs => .cons (arrangedReordered f) (arrangedEachReordered fs)

theorem arrangedConditionReordered : (c : Condition Expr Schema) → ReorderedCondition c (arrangedCondition c)
  | .elemMatch inner => .elemMatch (arrangedReordered inner)
  | .not inner => .not (arrangedConditionReordered inner)
  | .both a b => .both (arrangedConditionReordered a) (arrangedConditionReordered b)
  | .alwaysTrue | .eq _ | .ne _ | .gt _ | .gte _ | .lt _ | .lte _ | .inList _ | .nin _ | .exist _ | .type _ | .regex _
  | .all _ | .size _ | .mod _ _ | .bits _ _ => .same _

theorem arrangedConditionsReordered : (cs : List (Condition Expr Schema)) → ReorderedConditions cs (arrangedConditions cs)
  | [] => .nil
  | c :: cs => .cons (arrangedConditionReordered c) (arrangedConditionsReordered cs)

end

mutual

theorem drawsReordered {exprDraws : Expr → Bool} {f g : Filter Expr Schema} : Reordered f g →
    drawsRandom exprDraws f = drawsRandom exprDraws g
  | .same f => rfl
  | .trans first second => (drawsReordered first).trans (drawsReordered second)
  | .and each => by simpa only [drawsRandom] using eachDrawsReordered each
  | .or each => by simpa only [drawsRandom] using eachDrawsReordered each
  | .nor each => by simpa only [drawsRandom] using eachDrawsReordered each
  | .field path each => by simpa only [drawsRandom] using conditionsDrawReordered each

theorem eachDrawsReordered {exprDraws : Expr → Bool} {fs gs : List (Filter Expr Schema)} : ReorderedEach fs gs →
    anyDraws exprDraws fs = anyDraws exprDraws gs
  | .nil => rfl
  | .cons first rest => by simp only [anyDraws, drawsReordered first, eachDrawsReordered rest]
  | .swap f g fs => by simp only [anyDraws, Bool.or_left_comm]
  | .trans first second => (eachDrawsReordered first).trans (eachDrawsReordered second)

theorem conditionDrawsReordered {exprDraws : Expr → Bool} {c d : Condition Expr Schema} : ReorderedCondition c d →
    conditionDraws exprDraws c = conditionDraws exprDraws d
  | .same c => rfl
  | .trans first second => (conditionDrawsReordered first).trans (conditionDrawsReordered second)
  | .elemMatch inner => by simpa only [conditionDraws] using drawsReordered inner
  | .not inner => by simpa only [conditionDraws] using conditionDrawsReordered inner
  | .both first second => by
      simp only [conditionDraws, conditionDrawsReordered first, conditionDrawsReordered second]
  | .swap c d => by simp only [conditionDraws, Bool.or_comm]
  | .rotate c d e => by simp only [conditionDraws, Bool.or_right_comm]

theorem conditionsDrawReordered {exprDraws : Expr → Bool} {cs ds : List (Condition Expr Schema)} :
    ReorderedConditions cs ds → conditionsDraw exprDraws cs = conditionsDraw exprDraws ds
  | .nil => rfl
  | .cons first rest => by
      simp only [conditionsDraw, conditionDrawsReordered first, conditionsDrawReordered rest]
  | .swap c d cs => by simp only [conditionsDraw, Bool.or_left_comm]
  | .trans first second => (conditionsDrawReordered first).trans (conditionsDrawReordered second)

end

/- Two ways of writing a filter that draws no random number: unless one of the evaluations is refused, the
verdict is what the filter means, and it is the same. -/
theorem verdictOfWriting (lang : Language Expr Schema σ) (exprDraws : Expr → Bool)
    (steady : ∀ e, exprDraws e = false → ∀ doc vars, ∃ r, ∀ s, lang.expression e doc vars s = (r,s))
    {f g : Filter Expr Schema} (same : Reordered f g) (quiet : drawsRandom exprDraws f = false)
    (vars : Bindings) (doc : Document) (s t : σ) :
    (¬Refused (evaluate lang vars (arranged f) doc s).1 →
      verdict (evaluate lang vars (arranged f) doc s).1 = meaning lang s vars f doc) ∧
    (¬Refused (evaluate lang vars (arranged f) doc s).1 → ¬Refused (evaluate lang vars (arranged g) doc t).1 →
      verdict (evaluate lang vars (arranged f) doc s).1 = verdict (evaluate lang vars (arranged g) doc t).1) := by
  have first : Reordered f (arranged f) := arrangedReordered f
  have second : Reordered f (arranged g) := .trans same (arrangedReordered g)
  have means : ∀ {h : Filter Expr Schema}, Reordered f h → ∀ u, ¬Refused (evaluate lang vars h doc u).1 →
      verdict (evaluate lang vars h doc u).1 = meaning lang s vars f doc := by
    intro h order u unrefused
    have quietly : drawsRandom exprDraws h = false := by rw [←drawsReordered order, quiet]
    obtain ⟨r, draws, tells⟩ := @evaluateAnswers Expr Schema σ lang s vars exprDraws steady h quietly doc
    rw [draws u] at unrefused ⊢
    rw [tells unrefused, (meaningReordered order).1 doc]
  refine ⟨means first s,fun unrefused unrefused' => ?_⟩
  rw [means first s unrefused, means second t unrefused']

end

end

/- An expression that fails on every document, and draws of one half and nine tenths. -/
def failing : Language Unit Unit Nat where
  expression _ _ _ s := (.error (.invalidQuery "$add only supports numeric or date types"),s)
  isValid _ _ := true
  isMatch _ _ := false
  randomDraw rate s := (decide ((if s = 0 then 0x3FE0000000000000 else 0x3FECCCCCCCCCCCCD : UInt64) < rate),s + 1)

theorem verdictOfWritingFalse :
    let f : Filter Unit Unit := .and [.expr (),.field "a" [.eq (.int32 1)]]
    let g : Filter Unit Unit := .and [.field "a" [.eq (.int32 1)],.expr ()]
    let doc : Document := [("a",.int32 2)]
    (¬Refused (evaluate failing [] (arranged f) doc 0).1 →
      verdict (evaluate failing [] (arranged f) doc 0).1 = meaning failing 0 [] f doc) ∧
    (¬Refused (evaluate failing [] (arranged f) doc 0).1 → ¬Refused (evaluate failing [] (arranged g) doc 0).1 →
      verdict (evaluate failing [] (arranged f) doc 0).1 = verdict (evaluate failing [] (arranged g) doc 0).1) :=
  verdictOfWriting failing (fun _ => false) (fun _ _ _ _ => ⟨_,fun _ => rfl⟩) (.and (.swap _ _ _)) rfl [] _ 0 0

/- Two samples draw in the order they are met. -/
theorem samplesDrawInOrder : ¬∀ (f g : Filter Unit Unit), Reordered f g → ∀ (vars : Bindings) (doc : Document) (s : Nat),
    ¬Refused (evaluate failing vars (arranged f) doc s).1 → ¬Refused (evaluate failing vars (arranged g) doc s).1 →
      verdict (evaluate failing vars (arranged f) doc s).1 = verdict (evaluate failing vars (arranged g) doc s).1 := by
  intro claim
  have same := claim (.or [.sampleRate 0x3FD3333333333333,.sampleRate 0x3FE6666666666666])
    (.or [.sampleRate 0x3FE6666666666666,.sampleRate 0x3FD3333333333333]) (.or (.swap _ _ _)) [] [] 0 id id
  exact absurd same (by decide)

end Kimmy.Query
