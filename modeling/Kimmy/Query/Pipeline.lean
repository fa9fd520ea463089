import Kimmy.Merge.Types
import Kimmy.Query.Verdict

/-!
Aggregation pipelines (`aggregate.rs`): the stages, what running them one after another gives, and the two rewrites
made before they run. Every run of `$skip` and `$limit` becomes one window, moved ahead of the stages it passes; the
`$match` stages a pipeline begins with become the filter of its source.
-/
namespace Kimmy.Query.Pipeline

/- `usize`. -/
abbrev Usize := Fin (2 ^ 64)

def Usize.saturatingAdd (a b : Usize) : Usize := ⟨min (a.val + b.val) (2 ^ 64 - 1),by omega⟩

section
variable (Expr Schema Spec : Type)

/- The stages a window passes have constructors of their own; the others are `other`. -/
inductive Stage where
  | matching (filter : Filter Expr Schema)
  | project (spec : Spec)
  | addFields (spec : Spec)
  | replaceRoot (spec : Spec)
  | lookup (spec : Spec)
  | limit (n : Usize)
  | skip (n : Usize)
  | other (spec : Spec)

end

section
variable {Expr Schema Spec : Type}

namespace Stage

def isMatch : Stage Expr Schema Spec → Bool
  | .matching _ => true
  | _ => false

def isWindow : Stage Expr Schema Spec → Bool
  | .limit _ | .skip _ => true
  | _ => false

end Stage

/-! Running the stages. -/

/- What a pipeline borrows. The filters' language draws from no state, so a clause is a function of the document; the
first four stages reshape a document on its own, a join with the collection it reads; the others see their whole input. -/
structure Executor (Expr Schema Spec : Type) where
  language : Language Expr Schema Unit
  vars : Bindings
  projectDoc : Spec → Document → Except Error Document
  addFieldsDoc : Spec → Document → Except Error Document
  replaceRootDoc : Spec → Document → Except Error Document
  lookupDoc : Spec → Document → Except Error Document
  apply : Spec → List Document → Except Error (List Document)

variable (exec : Executor Expr Schema Spec)

def matchesWith (filter : Filter Expr Schema) (doc : Document) : Except Error Bool :=
  (evaluate exec.language exec.vars filter doc ()).1

/- The documents a test keeps. -/
def keepBy (test : Document → Except Error Bool) : List Document → Except Error (List Document)
  | [] => .ok []
  | doc :: rest => do
      let keeps ← test doc
      let others ← keepBy test rest
      .ok (if keeps then doc :: others else others)

def keepMatching (filter : Filter Expr Schema) : List Document → Except Error (List Document) :=
  keepBy (matchesWith exec filter)

def Stage.run : Stage Expr Schema Spec → List Document → Except Error (List Document)
  | .matching filter, docs => keepMatching exec filter docs
  | .project spec, docs => docs.mapM (exec.projectDoc spec)
  | .addFields spec, docs => docs.mapM (exec.addFieldsDoc spec)
  | .replaceRoot spec, docs => docs.mapM (exec.replaceRootDoc spec)
  | .lookup spec, docs => docs.mapM (exec.lookupDoc spec)
  | .limit n, docs => .ok (docs.take n.val)
  | .skip n, docs => .ok (docs.drop n.val)
  | .other spec, docs => exec.apply spec docs

/- Stage by stage. No vector holds more than a `usize` counts. -/
def runStages : List (Stage Expr Schema Spec) → List Document → Except Error (List Document)
  | [], docs => .ok docs
  | stage :: rest, docs =>
      if docs.length < 2 ^ 64 then (stage.run exec docs).bind (runStages rest)
      else .error (.internal "capacity overflow")

/-! Windows. -/

/- `lets_a_window_pass`. A `$match` of nothing is passed unless only `$match` stages stand before it: those are the
filter of the source. -/
def letsAWindowPass (stages : List (Stage Expr Schema Spec)) (place : Nat) : Bool :=
  match stages[place]? with
  | some (.project _) | some (.addFields _) | some (.replaceRoot _) | some (.lookup _) => true
  | some (.matching .alwaysTrue) => (stages.take place).any fun stage => !stage.isMatch
  | _ => false

/- The first `skip` documents dropped, then `limit` taken, or all the rest. -/
structure Window where
  skip : Usize
  limit : Option Usize

namespace Window

def default : Window := ⟨0,none⟩

/- A window that takes nothing is a `$limit` of 0 alone. -/
def stages (window : Window) : List (Stage Expr Schema Spec) :=
  let takesNothing := window.limit = some 0
  (if 0 < window.skip ∧ ¬takesNothing then [.skip window.skip] else []) ++
    match window.limit with
    | none => []
    | some n => [.limit n]

end Window

end

end Kimmy.Query.Pipeline
