import Kimmy.Query.Filter

/-!
Expressions (`expr.rs`), as far as a clause is told apart by what it reads: fields, variables, literals, `$eq`, and the
operators, which are any functions of what their operands come to. `$let`, `$map`, `$filter` and `$reduce` bind names
around a body. A value may be missing, and it may fail.
-/
namespace Kimmy.Query
open CanonicalCmp

/- What an expression comes to; no value is a missing one. -/
abbrev Outcome := Except Error (Option Bson)

/- Read where a value is wanted, a missing one is null. -/
def Outcome.value (outcome : Outcome) : Except Error Bson := outcome.map fun found => found.getD .null

/- What the operators make of their operands, evaluated in place or not: evaluating is pure. A binding operator also has
its body, which it may evaluate under any values of its names. -/
structure Operators (Op : Type) where
  apply : Op → List Outcome → Outcome
  bind : Op → List Outcome → (List (Except Error Bson) → Outcome) → Outcome

inductive Expr (Op : Type) where
  | field (path : String)
  | var (name : String) (path : Option String)
  | literal (value : Bson)
  | eq (a b : Expr Op)
  | op (o : Op) (args : List (Expr Op))
  /- `$getField` with no input. -/
  | getField (field : String)
  | binder (o : Op) (operands : List (Expr Op)) (names : List String) (body : Expr Op)

def systemVariables : List String := ["ROOT","CURRENT"]

/-! Paths. -/

/- A path that crosses an array goes on in each document of it. -/
def fanOut (items : List Bson) (rest : Document → Option Bson) : List Bson := items.filterMap fun item => match item with
  | .document doc => rest doc
  | _ => none

def fieldPathSegments : Document → List String → Option Bson
  | _, [] => none
  | doc, head :: rest => do
      let value ← doc.get head
      if rest.isEmpty then some value else match value with
        | .document inner => fieldPathSegments inner rest
        | .array items => some (.array (fanOut items fun doc => fieldPathSegments doc rest))
        | _ => none

def fieldPath (doc : Document) (path : String) : Option Bson := fieldPathSegments doc (segments path)

def valuePath (value : Bson) (path : String) : Option Bson :=
  match value with
  | .document doc => fieldPathSegments doc (segments path)
  | .array items => some (.array (fanOut items fun doc => fieldPathSegments doc (segments path)))
  | _ => none

/-! Evaluating. -/

/- The names in scope, the innermost first. -/
abbrev Scope := List (String × Except Error Bson)

def Scope.get (scope : Scope) (name : String) : Option (Except Error Bson) :=
  (scope.find? fun bound => bound.1 == name).map Prod.snd

/- A later name of one frame shadows an earlier one. -/
def Scope.nested (scope : Scope) (names : List String) (values : List (Except Error Bson)) : Scope :=
  (names.zip values).reverse ++ scope

def Scope.withBindings (vars : Bindings) : Scope := (vars.map fun bound => (bound.1,.ok bound.2)).reverse

def evalVariable (name : String) (path : Option String) (scope : Scope) (root : Document) : Outcome :=
  if name = "REMOVE" then .ok none
  else if systemVariables.contains name then
    .ok (match path with
      | none => some (.document root)
      | some p => fieldPath root p)
  else match scope.get name with
    | none => .error (.internal s!"variable $${name} is not bound")
    | some value => value.map fun v => match path with
        | none => some v
        | some p => valuePath v p

section
variable {Op : Type} (ops : Operators Op)

mutual

def eval (scope : Scope) (root : Document) : Expr Op → Outcome
  | .field path => .ok (fieldPath root path)
  | .var name path => evalVariable name path scope root
  | .literal value => .ok (some value)
  | .eq a b => do
      let x ← (eval scope root a).value
      let y ← (eval scope root b).value
      .ok (some (.boolean (canonicalCmp x y == .eq)))
  | .op o args => ops.apply o (evalEach scope root args)
  | .getField field => .ok (root.get field)
  | .binder o operands names body =>
      ops.bind o (evalEach scope root operands) fun values => eval (scope.nested names values) root body

def evalEach (scope : Scope) (root : Document) : List (Expr Op) → List Outcome
  | [] => []
  | e :: rest => eval scope root e :: evalEach scope root rest

end

end

def truthy : Bson → Bool
  | .boolean b => b
  | .null | .undefined => false
  | .int32 n => n != 0
  | .int64 n => n != 0
  | .double bits => match Exact.double bits with
      | .finite x => x != 0
      | _ => true
  | .decimal128 word => match Decimal.decode word with
      | .zero => false
      | _ => true
  | _ => true

/-! What an expression reads. -/

section
variable {Op : Type}

mutual

def Expr.readsDocument : Expr Op → Bool
  | .field _ => true
  | .var name _ => systemVariables.contains name
  | .literal _ => false
  | .eq a b => a.readsDocument || b.readsDocument
  | .op _ args => anyReadsDocument args
  | .getField _ => true
  | .binder _ operands _ body => anyReadsDocument operands || body.readsDocument

def anyReadsDocument : List (Expr Op) → Bool
  | [] => false
  | e :: rest => e.readsDocument || anyReadsDocument rest

end

mutual

/- A name that a binder around it rebinds still counts. -/
def Expr.readsVariable (names : List String) : Expr Op → Bool
  | .field _ => false
  | .var name _ => names.contains name
  | .literal _ => false
  | .eq a b => a.readsVariable names || b.readsVariable names
  | .op _ args => anyReadsVariable names args
  | .getField _ => names.any fun n => n == "CURRENT" || n == "ROOT"
  | .binder _ operands _ body => anyReadsVariable names operands || body.readsVariable names

def anyReadsVariable (names : List String) : List (Expr Op) → Bool
  | [] => false
  | e :: rest => e.readsVariable names || anyReadsVariable names rest

end

end

/-! Reading nothing else. -/

section
variable {Op : Type} {ops : Operators Op}

mutual

theorem evalDocument (scope : Scope) (root root' : Document) : (e : Expr Op) → e.readsDocument = false →
    eval ops scope root e = eval ops scope root' e
  | .field _, unread => by cases unread
  | .var name path, unread => by
      have user : systemVariables.contains name = false := by simpa only [Expr.readsDocument] using unread
      simp only [eval, evalVariable, user]
      rfl
  | .literal _, _ => by simp only [eval]
  | .eq a b, unread => by
      obtain ⟨first,second⟩ := Bool.or_eq_false_iff.mp (by simpa only [Expr.readsDocument] using unread)
      simp only [eval]
      rw [evalDocument scope root root' a first, evalDocument scope root root' b second]
  | .op o args, unread => by
      simp only [eval]
      rw [evalEachDocument scope root root' args (by simpa only [Expr.readsDocument] using unread)]
  | .getField _, unread => by cases unread
  | .binder o operands names body, unread => by
      obtain ⟨first,second⟩ := Bool.or_eq_false_iff.mp (by simpa only [Expr.readsDocument] using unread)
      simp only [eval]
      rw [evalEachDocument scope root root' operands first]
      congr 1
      funext values
      exact evalDocument _ root root' body second

theorem evalEachDocument (scope : Scope) (root root' : Document) : (es : List (Expr Op)) → anyReadsDocument es = false →
    evalEach ops scope root es = evalEach ops scope root' es
  | [], _ => by simp only [evalEach]
  | e :: rest, unread => by
      obtain ⟨first,second⟩ := Bool.or_eq_false_iff.mp (by simpa only [anyReadsDocument] using unread)
      simp only [evalEach]
      rw [evalDocument scope root root' e first, evalEachDocument scope root root' rest second]

end

/- Two scopes that differ in some names alone. -/
def Apart (names : List String) (scope scope' : Scope) : Prop := ∀ name, name ∉ names → scope.get name = scope'.get name

theorem Apart.nested {names : List String} {scope scope' : Scope} (apart : Apart names scope scope') (bound : List String)
    (values : List (Except Error Bson)) : Apart names (scope.nested bound values) (scope'.nested bound values) := by
  intro name outside
  unfold Scope.get Scope.nested
  rw [List.find?_append, List.find?_append]
  cases (bound.zip values).reverse.find? fun bound => bound.1 == name with
  | some _ => rfl
  | none => exact apart name outside

mutual

theorem evalVariables {names : List String} (root : Document) : (e : Expr Op) → e.readsVariable names = false →
    ∀ {scope scope' : Scope}, Apart names scope scope' → eval ops scope root e = eval ops scope' root e
  | .field _, _, _, _, _ => by simp only [eval]
  | .var name path, unread, scope, scope', apart => by
      have outside : name ∉ names := by simpa [Expr.readsVariable] using unread
      simp only [eval, evalVariable]
      rw [apart name outside]
  | .literal _, _, _, _, _ => by simp only [eval]
  | .eq a b, unread, _, _, apart => by
      obtain ⟨first,second⟩ := Bool.or_eq_false_iff.mp (by simpa only [Expr.readsVariable] using unread)
      simp only [eval]
      rw [evalVariables root a first apart, evalVariables root b second apart]
  | .op o args, unread, _, _, apart => by
      simp only [eval]
      rw [evalEachVariables root args (by simpa only [Expr.readsVariable] using unread) apart]
  | .getField _, _, _, _, _ => by simp only [eval]
  | .binder o operands bound body, unread, _, _, apart => by
      obtain ⟨first,second⟩ := Bool.or_eq_false_iff.mp (by simpa only [Expr.readsVariable] using unread)
      simp only [eval]
      rw [evalEachVariables root operands first apart]
      congr 1
      funext values
      exact evalVariables root body second (apart.nested bound values)

theorem evalEachVariables {names : List String} (root : Document) : (es : List (Expr Op)) → anyReadsVariable names es = false →
    ∀ {scope scope' : Scope}, Apart names scope scope' → evalEach ops scope root es = evalEach ops scope' root es
  | [], _, _, _, _ => by simp only [evalEach]
  | e :: rest, unread, _, _, apart => by
      obtain ⟨first,second⟩ := Bool.or_eq_false_iff.mp (by simpa only [anyReadsVariable] using unread)
      simp only [evalEach]
      rw [evalVariables root e first apart, evalEachVariables root rest second apart]

end

end

end Kimmy.Query
