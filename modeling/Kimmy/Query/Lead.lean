import Kimmy.PathWrite
import Kimmy.Query.Expression
import Kimmy.Query.GraphLookup

/-!
The pipeline form of `$lookup` (`exec.rs`, `aggregate.rs`). The leading `$match` of the sub-pipeline is taken apart into the
clauses that read a variable and those that read none. The latter are applied once, and an equality of the former is
answered from a hash table; either attempt is abandoned at the first error, and the nested loop answers.
-/
namespace Kimmy.Query.Lookup
open ByteOrder (Bytes)
open Graph (encodeKey)

/- What the filters of a sub-pipeline borrow. No clause draws a random number, so the generator keeps no state. -/
structure Matchers (Op Schema : Type) where
  ops : Operators Op
  isValid : Schema → Document → Bool
  isMatch : RegexPattern → String → Bool
  draw : UInt64 → Bool
  display : Bson → String

section
variable {Op Schema : Type}

def Matchers.language (m : Matchers Op Schema) : Language (Expr Op) Schema Unit where
  expression := fun e doc vars s => ((eval m.ops (.withBindings vars) doc e).value.map truthy,s)
  isValid := m.isValid
  isMatch := m.isMatch
  randomDraw := fun rate s => (m.draw rate,s)

def truth (m : Matchers Op Schema) (filter : Filter (Expr Op) Schema) (doc : Document) (vars : Bindings) : Except Error Bool :=
  (evaluate m.language vars filter doc ()).1

/- An error about a value is told with the document it was met in. -/
def unevaluable (m : Matchers Op Schema) (doc : Document) : Error → Error
  | .invalidQuery reason =>
      let place := match doc.get idField with
        | some id => " for the document with _id " ++ m.display id
        | none => ""
      .invalidQuery ("$expr cannot be evaluated" ++ place ++ ": " ++ reason)
  | e => e

def matchesWith (m : Matchers Op Schema) (filter : Filter (Expr Op) Schema) (doc : Document) (vars : Bindings) :
    Except Error Bool := (truth m filter doc vars).mapError (unevaluable m doc)

/-! What a filter reads. -/

mutual

def readsVariable (names : List String) : Filter (Expr Op) Schema → Bool
  | .alwaysTrue => false
  | .and branches | .or branches | .nor branches => anyReads names branches
  | .field _ conditions => anyConditionReads names conditions
  | .expr e => e.readsVariable names
  | .jsonSchema _ | .sampleRate _ => false

def anyReads (names : List String) : List (Filter (Expr Op) Schema) → Bool
  | [] => false
  | f :: rest => readsVariable names f || anyReads names rest

def conditionReads (names : List String) : Condition (Expr Op) Schema → Bool
  | .elemMatch inner => readsVariable names inner
  | .not inner => conditionReads names inner
  | .both a b => conditionReads names a || conditionReads names b
  | _ => false

def anyConditionReads (names : List String) : List (Condition (Expr Op) Schema) → Bool
  | [] => false
  | c :: rest => conditionReads names c || anyConditionReads names rest

end

mutual

/- Of the expressions none draws. -/
def drawsRandom : Filter (Expr Op) Schema → Bool
  | .sampleRate _ => true
  | .alwaysTrue | .jsonSchema _ | .expr _ => false
  | .and branches | .or branches | .nor branches => anyDraws branches
  | .field _ conditions => anyConditionDraws conditions

def anyDraws : List (Filter (Expr Op) Schema) → Bool
  | [] => false
  | f :: rest => drawsRandom f || anyDraws rest

def conditionDraws : Condition (Expr Op) Schema → Bool
  | .elemMatch inner => drawsRandom inner
  | .not inner => conditionDraws inner
  | .both a b => conditionDraws a || conditionDraws b
  | _ => false

def anyConditionDraws : List (Condition (Expr Op) Schema) → Bool
  | [] => false
  | c :: rest => conditionDraws c || anyConditionDraws rest

end

/-! Taking the leading filter apart. -/

/- The two sides of an `$eq`: `foreign` reads the document and no variable, `own` does not read the document. -/
structure JoinKey (Op : Type) where
  foreign : Expr Op
  own : Expr Op
  localFirst : Bool

structure Lead (Op Schema : Type) where
  independent : Filter (Expr Op) Schema
  variable' : Filter (Expr Op) Schema
  key : Option (JoinKey Op)
  residual : Filter (Expr Op) Schema

mutual

/- Through conjunctions alone, in the order evaluated. -/
def flatten : Filter (Expr Op) Schema → List (Filter (Expr Op) Schema)
  | .alwaysTrue => []
  | .and branches => flattenEach branches
  | .or branches => [.or branches]
  | .nor branches => [.nor branches]
  | .field path conditions => [.field path conditions]
  | .expr e => [.expr e]
  | .jsonSchema schema => [.jsonSchema schema]
  | .sampleRate rate => [.sampleRate rate]

def flattenEach : List (Filter (Expr Op) Schema) → List (Filter (Expr Op) Schema)
  | [] => []
  | f :: rest => flatten f ++ flattenEach rest

end

def foreignSide (names : List String) (x y : Expr Op) : Bool :=
  x.readsDocument && !x.readsVariable names && !y.readsDocument

def keyOf (names : List String) : Filter (Expr Op) Schema → Option (JoinKey Op)
  | .expr (.eq a b) =>
      if foreignSide names a b then some ⟨a,b,false⟩
      else if foreignSide names b a then some ⟨b,a,true⟩
      else none
  | _ => none

def all (leaves : List (Filter (Expr Op) Schema)) : Filter (Expr Op) Schema :=
  if leaves.isEmpty then .alwaysTrue else .and leaves

/- The leaves decided for each input document. -/
def varies (names : List String) (leaf : Filter (Expr Op) Schema) : Bool := readsVariable names leaf || drawsRandom leaf

def analyze (names : List String) (filter : Filter (Expr Op) Schema) : Option (Lead Op Schema) :=
  let leaves := flatten filter
  let varying := leaves.filter (varies names)
  let independent := leaves.filter fun leaf => !varies names leaf
  if varying.isEmpty then none
  else
    let keyAt := varying.findIdx? fun leaf => (keyOf names leaf).isSome
    let key := keyAt.bind fun place => varying[place]?.bind (keyOf names)
    let residual := match keyAt with
      | some place => varying.eraseIdx place
      | none => varying
    some ⟨all independent,all varying,key,all residual⟩

/-! Joining. -/

/- The documents that match, up to the first that cannot be decided. -/
def kept (decides : Document → Except Error Bool) : List Document → Except Error (List Document)
  | [] => .ok []
  | doc :: rest => do
      let held ← decides doc
      let more ← kept decides rest
      .ok (if held then doc :: more else more)

inductive JoinTable where
  | notBuilt
  | built (table : SortedMap Bytes (List Nat))
  | declined

structure LeadPlan where
  hoisted : Bool
  table : JoinTable

variable (m : Matchers Op Schema)

def hoistIndependent (independent : Filter (Expr Op) Schema) (foreign : List Document) : Option (Option (List Document)) :=
  match independent with
  | .alwaysTrue => some none
  | independent => (kept (fun doc => matchesWith m independent doc []) foreign).toOption.map some

def fileFrom (key : JoinKey Op) (table : SortedMap Bytes (List Nat)) : Nat → List Document → Option (SortedMap Bytes (List Nat))
  | _, [] => some table
  | place, doc :: rest => do
      let value ← (eval m.ops [] doc key.foreign).value.toOption
      let bytes ← encodeKey value
      fileFrom key (table.insert bytes ((table.get bytes).getD [] ++ [place])) (place + 1) rest

def buildTable (key : JoinKey Op) (base : List Document) : JoinTable :=
  match fileFrom m key .empty 0 base with
  | some table => .built table
  | none => .declined

def probe (table : SortedMap Bytes (List Nat)) (key : JoinKey Op) (residual : Filter (Expr Op) Schema) (base : List Document)
    (vars : Bindings) : Option (List Document) := do
  let value ← (eval m.ops (.withBindings vars) [] key.own).value.toOption
  let bytes ← encodeKey value
  (kept (fun doc => matchesWith m residual doc vars) (((table.get bytes).getD []).filterMap (base[·]?))).toOption

/- What the table answers, and the table afterwards. The first input document never asks it. -/
def answered (plan : LeadPlan) (n : Nat) (lead : Lead Op Schema) (base : List Document) (vars : Bindings) :
    JoinTable × Option (List Document) :=
  match lead.key with
  | none => (plan.table,none)
  | some key =>
      if 1 ≤ n ∧ plan.hoisted ∧ !base.isEmpty then
        let table := match plan.table with
          | .notBuilt => buildTable m key base
          | table => table
        (table,match table with
          | .built table => probe m table key lead.residual base vars
          | _ => none)
      else (plan.table,none)

def matchedForInput (plan : LeadPlan) (n : Nat) (whole : Filter (Expr Op) Schema) (lead : Lead Op Schema) (base : List Document)
    (vars : Bindings) : LeadPlan × Except Error (List Document) :=
  let (table,found) := answered m plan n lead base vars
  ({ plan with table },match found with
    | some found => .ok found
    | none => kept (fun doc => matchesWith m (if plan.hoisted then lead.variable' else whole) doc vars) base)

def bindLet (letVars : List (String × Expr Op)) (doc : Document) (outer : Bindings) : Except Error Bindings :=
  letVars.mapM fun bound => (eval m.ops (.withBindings outer) doc bound.2).value.map fun value => (bound.1,value)

/- The sub-pipeline after its leading `$match`, under the variables. -/
abbrev Rest := Bindings → List Document → Except Error (List Document)

/- The stage: its variables, the leading filter, the stages after it, and the field the documents are attached under. -/
structure PipelineLookup (Op Schema : Type) where
  letVars : List (String × Expr Op)
  outer : Bindings
  first : Filter (Expr Op) Schema
  rest : Rest
  asField : String

/- The names in scope of the sub-pipeline. -/
def PipelineLookup.inScope (stage : PipelineLookup Op Schema) : List String :=
  stage.outer.map Prod.fst ++ stage.letVars.map Prod.fst

/- The variables of one input document; a name of the stage shadows an outer one. -/
def PipelineLookup.vars (stage : PipelineLookup Op Schema) (doc : Document) : Except Error Bindings :=
  (bindLet m stage.letVars doc stage.outer).map fun bound => stage.outer ++ bound

def PipelineLookup.attach (stage : PipelineLookup Op Schema) (doc : Document) (joined : List Document) : Document :=
  doc.insert stage.asField (.array (joined.map .document))

/- The loop when the leading filter has been applied. -/
def joinCopies (stage : PipelineLookup Op Schema) (base : List Document) : List Document → Except Error (List Document)
  | [] => .ok []
  | doc :: input => do
      let vars ← stage.vars m doc
      let joined ← stage.rest vars base
      let out ← joinCopies stage base input
      .ok (stage.attach doc joined :: out)

/- The loop when it is decided for each input document. -/
def joinMatched (stage : PipelineLookup Op Schema) (lead : Lead Op Schema) (base : List Document) :
    LeadPlan → Nat → List Document → Except Error (List Document)
  | _, _, [] => .ok []
  | plan, n, doc :: input => do
      let vars ← stage.vars m doc
      let (plan,found) := matchedForInput m plan n stage.first lead base vars
      let matched ← found
      let joined ← stage.rest vars matched
      let out ← joinMatched stage lead base plan (n + 1) input
      .ok (stage.attach doc joined :: out)

def lookupPipeline (stage : PipelineLookup Op Schema) (foreign input : List Document) : Except Error (List Document) :=
  if input.isEmpty then .ok input
  else match analyze stage.inScope stage.first with
    | none => do
        let base ← kept (fun doc => matchesWith m stage.first doc []) foreign
        joinCopies m stage base input
    | some lead => match hoistIndependent m lead.independent foreign with
        | some found => joinMatched m stage lead (found.getD foreign) ⟨true,.notBuilt⟩ 0 input
        | none => joinMatched m stage lead foreign ⟨false,.notBuilt⟩ 0 input

end

end Kimmy.Query.Lookup
