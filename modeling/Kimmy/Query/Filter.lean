import Kimmy.DocId

/-!
Filters (`filter.rs`): what a filter decides about a document. A clause may fail, and a failure that is
about one value waits for another clause to decide. The expression language, `$jsonSchema` and the
regular expressions are parameters, and so is the generator behind every random draw: its state is
threaded through the evaluation.
-/
namespace Kimmy.Query
open CanonicalCmp

/-! Errors an evaluation can meet. -/

inductive Error where
  | invalidQuery (why : String)
  | limit (why : String)
  | valueTooLarge
  | memoryBusy
  | deadlineExceeded
  | internal (why : String)
  | other (why : String)
  deriving DecidableEq

/- An error about one value may wait for another clause; one about the request may not. -/
def Error.isDeferrable : Error → Bool
  | .invalidQuery _ => true
  | _ => false

/- What evaluating gives, and the generator afterwards. -/
abbrev Eval (σ α : Type) := σ → Except Error α × σ

/- The first item that answers `decider` decides; a deferrable error waits for one. -/
def decideFrom {σ : Type} (decider : Bool) (undecided : Option Error) : List (Eval σ Bool) → Eval σ Bool
  | [], s => (match undecided with
      | none => .ok !decider
      | some e => .error e,s)
  | item :: rest, s => match item s with
      | (.ok v,t) => if v = decider then (.ok decider,t) else decideFrom decider undecided rest t
      | (.error e,t) =>
          if e.isDeferrable then decideFrom decider (undecided.or (some e)) rest t else (.error e,t)

def allOf {σ : Type} (items : List (Eval σ Bool)) : Eval σ Bool := decideFrom false none items

def anyOf {σ : Type} (items : List (Eval σ Bool)) : Eval σ Bool := decideFrom true none items

def negated {σ : Type} (item : Eval σ Bool) : Eval σ Bool := fun s => match item s with
  | (.ok v,t) => (.ok !v,t)
  | (.error e,t) => (.error e,t)

def answer {σ : Type} (v : Bool) : Eval σ Bool := fun s => (.ok v,s)

/-! Filters. -/

inductive BitTest where
  | allSet
  | anySet
  | allClear
  | anyClear

def BitTest.holds (test : BitTest) (value mask : UInt64) : Bool :=
  match test with
  | .allSet => value &&& mask == mask
  | .anySet => value &&& mask != 0
  | .allClear => value &&& mask == 0
  | .anyClear => value &&& mask != mask

/- A compiled pattern, with the text it was compiled from. -/
structure RegexPattern where
  pattern : String
  options : String

section
variable (Expr Schema : Type)

mutual

/- Branches and conditions stand in the order they are evaluated in. -/
inductive Filter where
  | alwaysTrue
  | and (branches : List Filter)
  | or (branches : List Filter)
  | nor (branches : List Filter)
  | field (path : String) (conditions : List Condition)
  | expr (e : Expr)
  | jsonSchema (schema : Schema)
  | sampleRate (rate : UInt64)

inductive Condition where
  | alwaysTrue
  | both (a b : Condition)
  | eq (value : Bson)
  | ne (value : Bson)
  | gt (bound : Bson)
  | gte (bound : Bson)
  | lt (bound : Bson)
  | lte (bound : Bson)
  | inList (values : List Bson)
  | nin (values : List Bson)
  | exist (want : Bool)
  | type (names : List String)
  | regex (re : RegexPattern)
  | all (required : List Bson)
  | elemMatch (inner : Filter)
  | size (want : Int64)
  | mod (divisor remainder : Int64)
  | bits (test : BitTest) (mask : UInt64)
  | not (inner : Condition)

end

end

/-! One value. -/

def typeNameOf : Bson → String
  | .double _ => "double"
  | .string _ => "string"
  | .document _ => "object"
  | .array _ => "array"
  | .binary _ _ => "binData"
  | .undefined => "undefined"
  | .objectId _ => "objectId"
  | .boolean _ => "bool"
  | .dateTime _ => "date"
  | .null => "null"
  | .regularExpression _ _ => "regex"
  | .javaScriptCode _ | .javaScriptCodeWithScope _ _ => "javascript"
  | .int32 _ => "int"
  | .timestamp _ _ => "timestamp"
  | .int64 _ => "long"
  | .decimal128 _ => "decimal"
  | .minKey => "minKey"
  | .maxKey => "maxKey"
  | .symbol _ => "symbol"
  | .dbPointer => "dbPointer"

/- A finite decimal cut to a whole number, saturated at the ends of `i64`. -/
structure IntegerPart where
  value : Int64
  whole : Bool
  inRange : Bool

def integerPart (word : Decimal128) : Option IntegerPart :=
  let finish (negative : Bool) (magnitude : Option Nat) (whole : Bool) : IntegerPart :=
    let limit := if negative then 2 ^ 63 else 2 ^ 63 - 1
    match magnitude.filter (· ≤ limit) with
    | some m => ⟨Int64.ofInt (if negative then -m else m),whole,true⟩
    | none => ⟨if negative then Int64.minValue else Int64.maxValue,whole,false⟩
  match Decimal.decode word with
  | .zero => some ⟨0,true,true⟩
  | .nan | .negInfinity | .posInfinity => none
  | .finite negative coefficient exponent =>
      if 0 ≤ exponent then
        some (finish negative ((Decimal.checked (10 ^ exponent.toNat)).bind fun p => Decimal.checked (coefficient * p)) true)
      else
        let places := exponent.natAbs
        if 38 < places then some (finish negative (some 0) false)
        else some (finish negative (some (coefficient / 10 ^ places)) (coefficient % 10 ^ places == 0))

/- `trunc`, towards zero. -/
def truncated (x : ℚ) : Int := x.num.tdiv x.den

def truncateToI64 (bits : UInt64) : Option Int64 :=
  match Exact.double bits with
  | .finite x => if -2 ^ 63 ≤ truncated x ∧ truncated x < 2 ^ 63 then some (Int64.ofInt (truncated x)) else none
  | _ => none

def truncateDecimal (word : Decimal128) : Option Int64 :=
  ((integerPart word).filter (·.inRange)).map (·.value)

def wholeI64 : Bson → Option Int64
  | .int32 n => some n.toInt64
  | .int64 n => some n
  | .double bits => match Exact.double bits with
      | .finite x => if truncated x = x then truncateToI64 bits else none
      | _ => none
  | .decimal128 word => ((integerPart word).filter fun part => part.whole && part.inRange).map (·.value)
  | _ => none

/- The remainder keeps the dividend's sign; a division that overflows leaves zero. -/
def modHolds (divisor remainder : Int64) (value : Bson) : Bool :=
  let n := match value with
    | .int32 n => some n.toInt64
    | .int64 n => some n
    | .double bits => truncateToI64 bits
    | .decimal128 word => truncateDecimal word
    | _ => none
  n.any fun n => (if divisor = 0 then 0 else n.toInt.tmod divisor.toInt) == remainder.toInt

def bitsHolds (test : BitTest) (mask : UInt64) (value : Bson) : Bool :=
  (wholeI64 value).any fun n => test.holds n.toUInt64 mask

def typeHolds (names : List String) (value : Bson) : Bool := names.contains (typeNameOf value)

/- The variables an expression sees. -/
abbrev Bindings := List (String × Bson)

/- What a filter borrows. A draw says whether it fell below the rate. -/
structure Language (Expr Schema σ : Type) where
  expression : Expr → Document → Bindings → Eval σ Bool
  isValid : Schema → Document → Bool
  isMatch : RegexPattern → String → Bool
  randomDraw : UInt64 → σ → Bool × σ

section
variable {Expr Schema σ : Type} (lang : Language Expr Schema σ)

/- A pattern matches a string, and a stored pattern of the same text and flags. -/
def regexHolds (re : RegexPattern) (value : Bson) : Bool :=
  match value with
  | .string s => lang.isMatch re s
  | .regularExpression pattern options => pattern == re.pattern && options == re.options
  | _ => false

mutual

def evaluate (vars : Bindings) (filter : Filter Expr Schema) (doc : Document) : Eval σ Bool :=
  match filter with
  | .alwaysTrue => answer true
  | .and branches => allOf (evaluateEach vars branches doc)
  | .or branches => anyOf (evaluateEach vars branches doc)
  | .nor branches => negated (anyOf (evaluateEach vars branches doc))
  | .field path conditions => allOf (conditionsMatch vars conditions (resolve doc path))
  | .expr e => lang.expression e doc vars
  | .jsonSchema schema => answer (lang.isValid schema doc)
  | .sampleRate rate => fun s => ((.ok (lang.randomDraw rate s).1),(lang.randomDraw rate s).2)

def evaluateEach (vars : Bindings) (branches : List (Filter Expr Schema)) (doc : Document) : List (Eval σ Bool) :=
  match branches with
  | [] => []
  | filter :: rest => evaluate vars filter doc :: evaluateEach vars rest doc

/- One condition on the values found at a path, of which there are none when it is absent. -/
def conditionMatches (vars : Bindings) (condition : Condition Expr Schema) (values : List Bson) : Eval σ Bool :=
  match condition with
  | .exist want => answer (Matching.existsAt values want)
  | .eq expected => answer (Matching.equals values expected)
  | .ne expected => answer (!Matching.equals values expected)
  | .gt bound => answer (Matching.compares values bound [.gt])
  | .gte bound => answer (Matching.compares values bound [.gt,.eq])
  | .lt bound => answer (Matching.compares values bound [.lt])
  | .lte bound => answer (Matching.compares values bound [.lt,.eq])
  | .inList options => answer (options.any (Matching.equals values))
  | .nin options => answer (!options.any (Matching.equals values))
  | .type names => answer (Matching.anyElement values (typeHolds names))
  | .regex re => answer (Matching.anyElement values (regexHolds lang re))
  | .size want => answer (values.any fun v => match v with
      | .array items => (items.length : Int) == want.toInt
      | _ => false)
  | .all required => answer (values.any fun v => match v with
      | .array items => required.all fun needle => items.any fun item => canonicalCmp item needle == .eq
      | other => match required with
          | [needle] => canonicalCmp other needle == .eq
          | _ => false)
  | .elemMatch inner => anyOf (values.map fun v => match v with
      | .array items => anyOf (items.map fun item => match item with
          | .document d => evaluate vars inner d
          | scalar => matchesScalarAgainst vars inner scalar)
      | _ => answer false)
  | .mod divisor remainder => answer (Matching.anyElement values (modHolds divisor remainder))
  | .bits test mask => answer (Matching.anyElement values (bitsHolds test mask))
  | .not inner => negated (conditionMatches vars inner values)
  | .alwaysTrue => answer true
  | .both a b => allOf [conditionMatches vars a values,conditionMatches vars b values]

def conditionsMatch (vars : Bindings) (conditions : List (Condition Expr Schema)) (values : List Bson) :
    List (Eval σ Bool) :=
  match conditions with
  | [] => []
  | condition :: rest => conditionMatches vars condition values :: conditionsMatch vars rest values

/- An element that is no document has no fields, so only conditions on itself apply. -/
def matchesScalarAgainst (vars : Bindings) (filter : Filter Expr Schema) (scalar : Bson) : Eval σ Bool :=
  match filter with
  | .alwaysTrue => answer true
  | .and branches => allOf (scalarEach vars branches scalar)
  | .or branches => anyOf (scalarEach vars branches scalar)
  | .nor branches => negated (anyOf (scalarEach vars branches scalar))
  | .field path conditions =>
      if path.isEmpty then allOf (conditionsMatch vars conditions [scalar]) else answer false
  | .expr _ | .jsonSchema _ | .sampleRate _ => answer false

def scalarEach (vars : Bindings) (branches : List (Filter Expr Schema)) (scalar : Bson) : List (Eval σ Bool) :=
  match branches with
  | [] => []
  | filter :: rest => matchesScalarAgainst vars filter scalar :: scalarEach vars rest scalar

end

end

/-! What a conjunction that is not refuted says of its parts. -/

/- True, or an error that another clause could still have decided. -/
def Unrefuted : Except Error Bool → Prop
  | .ok v => v = true
  | .error e => e.isDeferrable = true

section
variable {σ : Type}

theorem decideUnrefuted {items : List (Eval σ Bool)} {undecided : Option Error} {s : σ}
    (left : Unrefuted (decideFrom false undecided items s).1) : ∀ item ∈ items, ∃ t, Unrefuted (item t).1 := by
  induction items generalizing undecided s with
  | nil => simp
  | cons first rest ih =>
    have both : Unrefuted (first s).1 ∧ ∃ u t, Unrefuted (decideFrom false u rest t).1 := by
      rw [decideFrom] at left
      generalize first s = met at left ⊢
      obtain ⟨result, t⟩ := met
      cases result with
      | ok v =>
        cases v with
        | false => cases left
        | true => exact ⟨rfl,_,_,left⟩
      | error e =>
        simp only at left
        split_ifs at left with deferrable
        · exact ⟨deferrable,_,_,left⟩
        · exact absurd left deferrable
    obtain ⟨here,u,t,after⟩ := both
    intro item member
    rcases List.mem_cons.mp member with rfl | member
    · exact ⟨s,here⟩
    · exact ih after item member

theorem allOfUnrefuted {items : List (Eval σ Bool)} {s : σ} (left : Unrefuted (allOf items s).1) :
    ∀ item ∈ items, ∃ t, Unrefuted (item t).1 := decideUnrefuted left

end
end Kimmy.Query
