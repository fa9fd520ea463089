import Kimmy.KeyOrder
import Mathlib.Data.List.Sort

/-!
Documents as an index reads them: equality of stored bodies, dotted paths (`path.rs`), the
operators of a filter on the values a path resolves to (`matching.rs`) and the language of
partial filters (`partial.rs`).
-/
namespace Kimmy
open CanonicalCmp

abbrev Document := List (String × Bson)

/-! Bodies are compared byte for byte, which is value for value. -/

mutual

def Bson.same : Bson → Bson → Bool
  | .double x, other => match other with | .double y => decide (x = y) | _ => false
  | .string x, other => match other with | .string y => decide (x = y) | _ => false
  | .document x, other => match other with | .document y => sameFields x y | _ => false
  | .array x, other => match other with | .array y => sameItems x y | _ => false
  | .binary s x, other => match other with | .binary t y => decide (s = t) && decide (x = y) | _ => false
  | .undefined, other => match other with | .undefined => true | _ => false
  | .objectId x, other => match other with | .objectId y => decide (x = y) | _ => false
  | .boolean x, other => match other with | .boolean y => decide (x = y) | _ => false
  | .dateTime x, other => match other with | .dateTime y => decide (x = y) | _ => false
  | .null, other => match other with | .null => true | _ => false
  | .regularExpression p o, other => match other with
      | .regularExpression q r => decide (p = q) && decide (o = r)
      | _ => false
  | .dbPointer, other => match other with | .dbPointer => true | _ => false
  | .javaScriptCode x, other => match other with | .javaScriptCode y => decide (x = y) | _ => false
  | .symbol x, other => match other with | .symbol y => decide (x = y) | _ => false
  | .javaScriptCodeWithScope c x, other => match other with
      | .javaScriptCodeWithScope d y => decide (c = d) && sameFields x y
      | _ => false
  | .int32 x, other => match other with | .int32 y => decide (x = y) | _ => false
  | .timestamp t i, other => match other with | .timestamp u j => decide (t = u) && decide (i = j) | _ => false
  | .int64 x, other => match other with | .int64 y => decide (x = y) | _ => false
  | .decimal128 x, other => match other with | .decimal128 y => decide (x = y) | _ => false
  | .minKey, other => match other with | .minKey => true | _ => false
  | .maxKey, other => match other with | .maxKey => true | _ => false

def sameFields : List (String × Bson) → List (String × Bson) → Bool
  | [], [] => true
  | (k,x) :: xs, (j,y) :: ys => decide (k = j) && x.same y && sameFields xs ys
  | _, _ => false

def sameItems : List Bson → List Bson → Bool
  | [], [] => true
  | x :: xs, y :: ys => x.same y && sameItems xs ys
  | _, _ => false

end

mutual

theorem sameIff : ∀ x y : Bson, x.same y = true ↔ x = y
  | .double _, y => by cases y <;> simp [Bson.same]
  | .string _, y => by cases y <;> simp [Bson.same]
  | .document x, y => by cases y <;> simp [Bson.same, sameFieldsIff]
  | .array x, y => by cases y <;> simp [Bson.same, sameItemsIff]
  | .binary _ _, y => by cases y <;> simp [Bson.same]
  | .undefined, y => by cases y <;> simp [Bson.same]
  | .objectId _, y => by cases y <;> simp [Bson.same]
  | .boolean _, y => by cases y <;> simp [Bson.same]
  | .dateTime _, y => by cases y <;> simp [Bson.same]
  | .null, y => by cases y <;> simp [Bson.same]
  | .regularExpression _ _, y => by cases y <;> simp [Bson.same]
  | .dbPointer, y => by cases y <;> simp [Bson.same]
  | .javaScriptCode _, y => by cases y <;> simp [Bson.same]
  | .symbol _, y => by cases y <;> simp [Bson.same]
  | .javaScriptCodeWithScope _ x, y => by cases y <;> simp [Bson.same, sameFieldsIff]
  | .int32 _, y => by cases y <;> simp [Bson.same]
  | .timestamp _ _, y => by cases y <;> simp [Bson.same]
  | .int64 _, y => by cases y <;> simp [Bson.same]
  | .decimal128 _, y => by cases y <;> simp [Bson.same]
  | .minKey, y => by cases y <;> simp [Bson.same]
  | .maxKey, y => by cases y <;> simp [Bson.same]

theorem sameFieldsIff : ∀ x y : List (String × Bson), sameFields x y = true ↔ x = y
  | [], y => by cases y <;> simp [sameFields]
  | (k,x) :: xs, y => by
      cases y with
      | nil => simp [sameFields]
      | cons y ys =>
          obtain ⟨j, y⟩ := y
          simp [sameFields, sameIff x y, sameFieldsIff xs ys, and_assoc]

theorem sameItemsIff : ∀ x y : List Bson, sameItems x y = true ↔ x = y
  | [], y => by cases y <;> simp [sameItems]
  | x :: xs, y => by
      cases y with
      | nil => simp [sameItems]
      | cons y ys => simp [sameItems, sameIff x y, sameItemsIff xs ys]

end

instance : DecidableEq Bson := fun x y => decidable_of_iff _ (sameIff x y)

/-! Dotted paths. -/

def Document.get (doc : Document) (key : String) : Option Bson :=
  (doc.find? fun field => field.1 == key).map Prod.snd

/- `split('.')`: the segment read so far is kept in reverse. -/
def splitDots : List Char → List Char → List String
  | [], segment => [String.ofList segment.reverse]
  | c :: rest, segment =>
      if c = '.' then String.ofList segment.reverse :: splitDots rest []
      else splitDots rest (c :: segment)

def segments (path : String) : List String := splitDots path.toList []

/- `parse::<usize>`: an optional plus sign, at least one digit, no overflow. -/
def parseUsize (text : String) : Option Nat := do
  let digits := match text.toList with
    | '+' :: rest => rest
    | digits => digits
  if digits.isEmpty || !digits.all Char.isDigit then none
  else
    let value := digits.foldl (fun n c => 10 * n + (c.toNat - '0'.toNat)) 0
    if value < 2 ^ 64 then some value else none

/- A numeric segment may address a position of an array, and independently any segment may
name a field inside each element. -/
def descend (value : Bson) : List String → List Bson
  | [] => [value]
  | head :: rest =>
      match value with
      | .document doc => match Document.get doc head with
          | some next => descend next rest
          | none => []
      | .array items =>
          (match (parseUsize head).bind (items[·]?) with
            | some item => descend item rest
            | none => []) ++
          items.flatMap fun item => match item with
            | .document doc => match Document.get doc head with
                | some next => descend next rest
                | none => []
            | _ => []
      | _ => []

/- All values reachable at a path, following arrays; empty when the path is absent. -/
def resolve (doc : Document) (path : String) : List Bson :=
  match segments path with
  | [] => []
  | head :: rest => match doc.get head with
      | some value => descend value rest
      | none => []

/- The arrays a path goes through or ends in, each named by its dotted place in the path;
`before` are the segments walked so far. -/
def visitArrays (value : Bson) (before : List String) : List String → List String
  | [] => match value with
      | .array _ => [".".intercalate before]
      | _ => []
  | head :: rest =>
      match value with
      | .document doc => match Document.get doc head with
          | some next => visitArrays next (before ++ [head]) rest
          | none => []
      | .array items =>
          [".".intercalate before] ++
          (match (parseUsize head).bind (items[·]?) with
            | some item => visitArrays item (before ++ [head]) rest
            | none => []) ++
          items.flatMap fun item => match item with
            | .document doc => match Document.get doc head with
                | some next => visitArrays next (before ++ [head]) rest
                | none => []
            | _ => []
      | _ => []

/- Collected in a `BTreeSet`: sorted, without repetitions. -/
def arrayPrefixes (doc : Document) (path : String) : List String :=
  match segments path with
  | [] => []
  | head :: rest => match doc.get head with
      | some value =>
          ((visitArrays value [head] rest).insertionSort fun x y => cmpText x y ≠ .gt).dedup
      | none => []

/-! A filter operator on the values a path resolves to. -/

namespace Matching

/- A value matches when it or one of its elements does. -/
def anyElement (values : List Bson) (predicate : Bson → Bool) : Bool :=
  values.any fun value => predicate value || match value with
    | .array items => items.any predicate
    | _ => false

def existsAt (values : List Bson) (want : Bool) : Bool := values.isEmpty != want

def valueEquals (value expected : Bson) : Bool :=
  match expected with
  | .null => match value with
      | .null => true
      | _ => false
  | expected => canonicalCmp value expected == .eq

/- An equality with null also holds of a missing field. -/
def equals (values : List Bson) (expected : Bson) : Bool :=
  match expected with
  | .null => values.isEmpty || anyElement values (valueEquals · expected)
  | expected => anyElement values (valueEquals · expected)

def typeGroup : Bson → UInt8
  | .double _ | .int32 _ | .int64 _ | .decimal128 _ => 1
  | .string _ | .symbol _ => 2
  | .document _ => 3
  | .array _ => 4
  | .binary _ _ => 5
  | .objectId _ => 6
  | .boolean _ => 7
  | .dateTime _ => 8
  | .timestamp _ _ => 9
  | .null | .undefined => 10
  | _ => 11

def sameTypeGroup (x y : Bson) : Bool := typeGroup x == typeGroup y

def valueCompares (value bound : Bson) (accept : List Ordering) : Bool :=
  sameTypeGroup value bound && accept.contains (canonicalCmp value bound)

def compares (values : List Bson) (bound : Bson) (accept : List Ordering) : Bool :=
  anyElement values (valueCompares · bound accept)

end Matching

/-! Partial filters: a conjunction of predicates, one for each path. -/

inductive PartialOp where
  | present
  | eq (value : Bson)
  | gt (bound : Bson)
  | gte (bound : Bson)
  | lt (bound : Bson)
  | lte (bound : Bson)

namespace PartialOp

def selects (op : PartialOp) (values : List Bson) : Bool :=
  match op with
  | .present => Matching.existsAt values true
  | .eq want => Matching.equals values want
  | .gt bound => Matching.compares values bound [.gt]
  | .gte bound => Matching.compares values bound [.gt,.eq]
  | .lt bound => Matching.compares values bound [.lt]
  | .lte bound => Matching.compares values bound [.lt,.eq]

/- A bare value is an equality, and so is a document whose first key is no operator. A bare
regular expression is a pattern, which the language does not have. -/
def parse : Bson → Option PartialOp
  | .regularExpression _ _ => none
  | .document [] => some (.eq (.document []))
  | .document ((first,operand) :: more) =>
      if !first.startsWith "$" then some (.eq (.document ((first,operand) :: more)))
      else if !more.isEmpty then none
      else match first, operand with
        | "$exists", .boolean true => some .present
        | "$exists", _ => none
        | "$eq", operand => some (.eq operand)
        | "$gt", operand => some (.gt operand)
        | "$gte", operand => some (.gte operand)
        | "$lt", operand => some (.lt operand)
        | "$lte", operand => some (.lte operand)
        | _, _ => none
  | value => some (.eq value)

end PartialOp

structure PartialFilter where
  predicates : List (String × PartialOp)

namespace PartialFilter

/- `none` where the expression is refused: empty, or outside the language. -/
def parse (doc : Document) : Option PartialFilter :=
  if doc.isEmpty then none
  else (doc.mapM fun field : String × Bson =>
    if field.1.startsWith "$" then none
    else (PartialOp.parse field.2).map fun op => (field.1,op)).map .mk

def selects (filter : PartialFilter) (doc : Document) : Bool :=
  filter.predicates.all fun (path,op) => op.selects (resolve doc path)

end PartialFilter

end Kimmy
