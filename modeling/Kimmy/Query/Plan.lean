import Kimmy.Query.Filter
import Kimmy.Store.Index

/-!
Rule-based index selection (`plan.rs`): the predicates every match satisfies, the index they cover best and
the key ranges they leave; a partial index only for a query its filter provably contains (`partial.rs`).
-/
namespace Kimmy
open CanonicalCmp Matching

namespace PartialOp

/- On one value, without a look into it. -/
def holdsOnValue (op : PartialOp) (value : Bson) : Bool :=
  match op with
  | .present => true
  | .eq want => valueEquals value want
  | .gt bound => valueCompares value bound [.gt]
  | .gte bound => valueCompares value bound [.gt,.eq]
  | .lt bound => valueCompares value bound [.lt]
  | .lte bound => valueCompares value bound [.lt,.eq]

/- Whether satisfying one predicate guarantees the other. An equality with null holds of a missing field,
so it gives only itself; a bound gives a bound of its own direction and type group. -/
def implies (op needed : PartialOp) : Bool :=
  match op, needed with
  | .eq .null, .eq .null => true
  | .eq .null, _ => false
  | _, .present => true
  | .eq v, needed => needed.holdsOnValue v
  | .present, _ => false
  | .gt a, .gt b | .gt a, .gte b | .gte a, .gte b => sameTypeGroup a b && canonicalCmp a b != .lt
  | .gte a, .gt b => sameTypeGroup a b && canonicalCmp a b == .gt
  | .lt a, .lt b | .lt a, .lte b | .lte a, .lte b => sameTypeGroup a b && canonicalCmp a b != .gt
  | .lte a, .lt b => sameTypeGroup a b && canonicalCmp a b == .lt
  | _, _ => false

end PartialOp

def PartialFilter.coveredBy (filter : PartialFilter) (query : List (String × PartialOp)) : Bool :=
  filter.predicates.all fun (path,needed) => query.any fun (asked,op) => asked == path && op.implies needed

namespace Query
open ByteOrder KeyEnc Store

/- What a filter constrains one field to. -/
structure Bounds where
  eq : Option Bson := none
  lower : Option Bson := none
  upper : Option Bson := none
  inValues : Option (List Bson) := none

def tighten (held : Option Bson) (value : Bson) (tighter : Ordering) : Option Bson :=
  match held with
  | none => some value
  | some bound => if canonicalCmp value bound = tighter then some value else some bound

/- Keyed by path; a path has one entry. -/
abbrev Predicates := List (String × Bounds)

def Predicates.get (predicates : Predicates) (path : String) : Option Bounds :=
  (predicates.find? fun entry => entry.1 == path).map Prod.snd

def Predicates.change (path : String) (note : Bounds → Bounds) : Predicates → Predicates
  | [] => [(path,note {})]
  | (other,bounds) :: rest =>
      if other = path then (other,note bounds) :: rest else (other,bounds) :: change path note rest

section
variable {Expr Schema : Type}

def Bounds.note (slot : Bounds) : Condition Expr Schema → Bounds
  | .eq v => { slot with eq := slot.eq.or (some v) }
  | .gt v | .gte v => { slot with lower := tighten slot.lower v .gt }
  | .lt v | .lte v => { slot with upper := tighten slot.upper v .lt }
  | .inList values => { slot with inValues := slot.inValues.or (some values) }
  | _ => slot

mutual

/- Only conjunctions contribute: the branches of a disjunction need not all hold. -/
def collect (filter : Filter Expr Schema) (out : Predicates) : Predicates :=
  match filter with
  | .and branches => collectEach branches out
  | .field path conditions => out.change path fun slot => conditions.foldl Bounds.note slot
  | _ => out

def collectEach (branches : List (Filter Expr Schema)) (out : Predicates) : Predicates :=
  match branches with
  | [] => out
  | filter :: rest => collectEach rest (collect filter out)

end

def extract (filter : Filter Expr Schema) : Predicates := collect filter []

/- A null operand proves nothing about presence. -/
def containment : Condition Expr Schema → Option PartialOp
  | .exist true => some .present
  | .eq .null | .gt .null | .gte .null | .lt .null | .lte .null => none
  | .eq v => some (.eq v)
  | .gt v => some (.gt v)
  | .gte v => some (.gte v)
  | .lt v => some (.lt v)
  | .lte v => some (.lte v)
  | _ => none

mutual

def containmentPredicates (filter : Filter Expr Schema) : List (String × PartialOp) :=
  match filter with
  | .and branches => containmentEach branches
  | .field path conditions => conditions.filterMap fun condition => (containment condition).map (path,·)
  | _ => []

def containmentEach (branches : List (Filter Expr Schema)) : List (String × PartialOp) :=
  match branches with
  | [] => []
  | filter :: rest => containmentPredicates filter ++ containmentEach rest

end

structure IndexPlan where
  indexId : IndexId
  indexName : String
  ranges : List (Bytes × Bytes)
  fieldsUsed : Nat
  bothBounds : Bool
  exact : Bool

/- Greater than the first byte of any component, whichever way it runs. -/
def aboveAnyContinuation : UInt8 := 0xFF

def usablePartial (index : IndexMeta) (proven : List (String × PartialOp)) : Bool :=
  index.selection.all fun filter => filter.coveredBy proven

/- The leading fields that have an equality. -/
def equalityPrefix (predicates : Predicates) : List IndexField → List (Bson × Bool)
  | [] => []
  | field :: rest => match (predicates.get field.path).bind (·.eq) with
      | some value => (value,field.descending) :: equalityPrefix predicates rest
      | none => []

/- One probe for each distinct key of a `$in`, in key order. -/
def probes (start : List (Bson × Bool)) (descending : Bool) (values : List Bson) : Option (List (Bytes × Bytes)) := do
  let encoded ← values.mapM fun value => encodeCompoundOrdered (start ++ [(value,descending)])
  some ((encoded.dedup.map fun key => (key,key ++ [aboveAnyContinuation])).insertionSort fun x y => x.1 ≤ y.1)

/- What the ends of a range gain from the field past the equalities: components for the lower and the upper
end, and whether both were used. A descending field swaps the ends. -/
def ends (multikey descending : Bool) (lower upper : Option Bson) :
    Option (List (Bson × Bool) × List (Bson × Bool) × Bool) :=
  match lower, upper with
  | some low, some high =>
      if multikey then some (if descending then ([],[(low,true)],false) else ([(low,false)],[],false))
      else some (if descending then ([(high,true)],[(low,true)],true) else ([(low,false)],[(high,false)],true))
  | some low, none => some (if descending then ([],[(low,true)],false) else ([(low,false)],[],false))
  | none, some high => some (if descending then ([(high,true)],[],false) else ([],[(high,false)],false))
  | none, none => none

def probePlan (index : IndexMeta) (start : List (Bson × Bool)) (field : IndexField) (values : List Bson) :
    Option IndexPlan := do
  let ranges ← probes start field.descending values
  some ⟨index.id,index.name,ranges,start.length + 1,false,start.length + 1 == index.fields.length⟩

def rangePlan (index : IndexMeta) (start : List (Bson × Bool))
    (range : Option (List (Bson × Bool) × List (Bson × Bool) × Bool)) : Option IndexPlan :=
  let used := start.length + if range.isSome then 1 else 0
  if used = 0 then none
  else do
    let lower ← encodeCompoundOrdered (start ++ (range.map (·.1)).getD [])
    let upper ← encodeCompoundOrdered (start ++ (range.map (·.2.1)).getD [])
    some ⟨index.id,index.name,[(lower,upper ++ [aboveAnyContinuation])],used,(range.map (·.2.2)).getD false,
      !range.isSome && used == index.fields.length⟩

/- The equality prefix, then a `$in` or a range on the field just past it. -/
def planFor (index : IndexMeta) (predicates : Predicates) : Option IndexPlan :=
  let start := equalityPrefix predicates index.fields
  match index.fields[start.length]? with
  | none => rangePlan index start none
  | some field => match predicates.get field.path with
      | none => rangePlan index start none
      | some bounds => match bounds.inValues with
          | some values => probePlan index start field values
          | none => rangePlan index start (ends index.multikey field.descending bounds.lower bounds.upper)

/- The plan that uses the most fields, the first of these. -/
def better (best : Option IndexPlan) (plan : Option IndexPlan) : Option IndexPlan :=
  match best, plan with
  | best, none => best
  | none, some plan => some plan
  | some best, some plan => if best.fieldsUsed < plan.fieldsUsed then some plan else some best

def choose (filter : Filter Expr Schema) (indexes : List IndexMeta) : Option IndexPlan :=
  let predicates := extract filter
  if indexes.isEmpty || predicates.isEmpty then none
  else
    let proven := containmentPredicates filter
    indexes.foldl (fun best index =>
      if usablePartial index proven then better best (planFor index predicates) else best) none

structure PrimaryKeyPlan where
  keys : List Bytes

/- The values an id is pinned to: an equality before a `$in`. -/
def Bounds.pinned (bounds : Bounds) : Option (List Bson) :=
  match bounds.eq, bounds.inValues with
  | some v, _ => some [v]
  | none, some values => some values
  | none, none => none

/- Every value goes through the ids the write path makes; one that is no id abandons the lookup. -/
def choosePrimaryKey (filter : Filter Expr Schema) : Option PrimaryKeyPlan := do
  let bounds ← (extract filter).get idField
  let values ← bounds.pinned
  if values.isEmpty then none
  else
    let keys ← values.mapM idKey
    some ⟨(keys.insertionSort (· ≤ ·)).dedup⟩

end
end Query
end Kimmy
