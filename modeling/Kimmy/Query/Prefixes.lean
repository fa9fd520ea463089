import Kimmy.Distinct
import Kimmy.Query.PathTree

/-!
What a projection by a list of paths is for, said without a tree: one walk of the document, in which each name leaves of the
list the rests of the paths that start with it. A path that ends takes the value whole. What comes out is read through its
leaves, the scalars with the field names that lead to them.
-/
namespace Kimmy.Query.Shape
open PathTree (after memAfter)

mutual

/- What an inclusion keeps of a value, by the paths that led to it. -/
def kept (paths : List (List String)) : Bson → Option Bson
  | .document fields => if [] ∈ paths then some (.document fields)
      else if (keptFields paths fields).isEmpty then none else some (.document (keptFields paths fields))
  | .array items => if [] ∈ paths then some (.array items) else some (.array (keptItems paths items))
  | other => if [] ∈ paths then some other else none

def keptFields (paths : List (List String)) : List (String × Bson) → List (String × Bson)
  | [] => []
  | (key,value) :: rest =>
      ((if after key paths = [] then none else kept (after key paths) value).map fun v => (key,v)).toList ++ keptFields paths rest

/- An element is kept though it holds nothing included. -/
def keptItem (paths : List (List String)) : Bson → Option Bson
  | .document fields => some (.document (keptFields paths fields))
  | .array items => some (.array (keptItems paths items))
  | _ => none

def keptItems (paths : List (List String)) : List Bson → List Bson
  | [] => []
  | item :: rest => (keptItem paths item).toList ++ keptItems paths rest

end

mutual

/- What an exclusion leaves of a value. -/
def left (paths : List (List String)) : Bson → Bson
  | .document fields => .document (leftFields paths fields)
  | .array items => .array (leftItems paths items)
  | other => other

def leftFields (paths : List (List String)) : List (String × Bson) → List (String × Bson)
  | [] => []
  | (key,value) :: rest =>
      if [] ∈ after key paths then leftFields paths rest else (key,left (after key paths) value) :: leftFields paths rest

def leftItems (paths : List (List String)) : List Bson → List Bson
  | [] => []
  | item :: rest => left paths item :: leftItems paths rest

end

/-! Leaves. -/

mutual

/- The scalars of a value, each under the field names that lead to it, in order. -/
def leaves : Bson → List (List String × Bson)
  | .document fields => fieldLeaves fields
  | .array items => itemLeaves items
  | other => [([],other)]

def fieldLeaves : List (String × Bson) → List (List String × Bson)
  | [] => []
  | (key,value) :: rest => (leaves value).map (fun leaf => (key :: leaf.1,leaf.2)) ++ fieldLeaves rest

def itemLeaves : List Bson → List (List String × Bson)
  | [] => []
  | item :: rest => leaves item ++ itemLeaves rest

end

/- Some listed path is a prefix of the leaf's. -/
def covers (paths : List (List String)) (leaf : List String × Bson) : Bool := paths.any fun path => path.isPrefixOf leaf.1

theorem coversWhole {paths : List (List String)} (whole : [] ∈ paths) (leaf : List String × Bson) : covers paths leaf = true :=
  List.any_eq_true.mpr ⟨[],whole,rfl⟩

theorem coversHere {paths : List (List String)} {value : Bson} : covers paths ([],value) = true ↔ [] ∈ paths := by
  unfold covers
  rw [List.any_eq_true]
  constructor
  · rintro ⟨path,listed,start⟩
    rw [List.prefix_nil.mp (List.isPrefixOf_iff_prefix.mp start)] at listed
    exact listed
  · intro whole
    exact ⟨[],whole,rfl⟩

theorem coversOpen {paths : List (List String)} (inner : [] ∉ paths) (value : Bson) : covers paths ([],value) = false :=
  Bool.eq_false_iff.mpr fun covered => inner (coversHere.mp covered)

theorem coversBelow {paths : List (List String)} (inner : [] ∉ paths) (key : String) (path : List String) (value : Bson) :
    covers paths (key :: path,value) = covers (after key paths) (path,value) := by
  refine Bool.eq_iff_iff.mpr ?_
  unfold covers
  rw [List.any_eq_true, List.any_eq_true]
  constructor
  · rintro ⟨listed,member,start⟩
    cases listed with
    | nil => exact absurd member inner
    | cons seg rest =>
      obtain ⟨same,start⟩ : seg = key ∧ rest.isPrefixOf path = true := by simpa using start
      rw [same] at member
      exact ⟨rest,memAfter.mpr member,start⟩
  · rintro ⟨rest,member,start⟩
    exact ⟨key :: rest,memAfter.mp member,by simpa using start⟩

theorem belowFilter {paths : List (List String)} (inner : [] ∉ paths) (key : String) (test : Bool → Bool) (found : List (List String × Bson)) :
    (found.map fun leaf => (key :: leaf.1,leaf.2)).filter (fun leaf => test (covers paths leaf)) =
      (found.filter fun leaf => test (covers (after key paths) leaf)).map fun leaf => (key :: leaf.1,leaf.2) := by
  rw [List.filter_map]
  refine congrArg _ (List.filter_congr fun leaf _ => ?_)
  exact congrArg test (coversBelow inner key leaf.1 leaf.2)

theorem itemLeavesAppend (first second : List Bson) : itemLeaves (first ++ second) = itemLeaves first ++ itemLeaves second := by
  induction first with
  | nil => rfl
  | cons item rest ih =>
    rw [List.cons_append, itemLeaves, itemLeaves, ih, List.append_assoc]

theorem coversNothing (leaf : List String × Bson) : covers [] leaf = false := rfl

mutual

theorem keptLeaves : (value : Bson) → (paths : List (List String)) →
    (kept paths value).elim [] leaves = (leaves value).filter (covers paths)
  | .document fields, paths => by
      rw [kept]
      by_cases whole : [] ∈ paths
      · rw [if_pos whole, List.filter_eq_self.mpr fun leaf _ => coversWhole whole leaf]
        rfl
      · have below := keptFieldLeaves fields paths whole
        rw [if_neg whole]
        split_ifs with nothing
        · rw [leaves, ← below, List.isEmpty_iff.mp nothing]
          rfl
        · rw [Option.elim_some, leaves, leaves, below]
  | .array items, paths => by
      rw [kept]
      by_cases whole : [] ∈ paths
      · rw [if_pos whole, List.filter_eq_self.mpr fun leaf _ => coversWhole whole leaf]
        rfl
      · rw [if_neg whole, Option.elim_some, leaves, leaves, keptItemLeaves items paths whole]
  | .double _, paths | .string _, paths | .binary _ _, paths | .undefined, paths | .objectId _, paths | .boolean _, paths
  | .dateTime _, paths | .null, paths | .regularExpression _ _, paths | .javaScriptCode _, paths
  | .javaScriptCodeWithScope _ _, paths | .int32 _, paths | .timestamp _ _, paths | .int64 _, paths | .decimal128 _, paths
  | .minKey, paths | .maxKey, paths | .symbol _, paths | .dbPointer, paths => by
      rw [kept, leaves]
      by_cases whole : [] ∈ paths
      · rw [if_pos whole, List.filter_eq_self.mpr fun leaf _ => coversWhole whole leaf, Option.elim_some, leaves]
        all_goals simp
      · rw [if_neg whole, List.filter_cons_of_neg (by rw [coversOpen whole]; simp)]
        rfl
      all_goals simp

theorem keptFieldLeaves : (fields : List (String × Bson)) → (paths : List (List String)) → [] ∉ paths →
    fieldLeaves (keptFields paths fields) = (fieldLeaves fields).filter (covers paths)
  | [], _, _ => rfl
  | (key,value) :: rest, paths, inner => by
      have below := keptLeaves value (after key paths)
      have own := belowFilter inner key id (leaves value)
      simp only [id] at own
      rw [keptFields, fieldLeaves, List.filter_append, own, ← below, ← keptFieldLeaves rest paths inner]
      by_cases unnamed : after key paths = []
      · have nothing : (kept (after key paths) value).elim [] leaves = [] := by
          rw [below, unnamed]
          exact List.filter_eq_nil_iff.mpr fun leaf _ => by simp [coversNothing]
        rw [nothing, if_pos unnamed]
        rfl
      · rw [if_neg unnamed]
        cases kept (after key paths) value with
        | none => rfl
        | some v => rfl

theorem keptItemLeaves : (items : List Bson) → (paths : List (List String)) → [] ∉ paths →
    itemLeaves (keptItems paths items) = (itemLeaves items).filter (covers paths)
  | [], _, _ => rfl
  | item :: rest, paths, inner => by
      rw [keptItems, itemLeavesAppend, keptElementLeaves item paths inner, keptItemLeaves rest paths inner, ← List.filter_append]
      rfl

theorem keptElementLeaves : (item : Bson) → (paths : List (List String)) → [] ∉ paths →
    itemLeaves (keptItem paths item).toList = (leaves item).filter (covers paths)
  | .document fields, paths, inner => by
      rw [keptItem, leaves, ← keptFieldLeaves fields paths inner]
      simp [itemLeaves, leaves]
  | .array items, paths, inner => by
      rw [keptItem, leaves, ← keptItemLeaves items paths inner]
      simp [itemLeaves, leaves]
  | .double _, paths, inner | .string _, paths, inner | .binary _ _, paths, inner | .undefined, paths, inner | .objectId _, paths, inner
  | .boolean _, paths, inner | .dateTime _, paths, inner | .null, paths, inner | .regularExpression _ _, paths, inner
  | .javaScriptCode _, paths, inner | .javaScriptCodeWithScope _ _, paths, inner | .int32 _, paths, inner
  | .timestamp _ _, paths, inner | .int64 _, paths, inner | .decimal128 _, paths, inner | .minKey, paths, inner
  | .maxKey, paths, inner | .symbol _, paths, inner | .dbPointer, paths, inner => by
      rw [keptItem, leaves, List.filter_cons_of_neg (by rw [coversOpen inner]; simp)]
      · rfl
      all_goals simp

end

mutual

theorem leftLeaves : (value : Bson) → (paths : List (List String)) → [] ∉ paths →
    leaves (left paths value) = (leaves value).filter fun leaf => !covers paths leaf
  | .document fields, paths, inner => by
      rw [left, leaves, leaves]
      exact leftFieldLeaves fields paths inner
  | .array items, paths, inner => by
      rw [left, leaves, leaves]
      exact leftItemLeaves items paths inner
  | .double _, paths, inner | .string _, paths, inner | .binary _ _, paths, inner | .undefined, paths, inner
  | .objectId _, paths, inner | .boolean _, paths, inner | .dateTime _, paths, inner | .null, paths, inner
  | .regularExpression _ _, paths, inner | .javaScriptCode _, paths, inner
  | .javaScriptCodeWithScope _ _, paths, inner | .int32 _, paths, inner | .timestamp _ _, paths, inner
  | .int64 _, paths, inner | .decimal128 _, paths, inner | .minKey, paths, inner | .maxKey, paths, inner
  | .symbol _, paths, inner | .dbPointer, paths, inner => by
      rw [left, leaves, List.filter_cons_of_pos (by rw [coversOpen inner]; rfl)]
      · rfl
      all_goals simp

theorem leftFieldLeaves : (fields : List (String × Bson)) → (paths : List (List String)) → [] ∉ paths →
    fieldLeaves (leftFields paths fields) = (fieldLeaves fields).filter fun leaf => !covers paths leaf
  | [], _, _ => rfl
  | (key,value) :: rest, paths, inner => by
      rw [leftFields, fieldLeaves, List.filter_append, belowFilter inner key not, ← leftFieldLeaves rest paths inner]
      by_cases whole : [] ∈ after key paths
      · have nothing : ((leaves value).filter fun leaf => !covers (after key paths) leaf) = [] :=
          List.filter_eq_nil_iff.mpr fun leaf _ => by simp [coversWhole whole leaf]
        rw [if_pos whole, nothing]
        rfl
      · rw [if_neg whole, fieldLeaves, leftLeaves value (after key paths) whole]

theorem leftItemLeaves : (items : List Bson) → (paths : List (List String)) → [] ∉ paths →
    itemLeaves (leftItems paths items) = (itemLeaves items).filter fun leaf => !covers paths leaf
  | [], _, _ => rfl
  | item :: rest, paths, inner => by
      rw [leftItems, itemLeaves, itemLeaves, List.filter_append, leftLeaves item paths inner, leftItemLeaves rest paths inner]

end

/-! Order. -/

mutual

/- One value is another with fields and elements left out, the others in their order, at every level. -/
inductive Within : Bson → Bson → Prop where
  | same (value : Bson) : Within value value
  | document {some all : List (String × Bson)} : FieldsWithin some all → Within (.document some) (.document all)
  | array {some all : List Bson} : ItemsWithin some all → Within (.array some) (.array all)

inductive FieldsWithin : List (String × Bson) → List (String × Bson) → Prop where
  | nil : FieldsWithin [] []
  | skip {field some all} : FieldsWithin some all → FieldsWithin some (field :: all)
  | keep {key reduced value some all} : Within reduced value → FieldsWithin some all →
      FieldsWithin ((key,reduced) :: some) ((key,value) :: all)

inductive ItemsWithin : List Bson → List Bson → Prop where
  | nil : ItemsWithin [] []
  | skip {item some all} : ItemsWithin some all → ItemsWithin some (item :: all)
  | keep {reduced item some all} : Within reduced item → ItemsWithin some all → ItemsWithin (reduced :: some) (item :: all)

end

theorem fieldsSelf (fields : List (String × Bson)) : FieldsWithin fields fields := by
  induction fields with
  | nil => exact .nil
  | cons field rest ih => exact .keep (.same field.2) ih

theorem namesWithin {some all : List (String × Bson)} (reduced : FieldsWithin some all) : (some.map Prod.fst).Sublist (all.map Prod.fst) := by
  induction all generalizing some with
  | nil =>
    cases reduced
    exact List.Sublist.refl _
  | cons field rest ih =>
    cases reduced with
    | skip later => exact (ih later).cons field.1
    | keep _ later => exact (ih later).cons_cons _

mutual

theorem keptWithin : (value : Bson) → (paths : List (List String)) → (reduced : Bson) → kept paths value = some reduced →
    Within reduced value
  | .document fields, paths, reduced, is => by
      rw [kept] at is
      split_ifs at is with whole nothing
      · cases is
        exact .same _
      · cases is
        exact .document (keptFieldsWithin fields paths)
  | .array items, paths, reduced, is => by
      rw [kept] at is
      split_ifs at is with whole
      · cases is
        exact .same _
      · cases is
        exact .array (keptItemsWithin items paths)
  | .double _, paths, reduced, is | .string _, paths, reduced, is | .binary _ _, paths, reduced, is
  | .undefined, paths, reduced, is | .objectId _, paths, reduced, is | .boolean _, paths, reduced, is
  | .dateTime _, paths, reduced, is | .null, paths, reduced, is | .regularExpression _ _, paths, reduced, is
  | .javaScriptCode _, paths, reduced, is | .javaScriptCodeWithScope _ _, paths, reduced, is
  | .int32 _, paths, reduced, is | .timestamp _ _, paths, reduced, is | .int64 _, paths, reduced, is
  | .decimal128 _, paths, reduced, is | .minKey, paths, reduced, is | .maxKey, paths, reduced, is
  | .symbol _, paths, reduced, is | .dbPointer, paths, reduced, is => by
      rw [kept] at is
      split_ifs at is
      · cases is
        exact .same _
      all_goals simp

theorem keptFieldsWithin : (fields : List (String × Bson)) → (paths : List (List String)) → FieldsWithin (keptFields paths fields) fields
  | [], _ => .nil
  | (key,value) :: rest, paths => by
      have later := keptFieldsWithin rest paths
      rw [keptFields]
      split_ifs
      · exact .skip later
      · cases is : kept (after key paths) value with
        | none => exact .skip later
        | some reduced => exact .keep (keptWithin value _ reduced is) later

theorem keptItemsWithin : (items : List Bson) → (paths : List (List String)) → ItemsWithin (keptItems paths items) items
  | [], _ => .nil
  | item :: rest, paths => by
      have later := keptItemsWithin rest paths
      rw [keptItems]
      cases is : keptItem paths item with
      | none => exact .skip later
      | some reduced => exact .keep (keptItemWithin item paths reduced is) later

theorem keptItemWithin : (item : Bson) → (paths : List (List String)) → (reduced : Bson) → keptItem paths item = some reduced →
    Within reduced item
  | .document fields, paths, reduced, is => by
      rw [keptItem] at is
      cases is
      exact .document (keptFieldsWithin fields paths)
  | .array items, paths, reduced, is => by
      rw [keptItem] at is
      cases is
      exact .array (keptItemsWithin items paths)
  | .double _, paths, reduced, is | .string _, paths, reduced, is | .binary _ _, paths, reduced, is
  | .undefined, paths, reduced, is | .objectId _, paths, reduced, is | .boolean _, paths, reduced, is
  | .dateTime _, paths, reduced, is | .null, paths, reduced, is | .regularExpression _ _, paths, reduced, is
  | .javaScriptCode _, paths, reduced, is | .javaScriptCodeWithScope _ _, paths, reduced, is
  | .int32 _, paths, reduced, is | .timestamp _ _, paths, reduced, is | .int64 _, paths, reduced, is
  | .decimal128 _, paths, reduced, is | .minKey, paths, reduced, is | .maxKey, paths, reduced, is
  | .symbol _, paths, reduced, is | .dbPointer, paths, reduced, is => by
      rw [keptItem] at is
      · cases is
      all_goals simp

end

mutual

theorem leftWithin : (value : Bson) → (paths : List (List String)) → Within (left paths value) value
  | .document fields, paths => by
      rw [left]
      exact .document (leftFieldsWithin fields paths)
  | .array items, paths => by
      rw [left]
      exact .array (leftItemsWithin items paths)
  | .double _, paths | .string _, paths | .binary _ _, paths | .undefined, paths | .objectId _, paths
  | .boolean _, paths | .dateTime _, paths | .null, paths | .regularExpression _ _, paths | .javaScriptCode _, paths
  | .javaScriptCodeWithScope _ _, paths | .int32 _, paths | .timestamp _ _, paths | .int64 _, paths
  | .decimal128 _, paths | .minKey, paths | .maxKey, paths | .symbol _, paths | .dbPointer, paths => by
      rw [left]
      · exact .same _
      all_goals simp

theorem leftFieldsWithin : (fields : List (String × Bson)) → (paths : List (List String)) → FieldsWithin (leftFields paths fields) fields
  | [], _ => .nil
  | (key,value) :: rest, paths => by
      rw [leftFields]
      split_ifs
      · exact .skip (leftFieldsWithin rest paths)
      · exact .keep (leftWithin value _) (leftFieldsWithin rest paths)

theorem leftItemsWithin : (items : List Bson) → (paths : List (List String)) → ItemsWithin (leftItems paths items) items
  | [], _ => .nil
  | item :: rest, paths => by
      rw [leftItems]
      exact .keep (leftWithin item paths) (leftItemsWithin rest paths)

end

mutual

theorem distinctWithin : (value : Bson) → Distinct value → (reduced : Bson) → Within reduced value → Distinct reduced
  | .document fields, distinct, reduced, within => by
      cases within with
      | same => exact distinct
      | document inside =>
        exact ⟨distinct.1.sublist (namesWithin inside),distinctFieldsWithin fields distinct.2 _ inside⟩
  | .array items, distinct, reduced, within => by
      cases within with
      | same => exact distinct
      | array inside => exact distinctItemsWithin items distinct _ inside
  | .double _, distinct, reduced, within | .string _, distinct, reduced, within
  | .binary _ _, distinct, reduced, within | .undefined, distinct, reduced, within
  | .objectId _, distinct, reduced, within | .boolean _, distinct, reduced, within
  | .dateTime _, distinct, reduced, within | .null, distinct, reduced, within
  | .regularExpression _ _, distinct, reduced, within | .javaScriptCode _, distinct, reduced, within
  | .javaScriptCodeWithScope _ _, distinct, reduced, within | .int32 _, distinct, reduced, within
  | .timestamp _ _, distinct, reduced, within | .int64 _, distinct, reduced, within
  | .decimal128 _, distinct, reduced, within | .minKey, distinct, reduced, within | .maxKey, distinct, reduced, within
  | .symbol _, distinct, reduced, within | .dbPointer, distinct, reduced, within => by
      cases within
      exact distinct

theorem distinctFieldsWithin : (fields : List (String × Bson)) → FieldsDistinct fields → (fewer : List (String × Bson)) →
    FieldsWithin fewer fields → FieldsDistinct fewer
  | [], distinct, fewer, within => by
      cases within
      exact distinct
  | (key,value) :: rest, distinct, fewer, within => by
      cases within with
      | skip later => exact distinctFieldsWithin rest distinct.2 _ later
      | keep own later => exact ⟨distinctWithin value distinct.1 _ own,distinctFieldsWithin rest distinct.2 _ later⟩

theorem distinctItemsWithin : (items : List Bson) → ItemsDistinct items → (fewer : List Bson) → ItemsWithin fewer items →
    ItemsDistinct fewer
  | [], distinct, fewer, within => by
      cases within
      exact distinct
  | item :: rest, distinct, fewer, within => by
      cases within with
      | skip later => exact distinctItemsWithin rest distinct.2 _ later
      | keep own later => exact ⟨distinctWithin item distinct.1 _ own,distinctItemsWithin rest distinct.2 _ later⟩

end

/-! Twice. -/

mutual

theorem keptTwice : (value : Bson) → (paths : List (List String)) → (reduced : Bson) → kept paths value = some reduced →
    kept paths reduced = some reduced
  | .document fields, paths, reduced, is => by
      have again := keptFieldsTwice fields paths
      rw [kept] at is
      split_ifs at is with whole nothing
      · cases is
        rw [kept, if_pos whole]
      · cases is
        rw [kept, if_neg whole, again, if_neg nothing]
  | .array items, paths, reduced, is => by
      have again := keptItemsTwice items paths
      rw [kept] at is
      split_ifs at is with whole
      · cases is
        rw [kept, if_pos whole]
      · cases is
        rw [kept, if_neg whole, again]
  | .double _, paths, reduced, is | .string _, paths, reduced, is | .binary _ _, paths, reduced, is
  | .undefined, paths, reduced, is | .objectId _, paths, reduced, is | .boolean _, paths, reduced, is
  | .dateTime _, paths, reduced, is | .null, paths, reduced, is | .regularExpression _ _, paths, reduced, is
  | .javaScriptCode _, paths, reduced, is | .javaScriptCodeWithScope _ _, paths, reduced, is
  | .int32 _, paths, reduced, is | .timestamp _ _, paths, reduced, is | .int64 _, paths, reduced, is
  | .decimal128 _, paths, reduced, is | .minKey, paths, reduced, is | .maxKey, paths, reduced, is
  | .symbol _, paths, reduced, is | .dbPointer, paths, reduced, is => by
      rw [kept] at is
      split_ifs at is with whole
      · cases is
        rw [kept, if_pos whole]
        all_goals simp
      all_goals simp

theorem keptFieldsTwice : (fields : List (String × Bson)) → (paths : List (List String)) →
    keptFields paths (keptFields paths fields) = keptFields paths fields
  | [], _ => rfl
  | (key,value) :: rest, paths => by
      have later := keptFieldsTwice rest paths
      rw [keptFields]
      by_cases unnamed : after key paths = []
      · rw [if_pos unnamed]
        exact later
      · rw [if_neg unnamed]
        cases is : kept (after key paths) value with
        | none => exact later
        | some reduced =>
          have own := keptTwice value (after key paths) reduced is
          rw [Option.map_some, Option.toList_some, List.singleton_append, keptFields, if_neg unnamed, own, later]
          rfl

theorem keptItemsTwice : (items : List Bson) → (paths : List (List String)) →
    keptItems paths (keptItems paths items) = keptItems paths items
  | [], _ => rfl
  | item :: rest, paths => by
      have later := keptItemsTwice rest paths
      rw [keptItems]
      cases is : keptItem paths item with
      | none => exact later
      | some reduced =>
        have own := keptItemTwice item paths reduced is
        rw [Option.toList_some, List.singleton_append, keptItems, own, later]
        rfl

theorem keptItemTwice : (item : Bson) → (paths : List (List String)) → (reduced : Bson) → keptItem paths item = some reduced →
    keptItem paths reduced = some reduced
  | .document fields, paths, reduced, is => by
      have again := keptFieldsTwice fields paths
      rw [keptItem] at is
      cases is
      rw [keptItem, again]
  | .array items, paths, reduced, is => by
      have again := keptItemsTwice items paths
      rw [keptItem] at is
      cases is
      rw [keptItem, again]
  | .double _, paths, reduced, is | .string _, paths, reduced, is | .binary _ _, paths, reduced, is
  | .undefined, paths, reduced, is | .objectId _, paths, reduced, is | .boolean _, paths, reduced, is
  | .dateTime _, paths, reduced, is | .null, paths, reduced, is | .regularExpression _ _, paths, reduced, is
  | .javaScriptCode _, paths, reduced, is | .javaScriptCodeWithScope _ _, paths, reduced, is
  | .int32 _, paths, reduced, is | .timestamp _ _, paths, reduced, is | .int64 _, paths, reduced, is
  | .decimal128 _, paths, reduced, is | .minKey, paths, reduced, is | .maxKey, paths, reduced, is
  | .symbol _, paths, reduced, is | .dbPointer, paths, reduced, is => by
      rw [keptItem] at is
      · cases is
      all_goals simp

end

mutual

theorem leftTwice : (value : Bson) → (paths : List (List String)) → left paths (left paths value) = left paths value
  | .document fields, paths => by rw [left, left, leftFieldsTwice fields paths]
  | .array items, paths => by rw [left, left, leftItemsTwice items paths]
  | .double _, paths | .string _, paths | .binary _ _, paths | .undefined, paths | .objectId _, paths
  | .boolean _, paths | .dateTime _, paths | .null, paths | .regularExpression _ _, paths | .javaScriptCode _, paths
  | .javaScriptCodeWithScope _ _, paths | .int32 _, paths | .timestamp _ _, paths | .int64 _, paths
  | .decimal128 _, paths | .minKey, paths | .maxKey, paths | .symbol _, paths | .dbPointer, paths => by
      simp only [left]

theorem leftFieldsTwice : (fields : List (String × Bson)) → (paths : List (List String)) →
    leftFields paths (leftFields paths fields) = leftFields paths fields
  | [], _ => rfl
  | (key,value) :: rest, paths => by
      rw [leftFields]
      by_cases whole : [] ∈ after key paths
      · rw [if_pos whole, leftFieldsTwice rest paths]
      · rw [if_neg whole, leftFields, if_neg whole, leftTwice value, leftFieldsTwice rest paths]

theorem leftItemsTwice : (items : List Bson) → (paths : List (List String)) →
    leftItems paths (leftItems paths items) = leftItems paths items
  | [], _ => rfl
  | item :: rest, paths => by rw [leftItems, leftItems, leftTwice item paths, leftItemsTwice rest paths]

end

mutual

/- No path leaves everything. -/
theorem leftAll : (value : Bson) → left [] value = value
  | .document fields => by rw [left, leftFieldsAll fields]
  | .array items => by rw [left, leftItemsAll items]
  | .double _ | .string _ | .binary _ _ | .undefined | .objectId _ | .boolean _ | .dateTime _ | .null
  | .regularExpression _ _ | .javaScriptCode _ | .javaScriptCodeWithScope _ _ | .int32 _ | .timestamp _ _ | .int64 _
  | .decimal128 _ | .minKey | .maxKey | .symbol _ | .dbPointer => by
      rw [left]
      all_goals simp

theorem leftFieldsAll : (fields : List (String × Bson)) → leftFields [] fields = fields
  | [] => rfl
  | (key,value) :: rest => by
      have none : after key [] = [] := rfl
      rw [leftFields, none, if_neg List.not_mem_nil, leftAll value, leftFieldsAll rest]

theorem leftItemsAll : (items : List Bson) → leftItems [] items = items
  | [] => rfl
  | item :: rest => by rw [leftItems, leftAll item, leftItemsAll rest]

end

end Kimmy.Query.Shape
