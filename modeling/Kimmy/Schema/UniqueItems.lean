import Kimmy.Distinct
import Kimmy.KeyOrder

/-!
`uniqueItems` (`json_schema.rs`). Two values are one when they are equal in the canonical order with the fields of every
embedded document in any order. An array of three or more is decided by putting each item in key order, sorting the items
and comparing neighbours.
-/
namespace Kimmy.Schema
open CanonicalCmp KeyOrder SortedPairs

structure Value where
  bson : Bson
  distinct : Distinct bson

/-! The comparison. -/

mutual

def sameValue : Bson → Bson → Bool
  | .document x, .document y => x.length == y.length && sameFields x y
  | .array x, .array y => x.length == y.length && sameItems x y
  | a, b => canonicalCmp a b == .eq

/- Every field of one has an equal of its name in the other. -/
def sameFields : List (String × Bson) → Document → Bool
  | [], _ => true
  | (k,v) :: rest, y => (match Document.get y k with
      | some w => sameValue v w
      | none => false) && sameFields rest y

def sameItems : List Bson → List Bson → Bool
  | x :: xs, y :: ys => sameValue x y && sameItems xs ys
  | _, _ => true

end

mutual

def holdsDocument : Bson → Bool
  | .document _ => true
  | .array items => anyHoldsDocument items
  | _ => false

def anyHoldsDocument : List Bson → Bool
  | [] => false
  | v :: rest => holdsDocument v || anyHoldsDocument rest

end

mutual

/- The fields of every embedded document in key order. -/
def keyed : Bson → Bson
  | .document fields => .document (sortKeys asBytes (keyedFields fields))
  | .array items => if anyHoldsDocument items then .array (keyedItems items) else .array items
  | b => b

def keyedFields : List (String × Bson) → List (String × Bson)
  | [] => []
  | (k,v) :: rest => (k,keyed v) :: keyedFields rest

def keyedItems : List Bson → List Bson
  | [] => []
  | v :: rest => keyed v :: keyedItems rest

end

/- `windows(2)`. -/
def neighboursDiffer : List Bson → Bool
  | a :: b :: rest => canonicalCmp a b != .eq && neighboursDiffer (b :: rest)
  | _ => true

def allDistinct (items : List Bson) : Bool :=
  match items with
  | [] | [_] => true
  | [a,b] => !sameValue a b
  | items => neighboursDiffer ((keyedItems items).mergeSort fun a b => (canonicalCmp a b).isLE)

/-! Key order. -/

theorem keyedFieldsEq (fields : List (String × Bson)) : keyedFields fields = fields.map fun field => (field.1,keyed field.2) := by
  induction fields with
  | nil => rfl
  | cons field rest ih =>
    rw [keyedFields, ih]
    rfl

theorem keyedItemsEq (items : List Bson) : keyedItems items = items.map keyed := by
  induction items with
  | nil => rfl
  | cons item rest ih =>
    rw [keyedItems, ih]
    rfl

mutual

theorem keyedPlain : (b : Bson) → holdsDocument b = false → keyed b = b
  | .document _, plain => by simp [holdsDocument] at plain
  | .array items, plain => by
      rw [holdsDocument] at plain
      simp only [keyed, plain, Bool.false_eq_true, if_false]
  | .double _, _ | .string _, _ | .binary _ _, _ | .undefined, _ | .objectId _, _ | .boolean _, _ | .dateTime _, _
  | .null, _ | .regularExpression _ _, _ | .javaScriptCode _, _ | .javaScriptCodeWithScope _ _, _ | .int32 _, _
  | .timestamp _ _, _ | .int64 _, _ | .decimal128 _, _ | .minKey, _ | .maxKey, _ | .symbol _, _ | .dbPointer, _ => by
      simp only [keyed]

theorem keyedItemsPlain : (items : List Bson) → anyHoldsDocument items = false → items.map keyed = items
  | [], _ => rfl
  | v :: rest, plain => by
      simp only [anyHoldsDocument, Bool.or_eq_false_iff] at plain
      rw [List.map_cons, keyedPlain v plain.1, keyedItemsPlain rest plain.2]

end

/- The test spares a copy and nothing else. -/
theorem keyedArray (items : List Bson) : keyed (.array items) = .array (items.map keyed) := by
  rw [keyed]
  split_ifs with holds
  · rw [keyedItemsEq]
  · rw [keyedItemsPlain items (by simpa using holds)]

theorem keyedRank (b : Bson) : typeRank (keyed b) = typeRank b := by
  cases b with
  | array items =>
    rw [keyedArray]
    rfl
  | document fields => rfl
  | _ => simp only [keyed]

/-! Equality place by place. -/

theorem textEq {k l : String} : cmpText k l = .eq ↔ k = l := by
  unfold cmpText
  rw [Std.LawfulEqOrd.compare_eq_iff_eq]
  exact ⟨asBytesInj,congrArg asBytes⟩

theorem ranksApart {a b : Bson} (differ : typeRank a ≠ typeRank b) : canonicalCmp a b ≠ .eq := by
  rw [cmpRanks differ]
  intro same
  exact differ (Std.LawfulEqOrd.compare_eq_iff_eq.mp same)

theorem thenEq {o p : Ordering} : o.then p = .eq ↔ o = .eq ∧ p = .eq := by
  cases o <;> simp

theorem fieldsEq {x y : List (String × Bson)} : (cmpFields x y).then (compare x.length y.length) = .eq ↔
    List.Forall₂ (fun p q => p.1 = q.1 ∧ canonicalCmp p.2 q.2 = .eq) x y := by
  induction x generalizing y with
  | nil =>
    cases y with
    | nil => simp [cmpFields]
    | cons q ys => simp [cmpFields]
  | cons p xs ih =>
    cases y with
    | nil => simp [cmpFields]
    | cons q ys =>
      rw [List.forall₂_cons, ← ih, cmpFields, thenEq, thenEq, thenEq, thenEq, textEq]
      simp only [List.length_cons, Std.LawfulEqOrd.compare_eq_iff_eq, Nat.add_right_cancel_iff]
      exact ⟨fun ⟨⟨k,v,rest⟩,n⟩ => ⟨⟨k,v⟩,rest,n⟩,fun ⟨⟨k,v⟩,rest,n⟩ => ⟨⟨k,v,rest⟩,n⟩⟩

theorem itemsEq {x y : List Bson} : (cmpItems x y).then (compare x.length y.length) = .eq ↔
    List.Forall₂ (fun v w => canonicalCmp v w = .eq) x y := by
  induction x generalizing y with
  | nil =>
    cases y with
    | nil => simp [cmpItems]
    | cons w ys => simp [cmpItems]
  | cons v xs ih =>
    cases y with
    | nil => simp [cmpItems]
    | cons w ys =>
      rw [List.forall₂_cons, ← ih, cmpItems, thenEq, thenEq, thenEq]
      simp only [List.length_cons, Std.LawfulEqOrd.compare_eq_iff_eq, Nat.add_right_cancel_iff, and_assoc]

theorem documentsEq {x y : List (String × Bson)} : canonicalCmp (.document x) (.document y) = .eq ↔
    List.Forall₂ (fun p q => p.1 = q.1 ∧ canonicalCmp p.2 q.2 = .eq) x y := by
  have same : canonicalCmp (.document x) (.document y) = (cmpFields x y).then (compare x.length y.length) := by
    unfold canonicalCmp
    exact if_neg fun differ => differ rfl
  rw [same]
  exact fieldsEq

theorem arraysEq {x y : List Bson} : canonicalCmp (.array x) (.array y) = .eq ↔
    List.Forall₂ (fun v w => canonicalCmp v w = .eq) x y := by
  have same : canonicalCmp (.array x) (.array y) = (cmpItems x y).then (compare x.length y.length) := by
    unfold canonicalCmp
    exact if_neg fun differ => differ rfl
  rw [same]
  exact itemsEq

theorem sameOther {a b : Bson} (documents : ∀ x y, a = .document x → b ≠ .document y) (arrays : ∀ x y, a = .array x → b ≠ .array y) :
    sameValue a b = (canonicalCmp a b == .eq) := by
  rw [sameValue.eq_def]
  split
  · exact absurd rfl (documents _ _ rfl)
  · exact absurd rfl (arrays _ _ rfl)
  · rfl

theorem documentRank {b : Bson} (rank : typeRank b = 0x40) : ∃ y, b = .document y := by
  cases b with
  | document y => exact ⟨y,rfl⟩
  | _ => simp [typeRank] at rank

theorem arrayRank {b : Bson} (rank : typeRank b = 0x50) : ∃ y, b = .array y := by
  cases b with
  | array y => exact ⟨y,rfl⟩
  | _ => simp [typeRank] at rank

/- Values of two types are told apart, in key order or not. -/
theorem sameApart {a b : Bson} (differ : typeRank a ≠ typeRank b) :
    sameValue a b = true ↔ canonicalCmp (keyed a) (keyed b) = .eq := by
  have other : sameValue a b = (canonicalCmp a b == .eq) := by
    refine sameOther ?_ ?_
    · rintro x y rfl rfl
      exact differ rfl
    · rintro x y rfl rfl
      exact differ rfl
  rw [other, beq_iff_eq]
  constructor
  · intro same
    exact absurd same (ranksApart differ)
  · intro same
    exact absurd same (ranksApart (by rw [keyedRank, keyedRank]; exact differ))

/- A value that is neither stands in key order. -/
theorem samePlain {a b : Bson} (document : typeRank a ≠ 0x40) (array : typeRank a ≠ 0x50) :
    sameValue a b = true ↔ canonicalCmp (keyed a) (keyed b) = .eq := by
  by_cases rank : typeRank a = typeRank b
  · have plain : ∀ {c : Bson}, typeRank c ≠ 0x40 → typeRank c ≠ 0x50 → keyed c = c := by
      intro c no no'
      cases c with
      | document x => exact absurd rfl no
      | array x => exact absurd rfl no'
      | _ => simp only [keyed]
    rw [plain document array, plain (rank ▸ document) (rank ▸ array), sameOther, beq_iff_eq]
    · rintro x y rfl
      exact absurd rfl document
    · rintro x y rfl
      exact absurd rfl array
  · exact sameApart rank

/-! The normal form. -/

theorem sameFieldsEq {x : List (String × Bson)} {y : Document} :
    sameFields x y = true ↔ ∀ p ∈ x, ∃ w, y.get p.1 = some w ∧ sameValue p.2 w = true := by
  induction x with
  | nil => simp [sameFields]
  | cons p rest ih =>
    rw [sameFields, Bool.and_eq_true, ih, List.forall_mem_cons]
    refine and_congr_left fun _ => ?_
    cases y.get p.1 <;> simp

/- Two values agree with their normal forms. -/
def Normal (a : Bson) : Prop := ∀ b, Distinct b → (sameValue a b = true ↔ canonicalCmp (keyed a) (keyed b) = .eq)

theorem normalDocument {x : List (String × Bson)} (once : (x.map Prod.fst).Nodup) (each : ∀ p ∈ x, Normal p.2) :
    Normal (.document x) := by
  intro b distinct
  by_cases rank : typeRank b = 0x40
  · obtain ⟨y,rfl⟩ := documentRank rank
    obtain ⟨onceY,eachY⟩ : (y.map Prod.fst).Nodup ∧ FieldsDistinct y := distinct
    have names : ∀ l : List (String × Bson), (keyedFields l).map Prod.fst = l.map Prod.fst := by
      intro l
      rw [keyedFieldsEq, List.map_map]
      rfl
    have matched := @matchSorted _ _ _ _ asBytes (keyedFields x) (keyedFields y) (fun v w => canonicalCmp v w = .eq) _ _
      (fun _ _ => asBytesInj) (by rw [names]; exact once) (by rw [names]; exact onceY)
    rw [keyed, keyed, documentsEq, ← matched, sameValue, Bool.and_eq_true, beq_iff_eq, sameFieldsEq, keyedFieldsEq, keyedFieldsEq,
      List.length_map, List.length_map]
    refine and_congr_right fun _ => ?_
    rw [List.forall_mem_map]
    refine forall₂_congr fun p member => ?_
    constructor
    · rintro ⟨w,found,same⟩
      have listed := (getMem onceY).mp found
      exact ⟨keyed w,List.mem_map.mpr ⟨(p.1,w),listed,rfl⟩,(each p member w (fieldDistinct eachY listed)).mp same⟩
    · rintro ⟨v,listed,same⟩
      obtain ⟨⟨k,w⟩,inside,is⟩ := List.mem_map.mp listed
      cases is
      exact ⟨w,(getMem onceY).mpr inside,(each p member w (fieldDistinct eachY inside)).mpr same⟩
  · exact sameApart (Ne.symm rank)

theorem normalPlaces {x y : List Bson} (each : ∀ v ∈ x, Normal v) (distinct : ItemsDistinct y) :
    x.length = y.length ∧ sameItems x y = true ↔
      List.Forall₂ (fun v w => canonicalCmp v w = .eq) (x.map keyed) (y.map keyed) := by
  induction x generalizing y with
  | nil => cases y <;> simp [sameItems]
  | cons v xs ih =>
    cases y with
    | nil => simp [sameItems]
    | cons w ys =>
      have rest := ih (fun u member => each u (List.mem_cons_of_mem v member)) distinct.2
      rw [List.map_cons, List.map_cons, List.forall₂_cons, ← rest, sameItems, Bool.and_eq_true, List.length_cons, List.length_cons,
        Nat.add_right_cancel_iff, each v List.mem_cons_self w distinct.1]
      exact ⟨fun ⟨n,own,rest⟩ => ⟨own,n,rest⟩,fun ⟨own,n,rest⟩ => ⟨n,own,rest⟩⟩

theorem normalArray {x : List Bson} (each : ∀ v ∈ x, Normal v) : Normal (.array x) := by
  intro b distinct
  by_cases rank : typeRank b = 0x50
  · obtain ⟨y,rfl⟩ := arrayRank rank
    rw [keyedArray, keyedArray, arraysEq, sameValue, Bool.and_eq_true, beq_iff_eq]
    exact normalPlaces each distinct
  · exact sameApart (Ne.symm rank)

mutual

theorem normal : (a : Bson) → Distinct a → Normal a
  | .document x, distinct => normalDocument distinct.1 (normalFields x distinct.2)
  | .array x, distinct => normalArray (normalItems x distinct)
  | .double _, _ | .string _, _ | .binary _ _, _ | .undefined, _ | .objectId _, _ | .boolean _, _ | .dateTime _, _
  | .null, _ | .regularExpression _ _, _ | .javaScriptCode _, _ | .javaScriptCodeWithScope _ _, _ | .int32 _, _
  | .timestamp _ _, _ | .int64 _, _ | .decimal128 _, _ | .minKey, _ | .maxKey, _ | .symbol _, _ | .dbPointer, _ =>
      fun _ _ => samePlain (by simp [typeRank]) (by simp [typeRank])

theorem normalFields : (x : List (String × Bson)) → FieldsDistinct x → ∀ p ∈ x, Normal p.2
  | [], _, _, member => by cases member
  | (k,v) :: rest, distinct, p, member => by
      rcases List.mem_cons.mp member with rfl | later
      · exact normal v distinct.1
      · exact normalFields rest distinct.2 p later

theorem normalItems : (x : List Bson) → ItemsDistinct x → ∀ v ∈ x, Normal v
  | [], _, _, member => by cases member
  | w :: rest, distinct, v, member => by
      rcases List.mem_cons.mp member with same | later
      · rw [same]
        exact normal w distinct.1
      · exact normalItems rest distinct.2 v later

end

/-! Neighbours. -/

theorem neighboursSorted {l : List Bson} (sorted : l.Pairwise fun a b => (canonicalCmp a b).isLE = true) :
    neighboursDiffer l = true ↔ l.Pairwise fun a b => canonicalCmp a b ≠ .eq := by
  induction l with
  | nil => simp [neighboursDiffer]
  | cons a rest ih =>
    cases rest with
    | nil => simp [neighboursDiffer]
    | cons b rest =>
      have below := (List.pairwise_cons.mp sorted).1
      have tail := (List.pairwise_cons.mp sorted).2
      rw [neighboursDiffer, Bool.and_eq_true, ih tail, bne_iff_ne]
      refine Iff.trans (and_congr_left fun _ => ?_) List.pairwise_cons.symm
      constructor
      · intro differs c member
        rcases List.mem_cons.mp member with rfl | later
        · exact differs
        · -- One that is equal to the first is no later than the second, which is then equal too.
          intro same
          have up := below b List.mem_cons_self
          have next := (List.pairwise_cons.mp tail).1 c later
          have equal : (canonicalCmp c a).isLE = true := by
            rw [cmpSwap a c, same]
            rfl
          have back := cmpTrans b c a next equal
          rw [cmpSwap a b] at back
          generalize canonicalCmp a b = order at *
          cases order with
          | eq => exact differs rfl
          | lt => cases back
          | gt => cases up
      · intro each
        exact each b List.mem_cons_self

theorem sortedDiffer (l : List Bson) :
    neighboursDiffer (l.mergeSort fun a b => (canonicalCmp a b).isLE) = true ↔ l.Pairwise fun a b => canonicalCmp a b ≠ .eq := by
  have total : ∀ a b, ((canonicalCmp a b).isLE || (canonicalCmp b a).isLE) = true := by
    intro a b
    rw [cmpSwap a b]
    cases canonicalCmp a b <;> rfl
  rw [neighboursSorted (List.pairwise_mergeSort (fun a b c => cmpTrans a b c) total l)]
  refine (List.mergeSort_perm l _).pairwise_iff ?_
  intro a b differs same
  rw [cmpSwap b a, same] at differs
  exact differs rfl

theorem allDistinctExact (items : List Value) :
    allDistinct (items.map Value.bson) = true ↔ items.Pairwise fun a b => sameValue a.bson b.bson = false := by
  have decided : ∀ a b : Value, canonicalCmp (keyed a.bson) (keyed b.bson) ≠ .eq ↔ sameValue a.bson b.bson = false := by
    intro a b
    rw [ne_eq, ← normal a.bson a.distinct b.bson b.distinct, Bool.not_eq_true]
  match items with
  | [] => simp [allDistinct]
  | [a] => simp [allDistinct]
  | [a,b] => simp [allDistinct]
  | a :: b :: c :: rest =>
    rw [List.map_cons, List.map_cons, List.map_cons, allDistinct, keyedItemsEq, sortedDiffer, ← List.map_cons, ← List.map_cons,
      ← List.map_cons, List.map_map, List.pairwise_map]
    · exact ⟨fun each => each.imp fun h => (decided _ _).mp h,fun each => each.imp fun h => (decided _ _).mpr h⟩
    all_goals simp

theorem sameEquivalence : Equivalence fun a b : Value => sameValue a.bson b.bson = true where
  refl := fun a => (normal a.bson a.distinct a.bson a.distinct).mpr (cmpRefl _)
  symm := by
    intro a b same
    have equal := (normal a.bson a.distinct b.bson b.distinct).mp same
    refine (normal b.bson b.distinct a.bson a.distinct).mpr ?_
    rw [cmpSwap (keyed a.bson), equal]
    rfl
  trans := by
    intro a b c first second
    have one := (normal a.bson a.distinct b.bson b.distinct).mp first
    have two := (normal b.bson b.distinct c.bson c.distinct).mp second
    refine (normal a.bson a.distinct c.bson c.distinct).mpr ?_
    rw [cmpCongr one]
    exact two

theorem uniqueItems : (∀ items : List Value, allDistinct (items.map Value.bson) = true ↔
      items.Pairwise fun a b => sameValue a.bson b.bson = false) ∧
    Equivalence fun a b : Value => sameValue a.bson b.bson = true := ⟨allDistinctExact,sameEquivalence⟩

end Kimmy.Schema
