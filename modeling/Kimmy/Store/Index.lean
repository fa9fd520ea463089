import Kimmy.Store.Records

/-!
Secondary indexes (`index.rs`): the keys an index derives from a document, the table of
entries and how one document write brings it in line. A document an index cannot key is
filed once, in the unkeyed run.
-/
namespace Kimmy.Store
open ByteOrder CanonicalCmp KeyEnc

abbrev IndexId := Fin (2 ^ 32)

structure IndexField where
  path : String
  descending : Bool
  deriving DecidableEq

/- The filter of a partial index is checked where the index is created. -/
structure IndexMeta where
  id : IndexId
  name : String
  fields : List IndexField
  unique : Bool
  multikey : Bool
  partialFilter : Option {doc : Document // (PartialFilter.parse doc).isSome}
  deriving DecidableEq

namespace IndexMeta

def selection (index : IndexMeta) : Option PartialFilter :=
  index.partialFilter.map fun doc => (PartialFilter.parse doc.val).get doc.property

end IndexMeta

/-! The keys of a document. -/

/- `dedup_by`: an element goes when it is the same as the one kept before it. -/
def dedupAfter (kept : Bson) : List Bson → List Bson
  | [] => []
  | value :: rest =>
      if canonicalCmp value kept == .eq then dedupAfter kept rest else value :: dedupAfter value rest

def dedupValues : List Bson → List Bson
  | [] => []
  | value :: rest => value :: dedupAfter value rest

def isArray : Bson → Bool
  | .array _ => true
  | _ => false

/- An array offers its elements and itself. -/
def offered (value : Bson) : List Bson :=
  match value with
  | .array items => items ++ [value]
  | _ => [value]

/- The values a document offers at a path: null where the path is absent. -/
def fieldValues (doc : Document) (path : String) : List Bson :=
  dedupValues (match resolve doc path with
    | [] => [.null]
    | resolved => resolved.flatMap offered)

/- A path that resolves to several values has fanned out through an array. -/
def fansOut (doc : Document) (path : String) : Bool :=
  decide (1 < (resolve doc path).length) || (resolve doc path).any isArray

/- Two arrays, named by their places, lie on one path. -/
def onOnePath (a b : String) : Bool :=
  a == b || (b.toList ++ ['.']).isPrefixOf a.toList || (a.toList ++ ['.']).isPrefixOf b.toList

/- The places of the arrays met, each once, in the order of the fields. -/
def arraysMet (index : IndexMeta) (doc : Document) : List String :=
  (index.fields.flatMap fun field => arrayPrefixes doc field.path).foldl
    (fun met place => if met.contains place then met else met ++ [place]) []

/- The first place that is off the path of an earlier one, with that one. -/
def firstParallel (earlier : List String) : List String → Option (String × String)
  | [] => none
  | later :: rest => match earlier.find? fun place => !onOnePath place later with
      | some place => some (place,later)
      | none => firstParallel (earlier ++ [later]) rest

def parallelArrays (index : IndexMeta) (doc : Document) : Option (String × String) :=
  firstParallel [] (arraysMet index doc)

def maxKeysPerDocument : Nat := 1000

/- The product over the fields, abandoned as soon as it is too large. -/
def combine (keys : List (List (Bson × Bool))) : List (IndexField × List Bson) → Option (List (List (Bson × Bool)))
  | [] => some keys
  | (field,values) :: rest =>
      let next := keys.flatMap fun before => values.map fun value => before ++ [(value,field.descending)]
      if maxKeysPerDocument < next.length then none else combine next rest

inductive DocumentKeys where
  | keyed (keys : List Bytes) (multikey : Bool)
  | unkeyed (cause : UnkeyedCause) (multikey : Bool)

def documentKeys (index : IndexMeta) (doc : Document) : DocumentKeys :=
  if index.selection.any fun filter => !filter.selects doc then .keyed [] false
  else
    let multikey := index.fields.any fun field => fansOut doc field.path
    if 1 < index.fields.length && (parallelArrays index doc).isSome then .unkeyed .parallelArrays multikey
    else match combine [[]] (index.fields.map fun field => (field,fieldValues doc field.path)) with
      | none => .unkeyed .tooManyKeys multikey
      | some keys => match keys.mapM encodeCompoundOrdered with
          | none => .unkeyed .unencodable multikey
          | some encoded => .keyed (encoded.insertionSort (· ≤ ·)).dedup multikey

namespace DocumentKeys

/- The key of the unkeyed run. -/
def unkeyedRun : Bytes := []

/- The keys an image is filed under. -/
def filed : DocumentKeys → List Bytes
  | .keyed keys _ => keys
  | .unkeyed _ _ => [unkeyedRun]

def multikey : DocumentKeys → Bool
  | .keyed _ multikey | .unkeyed _ multikey => multikey

def isUnkeyed : DocumentKeys → Bool
  | .keyed _ _ => false
  | .unkeyed _ _ => true

/- The keys uniqueness is about: an unkeyed image has none. -/
def keys : DocumentKeys → List Bytes
  | .keyed keys _ => keys
  | .unkeyed _ _ => []

end DocumentKeys

/-! The table of entries. -/

structure IndexKey where
  collection : CollectionId
  index : IndexId
  key : Bytes
  doc : DocKey

instance : LinearOrder IndexKey :=
  LinearOrder.lift' (fun k => toLex (k.collection,toLex (k.index,toLex (k.key,k.doc))))
    fun x y same => by cases x; cases y; simpa using same

/- Every document filed under one exact key. -/
def holdersOf (rows : SortedMap IndexKey Unit) (coll : CollectionId) (index : IndexId) (key : Bytes) :
    List DocKey :=
  ((rows.range ⟨coll,index,key,[]⟩).takeWhile fun x =>
    x.1.collection = coll && x.1.index = index && x.1.key = key).map fun x => x.1.doc

def file (rows : SortedMap IndexKey Unit) (coll : CollectionId) (index : IndexId) (keys : List Bytes)
    (doc : DocKey) : SortedMap IndexKey Unit :=
  keys.foldl (fun rows key => rows.insert ⟨coll,index,key,doc⟩ ()) rows

def unfile (rows : SortedMap IndexKey Unit) (coll : CollectionId) (index : IndexId) (keys : List Bytes)
    (doc : DocKey) : SortedMap IndexKey Unit :=
  keys.foldl (fun rows key => rows.remove ⟨coll,index,key,doc⟩) rows

/- The definitions of a collection. An index id is derived from the index's name, and a
create whose id is taken is refused. -/
structure CollectionMeta where
  indexes : List IndexMeta
  distinct : indexes.Pairwise fun x y => x.id ≠ y.id

theorem CollectionMeta.unindexed : ([] : List IndexMeta).Pairwise fun x y => x.id ≠ y.id := List.Pairwise.nil

structure UnkeyedFiling where
  index : String
  cause : UnkeyedCause

structure UniqueViolation where
  index : String
  key : Bytes
  holders : List DocKey

/- What a write is refused for. -/
inductive StorageError where
  | unkeyed (index : String) (cause : UnkeyedCause)
  | uniqueViolation (index : String)
  | duplicateKey
  | stale (current : Option Stamp)
  | notAdmitted
  deriving DecidableEq

/- One image's keys under an index go and the next one's come. -/
def applyEntry (coll : CollectionId) (old new : Option Document) (doc : DocKey) (rows : SortedMap IndexKey Unit)
    (index : IndexMeta) : SortedMap IndexKey Unit :=
  let rows := match old with
    | some image => unfile rows coll index.id (documentKeys index image).filed doc
    | none => rows
  match new with
  | some image => file rows coll index.id (documentKeys index image).filed doc
  | none => rows

/- A document that stays unkeyed across a write is no new fact. -/
def filing (old : Option Document) (image : Document) (index : IndexMeta) : Option UnkeyedFiling :=
  match documentKeys index image with
  | .unkeyed cause _ =>
      if old.any fun image => (documentKeys index image).isUnkeyed then none else some ⟨index.name,cause⟩
  | .keyed _ _ => none

structure Maintained where
  rows : SortedMap IndexKey Unit
  newlyMultikey : List IndexId
  filings : List UnkeyedFiling

def applyEntries (rows : SortedMap IndexKey Unit) (coll : CollectionId) (indexes : List IndexMeta)
    (old new : Option Document) (doc : DocKey) : Maintained where
  rows := indexes.foldl (applyEntry coll old new doc) rows
  newlyMultikey := match new with
    | some image => (indexes.filter fun index => (documentKeys index image).multikey && !index.multikey).map (·.id)
    | none => []
  filings := match new with
    | some image => indexes.filterMap (filing old image)
    | none => []

/- What one index has against an image: a unique one must be able to key it under keys that
no other document holds, and any other refuses only what it cannot key. -/
def objection (rows : SortedMap IndexKey Unit) (coll : CollectionId) (doc : DocKey) (refuse : Bool)
    (image : Document) (index : IndexMeta) : Option StorageError :=
  match documentKeys index image with
  | .unkeyed cause _ => if index.unique || refuse then some (.unkeyed index.name cause) else none
  | .keyed keys _ =>
      if index.unique && keys.any fun key => (holdersOf rows coll index.id key).any fun holder => holder ≠ doc
      then some (.uniqueViolation index.name)
      else none

/- Every constraint is checked before anything is changed. -/
def maintainLocal (rows : SortedMap IndexKey Unit) (coll : CollectionId) (indexes : List IndexMeta)
    (old new : Option Document) (doc : DocKey) (refuse : Bool) : Except StorageError Maintained :=
  match new.bind fun image => indexes.findSome? (objection rows coll doc refuse image) with
  | some error => .error error
  | none => .ok (applyEntries rows coll indexes old new doc)

/- The other holders of a key, and then the document itself. -/
def violation (rows : SortedMap IndexKey Unit) (coll : CollectionId) (doc : DocKey) (index : IndexMeta)
    (key : Bytes) : Option UniqueViolation :=
  match (holdersOf rows coll index.id key).filter fun holder => holder ≠ doc with
  | [] => none
  | holders => some ⟨index.name,key,holders ++ [doc]⟩

/- A replicated write is never refused: what it breaks is returned. -/
def violations (rows : SortedMap IndexKey Unit) (coll : CollectionId) (doc : DocKey) (indexes : List IndexMeta)
    (image : Document) : List UniqueViolation :=
  (indexes.filter (·.unique)).flatMap fun index =>
    (documentKeys index image).keys.filterMap (violation rows coll doc index)

def maintainRemote (rows : SortedMap IndexKey Unit) (coll : CollectionId) (indexes : List IndexMeta)
    (old new : Option Document) (doc : DocKey) : List UniqueViolation × Maintained :=
  ((new.map (violations rows coll doc indexes)).getD [],applyEntries rows coll indexes old new doc)

/- The flag is only ever set. -/
def CollectionMeta.markMultikey (coll : CollectionMeta) (ids : List IndexId) : CollectionMeta where
  indexes := coll.indexes.map fun index =>
    if ids.contains index.id then { index with multikey := true } else index
  distinct := List.pairwise_map.mpr (coll.distinct.imp fun apart => by
    split_ifs
    · exact apart
    · exact apart
    · exact apart
    · exact apart)

/-! The entries after a write. -/

theorem memFile {rows coll index keys doc} {k : IndexKey} :
    (file rows coll index keys doc).get k = some () ↔
      (k.collection = coll ∧ k.index = index ∧ k.doc = doc ∧ k.key ∈ keys) ∨ rows.get k = some () := by
  unfold file
  induction keys generalizing rows with
  | nil => simp
  | cons key rest ih =>
      obtain ⟨c, i, b, d⟩ := k
      rw [List.foldl_cons, ih, SortedMap.getInsert]
      by_cases here : (⟨c,i,b,d⟩ : IndexKey) = ⟨coll,index,key,doc⟩
      · obtain ⟨rfl, rfl, rfl, rfl⟩ := IndexKey.mk.injEq .. ▸ here
        simp
      · simp only [here, if_false, List.mem_cons]
        simp only [IndexKey.mk.injEq] at here
        tauto

theorem memUnfile {rows coll index keys doc} {k : IndexKey} :
    (unfile rows coll index keys doc).get k = some () ↔
      ¬ (k.collection = coll ∧ k.index = index ∧ k.doc = doc ∧ k.key ∈ keys) ∧ rows.get k = some () := by
  unfold unfile
  induction keys generalizing rows with
  | nil => simp
  | cons key rest ih =>
      obtain ⟨c, i, b, d⟩ := k
      rw [List.foldl_cons, ih, SortedMap.getRemove]
      by_cases here : (⟨c,i,b,d⟩ : IndexKey) = ⟨coll,index,key,doc⟩
      · obtain ⟨rfl, rfl, rfl, rfl⟩ := IndexKey.mk.injEq .. ▸ here
        simp
      · simp only [here, if_false, List.mem_cons]
        simp only [IndexKey.mk.injEq] at here
        tauto

/- Between the start of a key's run and one of its entries there is nothing else. -/
theorem runConvex {coll index key} {y z : IndexKey} (start : ⟨coll,index,key,[]⟩ ≤ y) (below : y < z)
    (inside : z.collection = coll ∧ z.index = index ∧ z.key = key) :
    y.collection = coll ∧ y.index = index ∧ y.key = key := by
  obtain ⟨c, i, b, d⟩ := y
  obtain ⟨c', i', b', d'⟩ := z
  obtain ⟨rfl, rfl, rfl⟩ := inside
  have low : toLex (c',toLex (i',toLex (b',([] : DocKey)))) ≤ toLex (c,toLex (i,toLex (b,d))) := start
  have high : toLex (c,toLex (i,toLex (b,d))) < toLex (c',toLex (i',toLex (b',d'))) := below
  simp only [Prod.Lex.toLex_le_toLex, Prod.Lex.toLex_lt_toLex] at low high
  rcases low with low | ⟨rfl, low⟩
  · rcases high with high | ⟨rfl, _⟩
    · exact absurd low high.not_gt
    · exact absurd low (lt_irrefl _)
  · rcases high with high | ⟨_, high⟩
    · exact absurd high (lt_irrefl _)
    · rcases low with low | ⟨rfl, low⟩
      · rcases high with high | ⟨rfl, _⟩
        · exact absurd low high.not_gt
        · exact absurd low (lt_irrefl _)
      · rcases high with high | ⟨_, high⟩
        · exact absurd high (lt_irrefl _)
        · rcases low with low | ⟨rfl, low⟩
          · rcases high with high | ⟨rfl, _⟩
            · exact absurd low high.not_gt
            · exact absurd low (lt_irrefl _)
          · exact ⟨rfl,rfl,rfl⟩

theorem memHolders {rows coll index key doc} :
    doc ∈ holdersOf rows coll index key ↔ rows.get ⟨coll,index,key,doc⟩ = some () := by
  have walk (x : IndexKey × Unit) := SortedMap.memTakeWhile (x := x)
    (p := fun k => k.collection = coll && k.index = index && k.key = key)
    (rows.rangeSorted ⟨coll,index,key,[]⟩) fun y member z _ below inside => by
      have inside : z.1.collection = coll ∧ z.1.index = index ∧ z.1.key = key := by
        simpa [and_assoc] using inside
      simpa [and_assoc] using runConvex (SortedMap.memRange.mp member).2 below inside
  rw [holdersOf, List.mem_map]
  constructor
  · rintro ⟨x, member, rfl⟩
    obtain ⟨found, inside⟩ := (walk x).mp member
    obtain ⟨⟨rfl, rfl⟩, rfl⟩ : (x.1.collection = coll ∧ x.1.index = index) ∧ x.1.key = key := by
      simpa using inside
    exact (SortedMap.memRange.mp found).1
  · intro held
    refine ⟨(⟨coll,index,key,doc⟩,()),(walk _).mpr ⟨SortedMap.memRange.mpr ⟨held,?_⟩,by simp⟩,rfl⟩
    have least : toLex (coll,toLex (index,toLex (key,([] : DocKey)))) ≤ toLex (coll,toLex (index,toLex (key,doc))) := by
      simpa [Prod.Lex.toLex_le_toLex] using not_lt.mp (List.not_lt_nil doc)
    exact least

end Kimmy.Store
