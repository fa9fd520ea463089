import Kimmy.Store.Index

/-!
What index maintenance keeps, over one collection. A view gives the live image under each
document key, and one write changes it at one key. The entries of every index are those of
the view, an index that is not multikey sees one value for each field, and a unique key
comes to be shared only where a replicated write reports it.
-/
namespace Kimmy.Store
open ByteOrder CanonicalCmp KeyEnc

abbrev View := DocKey → Option Document

/- The keys the image is filed under, none where there is none. -/
def filedUnder (index : IndexMeta) (image : Option Document) : List Bytes :=
  (image.map fun doc => (documentKeys index doc).filed).getD []

def Exact (coll : CollectionId) (indexes : List IndexMeta) (rows : SortedMap IndexKey Unit) (view : View) : Prop :=
  ∀ index ∈ indexes, ∀ key doc, rows.get ⟨coll,index.id,key,doc⟩ = some () ↔ key ∈ filedUnder index (view doc)

def FlagsSound (indexes : List IndexMeta) (view : View) : Prop :=
  ∀ index ∈ indexes, index.multikey = false → ∀ doc image, view doc = some image →
    (documentKeys index image).multikey = false

/- Two documents hold one key of an index. -/
def Shares (index : IndexMeta) (view : View) (x y : DocKey) : Prop :=
  ∃ imageX imageY key, view x = some imageX ∧ view y = some imageY ∧
    key ∈ (documentKeys index imageX).keys ∧ key ∈ (documentKeys index imageY).keys

theorem sharesSymm {index view x y} (shared : Shares index view x y) : Shares index view y x := by
  obtain ⟨imageX, imageY, key, atX, atY, inX, inY⟩ := shared
  exact ⟨imageY,imageX,key,atY,atX,inY,inX⟩

theorem keysFiled {keys : DocumentKeys} {key} (member : key ∈ keys.keys) : key ∈ keys.filed := by
  cases keys with
  | keyed keys multikey => exact member
  | unkeyed cause multikey => exact absurd member List.not_mem_nil

/-! The entries. -/

theorem memApplyEntry {coll old new doc rows index} {k : IndexKey} :
    (applyEntry coll old new doc rows index).get k = some () ↔
      (k.collection = coll ∧ k.index = index.id ∧ k.doc = doc ∧ k.key ∈ filedUnder index new) ∨
      (¬ (k.collection = coll ∧ k.index = index.id ∧ k.doc = doc ∧ k.key ∈ filedUnder index old) ∧
        rows.get k = some ()) := by
  cases old with
  | none => cases new with
    | none => simp [applyEntry, filedUnder]
    | some image => simp [applyEntry, filedUnder, memFile]
  | some before => cases new with
    | none => simp [applyEntry, filedUnder, memUnfile]
    | some image => simp only [applyEntry, filedUnder, memFile, memUnfile, Option.map_some, Option.getD_some]

theorem applyEntriesRows {rows coll indexes old new doc} : (applyEntries rows coll indexes old new doc).rows =
    indexes.foldl (applyEntry coll old new doc) rows := rfl

/- Only the entries of the collection's own indexes for that document change. -/
theorem applyEntriesFrame {coll old new doc} {k : IndexKey} : ∀ {indexes : List IndexMeta} {rows},
    (∀ index ∈ indexes, ¬ (k.collection = coll ∧ k.index = index.id ∧ k.doc = doc)) →
    ((indexes.foldl (applyEntry coll old new doc) rows).get k = some () ↔ rows.get k = some ())
  | [], _, _ => Iff.rfl
  | index :: rest, rows, apart => by
      have here := apart index List.mem_cons_self
      rw [List.foldl_cons, applyEntriesFrame fun i member => apart i (List.mem_cons_of_mem _ member), memApplyEntry]
      tauto

theorem memApplyEntries {coll old new doc key} : ∀ {indexes : List IndexMeta} {rows} {index : IndexMeta},
    indexes.Pairwise (fun x y => x.id ≠ y.id) → index ∈ indexes →
    ((indexes.foldl (applyEntry coll old new doc) rows).get ⟨coll,index.id,key,doc⟩ = some () ↔
      key ∈ filedUnder index new ∨
        (key ∉ filedUnder index old ∧ rows.get ⟨coll,index.id,key,doc⟩ = some ()))
  | head :: rest, rows, index, distinct, member => by
      obtain ⟨apart, tail⟩ := List.pairwise_cons.mp distinct
      rw [List.foldl_cons]
      rcases List.mem_cons.mp member with rfl | later
      · rw [applyEntriesFrame fun i there => ?_, memApplyEntry]
        · simp
        · exact fun same => apart i there same.2.1
      · rw [memApplyEntries tail later, memApplyEntry]
        have other : index.id ≠ head.id := (apart index later).symm
        simp [other]

theorem exactUpdate {coll rows view old new doc} {indexes : List IndexMeta}
    (distinct : indexes.Pairwise fun x y => x.id ≠ y.id) (exact : Exact coll indexes rows view)
    (before : view doc = old) :
    Exact coll indexes (applyEntries rows coll indexes old new doc).rows (Function.update view doc new) := by
  intro index member key other
  by_cases same : other = doc
  · subst same
    rw [applyEntriesRows, memApplyEntries distinct member, exact index member, before, Function.update_self]
    tauto
  · rw [applyEntriesRows, applyEntriesFrame fun i _ => ?_, exact index member, Function.update_of_ne same]
    exact fun all => same all.2.2

/- Another collection's entries stand. -/
theorem exactElsewhere {coll other rows view old new doc} {indexes theirs : List IndexMeta} (apart : other ≠ coll)
    (exact : Exact other theirs rows view) :
    Exact other theirs (applyEntries rows coll indexes old new doc).rows view := by
  intro index member key holder
  rw [applyEntriesRows, applyEntriesFrame fun i _ => ?_, exact index member]
  exact fun all => apart all.1

/-! The multikey flag. -/

/- The keys of a document do not depend on what the flag says. -/
theorem markedKeys (index : IndexMeta) (doc : Document) :
    documentKeys { index with multikey := true } doc = documentKeys index doc := rfl

theorem memMarked {meta' : CollectionMeta} {ids : List IndexId} {index : IndexMeta}
    (member : index ∈ (meta'.markMultikey ids).indexes) :
    ∃ i ∈ meta'.indexes, (index = i ∧ ids.contains i.id = false) ∨
      (index = { i with multikey := true } ∧ ids.contains i.id = true) := by
  obtain ⟨i, there, rfl⟩ := List.mem_map.mp member
  refine ⟨i,there,?_⟩
  split_ifs with named
  · exact Or.inr ⟨rfl,named⟩
  · exact Or.inl ⟨rfl,by simpa using named⟩

theorem exactMarked {coll rows view ids} {meta' : CollectionMeta} (exact : Exact coll meta'.indexes rows view) :
    Exact coll (meta'.markMultikey ids).indexes rows view := by
  intro index member key doc
  obtain ⟨i, there, ⟨rfl, _⟩ | ⟨rfl, _⟩⟩ := memMarked member
  · exact exact index there key doc
  · exact exact i there key doc

theorem flagsUpdate {rows coll view old new doc} {meta' : CollectionMeta} (sound : FlagsSound meta'.indexes view) :
    FlagsSound (meta'.markMultikey (applyEntries rows coll meta'.indexes old new doc).newlyMultikey).indexes
      (Function.update view doc new) := by
  intro index member unset other image found
  obtain ⟨i, there, ⟨rfl, unnamed⟩ | ⟨rfl, _⟩⟩ := memMarked member
  · by_cases same : other = doc
    · subst same
      rw [Function.update_self] at found
      subst found
      by_contra flips
      have named : index.id ∈ (applyEntries rows coll meta'.indexes old (some image) other).newlyMultikey := by
        refine List.mem_map.mpr ⟨index,List.mem_filter.mpr ⟨there,?_⟩,rfl⟩
        simpa [unset] using flips
      simp [named] at unnamed
    · rw [Function.update_of_ne same] at found
      exact sound index there unset other image found
  · exact absurd unset (by simp)

/- An image that does not make an index multikey offers one value for each field. -/
theorem oneValue {index : IndexMeta} {image : Document} {field : IndexField}
    (single : (documentKeys index image).multikey = false)
    (selected : ∀ filter ∈ index.selection, filter.selects image = true) (member : field ∈ index.fields) :
    (fieldValues image field.path).length ≤ 1 := by
  have fans : fansOut image field.path = false := by
    have all : index.fields.any (fun field => fansOut image field.path) = false := by
      have inside : ¬ (index.selection.any fun filter => !filter.selects image) = true := by
        cases chosen : index.selection with
        | none => simp
        | some filter => simpa using selected filter chosen
      unfold documentKeys at single
      rw [if_neg inside] at single
      simp only at single
      split_ifs at single
      · exact single
      · split at single
        · exact single
        · split at single
          · exact single
          · exact single
    exact Bool.eq_false_iff.mpr (List.any_eq_false.mp all field member)
  unfold fieldValues
  unfold fansOut at fans
  match resolved : resolve image field.path with
  | [] => simp [dedupValues, dedupAfter]
  | [value] =>
      have plain : isArray value = false := by simpa [resolved] using fans
      cases value with
      | array items => simp [isArray] at plain
      | _ => simp [offered, dedupValues, dedupAfter]
  | value :: next :: rest => simp [resolved] at fans

/-! Shared keys. -/

theorem sharesElsewhere {index view doc new x y} (left : x ≠ doc) (right : y ≠ doc) :
    Shares index (Function.update view doc new) x y ↔ Shares index view x y := by
  unfold Shares
  rw [Function.update_of_ne left, Function.update_of_ne right]

/- A document that comes to share a key of the index with another one. -/
theorem sharesHolder {coll rows view doc new other} {indexes : List IndexMeta} {index : IndexMeta}
    (exact : Exact coll indexes rows view) (member : index ∈ indexes) (apart : other ≠ doc)
    (shared : Shares index (Function.update view doc new) doc other) :
    ∃ image key, new = some image ∧ key ∈ (documentKeys index image).keys ∧
      other ∈ holdersOf rows coll index.id key := by
  obtain ⟨image, theirs, key, own, found, inOwn, inTheirs⟩ := shared
  rw [Function.update_self] at own
  rw [Function.update_of_ne apart] at found
  refine ⟨image,key,own,inOwn,memHolders.mpr ((exact index member key other).mpr ?_)⟩
  rw [filedUnder, found]
  exact keysFiled inTheirs

/- A local write that is not refused shares no key with another document. -/
theorem localUnshared {coll rows view doc old new refuse other} {indexes : List IndexMeta} {index : IndexMeta}
    {done : Maintained} (exact : Exact coll indexes rows view) (member : index ∈ indexes)
    (unique : index.unique = true) (apart : other ≠ doc)
    (accepted : maintainLocal rows coll indexes old new doc refuse = .ok done) :
    ¬ Shares index (Function.update view doc new) doc other := by
  intro shared
  obtain ⟨image, key, rfl, own, holder⟩ := sharesHolder exact member apart shared
  unfold maintainLocal at accepted
  split at accepted
  · cases accepted
  next none =>
    have silent := List.findSome?_eq_none_iff.mp none index member
    unfold objection at silent
    split at silent
    next cause multikey shape =>
      rw [shape] at own
      exact absurd own List.not_mem_nil
    next keys multikey shape =>
      rw [shape] at own
      have clash : (index.unique && keys.any fun key =>
          (holdersOf rows coll index.id key).any fun holder => holder ≠ doc) = true := by
        rw [unique, Bool.true_and, List.any_eq_true]
        refine ⟨key,own,List.any_eq_true.mpr ⟨other,holder,?_⟩⟩
        simpa using apart
      rw [if_pos clash] at silent
      cases silent

/- A replicated write that comes to share a key with another document reports both. -/
theorem remoteReported {coll rows view doc new other} (old : Option Document) {indexes : List IndexMeta}
    {index : IndexMeta} (exact : Exact coll indexes rows view) (member : index ∈ indexes) (unique : index.unique = true)
    (apart : other ≠ doc) (shared : Shares index (Function.update view doc new) doc other) :
    ∃ v ∈ (maintainRemote rows coll indexes old new doc).1,
      v.index = index.name ∧ doc ∈ v.holders ∧ other ∈ v.holders := by
  obtain ⟨image, key, rfl, own, holder⟩ := sharesHolder exact member apart shared
  have others : other ∈ (holdersOf rows coll index.id key).filter fun holder => holder ≠ doc := by
    rw [List.mem_filter]
    exact ⟨holder,by simpa using apart⟩
  have found : ∃ v, violation rows coll doc index key = some v ∧
      v.index = index.name ∧ doc ∈ v.holders ∧ other ∈ v.holders := by
    unfold violation
    split
    next none =>
      rw [none] at others
      exact absurd others List.not_mem_nil
    next =>
      refine ⟨_,rfl,rfl,?_,?_⟩
      · exact List.mem_append_right _ (List.mem_singleton.mpr rfl)
      · exact List.mem_append_left _ others
  obtain ⟨v, made, named, both⟩ := found
  refine ⟨v,List.mem_flatMap.mpr ⟨index,List.mem_filter.mpr ⟨member,unique⟩,?_⟩,named,both⟩
  exact List.mem_filterMap.mpr ⟨key,own,made⟩

/- Another live document is filed under a key of the image. -/
def Contested (index : IndexMeta) (view : View) (doc : DocKey) (new : Option Document) : Prop :=
  ∃ image other theirs key, new = some image ∧ other ≠ doc ∧ view other = some theirs ∧
    key ∈ (documentKeys index image).keys ∧ key ∈ (documentKeys index theirs).filed

theorem contestedBy {coll rows view doc image other key} {indexes : List IndexMeta} {index : IndexMeta}
    (exact : Exact coll indexes rows view) (member : index ∈ indexes) (own : key ∈ (documentKeys index image).keys)
    (holder : other ∈ holdersOf rows coll index.id key) (apart : other ≠ doc) :
    Contested index view doc (some image) := by
  have filed := (exact index member key other).mp (memHolders.mp holder)
  cases found : view other with
  | none =>
      rw [found] at filed
      exact absurd filed List.not_mem_nil
  | some theirs =>
      rw [found] at filed
      exact ⟨image,other,theirs,key,rfl,apart,found,own,filed⟩

/- A write is refused for a unique key, or reported, only on account of another document. -/
theorem refusedContested {coll rows view doc old new refuse name} {indexes : List IndexMeta}
    (exact : Exact coll indexes rows view)
    (refused : maintainLocal rows coll indexes old new doc refuse = .error (.uniqueViolation name)) :
    ∃ index ∈ indexes, index.name = name ∧ Contested index view doc new := by
  unfold maintainLocal at refused
  split at refused
  next error raised =>
    cases refused
    cases new with
    | none => cases raised
    | some image =>
        obtain ⟨index, member, objects⟩ := List.exists_of_findSome?_eq_some raised
        unfold objection at objects
        split at objects
        · split_ifs at objects
          cases objects
        next keys multikey shape =>
          split_ifs at objects with clash
          cases objects
          rw [Bool.and_eq_true, List.any_eq_true] at clash
          obtain ⟨_, key, own, held⟩ := clash
          obtain ⟨other, holder, apart⟩ := List.any_eq_true.mp held
          have mine : key ∈ (documentKeys index image).keys := by rwa [shape]
          exact ⟨index,member,rfl,contestedBy exact member mine holder (by simpa using apart)⟩
  · cases refused

theorem reportedContested {coll rows view doc old new} {indexes : List IndexMeta} {v : UniqueViolation}
    (exact : Exact coll indexes rows view) (made : v ∈ (maintainRemote rows coll indexes old new doc).1) :
    ∃ index ∈ indexes, index.name = v.index ∧ Contested index view doc new := by
  cases new with
  | none => exact absurd made List.not_mem_nil
  | some image =>
      obtain ⟨index, member, found⟩ := List.mem_flatMap.mp made
      obtain ⟨key, own, found⟩ := List.mem_filterMap.mp found
      have there := (List.mem_filter.mp member).1
      unfold violation at found
      split at found
      · cases found
      next holders some =>
        cases found
        obtain ⟨other, more, list⟩ := List.exists_cons_of_ne_nil some
        have inside : other ∈ (holdersOf rows coll index.id key).filter fun holder => holder ≠ doc := by
          rw [list]
          exact List.mem_cons_self
        obtain ⟨holder, apart⟩ := List.mem_filter.mp inside
        exact ⟨index,there,rfl,contestedBy exact there own holder (by simpa using apart)⟩

end Kimmy.Store
