import Kimmy.Store.Indexed

/-!
Creating and dropping indexes (`index.rs`), beside writes of documents. An index is filled in the transaction
that defines it and emptied in the one that drops it, so what is filed is exact throughout. Refused builds
commit nothing and are no acts.
-/
namespace Kimmy.Store
open Merge ByteOrder

namespace CollectionMeta

def withoutIndex (definition : CollectionMeta) (id : IndexId) : CollectionMeta where
  indexes := definition.indexes.filter fun index => index.id ≠ id
  distinct := definition.distinct.filter _

/- An id is derived from the name, so a definition of the same name goes. -/
def withIndex (definition : CollectionMeta) (index : IndexMeta) : CollectionMeta where
  indexes := (definition.withoutIndex index.id).indexes ++ [index]
  distinct := by
    refine List.pairwise_append.mpr ⟨(definition.withoutIndex index.id).distinct,List.pairwise_singleton _ _,?_⟩
    intro x member y last
    rw [List.mem_singleton.mp last]
    simpa using (List.mem_filter.mp member).2

end CollectionMeta

/- The live images of a collection, in the order of their keys. -/
def Tables.liveIn (t : Tables) (coll : CollectionId) : List (DocKey × Document) :=
  t.docs.entries.filterMap fun (a,record) =>
    if a.collection = coll then record.document.map fun image => (a.key,image) else none

def clearIndex (rows : SortedMap IndexKey Unit) (coll : CollectionId) (id : IndexId) : SortedMap IndexKey Unit :=
  rows.retain fun k _ => !(k.collection = coll && k.index = id)

def fillIndex (rows : SortedMap IndexKey Unit) (coll : CollectionId) (index : IndexMeta)
    (live : List (DocKey × Document)) : SortedMap IndexKey Unit :=
  live.foldl (fun rows (key,image) => file rows coll index.id (documentKeys index image).filed key) rows

namespace Tables

def dropIndex (t : Tables) (coll : CollectionId) (id : IndexId) : Tables :=
  match t.collections.get coll with
  | none => t
  | some definition =>
      { t with
        entries := clearIndex t.entries coll id
        collections := t.collections.insert coll (definition.withoutIndex id) }

/- What a build that went through leaves: a superseded definition of the name goes first, and the flag is
what the documents showed. -/
def createIndex (t : Tables) (coll : CollectionId) (index : IndexMeta) : Tables :=
  match t.collections.get coll with
  | none => t
  | some definition =>
      let live := t.liveIn coll
      let rows := if definition.indexes.any fun other => other.id = index.id then clearIndex t.entries coll index.id
        else t.entries
      let built := { index with multikey := live.any fun (_,image) => (documentKeys index image).multikey }
      { t with
        entries := fillIndex rows coll index live
        collections := t.collections.insert coll (definition.withIndex built) }

end Tables

/- A committed transaction of another caller. -/
inductive Act where
  | op (op : Op)
  | createIndex (coll : CollectionId) (index : IndexMeta)
  | dropIndex (coll : CollectionId) (id : IndexId)

namespace Engine

def act (e : Engine) : Act → Engine
  | .op op => e.step op
  | .createIndex coll index => { e with db := e.db.createIndex coll index }
  | .dropIndex coll id => { e with db := e.db.dropIndex coll id }

def acts (e : Engine) (list : List Act) : Engine := list.foldl act e

end Engine

/-! What acts keep. -/

namespace Holding

/- Every entry belongs to an index that stands. -/
def Tidy (h : Holding) : Prop := ∀ k, h.entries.get k = some () → ∃ index ∈ h.indexes k.collection, index.id = k.index

structure Kept (h : Holding) : Prop where
  sound : h.Sound
  tidy : h.Tidy

theorem tidySettle {h : Holding} {coll key new} (tidy : h.Tidy) : (h.settle coll key new (h.applied coll key new)).Tidy := by
  intro k found
  have stands (index : IndexMeta) (member : index ∈ h.indexes k.collection) :
      ∃ after ∈ (h.settle coll key new (h.applied coll key new)).indexes k.collection, after.id = index.id := by
    by_cases here : k.collection = coll
    · rw [here] at member ⊢
      cases defined : h.collections.get coll with
      | none =>
        rw [(@indexesUndefined _ _ key new (h.applied coll key new) defined).1] at member
        exact absurd member List.not_mem_nil
      | some definition =>
        obtain ⟨before, after⟩ := settledIndexes key new (h.applied coll key new) defined
        rw [before] at member
        rw [after]
        refine ⟨_,List.mem_map.mpr ⟨index,member,rfl⟩,?_⟩
        split_ifs <;> rfl
    · rw [indexesElsewhere here]
      exact ⟨index,member,rfl⟩
  have before : ∃ index ∈ h.indexes k.collection, index.id = k.index := by
    by_contra none
    push Not at none
    refine absurd (tidy k ?_) (by push Not; exact none)
    have frame := @applyEntriesFrame coll (h.images ⟨coll,key⟩) new key k (h.indexes coll) h.entries fun index member same => none index (same.1 ▸ member) same.2.1.symm
    exact frame.mp found
  obtain ⟨index,member,is⟩ := before
  obtain ⟨after,there,same⟩ := stands index member
  exact ⟨after,there,same.trans is⟩

theorem tidyLocal {h k : Holding} (change : LocalChange h k) (tidy : h.Tidy) : k.Tidy := by
  obtain ⟨coll, key, new, done, accepted⟩ := change
  rw [localApplied accepted]
  exact tidySettle tidy

end Holding

theorem keptLocals {h k : Holding} (changes : LocalChanges h k) (kept : h.Kept) : k.Kept := by
  refine ⟨soundLocals changes kept.sound,?_⟩
  induction changes with
  | refl => exact kept.tidy
  | tail _ change ih => exact Holding.tidyLocal change ih

theorem keptRemotes {h k : Holding} {reports} (changes : RemoteChanges h reports k) (kept : h.Kept) : k.Kept := by
  refine ⟨soundRemotes changes kept.sound,?_⟩
  have tidy := kept.tidy
  clear kept
  induction changes with
  | nil => exact tidy
  | cons first rest ih =>
    obtain ⟨new⟩ := first
    exact ih (Holding.tidySettle tidy)

/-! Filling and clearing. -/

theorem memLive {t : Tables} {coll : CollectionId} {key : DocKey} {image : Document} :
    (key,image) ∈ t.liveIn coll ↔ t.image ⟨coll,key⟩ = some image := by
  unfold Tables.liveIn Tables.image
  rw [List.mem_filterMap]
  constructor
  · rintro ⟨⟨a, record⟩, member, is⟩
    have found := SortedMap.memEntries.mp member
    simp only at is
    split_ifs at is with here
    obtain ⟨body,live,same⟩ := Option.map_eq_some_iff.mp is
    cases same
    cases here
    rw [found]
    exact live
  · intro is
    obtain ⟨record,found,live⟩ := Option.bind_eq_some_iff.mp is
    exact ⟨(⟨coll,key⟩,record),SortedMap.memEntries.mpr found,by simp [live]⟩

theorem memFill {coll : CollectionId} {index : IndexMeta} {k : IndexKey} {live : List (DocKey × Document)}
    {rows : SortedMap IndexKey Unit} : (fillIndex rows coll index live).get k = some () ↔
      (k.collection = coll ∧ k.index = index.id ∧ ∃ image, (k.doc,image) ∈ live ∧ k.key ∈ (documentKeys index image).filed) ∨
        rows.get k = some () := by
  unfold fillIndex
  induction live generalizing rows with
  | nil => simp
  | cons first rest ih =>
    obtain ⟨key, image⟩ := first
    rw [List.foldl_cons, ih, memFile]
    constructor
    · rintro (⟨coll', id, other, member, filed⟩ | ⟨coll', id, doc, filed⟩ | before)
      · exact Or.inl ⟨coll',id,other,List.mem_cons_of_mem _ member,filed⟩
      · exact Or.inl ⟨coll',id,image,by rw [doc]; exact List.mem_cons_self,filed⟩
      · exact Or.inr before
    · rintro (⟨coll', id, other, member, filed⟩ | before)
      · rcases List.mem_cons.mp member with same | member
        · cases same
          exact Or.inr (Or.inl ⟨coll',id,rfl,filed⟩)
        · exact Or.inl ⟨coll',id,other,member,filed⟩
      · exact Or.inr (Or.inr before)

theorem memClear {coll : CollectionId} {id : IndexId} {k : IndexKey} {rows : SortedMap IndexKey Unit} :
    (clearIndex rows coll id).get k = some () ↔ ¬ (k.collection = coll ∧ k.index = id) ∧ rows.get k = some () := by
  unfold clearIndex
  rw [SortedMap.getRetainSome]
  simp only [Bool.not_eq_true', Bool.and_eq_false_imp, decide_eq_true_eq, decide_eq_false_iff_not]
  tauto

/- An entry of the index that was built, and of any other. -/
theorem memBuilt {t : Tables} {coll : CollectionId} {index : IndexMeta} {definition : CollectionMeta}
    (tidy : t.holding.Tidy) (defined : t.collections.get coll = some definition) {k : IndexKey} :
    (t.createIndex coll index).entries.get k = some () ↔
      if k.collection = coll ∧ k.index = index.id then
        k.key ∈ filedUnder index (t.image ⟨coll,k.doc⟩)
      else t.entries.get k = some () := by
  have filed : (∃ image, (k.doc,image) ∈ t.liveIn coll ∧ k.key ∈ (documentKeys index image).filed) ↔
      k.key ∈ filedUnder index (t.image ⟨coll,k.doc⟩) := by
    simp only [memLive, filedUnder]
    cases t.image ⟨coll,k.doc⟩ with
    | none => simp
    | some image => simp
  unfold Tables.createIndex
  simp only [defined]
  rw [memFill, filed]
  split_ifs with taken here here
  · rw [memClear]
    tauto
  · rw [memClear]
    tauto
  · have none : ¬ t.entries.get k = some () := by
      intro found
      obtain ⟨other,member,same⟩ := tidy k found
      refine taken (List.any_eq_true.mpr ⟨other,?_,decide_eq_true (same.trans here.2)⟩)
      rw [here.1] at member
      unfold Holding.indexes Tables.holding at member
      simpa [defined] using member
    tauto
  · tauto

/-! Definitions. -/

theorem indexesOf {t : Tables} {coll : CollectionId} : t.holding.indexes coll = t.currentIndexes coll := rfl

theorem memWith {definition : CollectionMeta} {index other : IndexMeta} :
    other ∈ (definition.withIndex index).indexes ↔ other ∈ definition.indexes ∧ other.id ≠ index.id ∨ other = index := by
  simp [CollectionMeta.withIndex, CollectionMeta.withoutIndex]

theorem memWithout {definition : CollectionMeta} {id : IndexId} {other : IndexMeta} :
    other ∈ (definition.withoutIndex id).indexes ↔ other ∈ definition.indexes ∧ other.id ≠ id := by
  simp [CollectionMeta.withoutIndex]

theorem currentInsert {t : Tables} {coll c : CollectionId} {definition : CollectionMeta} {rows : SortedMap IndexKey Unit} :
    { t with entries := rows, collections := t.collections.insert coll definition }.currentIndexes c =
      if c = coll then definition.indexes else t.currentIndexes c := by
  unfold Tables.currentIndexes
  rw [SortedMap.getInsert]
  split_ifs
  · rfl
  · rfl

theorem keptCreate {t : Tables} (coll : CollectionId) (index : IndexMeta) (kept : t.holding.Kept) :
    (t.createIndex coll index).holding.Kept := by
  cases defined : t.collections.get coll with
  | none =>
    unfold Tables.createIndex
    simpa only [defined] using kept
  | some definition =>
    have entries := fun k => @memBuilt _ _ index _ kept.tidy defined k
    have own : t.currentIndexes coll = definition.indexes := by simp [Tables.currentIndexes, defined]
    have images : (t.createIndex coll index).image = t.image := by
      unfold Tables.createIndex
      simp only [defined]
      rfl
    have flag : ∃ built, built = { index with multikey := (t.liveIn coll).any fun (_,image) => (documentKeys index image).multikey } ∧
        ∀ c, (t.createIndex coll index).currentIndexes c =
          if c = coll then (definition.withIndex built).indexes else t.currentIndexes c := by
      refine ⟨_,rfl,fun c => ?_⟩
      unfold Tables.createIndex
      simp only [defined]
      exact currentInsert
    obtain ⟨built,is,current⟩ := flag
    have keys : documentKeys built = documentKeys index := by
      rw [is]
      rfl
    have elsewhere {c : CollectionId} {other : IndexMeta} (member : other ∈ (t.createIndex coll index).currentIndexes c)
        (apart : ¬ (c = coll ∧ other = built)) : other ∈ t.currentIndexes c ∧ ¬ (c = coll ∧ other.id = index.id) := by
      rw [current] at member
      split_ifs at member with here
      · rcases memWith.mp member with ⟨there, other'⟩ | same
        · rw [is] at other'
          exact ⟨by rw [here, own]; exact there,fun both => other' both.2⟩
        · exact absurd ⟨here,same⟩ apart
      · exact ⟨member,fun both => here both.1⟩
    refine ⟨⟨fun c other member key doc => ?_,fun c other member unset doc image found => ?_⟩,fun k found => ?_⟩
    · show (t.createIndex coll index).entries.get _ = some () ↔ key ∈ filedUnder other ((t.createIndex coll index).image ⟨c,doc⟩)
      rw [entries, images]
      by_cases new : c = coll ∧ other = built
      · obtain ⟨rfl, rfl⟩ := new
        rw [if_pos ⟨rfl,by rw [is]⟩]
        unfold filedUnder
        rw [keys]
      · obtain ⟨there,apart⟩ := elsewhere member new
        rw [if_neg apart]
        exact kept.sound.exact c other there key doc
    · have held : t.image ⟨c,doc⟩ = some image := by
        rw [← images]
        exact found
      by_cases new : c = coll ∧ other = built
      · obtain ⟨rfl, rfl⟩ := new
        rw [is] at unset
        have none := List.any_eq_false.mp unset (doc,image) (memLive.mpr held)
        rw [keys]
        simpa using none
      · exact kept.sound.flags c other (elsewhere member new).1 unset doc image held
    · show ∃ other ∈ (t.createIndex coll index).currentIndexes k.collection, other.id = k.index
      have found : (t.createIndex coll index).entries.get k = some () := found
      rw [entries] at found
      rw [current]
      by_cases new : k.collection = coll ∧ k.index = index.id
      · rw [if_pos new.1]
        exact ⟨built,memWith.mpr (Or.inr rfl),by rw [is, new.2]⟩
      · rw [if_neg new] at found
        obtain ⟨other,member,id⟩ := kept.tidy k found
        have member : other ∈ t.currentIndexes k.collection := member
        split_ifs with here
        · rw [here, own] at member
          refine ⟨other,memWith.mpr (Or.inl ⟨member,fun taken => new ⟨here,?_⟩⟩),id⟩
          rw [is] at taken
          exact id.symm.trans taken
        · exact ⟨other,member,id⟩

theorem keptDrop {t : Tables} (coll : CollectionId) (id : IndexId) (kept : t.holding.Kept) :
    (t.dropIndex coll id).holding.Kept := by
  cases defined : t.collections.get coll with
  | none =>
    unfold Tables.dropIndex
    simpa only [defined] using kept
  | some definition =>
    have own : t.currentIndexes coll = definition.indexes := by simp [Tables.currentIndexes, defined]
    have entries (k : IndexKey) : (t.dropIndex coll id).entries.get k = some () ↔
        ¬ (k.collection = coll ∧ k.index = id) ∧ t.entries.get k = some () := by
      unfold Tables.dropIndex
      simp only [defined]
      exact memClear
    have current (c : CollectionId) : (t.dropIndex coll id).currentIndexes c =
        if c = coll then (definition.withoutIndex id).indexes else t.currentIndexes c := by
      unfold Tables.dropIndex
      simp only [defined]
      exact currentInsert
    have images : (t.dropIndex coll id).image = t.image := by
      unfold Tables.dropIndex
      simp only [defined]
      rfl
    have stood {c : CollectionId} {other : IndexMeta} : other ∈ (t.dropIndex coll id).currentIndexes c ↔
        other ∈ t.currentIndexes c ∧ ¬ (c = coll ∧ other.id = id) := by
      rw [current]
      split_ifs with here
      · rw [memWithout, here, own]
        tauto
      · tauto
    refine ⟨⟨fun c other member key doc => ?_,fun c other member unset doc image found => ?_⟩,fun k found => ?_⟩
    · obtain ⟨there,apart⟩ := stood.mp member
      show (t.dropIndex coll id).entries.get _ = some () ↔ key ∈ filedUnder other ((t.dropIndex coll id).image ⟨c,doc⟩)
      rw [entries, images]
      have exact := kept.sound.exact c other there key doc
      exact ⟨fun held => exact.mp held.2,fun filed => ⟨apart,exact.mpr filed⟩⟩
    · have found : t.image ⟨c,doc⟩ = some image := by
        rw [← images]
        exact found
      exact kept.sound.flags c other (stood.mp member).1 unset doc image found
    · obtain ⟨apart,held⟩ := (entries k).mp found
      obtain ⟨other,member,same⟩ := kept.tidy k held
      exact ⟨other,stood.mpr ⟨member,fun both => apart ⟨both.1,same.symm.trans both.2⟩⟩,same⟩

theorem keptAct {e : Engine} (a : Act) (kept : e.db.holding.Kept) : (e.act a).db.holding.Kept := by
  cases a with
  | op op =>
    rcases changedStep e op with changes | ⟨_, _, _, changes, _⟩
    · exact keptLocals changes kept
    · exact keptRemotes changes kept
  | createIndex coll index => exact keptCreate coll index kept
  | dropIndex coll id => exact keptDrop coll id kept

theorem keptActs {e : Engine} (list : List Act) (kept : e.db.holding.Kept) : (e.acts list).db.holding.Kept := by
  induction list generalizing e with
  | nil => exact kept
  | cons a rest ih => exact ih (keptAct a kept)

theorem keptFresh {e : Engine} {collections} (fresh : e.db = .fresh collections) : e.db.holding.Kept := by
  refine ⟨soundFresh fresh,fun k found => ?_⟩
  rw [fresh] at found
  cases found

end Kimmy.Store
