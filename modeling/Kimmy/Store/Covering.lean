import Kimmy.Runs
import Kimmy.Store.Modify

/-!
A filtered write misses nothing and repeats nothing, as long as the index that its plan names stands as it was
planned. Coverage is carried by the resume key: the documents at or below it have been dealt with, and those
above it are as they were.
-/
namespace Kimmy.Store
open Merge ByteOrder

/-! Documents stand under their own ids. -/

def Named (images : Address → Option Document) : Prop := ∀ a image, images a = some image → image.docKey = some a.key

/- What every caller and every peer promises of the documents it sends. -/
def Engine.LocalWrite.Keyed : Engine.LocalWrite → Prop
  | .insert _ draft => draft.body.docKey = some draft.key
  | .replace _ r => ∀ previous, (r.compose previous).docKey = some r.key
  | .delete _ _ _ => True

def OplogEntry.Keyed (entry : OplogEntry) : Prop :=
  ∀ key body, entry.docId = some key → entry.body = some body → body.docKey = some key

def Act.Keyed : Act → Prop
  | .op (.write w) => w.Keyed
  | .op (.insertMany _ drafts) => ∀ draft ∈ drafts, draft.body.docKey = some draft.key
  | .op (.batch writes _) => ∀ w ∈ writes, w.Keyed
  | .op (.replicated _ entries _) => ∀ entry ∈ entries, entry.Keyed
  | .createIndex _ _ | .dropIndex _ _ => True

section
variable {e : Engine}

theorem namedUpdate {images : Address → Option Document} {a : Address} {new : Option Document} (named : Named images)
    (own : ∀ image, new = some image → image.docKey = some a.key) : Named (Function.update images a new) := by
  intro b image found
  by_cases here : b = a
  · subst here
    rw [Function.update_self] at found
    exact own image found
  · rw [Function.update_of_ne here] at found
    exact named b image found

theorem imageWrite {coll : CollectionId} {key : DocKey} {kind : OpKind} {body old new : Option Document} {t : Tables}
    (accepted : e.db.maintain coll old new key = .ok t) :
    ({ e with db := t }.write coll key kind body).db.image = Function.update e.db.image ⟨coll,key⟩ body := by
  obtain ⟨done,_,rfl⟩ := Moves.maintained accepted
  exact congrArg Holding.images (holdingWrite { e with db := e.db.settle coll done } coll key kind body)

theorem namedWrite {w : Engine.LocalWrite} {next : Engine} (passed : e.writeInTxn w = .ok next) (keyed : w.Keyed)
    (named : Named e.db.image) : Named next.db.image := by
  cases w with
  | insert coll draft =>
    simp only [Engine.writeInTxn, Engine.insertInTxn] at passed
    cases result : e.checkInsert coll draft [] with
    | error error =>
      rw [result] at passed
      cases passed
    | ok middle =>
      rw [result] at passed
      cases passed
      obtain ⟨_,_,t,accepted,rfl⟩ := Moves.checked result
      unfold Engine.writeInsert
      rw [imageWrite accepted]
      exact namedUpdate named fun image is => by cases is; exact keyed
  | replace coll r =>
    obtain rfl | ⟨body, t, kind, accepted, is, _, rfl⟩ := Moves.replaced passed
    · exact named
    · rw [imageWrite accepted, is]
      exact namedUpdate named fun image is => by cases is; exact keyed _
  | delete coll key guard =>
    obtain rfl | ⟨image, t, _, accepted, rfl⟩ := Moves.deleted passed
    · exact named
    · rw [imageWrite accepted]
      exact namedUpdate named nofun

theorem namedScope {writes : List Engine.LocalWrite} (keyed : ∀ w ∈ writes, w.Keyed) (named : Named e.db.image) :
    Named (e.scope writes).1.db.image := by
  induction writes generalizing e with
  | nil => exact named
  | cons w rest ih =>
    unfold Engine.scope
    cases result : e.writeInTxn w with
    | error error => exact named
    | ok middle =>
      exact ih (fun w member => keyed w (List.mem_cons_of_mem _ member))
        (namedWrite result (keyed w List.mem_cons_self) named)

theorem namedDrafted {coll : CollectionId} {drafts : List Engine.Draft} {images : Address → Option Document}
    (keyed : ∀ draft ∈ drafts, draft.body.docKey = some draft.key) (named : Named images) :
    Named (drafted coll images drafts) := by
  unfold drafted
  induction drafts generalizing images with
  | nil => exact named
  | cons draft rest ih =>
    refine ih (fun draft member => keyed draft (List.mem_cons_of_mem _ member)) (namedUpdate named fun image is => ?_)
    cases is
    exact keyed draft List.mem_cons_self

theorem namedInsertMany {coll : CollectionId} {drafts : List Engine.Draft} {next : Engine}
    (passed : e.insertManyInTxn coll drafts = .ok next) (keyed : ∀ draft ∈ drafts, draft.body.docKey = some draft.key)
    (named : Named e.db.image) : Named next.db.image := by
  unfold Engine.insertManyInTxn at passed
  cases result : e.checkInserts coll [] drafts with
  | error error =>
    rw [result] at passed
    cases passed
  | ok middle =>
    rw [result] at passed
    cases passed
    obtain ⟨_,docs⟩ := changedChecks e.db.image result fun _ _ => rfl
    have same : middle.db.image = e.db.image := by
      unfold Tables.image
      rw [docs]
    have images : (drafts.foldl (fun e draft => e.writeInsert coll draft) middle).db.image =
        drafted coll middle.db.image drafts := congrArg Holding.images (holdingInserts coll drafts middle)
    rw [same] at images
    exact images ▸ namedDrafted keyed named

theorem imageRemote (e : Engine) (entry : OplogEntry) (position : Position) :
    (e.applyRemoteInTxn entry position).1.db.image = e.db.image ∨ ∃ key, entry.docId = some key ∧
      (e.applyRemoteInTxn entry position).1.db.image = Function.update e.db.image ⟨entry.collection,key⟩ entry.body := by
  unfold Engine.applyRemoteInTxn
  split
  · exact Or.inl rfl
  next key named =>
    simp only
    split_ifs with wins owed inWindow
    · have beats : ∀ current, e.db.docs.get ⟨entry.collection,key⟩ = some current → current.stamp < entry.stamp := by
        intro current found
        simpa [found] using wins
      rw [Moves.winner beats]
      refine Or.inr ⟨key,named,?_⟩
      have images := imagePut e.db ⟨entry.collection,key⟩ entry.incoming
      rw [incomingDocument] at images
      refine Eq.trans ?_ images
      refine (congrArg Holding.images (holdingUnkeyed ..)).trans ?_
      exact congrArg Holding.images (holdingAppend ..)
    · exact Or.inl (congrArg Holding.images (holdingAppend ..))
    · exact Or.inl (congrArg Holding.images (holdingRelease ..))
    · exact Or.inl rfl

theorem namedAll {position : Position} {entries : List OplogEntry} (keyed : ∀ entry ∈ entries, entry.Keyed)
    (named : Named e.db.image) : Named (e.applyAll position entries).1.db.image := by
  induction entries generalizing e with
  | nil => exact named
  | cons entry rest ih =>
    have first : Named (e.applyRemoteInTxn entry position).1.db.image := by
      rcases imageRemote e entry position with same | ⟨key, is, same⟩
      · rw [same]
        exact named
      · rw [same]
        exact namedUpdate named fun image body => keyed entry List.mem_cons_self key image is body
    exact ih (fun entry member => keyed entry (List.mem_cons_of_mem _ member)) first

theorem namedStep {op : Op} (keyed : (Act.op op).Keyed) (named : Named e.db.image) : Named (e.step op).db.image := by
  cases op with
  | write w =>
    cases result : e.writeInTxn w with
    | error error =>
      rw [Engine.step, result]
      exact named
    | ok next =>
      rw [Engine.step, result]
      exact namedWrite result keyed named
  | insertMany coll drafts =>
    cases result : e.insertManyInTxn coll drafts with
    | error error =>
      rw [Engine.step, result]
      exact named
    | ok next =>
      rw [Engine.step, result]
      exact namedInsertMany result keyed named
  | batch writes closed =>
    rw [Engine.step, Engine.writeBatch]
    simp only
    split_ifs
    · exact namedScope keyed named
    · exact named
  | replicated position entries commits =>
    cases commits with
    | false => exact named
    | true =>
      have same : (e.step (.replicated position entries true)).db.image = (e.applyAll position entries).1.db.image :=
        congrArg Holding.images (holdingReport ..)
      rw [same]
      exact namedAll keyed named

theorem namedActs {list : List Act} (keyed : ∀ a ∈ list, a.Keyed) (named : Named e.db.image) :
    Named (e.acts list).db.image := by
  induction list generalizing e with
  | nil => exact named
  | cons a rest ih =>
    refine ih (fun a member => keyed a (List.mem_cons_of_mem _ member)) ?_
    cases a with
    | op op => exact namedStep (keyed _ List.mem_cons_self) named
    | createIndex coll index =>
      have same : (e.db.createIndex coll index).image = e.db.image := by
        unfold Tables.createIndex
        split <;> rfl
      exact same ▸ named
    | dropIndex coll id =>
      have same : (e.db.dropIndex coll id).image = e.db.image := by
        unfold Tables.dropIndex
        split <;> rfl
      exact same ▸ named

end

/-! What a chunk examines. -/

/- The key a match is written under. -/
def Match.key (m : Match) : DocKey := m.doc.docKey.getD []

/- The live record of a document, under its own key. -/
def Stored (t : Tables) (coll : CollectionId) (m : Match) : Prop :=
  m.doc.docKey = some m.key ∧ (t.docs.get ⟨coll,m.key⟩).bind DocRecord.matchOf = some m

def past (after : Option DocKey) (key : DocKey) : Prop := ∀ bound, after = some bound → bound < key

theorem pastIff {after : Option DocKey} {key : DocKey} : after.all (fun bound => decide (bound < key)) = true ↔ past after key := by
  cases after with
  | none => exact iff_of_true rfl nofun
  | some bound => simp [past]

/- In the order of their keys, each live and past the resume key. -/
structure Walk (t : Tables) (coll : CollectionId) (after : Option DocKey) (list : List Match) : Prop where
  ordered : list.Pairwise fun x y => x.key < y.key
  stored : ∀ m ∈ list, Stored t coll m
  past : ∀ m ∈ list, past after m.key

section
variable {t : Tables} {coll : CollectionId} {after : Option DocKey}

theorem imageMatch {a : Address} {m : Match} (found : (t.docs.get a).bind DocRecord.matchOf = some m) :
    t.image a = some m.doc := by
  obtain ⟨record,held,is⟩ := Option.bind_eq_some_iff.mp found
  obtain ⟨doc,live,same⟩ := Option.map_eq_some_iff.mp is
  cases same
  unfold Tables.image
  rw [held]
  exact live

theorem matchImage {a : Address} {doc : Document} (found : t.image a = some doc) :
    ∃ m, (t.docs.get a).bind DocRecord.matchOf = some m ∧ m.doc = doc := by
  obtain ⟨record,held,live⟩ := Option.bind_eq_some_iff.mp found
  exact ⟨⟨record.stamp,doc⟩,by simp [held, DocRecord.matchOf, live],rfl⟩

theorem storedAt (named : Named t.image) {key : DocKey} {m : Match}
    (found : (t.docs.get ⟨coll,key⟩).bind DocRecord.matchOf = some m) : m.key = key ∧ Stored t coll m := by
  have own := named _ _ (imageMatch found)
  have is : m.key = key := by
    unfold Match.key
    rw [own]
    rfl
  refine ⟨is,by rw [is]; exact own,?_⟩
  rw [is]
  exact found

theorem walkLookup (named : Named t.image) (keys : List DocKey) : Walk t coll after (t.lookup coll after keys) := by
  have sorted := Runs.dedupAscends keys
  refine ⟨?_,fun m member => ?_,fun m member => ?_⟩
  · refine List.Pairwise.filterMap _ (fun x y below m found n found' => ?_) (sorted.filter _)
    rw [(storedAt named found).1, (storedAt named found').1]
    exact below
  · obtain ⟨key,_,found⟩ := List.mem_filterMap.mp member
    exact (storedAt named found).2
  · obtain ⟨key,there,found⟩ := List.mem_filterMap.mp member
    rw [(storedAt named found).1]
    exact pastIff.mp (List.mem_filter.mp there).2

theorem memLookup (named : Named t.image) {keys : List DocKey} {m : Match} :
    m ∈ t.lookup coll after keys ↔ m.key ∈ keys ∧ past after m.key ∧ Stored t coll m := by
  constructor
  · intro member
    obtain ⟨key,there,found⟩ := List.mem_filterMap.mp member
    obtain ⟨is,stored⟩ := storedAt named found
    obtain ⟨listed,beyond⟩ := List.mem_filter.mp there
    rw [List.mem_dedup, List.mem_insertionSort] at listed
    rw [is]
    exact ⟨listed,pastIff.mp beyond,stored⟩
  · rintro ⟨listed, beyond, stored⟩
    refine List.mem_filterMap.mpr ⟨m.key,List.mem_filter.mpr ⟨?_,pastIff.mpr beyond⟩,stored.2⟩
    rw [List.mem_dedup, List.mem_insertionSort]
    exact listed

theorem walkScan (named : Named t.image) : Walk t coll after (t.scanUntil coll after) := by
  have each {x : Address × DocRecord} {m : Match} (member : x ∈ t.docs.entries)
      (found : (if x.1.collection = coll ∧ after.all (· < x.1.key) then x.2.matchOf else none) = some m) :
      x.1.collection = coll ∧ past after x.1.key ∧ m.key = x.1.key ∧ Stored t coll m := by
    split_ifs at found with inside
    obtain ⟨⟨_, key⟩, record⟩ := x
    obtain ⟨rfl,beyond⟩ := inside
    have held := SortedMap.memEntries.mp member
    obtain ⟨is,stored⟩ := storedAt (t := t) (m := m) named (by rw [held]; exact found)
    exact ⟨rfl,pastIff.mp beyond,is,stored⟩
  refine ⟨?_,fun m member => ?_,fun m member => ?_⟩
  · refine List.pairwise_filterMap.mpr (List.Pairwise.imp_of_mem ?_ t.docs.sorted)
    intro x y memberX memberY below m found n found'
    obtain ⟨hereX,_,isX,_⟩ := each memberX found
    obtain ⟨hereY,_,isY,_⟩ := each memberY found'
    rw [isX, isY]
    have lower : toLex (x.1.collection,x.1.key) < toLex (y.1.collection,y.1.key) := below
    rw [Prod.Lex.toLex_lt_toLex, hereX, hereY] at lower
    simpa using lower
  · obtain ⟨x,there,found⟩ := List.mem_filterMap.mp member
    exact (each there found).2.2.2
  · obtain ⟨x,there,found⟩ := List.mem_filterMap.mp member
    rw [(each there found).2.2.1]
    exact (each there found).2.1

theorem memScan {m : Match} (stored : Stored t coll m) (beyond : past after m.key) : m ∈ t.scanUntil coll after := by
  obtain ⟨record,held,is⟩ := Option.bind_eq_some_iff.mp stored.2
  refine List.mem_filterMap.mpr ⟨(⟨coll,m.key⟩,record),SortedMap.memEntries.mpr held,?_⟩
  exact (if_pos ⟨rfl,pastIff.mpr beyond⟩).trans is

theorem walkOffers (named : Named t.image) (candidates : Candidates) :
    Walk t coll after (t.offers coll after candidates) := by
  cases candidates with
  | scan => exact walkScan named
  | keys keys => exact walkLookup named keys
  | index id ranges bothBounds =>
    unfold Tables.offers
    simp only
    split_ifs
    · exact walkLookup named _
    · exact walkScan named

end

end Kimmy.Store
