import Kimmy.Store.Maintenance
import Kimmy.Store.Moves

/-!
The indexes of a member over any sequence of writes: their entries are exactly those of the
live documents, and no key of a unique index comes to be shared unless a replicated write
reports it. What counts here is the live images and the index tables, and a write changes
them by one image at a time; a bulk insert files all of its documents before it writes the
first one, so the images are kept apart from the document table.
-/
namespace Kimmy.Store
open Merge ByteOrder

structure Holding where
  entries : SortedMap IndexKey Unit
  collections : SortedMap CollectionId CollectionMeta
  images : Address → Option Document

def Tables.holding (t : Tables) : Holding := ⟨t.entries,t.collections,t.image⟩

namespace Holding

def indexes (h : Holding) (coll : CollectionId) : List IndexMeta := ((h.collections.get coll).map (·.indexes)).getD []

def view (h : Holding) (coll : CollectionId) : View := fun key => h.images ⟨coll,key⟩

/- One image replaced, with the entries and the flags that go with it. -/
def settle (h : Holding) (coll : CollectionId) (key : DocKey) (new : Option Document) (done : Maintained) : Holding where
  entries := done.rows
  collections := match h.collections.get coll with
    | some definition => h.collections.insert coll (definition.markMultikey done.newlyMultikey)
    | none => h.collections
  images := Function.update h.images ⟨coll,key⟩ new

/- What maintenance makes of a write. -/
def applied (h : Holding) (coll : CollectionId) (key : DocKey) (new : Option Document) : Maintained :=
  applyEntries h.entries coll (h.indexes coll) (h.images ⟨coll,key⟩) new key

structure Sound (h : Holding) : Prop where
  exact : ∀ coll, Exact coll (h.indexes coll) h.entries (h.view coll)
  flags : ∀ coll, FlagsSound (h.indexes coll) (h.view coll)

section
variable {h : Holding} {coll other : CollectionId} {key : DocKey} {new : Option Document} {done : Maintained}

theorem viewSettle : (h.settle coll key new done).view coll = Function.update (h.view coll) key new := by
  funext doc
  by_cases here : doc = key
  · subst here
    simp [view, settle]
  · have away : (⟨coll,doc⟩ : Address) ≠ ⟨coll,key⟩ := fun same => here (congrArg Address.key same)
    rw [Function.update_of_ne here]
    exact Function.update_of_ne away ..

theorem viewElsewhere (apart : other ≠ coll) : (h.settle coll key new done).view other = h.view other := by
  funext doc
  have away : (⟨other,doc⟩ : Address) ≠ ⟨coll,key⟩ := fun same => apart (congrArg Address.collection same)
  exact Function.update_of_ne away ..

theorem indexesElsewhere (apart : other ≠ coll) : (h.settle coll key new done).indexes other = h.indexes other := by
  unfold indexes settle
  cases h.collections.get coll with
  | none => rfl
  | some definition => simp [apart]

theorem settledIndexes (key : DocKey) (new : Option Document) (done : Maintained) {definition : CollectionMeta}
    (defined : h.collections.get coll = some definition) :
    h.indexes coll = definition.indexes ∧
      (h.settle coll key new done).indexes coll = (definition.markMultikey done.newlyMultikey).indexes := by
  unfold indexes settle
  simp [defined]

theorem indexesUndefined (undefined : h.collections.get coll = none) :
    h.indexes coll = [] ∧ (h.settle coll key new done).indexes coll = [] := by
  unfold indexes settle
  simp [undefined]

/- An index after a write is one that was there, but for its flag. -/
theorem memIndexes {index : IndexMeta} (member : index ∈ (h.settle coll key new done).indexes other) :
    ∃ i ∈ h.indexes other, index = i ∨ index = { i with multikey := true } := by
  by_cases here : other = coll
  · subst here
    cases defined : h.collections.get other with
    | none =>
        rw [(indexesUndefined defined).2] at member
        exact absurd member List.not_mem_nil
    | some definition =>
        obtain ⟨before, after⟩ := settledIndexes key new done defined
        rw [after] at member
        obtain ⟨i, there, ⟨same, _⟩ | ⟨same, _⟩⟩ := memMarked member
        · exact ⟨i,before ▸ there,Or.inl same⟩
        · exact ⟨i,before ▸ there,Or.inr same⟩
  · rw [indexesElsewhere here] at member
    exact ⟨index,member,Or.inl rfl⟩

/- Exact entries, whatever the flags are. -/
def ExactEntries (h : Holding) : Prop := ∀ coll, Exact coll (h.indexes coll) h.entries (h.view coll)

theorem exactSettle (exact : h.ExactEntries) : (h.settle coll key new (h.applied coll key new)).ExactEntries := by
  intro c
  by_cases here : c = coll
  · subst here
    rw [viewSettle]
    cases defined : h.collections.get c with
    | none =>
        rw [(indexesUndefined defined).2]
        exact fun index member => absurd member List.not_mem_nil
    | some definition =>
        obtain ⟨before, after⟩ := settledIndexes key new (h.applied c key new) defined
        rw [after]
        have exact := exact c
        rw [before] at exact
        refine exactMarked ?_
        unfold applied settle
        rw [before]
        exact exactUpdate definition.distinct exact rfl
  · rw [viewElsewhere here, indexesElsewhere here]
    exact exactElsewhere here (exact c)

theorem soundSettle (sound : h.Sound) : (h.settle coll key new (h.applied coll key new)).Sound := by
  refine ⟨exactSettle sound.exact,fun c => ?_⟩
  · by_cases here : c = coll
    · subst here
      rw [viewSettle]
      cases defined : h.collections.get c with
      | none =>
          rw [(indexesUndefined defined).2]
          exact fun index member => absurd member List.not_mem_nil
      | some definition =>
          obtain ⟨before, after⟩ := settledIndexes key new (h.applied c key new) defined
          rw [after]
          have flags := sound.flags c
          rw [before] at flags
          unfold applied
          rw [before]
          exact flagsUpdate flags
    · rw [viewElsewhere here, indexesElsewhere here]
      exact sound.flags c

end

/-! Changes by one image. -/

/- A local write that no index refused. -/
inductive LocalChange : Holding → Holding → Prop where
  | made (h : Holding) (coll : CollectionId) (key : DocKey) (new : Option Document) (done : Maintained)
      (accepted : maintainLocal h.entries coll (h.indexes coll) (h.images ⟨coll,key⟩) new key true = .ok done) :
      LocalChange h (h.settle coll key new done)

/- A replicated write and the violations it returns. -/
inductive RemoteChange : Holding → CollectionId → DocKey → List UniqueViolation → Holding → Prop where
  | made (h : Holding) (coll : CollectionId) (key : DocKey) (new : Option Document) :
      RemoteChange h coll key
        (maintainRemote h.entries coll (h.indexes coll) (h.images ⟨coll,key⟩) new key).1
        (h.settle coll key new (h.applied coll key new))

theorem localApplied {h : Holding} {coll key new done}
    (accepted : maintainLocal h.entries coll (h.indexes coll) (h.images ⟨coll,key⟩) new key true = .ok done) :
    done = h.applied coll key new := by
  unfold maintainLocal at accepted
  split at accepted
  · cases accepted
  · cases accepted
    rfl

theorem soundLocal {h k : Holding} (change : LocalChange h k) (sound : h.Sound) : k.Sound := by
  obtain ⟨coll, key, new, done, accepted⟩ := change
  rw [localApplied accepted]
  exact soundSettle sound

theorem soundRemote {h k : Holding} {coll key broken} (change : RemoteChange h coll key broken k) (sound : h.Sound) :
    k.Sound := by
  obtain ⟨new⟩ := change
  exact soundSettle sound

/- Two documents of an index that a write leaves with a shared key: they shared it before, or
the document written is one of them and it is new that it does. -/
theorem sharesSettle {h : Holding} {coll c key new done} {index : IndexMeta} {x y : DocKey} (apart : x ≠ y)
    (shared : Shares index ((h.settle coll key new done).view c) x y) :
    Shares index (h.view c) x y ∨
      c = coll ∧ ∃ other, other ≠ key ∧ (x = key ∧ y = other ∨ x = other ∧ y = key) ∧
        Shares index (Function.update (h.view coll) key new) key other := by
  by_cases here : c = coll
  · subst here
    rw [viewSettle] at shared
    by_cases left : x = key
    · subst left
      exact Or.inr ⟨rfl,y,apart.symm,Or.inl ⟨rfl,rfl⟩,shared⟩
    · by_cases right : y = key
      · subst right
        exact Or.inr ⟨rfl,x,apart,Or.inr ⟨rfl,rfl⟩,sharesSymm shared⟩
      · exact Or.inl ((sharesElsewhere left right).mp shared)
  · rw [viewElsewhere here] at shared
    exact Or.inl shared

theorem sharesLocal {h k : Holding} {c} {index : IndexMeta} {x y : DocKey} (change : LocalChange h k) (sound : h.Sound)
    (member : index ∈ k.indexes c) (unique : index.unique = true) (apart : x ≠ y)
    (shared : Shares index (k.view c) x y) : Shares index (h.view c) x y := by
  obtain ⟨coll, key, new, done, accepted⟩ := change
  rcases sharesSettle apart shared with before | ⟨rfl, other, away, _, fresh⟩
  · exact before
  · obtain ⟨i, there, rfl | rfl⟩ := memIndexes member
    · exact absurd fresh (localUnshared (sound.exact c) there unique away accepted)
    · have apart : ¬ Shares i (Function.update (h.view c) key new) key other :=
        localUnshared (sound.exact c) there unique away accepted
      exact absurd fresh apart

theorem sharesRemote {h k : Holding} {coll c key broken} {index : IndexMeta} {x y : DocKey}
    (change : RemoteChange h coll key broken k) (sound : h.Sound) (member : index ∈ k.indexes c)
    (unique : index.unique = true) (apart : x ≠ y) (shared : Shares index (k.view c) x y) :
    Shares index (h.view c) x y ∨
      c = coll ∧ ∃ v ∈ broken, v.index = index.name ∧ x ∈ v.holders ∧ y ∈ v.holders := by
  obtain ⟨new⟩ := change
  refine (sharesSettle apart shared).imp_right ?_
  rintro ⟨rfl, other, away, ends, fresh⟩
  refine ⟨rfl,?_⟩
  have reported : ∃ v ∈ (maintainRemote h.entries c (h.indexes c) (h.images ⟨c,key⟩) new key).1,
      v.index = index.name ∧ key ∈ v.holders ∧ other ∈ v.holders := by
    obtain ⟨i, there, rfl | rfl⟩ := memIndexes member
    · exact remoteReported (h.images ⟨c,key⟩) (sound.exact c) there unique away fresh
    · have apart : Shares i (Function.update (h.view c) key new) key other := fresh
      have made := remoteReported (h.images ⟨c,key⟩) (sound.exact c) there unique away apart
      exact made
  obtain ⟨v, made, named, own, theirs⟩ := reported
  rcases ends with ⟨rfl, rfl⟩ | ⟨rfl, rfl⟩
  · exact ⟨v,made,named,own,theirs⟩
  · exact ⟨v,made,named,theirs,own⟩

end Holding

/-! The changes an operation makes. -/

abbrev LocalChanges : Holding → Holding → Prop := Relation.ReflTransGen Holding.LocalChange

theorem imagePut (t : Tables) (a : Address) (record : DocRecord) :
    (t.putRecord a record).image = Function.update t.image a record.document := by
  funext b
  unfold Tables.image Tables.putRecord
  by_cases here : b = a
  · subst here
    simp
  · simp [here]

theorem holdingAppend (t : Tables) (entry : OplogEntry) (position : Position) :
    (t.appendOplogAt entry position).1.holding = t.holding := by
  obtain ⟨docs, _, collections, entries⟩ := Tables.appendData t entry position
  unfold Tables.holding Tables.image
  rw [docs, collections, entries]

theorem holdingRelease (t : Tables) (stamp : Stamp) : (t.releaseHeldInPosition stamp).1.holding = t.holding := by
  obtain ⟨docs, _, collections, entries⟩ := Tables.releaseData t stamp
  unfold Tables.holding Tables.image
  rw [docs, collections, entries]

theorem incomingDocument (entry : OplogEntry) : entry.incoming.document = entry.body := by
  unfold OplogEntry.incoming
  cases entry.body <;> rfl

theorem holdingWrite (e : Engine) (coll : CollectionId) (key : DocKey) (kind : OpKind) (body : Option Document) :
    (e.write coll key kind body).db.holding =
      { e.db.holding with images := Function.update e.db.image ⟨coll,key⟩ body } := by
  refine (holdingAppend _ _ _).trans ?_
  unfold Tables.holding
  rw [imagePut, incomingDocument]
  rfl

theorem holdingObserve (e : Engine) (coll : CollectionId) (kind : OpKind) :
    (e.observe coll kind).db.holding = e.db.holding := holdingAppend _ _ _

theorem holdingUnkeyed (coll : CollectionId) (key : DocKey) : ∀ (filings : List UnkeyedFiling) (e : Engine),
    (e.appendUnkeyed coll key filings).db.holding = e.db.holding
  | [], _ => rfl
  | _ :: rest, e => (holdingUnkeyed coll key rest _).trans (holdingObserve e coll _)

theorem holdingReport : ∀ (reports : List Engine.Report) (e : Engine), (e.report reports).db.holding = e.db.holding
  | [], _ => rfl
  | report :: rest, e => (holdingReport rest (e.logUniqueViolation report)).trans (holdingObserve e _ _)

/- The tables that maintenance leaves, once the record is written, are the change it accepted. -/
theorem changedBy {e : Engine} {coll : CollectionId} {key : DocKey} {kind : OpKind} {body : Option Document}
    {t : Tables} (accepted : e.db.maintain coll (e.db.image ⟨coll,key⟩) body key = .ok t) :
    Holding.LocalChange e.db.holding ({ e with db := t }.write coll key kind body).db.holding := by
  obtain ⟨done, made, rfl⟩ := Moves.maintained accepted
  rw [holdingWrite]
  exact .made e.db.holding coll key body done made

theorem deadImage {e : Engine} {a : Address}
    (dead : ∀ record, e.db.docs.get a = some record → record.isLive = false) : e.db.image a = none := by
  unfold Tables.image
  cases found : e.db.docs.get a with
  | none => rfl
  | some record =>
      have gone := dead record found
      simp only [DocRecord.isLive, Bool.not_eq_false'] at gone
      simp [DocRecord.document, gone]

theorem changedInsert {e next : Engine} {coll draft} (passed : e.insertInTxn coll draft = .ok next) :
    Holding.LocalChange e.db.holding next.db.holding := by
  unfold Engine.insertInTxn at passed
  cases result : e.checkInsert coll draft [] with
  | error error =>
      rw [result] at passed
      cases passed
  | ok middle =>
      rw [result] at passed
      cases passed
      obtain ⟨dead, _, t, accepted, rfl⟩ := Moves.checked result
      rw [←deadImage dead] at accepted
      exact changedBy accepted

theorem changedWrite {e next : Engine} {w : Engine.LocalWrite} (passed : e.writeInTxn w = .ok next) :
    LocalChanges e.db.holding next.db.holding := by
  cases w with
  | insert coll draft => exact .single (changedInsert passed)
  | replace coll r =>
      obtain rfl | ⟨body, t, kind, accepted, _, _, rfl⟩ := Moves.replaced passed
      · exact .refl
      · exact .single (changedBy accepted)
  | delete coll key guard =>
      obtain rfl | ⟨image, t, found, accepted, rfl⟩ := Moves.deleted passed
      · exact .refl
      · rw [←found] at accepted
        exact .single (changedBy accepted)

theorem changedScope : ∀ (writes : List Engine.LocalWrite) (e : Engine),
    LocalChanges e.db.holding (e.scope writes).1.db.holding
  | [], _ => .refl
  | w :: rest, e => by
      unfold Engine.scope
      cases result : e.writeInTxn w with
      | error error => exact .refl
      | ok middle => exact (changedWrite result).trans (changedScope rest middle)

/- The images once every document of a bulk insert is in. -/
def drafted (coll : CollectionId) (images : Address → Option Document) (drafts : List Engine.Draft) :
    Address → Option Document :=
  drafts.foldl (fun images draft => Function.update images ⟨coll,draft.key⟩ (some draft.body)) images

/- All of them are filed against the images of those before them. -/
theorem changedChecks {coll} : ∀ {drafts : List Engine.Draft} {seen : List DocKey} {e next : Engine}
    (images : Address → Option Document), e.checkInserts coll seen drafts = .ok next →
    (∀ key, key ∉ seen → images ⟨coll,key⟩ = e.db.image ⟨coll,key⟩) →
    LocalChanges ⟨e.db.entries,e.db.collections,images⟩
      ⟨next.db.entries,next.db.collections,drafted coll images drafts⟩ ∧ next.db.docs = e.db.docs
  | [], _, _, _, _, passed, _ => by
      cases passed
      exact ⟨.refl,rfl⟩
  | draft :: rest, seen, e, next, images, passed, unseen => by
      unfold Engine.checkInserts at passed
      cases result : e.checkInsert coll draft seen with
      | error error =>
          rw [result] at passed
          cases passed
      | ok middle =>
          rw [result] at passed
          obtain ⟨dead, new, t, accepted, rfl⟩ := Moves.checked result
          obtain ⟨done, made, rfl⟩ := Moves.maintained accepted
          rw [←deadImage dead, ←unseen draft.key new] at made
          have first := Holding.LocalChange.made ⟨e.db.entries,e.db.collections,images⟩ coll draft.key
            (some draft.body) done made
          obtain ⟨later, docs⟩ := changedChecks (Function.update images ⟨coll,draft.key⟩ (some draft.body)) passed
            fun key away => by
              rw [List.mem_cons, not_or] at away
              have apart : (⟨coll,key⟩ : Address) ≠ ⟨coll,draft.key⟩ := fun same => away.1 (congrArg Address.key same)
              rw [Function.update_of_ne apart, unseen key away.2]
              rfl
          exact ⟨.head first later,docs⟩

theorem holdingInserts (coll : CollectionId) : ∀ (drafts : List Engine.Draft) (e : Engine),
    (drafts.foldl (fun e draft => e.writeInsert coll draft) e).db.holding =
      { e.db.holding with images := drafted coll e.db.image drafts }
  | [], _ => rfl
  | draft :: rest, e => by
      have first := holdingWrite e coll draft.key .insert (some draft.body)
      refine (holdingInserts coll rest (e.writeInsert coll draft)).trans ?_
      have images := congrArg Holding.images first
      have entries := congrArg Holding.entries first
      have collections := congrArg Holding.collections first
      simp only [Tables.holding] at images entries collections
      simp only [Tables.holding, Engine.writeInsert, images, entries, collections]
      rfl

theorem changedInsertMany {e next : Engine} {coll drafts} (passed : e.insertManyInTxn coll drafts = .ok next) :
    LocalChanges e.db.holding next.db.holding := by
  unfold Engine.insertManyInTxn at passed
  cases result : e.checkInserts coll [] drafts with
  | error error =>
      rw [result] at passed
      cases passed
  | ok middle =>
      rw [result] at passed
      cases passed
      obtain ⟨changes, docs⟩ := changedChecks e.db.image result fun _ _ => rfl
      rw [holdingInserts]
      have same : middle.db.image = e.db.image := by
        unfold Tables.image
        rw [docs]
      rw [same]
      exact changes

/-! Replicated runs. -/

/- One change after another, with what each has to report. -/
inductive RemoteChanges : Holding → List Engine.Report → Holding → Prop where
  | nil (h : Holding) : RemoteChanges h [] h
  | cons {h k l : Holding} {coll : CollectionId} {key : DocKey} {broken : List UniqueViolation}
      {reports : List Engine.Report} (first : Holding.RemoteChange h coll key broken k)
      (rest : RemoteChanges k reports l) :
      RemoteChanges h (broken.map (fun violation => ⟨coll,key,violation⟩) ++ reports) l

theorem changedRemote (e : Engine) (entry : OplogEntry) (position : Position) :
    ((e.applyRemoteInTxn entry position).1.db.holding = e.db.holding ∧
      Engine.reportsOf entry (e.applyRemoteInTxn entry position).2 = []) ∨
    ∃ key broken, Holding.RemoteChange e.db.holding entry.collection key broken
        (e.applyRemoteInTxn entry position).1.db.holding ∧
      Engine.reportsOf entry (e.applyRemoteInTxn entry position).2 =
        broken.map fun violation => ⟨entry.collection,key,violation⟩ := by
  unfold Engine.applyRemoteInTxn
  split
  · exact Or.inl ⟨rfl,rfl⟩
  next key named =>
    simp only
    split_ifs with wins owed inWindow
    · have beats : ∀ current, e.db.docs.get ⟨entry.collection,key⟩ = some current → current.stamp < entry.stamp := by
        intro current found
        simpa [found] using wins
      rw [Moves.winner beats, incomingDocument]
      refine Or.inr ⟨key,(maintainRemote e.db.entries entry.collection (e.db.currentIndexes entry.collection)
        (e.db.image ⟨entry.collection,key⟩) entry.body key).1,?_,?_⟩
      case refine_2 =>
        simp only [Engine.reportsOf, named]
        rfl
      rw [holdingUnkeyed]
      have change := Holding.RemoteChange.made e.db.holding entry.collection key entry.body
      have images := imagePut e.db ⟨entry.collection,key⟩ entry.incoming
      rw [incomingDocument] at images
      have after := holdingAppend ((e.db.putRecord ⟨entry.collection,key⟩ entry.incoming).settle entry.collection
        (maintainRemote e.db.entries entry.collection (e.db.currentIndexes entry.collection)
          (e.db.image ⟨entry.collection,key⟩) entry.body key).2) entry position
      have same : Tables.holding ((e.db.putRecord ⟨entry.collection,key⟩ entry.incoming).settle entry.collection
          (maintainRemote e.db.entries entry.collection (e.db.currentIndexes entry.collection)
            (e.db.image ⟨entry.collection,key⟩) entry.body key).2) =
          e.db.holding.settle entry.collection key entry.body
            (e.db.holding.applied entry.collection key entry.body) := by
        unfold Tables.holding Holding.settle
        simp only [Holding.mk.injEq]
        exact ⟨rfl,rfl,images⟩
      rw [←same, ←after] at change
      exact change
    · exact Or.inl ⟨holdingAppend _ _ _,by simp [Engine.reportsOf, named]⟩
    · exact Or.inl ⟨holdingRelease _ _,rfl⟩
    · exact Or.inl ⟨rfl,rfl⟩

theorem applyAllReports (e : Engine) (position : Position) (entry : OplogEntry) (rest : List OplogEntry) :
    (e.applyAll position (entry :: rest)).2 = Engine.reportsOf entry (e.applyRemoteInTxn entry position).2 ++
      ((e.applyRemoteInTxn entry position).1.applyAll position rest).2 := rfl

theorem changedAll (position : Position) : ∀ (entries : List OplogEntry) (e : Engine),
    RemoteChanges e.db.holding (e.applyAll position entries).2 (e.applyAll position entries).1.db.holding
  | [], _ => .nil _
  | entry :: rest, e => by
      have later := changedAll position rest (e.applyRemoteInTxn entry position).1
      rcases changedRemote e entry position with ⟨same, none⟩ | ⟨key, broken, change, reports⟩
      · rw [applyAllReports, none, List.nil_append, ←same]
        exact later
      · rw [applyAllReports, reports]
        exact .cons change later

/- What the change of one image keeps, all of them keep. -/
section
variable {P : Holding → Prop} (settles : ∀ {h coll key new}, P h → P (h.settle coll key new (h.applied coll key new)))
include settles

theorem settledRemotes {h k : Holding} {reports} (changes : RemoteChanges h reports k) (held : P h) : P k := by
  induction changes with
  | nil => exact held
  | cons first rest ih =>
      obtain ⟨new⟩ := first
      exact ih (settles held)

theorem settledLocals {h k : Holding} (changes : LocalChanges h k) (held : P h) : P k := by
  induction changes with
  | refl => exact held
  | tail _ change ih =>
      obtain ⟨coll, key, new, done, accepted⟩ := change
      rw [Holding.localApplied accepted]
      exact settles ih

end

theorem soundRemotes {h k : Holding} {reports} (changes : RemoteChanges h reports k) (sound : h.Sound) : k.Sound :=
  settledRemotes Holding.soundSettle changes sound

theorem soundLocals {h k : Holding} (changes : LocalChanges h k) (sound : h.Sound) : k.Sound :=
  settledLocals Holding.soundSettle changes sound

/-! Indexes do not change but for their flags. -/

def Flagged (i index : IndexMeta) : Prop := index = i ∨ index = { i with multikey := true }

theorem flaggedTrans {i j k : IndexMeta} (first : Flagged i j) (second : Flagged j k) : Flagged i k := by
  rcases first with rfl | rfl
  · exact second
  · rcases second with rfl | rfl
    · exact Or.inr rfl
    · exact Or.inr rfl

/- A flag is all that can have changed, and no key depends on it. -/
theorem sharesFlagged {i index : IndexMeta} {view x y} (flagged : Flagged i index) :
    Shares index view x y ↔ Shares i view x y := by
  rcases flagged with rfl | rfl
  · exact Iff.rfl
  · exact Iff.rfl

def Holding.Redefines (h k : Holding) : Prop :=
  ∀ coll, ∀ index ∈ k.indexes coll, ∃ i ∈ h.indexes coll, Flagged i index

theorem redefinesRefl (h : Holding) : h.Redefines h := fun _ index member => ⟨index,member,Or.inl rfl⟩

theorem redefinesTrans {h k l : Holding} (first : h.Redefines k) (second : k.Redefines l) : h.Redefines l := by
  intro coll index member
  obtain ⟨j, there, flagged⟩ := second coll index member
  obtain ⟨i, found, before⟩ := first coll j there
  exact ⟨i,found,flaggedTrans before flagged⟩

theorem redefinesLocals {h k : Holding} (changes : LocalChanges h k) : h.Redefines k := by
  induction changes with
  | refl => exact redefinesRefl h
  | tail _ change ih =>
      obtain ⟨coll, key, new, done, _⟩ := change
      exact redefinesTrans ih fun _ _ member => Holding.memIndexes member

theorem redefinesRemotes {h k : Holding} {reports} (changes : RemoteChanges h reports k) : h.Redefines k := by
  induction changes with
  | nil => exact redefinesRefl _
  | cons first rest ih =>
      obtain ⟨new⟩ := first
      exact redefinesTrans (fun _ _ member => Holding.memIndexes member) ih

/-! Shared keys over an operation. -/

theorem sharesLocals {h k : Holding} {c} {index : IndexMeta} {x y : DocKey} (changes : LocalChanges h k)
    (sound : h.Sound) (member : index ∈ k.indexes c) (unique : index.unique = true) (apart : x ≠ y)
    (shared : Shares index (k.view c) x y) : Shares index (h.view c) x y := by
  induction changes generalizing index with
  | refl => exact shared
  | tail before change ih =>
      have earlier := Holding.sharesLocal change (soundLocals before sound) member unique apart shared
      obtain ⟨coll, key, new, done, _⟩ := change
      obtain ⟨i, there, flagged⟩ := Holding.memIndexes member
      have kept : i.unique = true := by
        rcases flagged with rfl | rfl
        · exact unique
        · exact unique
      exact (sharesFlagged flagged).mpr (ih there kept ((sharesFlagged flagged).mp earlier))

theorem sharesRemotes {h k : Holding} {reports c} {index : IndexMeta} {x y : DocKey}
    (changes : RemoteChanges h reports k) (sound : h.Sound) (member : index ∈ k.indexes c)
    (unique : index.unique = true) (apart : x ≠ y) (shared : Shares index (k.view c) x y) :
    Shares index (h.view c) x y ∨
      ∃ r ∈ reports, r.collection = c ∧ r.violation.index = index.name ∧
        x ∈ r.violation.holders ∧ y ∈ r.violation.holders := by
  induction changes with
  | nil => exact Or.inl shared
  | cons first rest ih =>
      rcases ih (Holding.soundRemote first sound) member shared with before | ⟨r, there, named⟩
      · obtain ⟨i, found, flagged⟩ := redefinesRemotes rest c index member
        have kept : i.unique = true ∧ i.name = index.name := by
          rcases flagged with rfl | rfl
          · exact ⟨unique,rfl⟩
          · exact ⟨unique,rfl⟩
        have mine := (sharesFlagged flagged).mp before
        refine (Holding.sharesRemote first sound found kept.1 apart mine).imp (sharesFlagged flagged).mpr ?_
        rintro ⟨rfl, v, made, name, both⟩
        exact ⟨_,List.mem_append_left _ (List.mem_map_of_mem made),rfl,name.trans kept.2,both⟩
      · exact Or.inr ⟨r,List.mem_append_right _ there,named⟩

/- Every report is published, with the images as they stand. -/
theorem memPublished {r : Engine.Report} : ∀ {reports : List Engine.Report} {e : Engine}, r ∈ reports →
    ∃ entry ∈ e.published reports, entry.collection = r.collection ∧ entry.kind = Engine.violationKind e.db r
  | head :: rest, e, member => by
      unfold Engine.published
      rcases List.mem_cons.mp member with rfl | later
      · exact ⟨_,List.mem_cons_self,rfl,rfl⟩
      · obtain ⟨entry, there, collection, kind⟩ := memPublished (e := e.logUniqueViolation head) later
        refine ⟨entry,List.mem_cons_of_mem _ there,collection,kind.trans ?_⟩
        have images := congrArg Holding.images (holdingObserve e head.collection (Engine.violationKind e.db head))
        unfold Engine.violationKind Engine.logUniqueViolation
        simp only [Tables.holding] at images
        simp only [images]

def Op.IsReplicated : Op → Prop
  | .replicated _ _ _ => True
  | _ => False

/- What an operation does to the images and the indexes: local changes, or the replicated ones
of a run that commits. -/
theorem changedStep (e : Engine) (op : Op) :
    LocalChanges e.db.holding (e.step op).db.holding ∨
      ∃ position entries, op = .replicated position entries true ∧
        RemoteChanges e.db.holding (e.applyAll position entries).2 (e.step op).db.holding ∧
        (e.step op).db.holding = (e.applyAll position entries).1.db.holding := by
  cases op with
  | write w =>
      left
      cases result : e.writeInTxn w with
      | error error =>
          rw [Engine.step, result]
          exact .refl
      | ok next =>
          rw [Engine.step, result]
          exact changedWrite result
  | insertMany coll drafts =>
      left
      cases result : e.insertManyInTxn coll drafts with
      | error error =>
          rw [Engine.step, result]
          exact .refl
      | ok next =>
          rw [Engine.step, result]
          exact changedInsertMany result
  | batch writes closed =>
      left
      rw [Engine.step, Engine.writeBatch]
      simp only
      split_ifs
      · exact changedScope writes e
      · exact .refl
  | replicated position entries commits =>
      cases commits with
      | false => exact Or.inl .refl
      | true =>
          right
          have same : (e.step (.replicated position entries true)).db.holding =
              (e.applyAll position entries).1.db.holding := holdingReport _ _
          refine ⟨position,entries,rfl,?_,same⟩
          rw [same]
          exact changedAll position entries e

theorem settledStep {P : Holding → Prop} (settles : ∀ {h coll key new}, P h → P (h.settle coll key new (h.applied coll key new)))
    {e : Engine} {op : Op} (held : P e.db.holding) : P (e.step op).db.holding := by
  rcases changedStep e op with changes | ⟨_, _, _, changes, _⟩
  · exact settledLocals settles changes held
  · exact settledRemotes settles changes held

theorem soundStep {e : Engine} {op : Op} (sound : e.db.holding.Sound) : (e.step op).db.holding.Sound :=
  settledStep Holding.soundSettle sound

theorem soundRun {e : Engine} (ops : List Op) (sound : e.db.holding.Sound) : (e.run ops).db.holding.Sound := by
  induction ops generalizing e with
  | nil => exact sound
  | cons op rest ih => exact ih (soundStep sound)

theorem redefinesRun (e : Engine) (ops : List Op) : e.db.holding.Redefines (e.run ops).db.holding := by
  induction ops generalizing e with
  | nil => exact redefinesRefl _
  | cons op rest ih =>
      refine redefinesTrans ?_ (ih (e.step op))
      rcases changedStep e op with changes | ⟨_, _, _, changes, _⟩
      · exact redefinesLocals changes
      · exact redefinesRemotes changes

theorem soundFresh {e : Engine} {collections} (fresh : e.db = .fresh collections) : e.db.holding.Sound := by
  rw [fresh]
  refine ⟨fun coll index _ key doc => ?_,fun coll index _ _ doc image found => nomatch found⟩
  exact iff_of_false nofun List.not_mem_nil

/- The images of a collection. -/
def Tables.view (t : Tables) (coll : CollectionId) : View := fun key => t.image ⟨coll,key⟩

/- After any sequence of writes, the entries of every index are those of the live documents,
each under the keys it has now or once in the unkeyed run, and an index that is not flagged
sees no document it selects offer two values for a field. -/
theorem indexesExact (start : Engine) (collections : SortedMap CollectionId CollectionMeta) (ops : List Op)
    (fresh : start.db = .fresh collections) (coll : CollectionId) (index : IndexMeta)
    (member : index ∈ (start.run ops).db.currentIndexes coll) :
    (∀ key doc, (start.run ops).db.entries.get ⟨coll,index.id,key,doc⟩ = some () ↔
      ∃ record image, (start.run ops).db.docs.get ⟨coll,doc⟩ = some record ∧ record.document = some image ∧
        key ∈ (documentKeys index image).filed) ∧
    (index.multikey = false → ∀ doc image, (start.run ops).db.view coll doc = some image →
      (∀ filter ∈ index.selection, filter.selects image = true) →
      ∀ field ∈ index.fields, (fieldValues image field.path).length ≤ 1) := by
  have sound := soundRun ops (soundFresh fresh)
  refine ⟨fun key doc => ?_,fun unset doc image found selected field there => ?_⟩
  · rw [show (start.run ops).db.entries.get ⟨coll,index.id,key,doc⟩ = some () ↔ _ from
      sound.exact coll index member key doc]
    unfold filedUnder Holding.view Tables.holding Tables.image
    simp only
    cases held : (start.run ops).db.docs.get ⟨coll,doc⟩ with
    | none => simp
    | some record => cases live : record.document with
      | none => simp [live]
      | some image => simp [live]
  · exact oneValue (sound.flags coll index member unset doc image found) selected there

/- A collection whose documents have one text each. -/
def named : IndexMeta := ⟨7,"name_1",[⟨"name",false⟩],true,false,none⟩

def people : SortedMap CollectionId CollectionMeta := SortedMap.empty.insert 0 ⟨[named],List.pairwise_singleton ..⟩

def person (name : String) : Document := [("name",.string name)]

def inserts (key : DocKey) (name : String) : Op := .write (.insert 0 ⟨key,person name,true⟩)

def receives (stamp : Stamp) (key : DocKey) (name : String) : Op :=
  .replicated .raise [⟨stamp,.insert,0,some key,some (person name)⟩] true

theorem indexesExactHere :
    ((Engine.opened 0 (fun _ => 0) people).run [inserts [1] "x",receives ⟨⟨3,0⟩,1⟩ [2] "x"]).db.entries.get
      ⟨0,7,(documentKeys named (person "x")).keys.headD [],[2]⟩ = some () ∧
    (fieldValues (person "x") "name").length ≤ 1 := by
  have law := indexesExact (.opened 0 (fun _ => 0) people) people [inserts [1] "x",receives ⟨⟨3,0⟩,1⟩ [2] "x"] rfl 0
    named (by decide +kernel)
  refine ⟨(law.1 _ [2]).mpr ⟨.live ⟨⟨3,0⟩,1⟩ (person "x"),person "x",by decide +kernel,rfl,by decide +kernel⟩,?_⟩
  exact law.2 rfl [1] (person "x") (by decide +kernel) nofun ⟨"name",false⟩ (by decide)

/-! Uniqueness. -/

/- The last operation after which something holds that did not before it, with all that follow. -/
theorem lastBecomes (holds : Engine → Prop) {start : Engine} (ops : List Op) (unmet : ¬ holds start)
    (now : holds (start.run ops)) :
    ∃ before op after, ops = before ++ op :: after ∧ ¬ holds (start.run before) ∧
      ∀ part, part <+: after → holds (start.run (before ++ op :: part)) := by
  induction ops using List.reverseRecOn with
  | nil => exact absurd now unmet
  | append_singleton init op ih =>
      by_cases earlier : holds (start.run init)
      · obtain ⟨before, first, after, split, not, all⟩ := ih earlier
        refine ⟨before,first,after ++ [op],by rw [split]; simp,not,fun part inside => ?_⟩
        rcases List.prefix_concat_iff.mp inside with whole | shorter
        · rw [whole, ←List.cons_append, ←List.append_assoc, ←split]
          exact now
        · exact all part shorter
      · refine ⟨init,op,[],rfl,earlier,fun part inside => ?_⟩
        rw [List.prefix_nil.mp inside]
        exact now

/- An operation after which two documents share a unique key that they did not share before is
a replicated run, and it reports the two. -/
theorem sharesReported {e : Engine} {op : Op} {coll} {index : IndexMeta} {x y : DocKey} (sound : e.db.holding.Sound)
    (member : index ∈ (e.step op).db.currentIndexes coll) (unique : index.unique = true) (apart : x ≠ y)
    (before : ¬ Shares index (e.db.view coll) x y) (shared : Shares index ((e.step op).db.view coll) x y) :
    op.IsReplicated ∧ ∃ entry ∈ e.violationsReported op, ∃ detail, entry.kind = .uniqueViolation detail ∧
      entry.collection = coll ∧ detail.index = index.name ∧ x ∈ detail.ids ∧ y ∈ detail.ids := by
  rcases changedStep e op with changes | ⟨position, entries, rfl, changes, same⟩
  · exact absurd (sharesLocals changes sound member unique apart shared) before
  · refine ⟨trivial,?_⟩
    rcases sharesRemotes changes sound member unique apart shared with old | ⟨r, there, rfl, named, inX, inY⟩
    · exact absurd old before
    · obtain ⟨entry, made, collection, kind⟩ := memPublished (e := (e.applyAll position entries).1) there
      refine ⟨entry,made,_,kind,collection,named,?_⟩
      have images : (e.step (.replicated position entries true)).db.image = (e.applyAll position entries).1.db.image :=
        congrArg Holding.images same
      obtain ⟨imageX, imageY, key, atX, atY, _⟩ := shared
      simp only [Tables.view, images] at atX atY
      constructor
      · exact List.mem_filter.mpr ⟨inX,by rw [atX]; rfl⟩
      · exact List.mem_filter.mpr ⟨inY,by rw [atY]; rfl⟩

/- Local writes alone never share a unique key. With replication, whenever two documents do,
the operation that brought them together was a replicated one and reported both; and only
another live document can have a write refused or reported. -/
theorem uniqueness (start : Engine) (collections : SortedMap CollectionId CollectionMeta)
    (fresh : start.db = .fresh collections) (ops : List Op) (coll : CollectionId) :
    ((∀ op ∈ ops, ¬ op.IsReplicated) → ∀ index ∈ (start.run ops).db.currentIndexes coll, index.unique = true →
      ∀ x y, x ≠ y → ¬ Shares index ((start.run ops).db.view coll) x y) ∧
    (∀ index ∈ (start.run ops).db.currentIndexes coll, index.unique = true →
      ∀ x y, x ≠ y → Shares index ((start.run ops).db.view coll) x y →
      ∃ before op after, ops = before ++ op :: after ∧ op.IsReplicated ∧
        ¬ Shares index ((start.run before).db.view coll) x y ∧
        (∀ part, part <+: after → Shares index ((start.run (before ++ op :: part)).db.view coll) x y) ∧
        ∃ entry ∈ (start.run before).violationsReported op, ∃ detail, entry.kind = .uniqueViolation detail ∧
          entry.collection = coll ∧ detail.index = index.name ∧ x ∈ detail.ids ∧ y ∈ detail.ids) ∧
    (∀ doc old new, let t := (start.run ops).db
      (∀ name, maintainLocal t.entries coll (t.currentIndexes coll) old new doc true = .error (.uniqueViolation name) →
        ∃ index ∈ t.currentIndexes coll, index.name = name ∧ Contested index (t.view coll) doc new) ∧
      (∀ v ∈ (maintainRemote t.entries coll (t.currentIndexes coll) old new doc).1,
        ∃ index ∈ t.currentIndexes coll, index.name = v.index ∧ Contested index (t.view coll) doc new)) := by
  have brought : ∀ index ∈ (start.run ops).db.currentIndexes coll, index.unique = true →
      ∀ x y, x ≠ y → Shares index ((start.run ops).db.view coll) x y →
      ∃ before op after, ops = before ++ op :: after ∧ op.IsReplicated ∧
        ¬ Shares index ((start.run before).db.view coll) x y ∧
        (∀ part, part <+: after → Shares index ((start.run (before ++ op :: part)).db.view coll) x y) ∧
        ∃ entry ∈ (start.run before).violationsReported op, ∃ detail, entry.kind = .uniqueViolation detail ∧
          entry.collection = coll ∧ detail.index = index.name ∧ x ∈ detail.ids ∧ y ∈ detail.ids := by
    intro index member unique x y apart shared
    have nothing : ¬ Shares index (start.db.view coll) x y := by
      rintro ⟨imageX, _, _, atX, _⟩
      rw [fresh] at atX
      cases atX
    obtain ⟨before, op, after, rfl, not, all⟩ :=
      lastBecomes (fun e => Shares index (e.db.view coll) x y) ops nothing shared
    have now := all [] List.nil_prefix
    have split : start.run (before ++ [op]) = (start.run before).step op := by simp [Engine.run]
    have rest : start.run (before ++ op :: after) = ((start.run before).step op).run after := by simp [Engine.run]
    rw [split] at now
    rw [rest] at member
    -- the index as it was then has the same keys and the same name
    obtain ⟨i, there, flagged⟩ := redefinesRun _ after coll index member
    have kept : i.unique = true ∧ i.name = index.name := by
      rcases flagged with rfl | rfl
      · exact ⟨unique,rfl⟩
      · exact ⟨unique,rfl⟩
    obtain ⟨replicated, entry, made, detail, kind, collection, named, both⟩ :=
      sharesReported (soundRun before (soundFresh fresh)) there kept.1 apart
        (fun old => not ((sharesFlagged flagged).mpr old)) ((sharesFlagged flagged).mp now)
    exact ⟨before,op,after,rfl,replicated,not,all,entry,made,detail,kind,collection,named.trans kept.2,both⟩
  have exact := (soundRun ops (soundFresh fresh)).exact coll
  refine ⟨fun locals index member unique x y apart shared => ?_,brought,fun doc old new => ⟨fun name refused => ?_,
    fun v made => ?_⟩⟩
  · obtain ⟨before, op, after, split, replicated, _⟩ := brought index member unique x y apart shared
    exact locals op (by rw [split]; simp) replicated
  · exact refusedContested exact refused
  · exact reportedContested exact made

/- The second person of a name is refused at home; one from elsewhere is let in and reported. -/
theorem uniquenessHere :
    ¬ Shares named (((Engine.opened 0 (fun _ => 0) people).run [inserts [1] "x",inserts [2] "x"]).db.view 0) [1] [2] ∧
    ∃ before op after, [inserts [1] "x",receives ⟨⟨3,0⟩,1⟩ [2] "x"] = before ++ op :: after ∧ op.IsReplicated ∧
      ∃ entry ∈ ((Engine.opened 0 (fun _ => 0) people).run before).violationsReported op, ∃ detail,
        entry.kind = .uniqueViolation detail ∧ detail.index = "name_1" ∧ [1] ∈ detail.ids ∧ [2] ∈ detail.ids := by
  have home := (uniqueness (.opened 0 (fun _ => 0) people) people rfl [inserts [1] "x",inserts [2] "x"] 0).1
    (by simp [inserts, Op.IsReplicated]) named (by decide +kernel) rfl [1] [2] (by decide)
  have met : Shares named (((Engine.opened 0 (fun _ => 0) people).run
      [inserts [1] "x",receives ⟨⟨3,0⟩,1⟩ [2] "x"]).db.view 0) [1] [2] :=
    ⟨person "x",person "x",(documentKeys named (person "x")).keys.headD [],by decide +kernel,by decide +kernel,
      by decide +kernel,by decide +kernel⟩
  obtain ⟨before, op, after, split, replicated, _, _, entry, made, detail, kind, _, name, both⟩ :=
    (uniqueness (.opened 0 (fun _ => 0) people) people rfl [inserts [1] "x",receives ⟨⟨3,0⟩,1⟩ [2] "x"] 0).2.1
      named (by decide +kernel) rfl [1] [2] (by decide) met
  exact ⟨home,before,op,after,split,replicated,entry,made,detail,kind,name,both⟩

end Kimmy.Store
