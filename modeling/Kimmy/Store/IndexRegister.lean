import Kimmy.Register
import Kimmy.Store.Index

/-!
Index definitions as they replicate (`sync.rs`, `index.rs`): what a member does with another member's
`CreateIndex` and `DropIndex` entries for a collection that stands here. Under one name a member holds
at most one definition, with the stamp of its creation, and the tombstone of the drops it has seen.
-/
namespace Kimmy.Store
open Merge

inductive Enforcement where
  | onMember
  | coordinated
  deriving DecidableEq

/- An index as it is created: its id is derived from the name. -/
structure IndexDefinition where
  name : String
  fields : List IndexField
  unique : Bool
  enforcement : Enforcement
  expireAfterSecs : Option Int64
  partialFilter : Option Document
  created : Option Stamp

/- FNV-1a over the bytes of the name. -/
def deriveId (name : String) : IndexId :=
  ((asBytes name).foldl (fun (hash : UInt32) byte => (hash ^^^ byte.toUInt32) * 0x01000193) 0x811c9dc5).toFin

/-! The filter as it is stored and as two definitions compare it. -/

def isNan (bits : UInt64) : Bool := bits.toNat / 2 ^ 52 % 2 ^ 11 = 2047 ∧ bits.toNat % 2 ^ 52 ≠ 0

mutual

/- Every NaN is the one quiet NaN. -/
def unsignedNan : Bson → Bson
  | .double bits => .double (if isNan bits then 0x7FF8000000000000 else bits)
  | .document fields => .document (unsignedNanFields fields)
  | .array items => .array (unsignedNanItems items)
  | other => other

def unsignedNanFields : List (String × Bson) → List (String × Bson)
  | [] => []
  | (key,value) :: rest => (key,unsignedNan value) :: unsignedNanFields rest

def unsignedNanItems : List Bson → List Bson
  | [] => []
  | value :: rest => unsignedNan value :: unsignedNanItems rest

end

/- A definition as every member stores it: the store's encoding keeps everything but the sign of a NaN. -/
def asStored (index : IndexDefinition) : IndexDefinition :=
  { index with partialFilter := index.partialFilter.map unsignedNanFields }

section
variable (extjson : Document → String)

/- The order of the top-level fields does not count; that of the fields inside them does. -/
def compared (filter : Option Document) : Option String :=
  filter.map fun doc => extjson (unsignedNanFields (doc.mergeSort fun a b => a.1 ≤ b.1))

def differences (index other : IndexDefinition) : List String :=
  (if index.fields ≠ other.fields then ["field list"] else []) ++
  (if index.unique ≠ other.unique then ["unique flag"] else []) ++
  (if index.enforcement ≠ other.enforcement then ["enforcement"] else []) ++
  (if index.expireAfterSecs ≠ other.expireAfterSecs then ["expireAfterSeconds"] else []) ++
  (if compared extjson index.partialFilter ≠ compared extjson other.partialFilter
    then ["partialFilterExpression"] else [])

end

/-! Storing a definition changes nothing two definitions are compared by. -/

mutual

theorem unsignedNanTwice : (value : Bson) → unsignedNan (unsignedNan value) = unsignedNan value
  | .double bits => by
      simp only [unsignedNan]
      split_ifs with first second
      · rfl
      · rfl
      · rfl
  | .document fields => by
      simp only [unsignedNan, unsignedNanFieldsTwice fields]
  | .array items => by
      simp only [unsignedNan, unsignedNanItemsTwice items]
  | .string _ | .binary _ _ | .undefined | .objectId _ | .boolean _ | .dateTime _ | .null | .regularExpression _ _
  | .dbPointer | .javaScriptCode _ | .symbol _ | .javaScriptCodeWithScope _ _ | .int32 _ | .timestamp _ _
  | .int64 _ | .decimal128 _ | .minKey | .maxKey => rfl

theorem unsignedNanFieldsTwice : (fields : List (String × Bson)) →
    unsignedNanFields (unsignedNanFields fields) = unsignedNanFields fields
  | [] => rfl
  | (key,value) :: rest => by
      simp only [unsignedNanFields, unsignedNanTwice value, unsignedNanFieldsTwice rest]

theorem unsignedNanItemsTwice : (items : List Bson) →
    unsignedNanItems (unsignedNanItems items) = unsignedNanItems items
  | [] => rfl
  | value :: rest => by
      simp only [unsignedNanItems, unsignedNanTwice value, unsignedNanItemsTwice rest]

end

theorem unsignedNanFieldsMap : ∀ fields : List (String × Bson),
    unsignedNanFields fields = fields.map fun x => (x.1,unsignedNan x.2)
  | [] => rfl
  | (key,value) :: rest => by
      rw [unsignedNanFields, unsignedNanFieldsMap rest]
      rfl

theorem comparedStored {extjson : Document → String} (filter : Option Document) :
    compared extjson (filter.map unsignedNanFields) = compared extjson filter := by
  cases filter with
  | none => rfl
  | some doc =>
      have sorted : (unsignedNanFields doc).mergeSort (fun a b => a.1 ≤ b.1) =
          unsignedNanFields (doc.mergeSort fun a b => a.1 ≤ b.1) := by
        rw [unsignedNanFieldsMap, unsignedNanFieldsMap]
        refine (List.map_mergeSort ?_).symm
        intro a _ b _
        rfl
      simp only [compared, Option.map_some]
      rw [sorted, unsignedNanFieldsTwice]

/-! A collection that stands, and what arrives for it. -/

inductive IndexError where
  | noFields
  | filterUnsupported
  | negativeExpiry (secs : Int64)
  | compoundExpiry (fields : Nat)
  | coordinatedReserved
  | indexExists (index : String) (differs : List String)
  | collides (index other : String)
  deriving DecidableEq

/- What a request is refused for. -/
def IndexDefinition.refused (index : IndexDefinition) : Option IndexError :=
  if index.fields = [] then some .noFields
  else if index.partialFilter.any fun doc => (PartialFilter.parse doc).isNone then some .filterUnsupported
  else match index.expireAfterSecs with
    | some secs =>
        if secs < 0 then some (.negativeExpiry secs)
        else if index.fields.length ≠ 1 then some (.compoundExpiry index.fields.length)
        else if index.enforcement = .coordinated then some .coordinatedReserved else none
    | none => if index.enforcement = .coordinated then some .coordinatedReserved else none

/- The life of the collection and its database's drops, its indexes and their tombstones. -/
structure IndexHome where
  incarnationFloor : Option Hlc
  collectionDroppedAt : Option Stamp
  databaseDroppedAt : Option Stamp
  indexes : List IndexDefinition
  indexesDropped : SortedMap IndexId Stamp

/- A creation as its origin logged it: where the definition has a stamp, it is the entry's. -/
inductive IndexEntry where
  | createIndex (index : IndexDefinition) (stamp : Stamp) (logged : ∀ s, index.created = some s → s = stamp)
  | dropIndex (name : String) (stamp : Stamp)

namespace IndexEntry

def name : IndexEntry → String
  | .createIndex index _ _ => index.name
  | .dropIndex name _ => name

def stamp : IndexEntry → Stamp
  | .createIndex _ stamp _ => stamp
  | .dropIndex _ stamp => stamp

end IndexEntry

inductive IndexCreated where
  | built
  | standing
  | older
  deriving DecidableEq

inductive DdlOutcome where
  | applied
  | declined
  | declinedReplay
  | refused (why : IndexError)
  deriving DecidableEq

namespace IndexHome

def index (home : IndexHome) (name : String) : Option IndexDefinition := home.indexes.find? fun i => i.name = name

def indexById (home : IndexHome) (id : IndexId) : Option IndexDefinition :=
  home.indexes.find? fun i => deriveId i.name = id

def indexDroppedAt (home : IndexHome) (name : String) : Option Stamp := home.indexesDropped.get (deriveId name)

/- A tombstone never moves back. -/
def recordIndexDrop (home : IndexHome) (name : String) (stamp : Stamp) : IndexHome :=
  if (home.indexDroppedAt name).all (· < stamp)
  then { home with indexesDropped := home.indexesDropped.insert (deriveId name) stamp } else home

def belowFloor (home : IndexHome) (stamp : Stamp) : Bool := home.incarnationFloor.any (stamp.hlc ≤ ·)

/- A definition from a life of the collection that a drop has ended. -/
def definitionOfAnEndedLife (home : IndexHome) (stamp : Stamp) : Bool :=
  home.belowFloor stamp ||
    [home.collectionDroppedAt,home.databaseDroppedAt].any fun drop => drop.any (stamp.hlc ≤ ·.hlc)

def history (home : IndexHome) (name : String) (stamp : Stamp) : Bool :=
  home.definitionOfAnEndedLife stamp || (home.indexDroppedAt name).any (stamp < ·)

/- The first index of the name takes the stamp. -/
def restamp (name : String) (stamp : Stamp) : List IndexDefinition → List IndexDefinition
  | [] => []
  | i :: rest => if i.name = name then { i with created := some stamp } :: rest else i :: restamp name stamp rest

/- The loser goes, under the winner's stamp. -/
def supersede (home : IndexHome) (loser index : IndexDefinition) (stamp : Stamp) : IndexHome :=
  let recorded := home.recordIndexDrop loser.name stamp
  { recorded with indexes := recorded.indexes.filter fun i => i.name ≠ index.name }

/- The build itself; a definition it supersedes goes in the same transaction. -/
def build (home : IndexHome) (index : IndexDefinition) (superseded : Option IndexDefinition) :
    Except IndexError (IndexHome × IndexCreated) :=
  match (home.indexById (deriveId index.name)).filter fun other => other.name ≠ index.name with
  | some other => .error (.collides index.name other.name)
  | none =>
      let cleared := match superseded, index.created with
        | some loser, some stamp => home.supersede loser index stamp
        | _, _ => home
      .ok ({ cleared with indexes := cleared.indexes ++ [index] },.built)

section
variable (extjson : Document → String)

/- A replicated create, once it is known to be no history. -/
def createIndexInner (home : IndexHome) (given : IndexDefinition) : Except IndexError (IndexHome × IndexCreated) :=
  match given.refused with
  | some why => .error why
  | none =>
      let index := asStored given
      match home.index index.name with
      | none => home.build index none
      | some existing =>
          match differences extjson existing index, existing.created, index.created with
          | [], some held, some arriving =>
              if held < arriving
              then .ok ({ home with indexes := restamp index.name arriving home.indexes },.built)
              else .ok (home,.standing)
          | [], none, some arriving =>
              .ok ({ home with indexes := restamp index.name arriving home.indexes },.built)
          | [], _, none => .ok (home,.standing)
          | _, some held, some arriving =>
              if held < arriving then home.build index (some existing) else .ok (home,.older)
          | differs, _, _ => .error (.indexExists index.name differs)

def applyRemoteIndex (home : IndexHome) (target : IndexDefinition) (stamp : Stamp) :
    Except IndexError (IndexHome × IndexCreated) :=
  if home.history target.name stamp then .ok (home,.older)
  else home.createIndexInner extjson { target with created := some (target.created.getD stamp) }

def dropIndexInner (home : IndexHome) (name : String) (stamp : Stamp) : IndexHome :=
  match home.index name with
  | none => home.recordIndexDrop name stamp
  | some _ => { home with indexes := home.indexes.filter fun i => i.name ≠ name }.recordIndexDrop name stamp

/- A request the member cannot honour is skipped; a collision of ids fails the batch. -/
def applyDdl (home : IndexHome) : IndexEntry → Except IndexError (IndexHome × DdlOutcome)
  | .createIndex target stamp _ => match home.applyRemoteIndex extjson target stamp with
      | .ok (after,_) => .ok (after,.applied)
      | .error (.collides index other) => .error (.collides index other)
      | .error why => .ok (home,.refused why)
  | .dropIndex name stamp =>
      -- a drop from before the creation that stands is remembered, and no more
      if (home.index name).any fun i => i.created.any (stamp < ·) then
        if (home.indexDroppedAt name).any (stamp ≤ ·) then .ok (home,.declinedReplay)
        else .ok (home.recordIndexDrop name stamp,.declined)
      else .ok (home.dropIndexInner name stamp,.applied)

def applyAll (home : IndexHome) : List IndexEntry → Except IndexError IndexHome
  | [] => .ok home
  | entry :: rest => match home.applyDdl extjson entry with
      | .ok (after,_) => after.applyAll rest
      | .error why => .error why

end

/-! What each operation does to a name. -/

section
variable {home : IndexHome} {name other : String} {stamp : Stamp}

theorem indexMem {i : IndexDefinition} (found : home.index name = some i) : i ∈ home.indexes ∧ i.name = name :=
  ⟨List.mem_of_find?_eq_some found,by simpa using List.find?_some found⟩

theorem indexFilter : List.find? (fun i => decide (i.name = other)) (home.indexes.filter fun i => i.name ≠ name) =
    if other = name then none else home.index other := by
  rw [List.find?_filter]
  split_ifs with own
  · subst own
    refine List.find?_eq_none.mpr fun i _ both => ?_
    simp at both
  · unfold index
    congr 1
    funext i
    by_cases named : i.name = other
    · simp [named, own]
    · simp [named]

theorem indexRestamp : ∀ {indexes : List IndexDefinition},
    (restamp name stamp indexes).find? (fun i => i.name = other) =
      if other = name then (indexes.find? fun i => i.name = other).map fun i => { i with created := some stamp }
      else indexes.find? fun i => i.name = other
  | [] => by simp [restamp]
  | i :: rest => by
      unfold restamp
      by_cases own : i.name = name
      · rw [if_pos own]
        by_cases asked : other = name
        · simp [asked, own]
        · have apart : i.name ≠ other := by rw [own]; exact Ne.symm asked
          simp [asked, apart]
      · rw [if_neg own, List.find?_cons, List.find?_cons, indexRestamp]
        by_cases named : i.name = other
        · have asked : other ≠ name := by rw [←named]; exact own
          simp [named, asked]
        · simp [named]

theorem droppedRecord : (home.recordIndexDrop name stamp).indexDroppedAt other =
    if deriveId other = deriveId name then some (Register.later (home.indexDroppedAt name) stamp)
    else home.indexDroppedAt other := by
  unfold recordIndexDrop
  cases held : home.indexDroppedAt name with
  | none =>
      simp only [Option.all_none, if_true, indexDroppedAt, SortedMap.getInsert, Register.later, Option.elim]
  | some seen =>
      simp only [Option.all_some, decide_eq_true_eq, Register.later, Option.elim]
      split_ifs with newer own own
      · simp only [indexDroppedAt, SortedMap.getInsert, if_pos own, max_eq_right newer.le]
      · simp only [indexDroppedAt, SortedMap.getInsert, if_neg own]
      · rw [indexDroppedAt, own, ←indexDroppedAt, held, max_eq_left (not_lt.mp newer)]
      · rfl

@[simp] theorem indexRecord : (home.recordIndexDrop name stamp).index other = home.index other := by
  unfold recordIndexDrop
  split <;> rfl

theorem lifeRecord (name : String) (stamp : Stamp) :
    (home.recordIndexDrop name stamp).definitionOfAnEndedLife = home.definitionOfAnEndedLife := by
  unfold recordIndexDrop
  split <;> rfl

@[simp] theorem indexesRecord : (home.recordIndexDrop name stamp).indexes = home.indexes := by
  unfold recordIndexDrop
  split <;> rfl

theorem indexesSupersede {loser index : IndexDefinition} :
    (home.supersede loser index stamp).indexes = home.indexes.filter fun i => i.name ≠ index.name := by
  simp only [supersede, indexesRecord]

end

/-! A name is a register, and an entry an event on it. -/

def bare (index : IndexDefinition) : IndexDefinition := { index with created := none }

def view (home : IndexHome) (name : String) : Register Stamp IndexDefinition :=
  ⟨(home.index name).bind fun i => i.created.map (Prod.mk (bare i)),home.indexDroppedAt name⟩

/- A creation counts when no check refuses it and it is of the life that stands. -/
def counts (home : IndexHome) (index : IndexDefinition) (stamp : Stamp) : Bool :=
  index.refused.isNone && !home.definitionOfAnEndedLife stamp

def event (home : IndexHome) (name : String) : IndexEntry → Option (Register.Event Stamp IndexDefinition)
  | .createIndex index stamp _ =>
      if index.name = name ∧ home.counts index stamp then some (.create (bare (asStored index)) stamp) else none
  | .dropIndex dropped stamp => if dropped = name then some (.drop stamp) else none

/- Every definition a member stores has its stamp. -/
def Stamped (home : IndexHome) : Prop := ∀ i ∈ home.indexes, ∃ s, i.created = some s

section
variable (extjson : Document → String)

/- Two definitions the check finds no difference between. -/
def Same (a b : IndexDefinition) : Prop := differences extjson a b = []

instance : DecidableRel (Same extjson) := fun a b => inferInstanceAs (Decidable (differences extjson a b = []))

/- What an entry leaves behind. -/
structure Takes (home after : IndexHome) (entry : IndexEntry) : Prop where
  life : after.definitionOfAnEndedLife = home.definitionOfAnEndedLife
  stamped : home.Stamped → after.Stamped
  names : ∀ i ∈ after.indexes, i.name = entry.name ∨ ∃ j ∈ home.indexes, j.name = i.name
  view : ∀ name, (deriveId name = deriveId entry.name → name = entry.name) →
    after.view name = (home.event name entry).elim (home.view name) ((home.view name).apply (Same extjson))

end

section
variable {extjson : Document → String} {home : IndexHome} {target : IndexDefinition} {stamp : Stamp}

theorem sameIff {a b : IndexDefinition} : Same extjson a b ↔ a.fields = b.fields ∧ a.unique = b.unique ∧
    a.enforcement = b.enforcement ∧ a.expireAfterSecs = b.expireAfterSecs ∧
    compared extjson a.partialFilter = compared extjson b.partialFilter := by
  unfold Same differences
  simp only [List.append_eq_nil_iff, ite_eq_right_iff, List.cons_ne_nil, imp_false, ne_eq, not_not, and_assoc]

theorem sameEquivalence : Equivalence (Same extjson) where
  refl a := sameIff.mpr ⟨rfl,rfl,rfl,rfl,rfl⟩
  symm alike := by
    obtain ⟨fields, unique, enforcement, expiry, filter⟩ := sameIff.mp alike
    exact sameIff.mpr ⟨fields.symm,unique.symm,enforcement.symm,expiry.symm,filter.symm⟩
  trans first second := by
    obtain ⟨fields, unique, enforcement, expiry, filter⟩ := sameIff.mp first
    obtain ⟨fields', unique', enforcement', expiry', filter'⟩ := sameIff.mp second
    exact sameIff.mpr ⟨fields.trans fields',unique.trans unique',enforcement.trans enforcement',
      expiry.trans expiry',filter.trans filter'⟩

theorem quietElsewhere {entry : IndexEntry} {name : String} (other : name ≠ entry.name) :
    home.event name entry = none := by
  cases entry with
  | createIndex index stamp logged => exact if_neg fun both => other both.1.symm
  | dropIndex dropped stamp => exact if_neg fun same => other same.symm

/- What an entry does is done to its own name. -/
theorem Takes.own {after : IndexHome} {entry : IndexEntry}
    (life : after.definitionOfAnEndedLife = home.definitionOfAnEndedLife) (stamped : home.Stamped → after.Stamped)
    (names : ∀ i ∈ after.indexes, i.name = entry.name ∨ ∃ j ∈ home.indexes, j.name = i.name)
    (index : ∀ name, name ≠ entry.name → after.index name = home.index name)
    (dropped : ∀ name, deriveId name ≠ deriveId entry.name → after.indexDroppedAt name = home.indexDroppedAt name)
    (view : after.view entry.name =
      (home.event entry.name entry).elim (home.view entry.name) ((home.view entry.name).apply (Same extjson))) :
    Takes extjson home after entry where
  life := life
  stamped := stamped
  names := names
  view name apart := by
    by_cases own : name = entry.name
    · rw [own]
      exact view
    · rw [quietElsewhere own, IndexHome.view, index name own, dropped name fun same => own (apart same)]
      rfl

theorem Takes.unchanged {entry : IndexEntry}
    (view : ∀ x, home.event entry.name entry = some x →
      (home.view entry.name).apply (Same extjson) x = home.view entry.name) : Takes extjson home home entry := by
  refine .own rfl (fun stamped => stamped) (fun i member => .inr ⟨i,member,rfl⟩) (fun _ _ => rfl) (fun _ _ => rfl) ?_
  cases told : home.event entry.name entry with
  | none => rfl
  | some x => exact (view x told).symm

/- The definition an arriving creation builds. -/
def arrived (target : IndexDefinition) (stamp : Stamp) : IndexDefinition :=
  asStored { target with created := some stamp }

theorem arrivedBare : bare (arrived target stamp) = bare (asStored target) := rfl

section
variable {logged : ∀ s, target.created = some s → s = stamp}

theorem countedEvent (counted : home.counts target stamp = true) :
    home.event target.name (.createIndex target stamp logged) = some (.create (bare (asStored target)) stamp) :=
  if_pos ⟨rfl,counted⟩

/- No other index has its id: the definition is built, and is the one of its name. -/
theorem buildSpec {superseded : Option IndexDefinition}
    (free : ∀ i ∈ home.indexes, deriveId i.name = deriveId target.name → i.name = target.name)
    (same : ∀ loser, superseded = some loser → loser.name = target.name) (none : superseded = none → home.index target.name = none) :
    ∃ after, home.build (arrived target stamp) superseded = .ok (after,.built) ∧
      after.definitionOfAnEndedLife = home.definitionOfAnEndedLife ∧
      (∀ i ∈ after.indexes, i = arrived target stamp ∨ i ∈ home.indexes) ∧
      (∀ name, after.index name = if name = target.name then some (arrived target stamp) else home.index name) ∧
      (∀ name, after.indexDroppedAt name = if superseded.isSome ∧ deriveId name = deriveId target.name
        then some (Register.later (home.indexDroppedAt target.name) stamp) else home.indexDroppedAt name) := by
  have clear : (home.indexById (deriveId target.name)).filter (fun other => other.name ≠ target.name) = .none := by
    cases found : home.indexById (deriveId target.name) with
    | none => rfl
    | some other =>
        have id : deriveId other.name = deriveId target.name := by simpa using List.find?_some found
        have named := free other (List.mem_of_find?_eq_some found) id
        simp [named]
  have appended : ∀ (indexes : List IndexDefinition) (name : String),
      (name = target.name → indexes.find? (fun i => i.name = name) = .none) →
        (indexes ++ [arrived target stamp]).find? (fun i => i.name = name) =
          if name = target.name then some (arrived target stamp) else indexes.find? fun i => i.name = name := by
    intro indexes name absent
    rw [List.find?_append]
    split_ifs with own
    · rw [absent own, own]
      simp [arrived, asStored]
    · have other : List.find? (fun i : IndexDefinition => decide (i.name = name)) [arrived target stamp] = .none :=
        List.find?_cons_of_neg fun named => own (of_decide_eq_true named).symm
      rw [other, Option.or_none]
  unfold build
  rw [show (arrived target stamp).name = target.name from rfl, clear, show (arrived target stamp).created = some stamp from rfl]
  cases superseded with
  | none =>
      refine ⟨_,rfl,rfl,fun i member => ?_,fun name => ?_,fun name => (if_neg nofun).symm⟩
      · rcases List.mem_append.mp member with old | new
        · exact .inr old
        · exact .inl (List.mem_singleton.mp new)
      · exact appended home.indexes name fun own => own ▸ none rfl
  | some loser =>
      refine ⟨_,rfl,?_,fun i member => ?_,fun name => ?_,fun name => ?_⟩
      · exact lifeRecord loser.name stamp
      · rcases List.mem_append.mp member with old | new
        · rw [indexesSupersede] at old
          exact .inr (List.mem_filter.mp old).1
        · exact .inl (List.mem_singleton.mp new)
      · refine (appended _ name fun own => ?_).trans ?_
        · rw [indexesSupersede]
          exact indexFilter.trans (if_pos own)
        · split_ifs with own
          · rfl
          · rw [indexesSupersede]
            exact indexFilter.trans (if_neg own)
      · refine (@droppedRecord home loser.name name stamp).trans ?_
        rw [same loser rfl]
        simp

theorem viewHeld {name : String} {i : IndexDefinition} {s : Stamp} (found : home.index name = some i)
    (created : i.created = some s) : home.view name = ⟨some (bare i,s),home.indexDroppedAt name⟩ := by
  rw [view, found, Option.bind_some, created]
  rfl

theorem viewNone {name : String} (absent : home.index name = none) :
    home.view name = ⟨none,home.indexDroppedAt name⟩ := by
  rw [view, absent]
  rfl

/- A build leaves the definition standing under its name. -/
theorem Takes.built {after : IndexHome} {superseded : Bool} (counted : home.counts target stamp = true)
    (life : after.definitionOfAnEndedLife = home.definitionOfAnEndedLife)
    (members : ∀ i ∈ after.indexes, i = arrived target stamp ∨ i ∈ home.indexes)
    (index : ∀ name, after.index name = if name = target.name then some (arrived target stamp) else home.index name)
    (dropped : ∀ name, after.indexDroppedAt name = if superseded ∧ deriveId name = deriveId target.name
      then some (Register.later (home.indexDroppedAt target.name) stamp) else home.indexDroppedAt name)
    (stands : (home.view target.name).apply (Same extjson) (.create (bare (asStored target)) stamp) =
      ⟨some (bare (asStored target),stamp),if superseded then some (Register.later (home.indexDroppedAt target.name) stamp)
        else home.indexDroppedAt target.name⟩) :
    Takes extjson home after (.createIndex target stamp logged) := by
  refine .own life (fun stamped i member => ?_) (fun i member => ?_) (fun name other => ?_) (fun name other => ?_) ?_
  · rcases members i member with new | old
    · exact ⟨stamp,by rw [new]; rfl⟩
    · exact stamped i old
  · rcases members i member with new | old
    · exact .inl (by rw [new]; rfl)
    · exact .inr ⟨i,old,rfl⟩
  · exact (index name).trans (if_neg other)
  · exact (dropped name).trans (if_neg fun both => other both.2)
  · have held : after.index target.name = some (arrived target stamp) := by rw [index, if_pos rfl]
    rw [show IndexEntry.name (.createIndex target stamp logged) = target.name from rfl, countedEvent counted]
    refine (viewHeld held rfl).trans (Eq.trans ?_ stands.symm)
    rw [arrivedBare, dropped]
    simp

theorem refusedRequest {i : IndexDefinition} {why : IndexError} (refused : i.refused = some why) (index other : String) :
    why ≠ .collides index other := by
  rintro rfl
  unfold IndexDefinition.refused at refused
  split at refused
  · cases refused
  split at refused
  · cases refused
  split at refused
  · split_ifs at refused
    all_goals cases refused
  · split_ifs at refused
    cases refused

theorem restampMem {name : String} : ∀ {indexes : List IndexDefinition} {i : IndexDefinition}, i ∈ restamp name stamp indexes →
    ∃ j ∈ indexes, i = j ∨ i = { j with created := some stamp }
  | [], _, member => by cases member
  | j :: rest, i, member => by
      unfold restamp at member
      split_ifs at member with own
      · rcases List.mem_cons.mp member with first | later
        · exact ⟨j,List.mem_cons_self,.inr first⟩
        · exact ⟨i,List.mem_cons_of_mem _ later,.inl rfl⟩
      · rcases List.mem_cons.mp member with first | later
        · exact ⟨j,List.mem_cons_self,.inl first⟩
        · obtain ⟨k, old, either⟩ := restampMem later
          exact ⟨k,List.mem_cons_of_mem _ old,either⟩

/- The first of its name is built. -/
theorem innerAbsent (unrefused : target.refused = none) (absent : home.index target.name = none) :
    home.createIndexInner extjson { target with created := some stamp } = home.build (arrived target stamp) none := by
  unfold createIndexInner
  rw [show IndexDefinition.refused { target with created := some stamp } = target.refused from rfl, unrefused]
  simp only
  rw [show IndexDefinition.name (asStored { target with created := some stamp }) = target.name from rfl, absent]
  rfl

/- A definition meets the one its name has: the later stamp decides, and the same definition only takes it. -/
theorem innerMeets {existing : IndexDefinition} {held : Stamp} (unrefused : target.refused = none)
    (found : home.index target.name = some existing) (created : existing.created = some held) :
    home.createIndexInner extjson { target with created := some stamp } =
      if held < stamp then
        if Same extjson existing (arrived target stamp)
        then .ok ({ home with indexes := restamp target.name stamp home.indexes },.built)
        else home.build (arrived target stamp) (some existing)
      else .ok (home,if Same extjson existing (arrived target stamp) then .standing else .older) := by
  unfold createIndexInner
  rw [show IndexDefinition.refused { target with created := some stamp } = target.refused from rfl, unrefused]
  simp only
  rw [show asStored { target with created := some stamp } = arrived target stamp from rfl,
    show (arrived target stamp).name = target.name from rfl, found]
  simp only
  rw [created, show (arrived target stamp).created = some stamp from rfl]
  by_cases same : Same extjson existing (arrived target stamp)
  · simp only [if_pos same]
    rw [show differences extjson existing (arrived target stamp) = [] from same]
  · simp only [if_neg same]
    obtain ⟨first, rest, differs⟩ := List.exists_cons_of_ne_nil same
    rw [differs]

/- A creation meets no drop above it. -/
theorem innerTakes (stamped : home.Stamped)
    (free : ∀ i ∈ home.indexes, deriveId i.name = deriveId target.name → i.name = target.name)
    (counted : home.counts target stamp = true) (unburied : (home.indexDroppedAt target.name).any (stamp < ·) = false) :
    ∃ after created, home.createIndexInner extjson { target with created := some stamp } = .ok (after,created) ∧
      Takes extjson home after (.createIndex target stamp logged) := by
  have unrefused : target.refused = none := by simpa using (Bool.and_eq_true_iff.mp counted).1
  have alive : ¬(home.indexDroppedAt target.name).any (stamp < ·) = true := by simp [unburied]
  cases found : home.index target.name with
  | none =>
      rw [innerAbsent unrefused found]
      obtain ⟨after, built, life, members, index, dropped⟩ := @buildSpec home target stamp none free (fun loser own => by cases own)
        fun _ => found
      refine ⟨after,.built,built,.built counted life members index dropped ?_⟩
      rw [viewNone found]
      simp only [Register.apply, if_neg alive]
      rfl
  | some existing =>
      obtain ⟨member, named⟩ := indexMem found
      obtain ⟨held, created⟩ := stamped existing member
      have viewed := viewHeld found created
      have alike : Same extjson (bare existing) (bare (asStored target)) ↔ Same extjson existing (arrived target stamp) :=
        Iff.rfl
      rw [innerMeets unrefused found created]
      by_cases newer : held < stamp
      · rw [if_pos newer]
        by_cases same : Same extjson existing (arrived target stamp)
        · rw [if_pos same]
          refine ⟨_,_,rfl,.own rfl (fun _ i new => ?_) (fun i new => ?_) (fun name other => ?_) (fun _ _ => rfl) ?_⟩
          · obtain ⟨j, old, rfl | rfl⟩ := restampMem new
            · exact stamped i old
            · exact ⟨stamp,rfl⟩
          · obtain ⟨j, old, rfl | rfl⟩ := restampMem new
            · exact .inr ⟨i,old,rfl⟩
            · exact .inr ⟨j,old,rfl⟩
          · exact indexRestamp.trans (if_neg other)
          · have raised : IndexHome.index { home with indexes := restamp target.name stamp home.indexes } target.name =
                some { existing with created := some stamp } := by
              refine indexRestamp.trans ((if_pos rfl).trans ?_)
              rw [show home.indexes.find? (fun i => i.name = target.name) = some existing from found]
              rfl
            rw [show IndexEntry.name (.createIndex target stamp logged) = target.name from rfl, countedEvent counted,
              viewHeld raised rfl, viewed]
            simp only [Option.elim, Register.apply, if_neg alive, if_neg (not_le.mpr newer), alike, if_pos same]
            rfl
        · rw [if_neg same]
          obtain ⟨after, built, life, members, index, dropped⟩ :=
            @buildSpec home target stamp (some existing) free (fun loser own => by cases own; exact named)
              fun own => by cases own
          refine ⟨after,.built,built,.built counted life members index dropped ?_⟩
          rw [viewed]
          simp only [Register.apply, if_neg alive, if_neg (not_le.mpr newer), alike, if_neg same]
          rfl
      · rw [if_neg newer]
        refine ⟨home,_,rfl,.unchanged fun x told => ?_⟩
        rw [show IndexEntry.name (.createIndex target stamp logged) = target.name from rfl, countedEvent counted] at told
        cases told
        rw [show IndexEntry.name (.createIndex target stamp logged) = target.name from rfl, viewed]
        simp only [Register.apply, if_neg alive, if_pos (not_lt.mp newer)]

/- A creation is taken, or skipped for what it asks. -/
theorem createTakes (stamped : home.Stamped)
    (free : ∀ i ∈ home.indexes, deriveId i.name = deriveId target.name → i.name = target.name) :
    ∃ after outcome, home.applyDdl extjson (.createIndex target stamp logged) = .ok (after,outcome) ∧
      Takes extjson home after (.createIndex target stamp logged) := by
  have ownStamp : target.created.getD stamp = stamp := by
    cases given : target.created with
    | none => rfl
    | some s => exact logged s given
  have opened : home.applyDdl extjson (.createIndex target stamp logged) =
      match home.applyRemoteIndex extjson target stamp with
      | .ok (after,_) => .ok (after,.applied)
      | .error (.collides index other) => .error (.collides index other)
      | .error why => .ok (home,.refused why) := rfl
  rw [opened, applyRemoteIndex, ownStamp]
  by_cases past : home.history target.name stamp = true
  · rw [if_pos past]
    refine ⟨home,.applied,rfl,.unchanged fun x told => ?_⟩
    simp only [event, Option.ite_none_right_eq_some] at told
    obtain ⟨⟨-, counted⟩, own⟩ := told
    cases own
    have living : home.definitionOfAnEndedLife stamp = false := by simpa using (Bool.and_eq_true_iff.mp counted).2
    rw [history, living, Bool.false_or] at past
    exact if_pos past
  rw [if_neg past]
  obtain ⟨living, unburied⟩ : home.definitionOfAnEndedLife stamp = false ∧
      (home.indexDroppedAt target.name).any (stamp < ·) = false := by simpa [history] using past
  cases refused : target.refused with
  | none =>
      have counted : home.counts target stamp = true := by simp [counts, refused, living]
      obtain ⟨after, created, took, takes⟩ := @innerTakes extjson home target stamp logged stamped free counted unburied
      rw [took]
      exact ⟨after,.applied,rfl,takes⟩
  | some why =>
      have skipped : home.createIndexInner extjson { target with created := some stamp } = .error why := by
        unfold createIndexInner
        rw [show IndexDefinition.refused { target with created := some stamp } = target.refused from rfl, refused]
      rw [skipped]
      refine ⟨home,.refused why,?_,.unchanged fun x told => ?_⟩
      · cases why with
        | collides index other => exact absurd rfl (refusedRequest refused index other)
        | _ => rfl
      · simp [event, counts, refused] at told

end

/- A drop's tombstone is recorded, whether or not it takes the index with it. -/
theorem Takes.dropped {name : String} {kept : List IndexDefinition}
    (members : ∀ i ∈ kept, i ∈ home.indexes)
    (others : ∀ other, other ≠ name → kept.find? (fun i => i.name = other) = home.index other)
    (own : (kept.find? fun i => i.name = name).bind (fun i => i.created.map (Prod.mk (bare i))) =
      (home.view name).held.filter fun x => stamp < x.2) :
    Takes extjson home ({ home with indexes := kept }.recordIndexDrop name stamp) (.dropIndex name stamp) := by
  refine .own (lifeRecord name stamp) (fun stamped i member => ?_) (fun i member => ?_) (fun other apart => ?_)
    (fun other apart => ?_) ?_
  · rw [indexesRecord] at member
    exact stamped i (members i member)
  · rw [indexesRecord] at member
    exact .inr ⟨i,members i member,rfl⟩
  · rw [indexRecord]
    exact others other apart
  · exact droppedRecord.trans (if_neg apart)
  · have told : home.event name (.dropIndex name stamp) = some (.drop stamp) := if_pos rfl
    rw [show IndexEntry.name (.dropIndex name stamp) = name from rfl, told]
    have index : IndexHome.index ({ home with indexes := kept }.recordIndexDrop name stamp) name =
        kept.find? fun i => i.name = name := indexRecord
    refine congrArg₂ Register.mk ?_ (droppedRecord.trans (if_pos rfl))
    rw [index]
    exact own

theorem dropTakes (stamped : home.Stamped) (name : String) :
    ∃ after outcome, home.applyDdl extjson (.dropIndex name stamp) = .ok (after,outcome) ∧
      Takes extjson home after (.dropIndex name stamp) := by
  cases found : home.index name with
  | none =>
      refine ⟨home.recordIndexDrop name stamp,.applied,?_,?_⟩
      · simp [applyDdl, dropIndexInner, found]
      · refine .dropped (fun i member => member) (fun _ _ => rfl) ?_
        rw [viewNone found, show home.indexes.find? (fun i => i.name = name) = none from found]
        rfl
  | some i =>
      obtain ⟨created, own⟩ := stamped i (indexMem found).1
      by_cases below : stamp < created
      · have declined : Takes extjson home (home.recordIndexDrop name stamp) (.dropIndex name stamp) := by
          refine .dropped (fun i member => member) (fun _ _ => rfl) ?_
          rw [viewHeld found own, show home.indexes.find? (fun i => i.name = name) = some i from found]
          simp [own, below, Option.filter_some]
        by_cases seen : (home.indexDroppedAt name).any (stamp ≤ ·) = true
        · have kept : home.recordIndexDrop name stamp = home := by
            obtain ⟨tomb, held, covered⟩ := (Option.any_eq_true _ _).mp seen
            unfold recordIndexDrop
            rw [held]
            exact if_neg (by simpa using covered)
          rw [kept] at declined
          refine ⟨home,.declinedReplay,?_,declined⟩
          simp [applyDdl, found, own, below, seen]
        · refine ⟨_,.declined,?_,declined⟩
          simp [applyDdl, found, own, below, seen]
      · have removed : Takes extjson home
            ({ home with indexes := home.indexes.filter fun i => i.name ≠ name }.recordIndexDrop name stamp)
            (.dropIndex name stamp) := by
          refine .dropped (fun i member => (List.mem_filter.mp member).1) (fun other apart => ?_) ?_
          · exact indexFilter.trans (if_neg apart)
          · rw [indexFilter, if_pos rfl, viewHeld found own]
            simp [below, Option.filter_some]
        refine ⟨_,.applied,?_,removed⟩
        simp [applyDdl, dropIndexInner, found, own, below]

theorem entryTakes (stamped : home.Stamped) (entry : IndexEntry)
    (free : ∀ i ∈ home.indexes, deriveId i.name = deriveId entry.name → i.name = entry.name) :
    ∃ after outcome, home.applyDdl extjson entry = .ok (after,outcome) ∧ Takes extjson home after entry := by
  cases entry with
  | createIndex target stamp logged => exact createTakes stamped free
  | dropIndex name stamp => exact dropTakes stamped name

/- A batch whose names have ids of their own is taken, and each name takes its own events in their order. -/
theorem runTakes : ∀ (entries : List IndexEntry) (home : IndexHome), home.Stamped →
    (∀ x ∈ entries, ∀ y ∈ entries, deriveId x.name = deriveId y.name → x.name = y.name) →
    (∀ i ∈ home.indexes, ∀ x ∈ entries, deriveId i.name = deriveId x.name → i.name = x.name) →
    ∃ after, home.applyAll extjson entries = .ok after ∧ after.Stamped ∧
      ∀ name, (∀ x ∈ entries, deriveId name = deriveId x.name → name = x.name) →
        after.view name = (entries.filterMap (home.event name)).foldl (Register.apply (Same extjson)) (home.view name)
  | [], home, stamped, _, _ => ⟨home,rfl,stamped,fun _ _ => rfl⟩
  | entry :: rest, home, stamped, ids, free => by
      obtain ⟨next, outcome, applied, takes⟩ := entryTakes stamped entry fun i member => free i member entry List.mem_cons_self
      have freeNext : ∀ i ∈ next.indexes, ∀ x ∈ rest, deriveId i.name = deriveId x.name → i.name = x.name := by
        intro i member x later same
        rcases takes.names i member with own | ⟨j, old, named⟩
        · rw [own] at same ⊢
          exact ids entry List.mem_cons_self x (List.mem_cons_of_mem _ later) same
        · rw [←named] at same ⊢
          exact free j old x (List.mem_cons_of_mem _ later) same
      obtain ⟨after, ran, kept, views⟩ := runTakes rest next (takes.stamped stamped)
        (fun x first y second => ids x (List.mem_cons_of_mem _ first) y (List.mem_cons_of_mem _ second)) freeNext
      refine ⟨after,?_,kept,fun name apart => ?_⟩
      · rw [applyAll, applied]
        exact ran
      · have sameEvents : next.event name = home.event name := by
          funext e
          unfold event counts
          rw [takes.life]
        rw [views name fun x later => apart x (List.mem_cons_of_mem _ later), sameEvents,
          takes.view name (apart entry List.mem_cons_self), List.filterMap_cons]
        cases home.event name entry with
        | none => rfl
        | some x => rfl

end

/- A member that holds no index of the collection yet. -/
def unindexed (floor : Option Hlc) (collectionDrop databaseDrop : Option Stamp) : IndexHome :=
  ⟨floor,collectionDrop,databaseDrop,[],.empty⟩

section
variable (home : IndexHome) (entries : List IndexEntry) (name : String)

/- A creation of the name that counts. -/
def Created (index : IndexDefinition) (stamp : Stamp) : Prop :=
  ∃ logged, .createIndex index stamp logged ∈ entries ∧ index.name = name ∧ home.counts index stamp = true

def Dropped (stamp : Stamp) : Prop := .dropIndex name stamp ∈ entries

end

theorem createMem {home : IndexHome} {entries : List IndexEntry} {name : String} {d : IndexDefinition} {s : Stamp} :
    .create d s ∈ entries.filterMap (home.event name) ↔
      ∃ index, home.Created entries name index s ∧ d = bare (asStored index) := by
  rw [List.mem_filterMap]
  constructor
  · rintro ⟨entry, member, told⟩
    cases entry with
    | createIndex index stamp logged =>
        simp only [event, Option.ite_none_right_eq_some] at told
        obtain ⟨⟨named, counted⟩, same⟩ := told
        cases same
        exact ⟨index,⟨logged,member,named,counted⟩,rfl⟩
    | dropIndex dropped stamp =>
        simp only [event, Option.ite_none_right_eq_some] at told
        cases told.2
  · rintro ⟨index, ⟨logged, member, named, counted⟩, rfl⟩
    exact ⟨_,member,if_pos ⟨named,counted⟩⟩

theorem dropMem {home : IndexHome} {entries : List IndexEntry} {name : String} {s : Stamp} :
    .drop s ∈ entries.filterMap (home.event name) ↔ Dropped entries name s := by
  rw [List.mem_filterMap]
  constructor
  · rintro ⟨entry, member, told⟩
    cases entry with
    | createIndex index stamp logged =>
        simp only [event, Option.ite_none_right_eq_some] at told
        cases told.2
    | dropIndex dropped stamp =>
        simp only [event, Option.ite_none_right_eq_some] at told
        obtain ⟨named, same⟩ := told
        cases same
        rw [←named]
        exact member
  · intro dropped
    exact ⟨_,dropped,if_pos rfl⟩

/- What a member holds under a name, said of the set of the entries alone. -/
structure Outcome (extjson : Document → String) (home : IndexHome) (entries : List IndexEntry) (after : IndexHome)
    (name : String) : Prop where
  stands : (∃ i, after.index name = some i) ↔
    ∃ index s, home.Created entries name index s ∧ ∀ t, Dropped entries name t → t < s
  newest : ∀ i, after.index name = some i → ∃ index s, home.Created entries name index s ∧ i.created = some s ∧
    differences extjson i index = [] ∧ ∀ other t, home.Created entries name other t → t ≤ s
  covers : ∀ t, Dropped entries name t → ∃ u, after.indexDroppedAt name = some u ∧ t ≤ u
  tomb : ∀ u, after.indexDroppedAt name = some u → Dropped entries name u ∨
    ∃ i c, after.index name = some i ∧ i.created = some c ∧ u ≤ c ∧
      ∃ index other t, home.Created entries name index u ∧ home.Created entries name other t ∧ t < u ∧
        differences extjson other index ≠ []

theorem sameStored {extjson : Document → String} (index : IndexDefinition) :
    Same extjson (bare (asStored index)) index :=
  sameIff.mpr ⟨rfl,rfl,rfl,rfl,comparedStored index.partialFilter⟩

/- A name that is a settled register has the outcome its entries say. -/
theorem outcomeOfSettled {extjson : Document → String} {home after : IndexHome} {entries : List IndexEntry}
    {name : String} (stamped : after.Stamped)
    (settled : Register.Settled (Same extjson) (entries.filterMap (home.event name)) (after.view name)) :
    Outcome extjson home entries after name := by
  have equivalence : Equivalence (Same extjson) := sameEquivalence
  have heldOf : ∀ i, after.index name = some i → ∃ c, i.created = some c ∧ (after.view name).held = some (bare i,c) := by
    intro i found
    obtain ⟨c, created⟩ := stamped i (indexMem found).1
    exact ⟨c,created,by rw [viewHeld found created]⟩
  have newest : ∀ i c, after.index name = some i → i.created = some c → ∃ index, home.Created entries name index c ∧
      differences extjson i index = [] ∧ (∀ other t, home.Created entries name other t → t ≤ c) ∧
      ∀ t, Dropped entries name t → t < c := by
    intro i c found created
    have held : (after.view name).held = some (bare i,c) := by rw [viewHeld found created]
    obtain ⟨d, ⟨member, above, highest⟩, alike⟩ := settled.held (bare i) c held
    obtain ⟨index, counted, rfl⟩ := createMem.mp member
    refine ⟨index,counted,equivalence.trans alike (sameStored index),fun other t there => ?_,fun t dropped => ?_⟩
    · exact highest _ t (createMem.mpr ⟨other,there,rfl⟩)
    · exact above t (dropMem.mpr dropped)
  refine ⟨⟨?_,?_⟩,?_,?_,?_⟩
  · rintro ⟨i, found⟩
    obtain ⟨c, created, -⟩ := heldOf i found
    obtain ⟨index, counted, -, -, above⟩ := newest i c found created
    exact ⟨index,c,counted,above⟩
  · rintro ⟨index, s, counted, above⟩
    by_contra absent
    have none : after.index name = none := Option.eq_none_iff_forall_ne_some.mpr fun i found => absent ⟨i,found⟩
    have held : (after.view name).held = .none := by rw [viewNone none]
    obtain ⟨t, dropped, below⟩ := settled.gone held _ s (createMem.mpr ⟨index,counted,rfl⟩)
    exact lt_asymm below (above t (dropMem.mp dropped))
  · intro i found
    obtain ⟨c, created, -⟩ := heldOf i found
    obtain ⟨index, counted, alike, highest, -⟩ := newest i c found created
    exact ⟨index,c,counted,created,alike,highest⟩
  · intro t dropped
    exact settled.covers t (dropMem.mpr dropped)
  · intro u tomb
    rcases settled.dropped u tomb with dropped | ⟨stands, d, e, t, member, other, lower, differs⟩
    · exact .inl (dropMem.mp dropped)
    obtain ⟨index, counted, rfl⟩ := createMem.mp member
    obtain ⟨loser, counted', rfl⟩ := createMem.mp other
    have found : ∃ i, after.index name = some i := by
      by_contra absent
      have none : after.index name = none := Option.eq_none_iff_forall_ne_some.mpr fun i found => absent ⟨i,found⟩
      exact stands (by rw [viewNone none])
    obtain ⟨i, found⟩ := found
    obtain ⟨c, created, held⟩ := heldOf i found
    refine .inr ⟨i,c,found,created,settled.below _ c u held tomb,index,loser,t,counted,counted',lower,fun same => ?_⟩
    refine differs (equivalence.trans (sameStored loser) ?_)
    exact equivalence.trans same (equivalence.symm (sameStored index))

theorem distinctEvents {home : IndexHome} {entries : List IndexEntry} {name : String}
    (distinct : ∀ x ∈ entries, ∀ y ∈ entries, x.stamp = y.stamp → x = y) :
    Register.Distinct (entries.filterMap (home.event name)) := by
  have stampOf : ∀ {entry : IndexEntry} {x}, home.event name entry = some x → x.stamp = entry.stamp := by
    intro entry x told
    cases entry with
    | createIndex index stamp logged =>
        simp only [event, Option.ite_none_right_eq_some] at told
        rw [←Option.some.inj told.2]
        rfl
    | dropIndex dropped stamp =>
        simp only [event, Option.ite_none_right_eq_some] at told
        rw [←Option.some.inj told.2]
        rfl
  intro x first y second same
  obtain ⟨e, inE, toldE⟩ := List.mem_filterMap.mp first
  obtain ⟨f, inF, toldF⟩ := List.mem_filterMap.mp second
  rw [stampOf toldE, stampOf toldF] at same
  rw [distinct e inE f inF same] at toldE
  exact Option.some.inj (toldE.symm.trans toldF)

/- The entries of a collection, in any order and any number of times. -/
theorem indexesSettle (extjson : Document → String) (floor : Option Hlc) (collectionDrop databaseDrop : Option Stamp)
    (entries : List IndexEntry) (distinct : ∀ x ∈ entries, ∀ y ∈ entries, x.stamp = y.stamp → x = y)
    (ids : ∀ x ∈ entries, ∀ y ∈ entries, deriveId x.name = deriveId y.name → x.name = y.name) :
    let home := unindexed floor collectionDrop databaseDrop
    ∃ after, home.applyAll extjson entries = .ok after ∧
      ∀ name, (∀ x ∈ entries, deriveId name = deriveId x.name → name = x.name) →
        Outcome extjson home entries after name := by
  intro home
  obtain ⟨after, ran, stamped, views⟩ := @runTakes extjson entries home
    (fun _ member => absurd member List.not_mem_nil) ids (fun _ member => absurd member List.not_mem_nil)
  refine ⟨after,ran,fun name apart => outcomeOfSettled stamped ?_⟩
  rw [views name apart]
  exact Register.runSettled (Same extjson) sameEquivalence _ (distinctEvents distinct)

/- A plain index on one field, created or dropped at a time of the first node. -/
def plainIndex (name path : String) : IndexDefinition := ⟨name,[⟨path,false⟩],false,.onMember,none,none,none⟩

def moment (wall : Fin (2 ^ 64)) : Stamp := ⟨⟨wall,0⟩,0⟩

def createAt (name path : String) (wall : Fin (2 ^ 64)) : IndexEntry := .createIndex (plainIndex name path) (moment wall) nofun

theorem indexesSettleTwice :
    let home := unindexed none none none
    ∃ after, home.applyAll (fun _ => "") [createAt "k" "a" 1,.dropIndex "k" (moment 2),createAt "k" "b" 3] = .ok after ∧
      ∀ name, (∀ x ∈ [createAt "k" "a" 1,.dropIndex "k" (moment 2),createAt "k" "b" 3],
          deriveId name = deriveId x.name → name = x.name) →
        Outcome (fun _ => "") home [createAt "k" "a" 1,.dropIndex "k" (moment 2),createAt "k" "b" 3] after name := by
  refine indexesSettle (fun _ => "") none none none _ ?_ ?_
  · simp [createAt, IndexEntry.stamp, moment]
  · simp [createAt, IndexEntry.name, plainIndex]

/- A creation that replaces a different definition leaves a tombstone where no drop was, unless it comes first;
and a drop of one name buries another whose id is the same. -/
theorem tombstonesBesideDrops :
    (¬∀ entries : List IndexEntry, (∀ x ∈ entries, ∀ y ∈ entries, x.stamp = y.stamp → x = y) →
      ∃ after, (unindexed none none none).applyAll (fun _ => "") entries = .ok after ∧
        ∀ name t, after.indexDroppedAt name = some t → Dropped entries name t) ∧
    ¬∀ entries : List IndexEntry, (∀ x ∈ entries, ∀ y ∈ entries, x.stamp = y.stamp → x = y) →
      ∃ after, (unindexed none none none).applyAll (fun _ => "") entries = .ok after ∧
        ∀ name, (∃ i, after.index name = some i) ↔
          ∃ index s, (unindexed none none none).Created entries name index s ∧ ∀ t, Dropped entries name t → t < s := by
  constructor
  · intro claim
    obtain ⟨after, ran, only⟩ := claim [createAt "k" "a" 1,createAt "k" "b" 2] (by simp [createAt, IndexEntry.stamp, moment])
    have tomb : ((unindexed none none none).applyAll (fun _ => "") [createAt "k" "a" 1,createAt "k" "b" 2]).toOption.bind
        (·.indexDroppedAt "k") = some (moment 2) := by decide +kernel
    rw [ran] at tomb
    have dropped := only "k" (moment 2) tomb
    simp [Dropped, createAt] at dropped
  · intro claim
    obtain ⟨after, ran, stands⟩ := claim [.dropIndex "liquid" (moment 2),createAt "costarring" "a" 1]
      (by simp [createAt, IndexEntry.stamp, moment])
    have absent : ((unindexed none none none).applyAll (fun _ => "")
        [.dropIndex "liquid" (moment 2),createAt "costarring" "a" 1]).toOption.all
          (fun after => (after.index "costarring").isNone) = true := by decide +kernel
    rw [ran] at absent
    obtain ⟨i, found⟩ := (stands "costarring").mpr
      ⟨plainIndex "costarring" "a",moment 1,⟨nofun,List.mem_cons_of_mem _ List.mem_cons_self,rfl,rfl⟩,
        by simp [Dropped, createAt]⟩
    simp [Except.toOption, found] at absent

end IndexHome
end Kimmy.Store
