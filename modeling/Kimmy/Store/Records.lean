import Kimmy.Clock
import Kimmy.Store.Document
import Mathlib.Data.List.Lex

/-!
What a store keeps: document records, oplog entries and version vectors (`record.rs`,
`oplog.rs`, `version.rs`). A document id is represented by the key it encodes to.
-/
namespace Kimmy.Store
open Merge ByteOrder

instance linearOrderByte : LinearOrder UInt8 where
  le_refl := UInt8.le_refl
  le_trans _ _ _ := UInt8.le_trans
  lt_iff_le_not_ge x y := by
    rw [UInt8.not_le]
    exact ⟨fun below => ⟨UInt8.le_of_lt below,below⟩,And.right⟩
  le_antisymm _ _ := UInt8.le_antisymm
  le_total := UInt8.le_total
  toDecidableLE := inferInstance

abbrev NodeId := Fin (2 ^ 128)
abbrev CollectionId := Fin (2 ^ 64)

instance lawfulNodeId : LawfulBEq NodeId := inferInstance
instance lawfulCollectionId : LawfulBEq CollectionId := inferInstance

abbrev DocKey := Bytes

/- A row of the document table. -/
structure Address where
  collection : CollectionId
  key : DocKey

instance : LinearOrder Address := LinearOrder.lift' (fun a => toLex (a.collection,a.key))
  fun x y same => by cases x; cases y; simpa using same

/-! Version vectors. -/

structure VersionVector where
  positions : SortedMap NodeId Hlc
  deriving DecidableEq

namespace VersionVector

def new : VersionVector := ⟨.empty⟩

/- The highest timestamp held from a node, or zero. -/
def get (v : VersionVector) (node : NodeId) : Hlc := (v.positions.get node).getD .zero

def observe (v : VersionVector) (stamp : Stamp) : VersionVector :=
  ⟨v.positions.insert stamp.node (max (v.get stamp.node) stamp.hlc)⟩

def merge (v other : VersionVector) : VersionVector :=
  ⟨v.positions.absorb (fun _ held hlc => some (max (held.getD .zero) hlc)) other.positions⟩

/- Where a peer must send from for this vector to catch up with theirs: the lowest position
among the origins it trails on. -/
def behind (v theirs : VersionVector) : Option Hlc :=
  ((theirs.positions.entries.filter fun x => v.get x.1 < x.2).map fun x => v.get x.1).min?

/- `raise_version`: an entry is never lowered. -/
def raise (v : VersionVector) (stamp : Stamp) : VersionVector :=
  match v.positions.get stamp.node with
  | some current => if current < stamp.hlc then ⟨v.positions.insert stamp.node stamp.hlc⟩ else v
  | none => ⟨v.positions.insert stamp.node stamp.hlc⟩

def Covers (v : VersionVector) (stamp : Stamp) : Prop := stamp.hlc ≤ v.get stamp.node

instance (v : VersionVector) (stamp : Stamp) : Decidable (v.Covers stamp) :=
  inferInstanceAs (Decidable (_ ≤ _))

theorem zeroLe (h : Hlc) : Hlc.zero ≤ h := by
  rw [←not_lt, hlcLtIff]
  rintro (below | ⟨_, below⟩)
  · exact absurd below (Fin.not_lt_zero _)
  · exact absurd below (Fin.not_lt_zero _)

@[simp] theorem getNew (node : NodeId) : new.get node = .zero := rfl

@[simp] theorem getObserve (v : VersionVector) (stamp : Stamp) (node : NodeId) :
    (v.observe stamp).get node = if node = stamp.node then max (v.get node) stamp.hlc else v.get node := by
  unfold observe get
  rw [SortedMap.getInsert]
  split_ifs with own
  · rw [own]
    rfl
  · rfl

@[simp] theorem getRaise (v : VersionVector) (stamp : Stamp) (node : NodeId) :
    (v.raise stamp).get node = if node = stamp.node then max (v.get node) stamp.hlc else v.get node := by
  unfold raise get
  split
  next current held =>
    split_ifs with ahead own own
    · rw [SortedMap.getInsert, if_pos own, own, held]
      exact (max_eq_right ahead.le).symm
    · rw [SortedMap.getInsert, if_neg own]
    · rw [own, held]
      exact (max_eq_left (not_lt.mp ahead)).symm
    · rfl
  next held =>
    rw [SortedMap.getInsert]
    split_ifs with own
    · rw [own, held]
      exact (max_eq_right (zeroLe _)).symm
    · rfl

theorem raiseLe (v : VersionVector) (stamp : Stamp) (node : NodeId) : v.get node ≤ (v.raise stamp).get node := by
  rw [getRaise]
  split_ifs
  · exact le_max_left _ _
  · exact le_refl _

@[simp] theorem getMerge (v other : VersionVector) (node : NodeId) :
    (v.merge other).get node = max (v.get node) (other.get node) := by
  unfold merge get
  rw [SortedMap.getAbsorb]
  cases other.positions.get node with
  | none => exact (max_eq_left (zeroLe _)).symm
  | some hlc => rfl

/- An origin that trails has a position in theirs. -/
theorem trailing {v theirs : VersionVector} {node : NodeId} (trails : v.get node < theirs.get node) :
    v.get node ∈ (theirs.positions.entries.filter fun x => v.get x.1 < x.2).map fun x => v.get x.1 := by
  have held : ∃ hlc, theirs.positions.get node = some hlc ∧ v.get node < hlc := by
    cases there : theirs.positions.get node with
    | none =>
        rw [get.eq_def theirs, there] at trails
        exact absurd trails (not_lt.mpr (zeroLe _))
    | some hlc =>
        rw [get.eq_def theirs, there] at trails
        exact ⟨hlc,rfl,trails⟩
  obtain ⟨hlc, there, below⟩ := held
  refine List.mem_map.mpr ⟨(node,hlc),?_,rfl⟩
  exact List.mem_filter.mpr ⟨SortedMap.memEntries.mpr there,decide_eq_true below⟩

/- The threshold is at or below the position on every origin that trails. -/
theorem behindLe {v theirs : VersionVector} {from' : Hlc} {node : NodeId} (found : v.behind theirs = some from')
    (trails : v.get node < theirs.get node) : from' ≤ v.get node :=
  (List.min?_eq_some_iff.mp found).2 _ (trailing trails)

theorem behindSome {v theirs : VersionVector} {node : NodeId} (trails : v.get node < theirs.get node) :
    v.behind theirs ≠ none := by
  intro nothing
  have member := trailing trails
  rw [List.min?_eq_none_iff.mp nothing] at member
  exact List.not_mem_nil member

end VersionVector

/-! Document records. -/

structure DocRecord where
  stamp : Stamp
  deleted : Bool
  body : Document
  deriving DecidableEq

namespace DocRecord

def live (stamp : Stamp) (body : Document) : DocRecord := ⟨stamp,false,body⟩

def tombstone (stamp : Stamp) : DocRecord := ⟨stamp,true,[]⟩

def isLive (r : DocRecord) : Bool := !r.deleted

def document (r : DocRecord) : Option Document := if r.deleted then none else some r.body

/- Last writer wins, and a tie keeps what is held. -/
def merge (r incoming : DocRecord) : DocRecord := if r.stamp < incoming.stamp then incoming else r

end DocRecord

/-! Oplog entries. -/

inductive UnkeyedCause where
  | parallelArrays | tooManyKeys | unencodable
  deriving DecidableEq

structure UniqueViolationDetail where
  index : String
  ids : List DocKey
  merged : DocKey
  deriving DecidableEq

structure UnkeyedDocumentDetail where
  index : String
  id : DocKey
  reason : UnkeyedCause
  deriving DecidableEq

/- What an observation reports is kept with its kind; every other body is a document's image. -/
inductive OpKind where
  | insert | update | replace | delete
  | collection
  | uniqueViolation (detail : UniqueViolationDetail)
  | createCollection | dropCollection | createIndex | dropIndex | configureVectors | configureValidator
  | unkeyedDocument (detail : UnkeyedDocumentDetail)
  deriving DecidableEq

namespace OpKind

/- A member's own observation of its data, never shipped to a peer. -/
def isLocalObservation : OpKind → Bool
  | .uniqueViolation _ | .unkeyedDocument _ => true
  | _ => false

def isDocument : OpKind → Bool
  | .insert | .update | .replace | .delete => true
  | _ => false

end OpKind

structure OplogEntry where
  stamp : Stamp
  kind : OpKind
  collection : CollectionId
  docId : Option DocKey
  body : Option Document
  deriving DecidableEq

namespace OplogEntry

def address (entry : OplogEntry) : Option Address := entry.docId.map (.mk entry.collection)

/- The record an entry carries. -/
def incoming (entry : OplogEntry) : DocRecord :=
  match entry.body with
  | some image => .live entry.stamp image
  | none => .tombstone entry.stamp

end OplogEntry

end Kimmy.Store
