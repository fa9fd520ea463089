import Kimmy.Merge.State
import Kimmy.Bson
import Kimmy.Reader

/-!
The canonical bytes of a merge state (`merge_state/codec.rs`): maps in key order, lengths as
big-endian 64-bit words, integers of fixed width, doubles as their bits. The reading side
refuses keys out of order, unknown tags, totals out of range and trailing bytes.
-/
namespace Kimmy.Merge
open ByteOrder

namespace Codec

def len (n : Nat) : Bytes := be 8 n

/- A length and the items, in order. -/
def seq {α : Type} (item : α → Bytes) (xs : List α) : Bytes := len xs.length ++ xs.flatMap item

def i64 (v : Int64) : Bytes := be 8 v.toUInt64.toNat

def i128 (v : Int) : Bytes := be 16 (v % 2 ^ 128).toNat

def str (s : String) : Bytes := len (asBytes s).length ++ asBytes s

def hlc (h : Hlc) : Bytes := be 8 h.wallMs ++ be 2 h.counter

def wid (w : WriterId) : Bytes := be 16 w.node ++ be 18 w.epoch

def stamp (s : MStamp) : Bytes := hlc s.hlc ++ wid s.writer

def optStamp : Option MStamp → Bytes
  | none => [0]
  | some s => 1 :: stamp s

def value : Value → Bytes
  | .null => [0]
  | .int i => 1 :: i64 i
  | .double d => 2 :: be 8 d.toNat
  | .str s => 3 :: str s

def vv (v : Vv) : Bytes := seq (fun x => wid x.1 ++ hlc x.2) v.entries

def obsKey (k : ObsKey) : Bytes := stamp k.life ++ wid k.writer ++ optStamp k.generation

def obs (m : SortedMap ObsKey Int) : Bytes := seq (fun x => obsKey x.1 ++ i128 x.2) m.entries

def obsStamped (m : SortedMap ObsKey (MStamp × Int)) : Bytes :=
  seq (fun x => obsKey x.1 ++ stamp x.2.1 ++ i128 x.2.2) m.entries

def gen : Option Gen → Bytes
  | none => [0]
  | some g => 1 :: stamp g.stamp ++ obs g.seen

def lossKind : LossKind → UInt8
  | .clash => 0
  | .deleteWon => 1
  | .insertLost => 2
  | .retiredWriter => 3

def lossKey (k : LossKey) : Bytes := lossKind k.kind :: str k.path ++ stamp k.stamp

def lossValue : LossValue → Bytes
  | .value v => 0 :: value v
  | .total t => 1 :: i128 t
  | .fields f => 2 :: seq str f

def lifeKind : LifeKind → UInt8
  | .insert => 0
  | .upsert => 1

def life (v : Life) : Bytes := seq stamp (SortedMap.elements v.seen) ++ seq str v.order ++ [lifeKind v.kind]

def reg (r : Reg) : Bytes :=
  stamp r.stamp ++ value r.value ++ obsStamped r.obs ++ gen r.generation ++ [if r.soi then 1 else 0]

def slotKey (k : SlotKey) : Bytes := stamp k.life ++ str k.path ++ wid k.writer ++ optStamp k.generation

end Codec

namespace State
open Codec

def writeBody (s : State) : Bytes :=
  seq (fun x => stamp x.1 ++ life x.2) s.lives.entries ++
  seq stamp (SortedMap.elements s.dead) ++
  seq (fun x => stamp x.1 ++ Codec.vv x.2) s.deletes.entries ++
  seq (fun x => stamp x.1.life ++ str x.1.path ++ reg x.2) s.regs.entries ++
  seq (fun x => slotKey x.1 ++ stamp x.2.stamp ++ i128 x.2.total) s.slots.entries ++
  Codec.vv s.vv ++
  seq (fun x => lossKey x.1 ++ lossValue x.2) s.losses.entries

def canonicalBytes (s : State) : Bytes := s.writeBody

/- `QMS`, the format version, then the body. -/
def encode (s : State) : Bytes := [0x51,0x4D,0x53] ++ [1] ++ s.writeBody

end State

/-! Reading. -/

inductive DecodeError where
  | truncated
  | badHeader
  | badTag (tag : UInt8)
  | badString
  | trailing (count : Nat)
  | totalOutOfRange
  | notCanonical
  deriving DecidableEq

namespace Codec.R
open Reading

abbrev Read (α : Type) := Reader DecodeError α

/- A key that is not above the last one is a duplicate or out of order. -/
def put {κ ν : Type} [LinearOrder κ] (m : SortedMap κ ν) (x : κ × ν) : Except DecodeError (SortedMap κ ν) :=
  if m.entries.getLast?.any fun last => decide (x.1 ≤ last.1) then .error .notCanonical
  else .ok (m.insert x.1 x.2)

def putSet {κ : Type} [LinearOrder κ] (m : Finset κ) (k : κ) : Except DecodeError (Finset κ) :=
  if (SortedMap.elements m).getLast?.any fun last => decide (k ≤ last) then .error .notCanonical
  else .ok (insert k m)

def push {α : Type} (xs : List α) (x : α) : Except DecodeError (List α) := .ok (xs ++ [x])

def map {κ ν : Type} [LinearOrder κ] (item : Read (κ × ν)) : Read (SortedMap κ ν) := many .truncated .empty item put

def set {κ : Type} [LinearOrder κ] (item : Read κ) : Read (Finset κ) := many .truncated ∅ item putSet

def vec {α : Type} (item : Read α) : Read (List α) := many .truncated [] item push

/- A key, then its value. -/
def entry {κ ν : Type} (key : Read κ) (val : Read ν) : Read (κ × ν) := do
  let k ← key
  let v ← val
  pure (k,v)

def u8 : Read UInt8 := byte .truncated

def i64 : Read Int64 := do
  let n ← word .truncated 8
  pure (UInt64.ofNat n).toInt64

def i128 : Read Int := do
  let n ← word .truncated 16
  pure (if n < 2 ^ 127 then n else n - 2 ^ 128)

def total : Read Int := do
  let t ← i128
  if maxTotal.natAbs < t.natAbs then fail .totalOutOfRange else pure t

def str : Read String := do
  let b ← blob .truncated
  match String.fromUTF8? ⟨⟨b⟩⟩ with
  | some s => pure s
  | none => fail .badString

def hlc : Read Hlc := do
  let wall ← word .truncated 8
  let counter ← word .truncated 2
  pure ⟨.ofNat _ wall,.ofNat _ counter⟩

def wid : Read WriterId := do
  let node ← word .truncated 16
  let epoch ← word .truncated 18
  pure ⟨.ofNat _ node,.ofNat _ epoch⟩

def stamp : Read MStamp := do
  let h ← hlc
  let w ← wid
  pure ⟨h,w⟩

def optStamp : Read (Option MStamp) := do
  let tag ← u8
  if tag = 0 then pure none
  else if tag = 1 then do
    let s ← stamp
    pure (some s)
  else fail (.badTag tag)

def value : Read Value := do
  let tag ← u8
  if tag = 0 then pure .null
  else if tag = 1 then do
    let i ← i64
    pure (.int i)
  else if tag = 2 then do
    let bits ← word .truncated 8
    pure (.double (.ofNat bits))
  else if tag = 3 then do
    let s ← str
    pure (.str s)
  else fail (.badTag tag)

def vv : Read Vv := map (entry wid hlc)

def obsKey : Read ObsKey := do
  let l ← stamp
  let w ← wid
  let g ← optStamp
  pure ⟨l,w,g⟩

def obs : Read (SortedMap ObsKey Int) := map (entry obsKey total)

def obsStamped : Read (SortedMap ObsKey (MStamp × Int)) := map (entry obsKey (entry stamp total))

def gen : Read (Option Gen) := do
  let tag ← u8
  if tag = 0 then pure none
  else if tag = 1 then do
    let s ← stamp
    let seen ← obs
    pure (some ⟨s,seen⟩)
  else fail (.badTag tag)

def lossKind : Read LossKind := do
  let tag ← u8
  if tag = 0 then pure .clash
  else if tag = 1 then pure .deleteWon
  else if tag = 2 then pure .insertLost
  else if tag = 3 then pure .retiredWriter
  else fail (.badTag tag)

def lossKey : Read LossKey := do
  let kind ← lossKind
  let path ← str
  let s ← stamp
  pure ⟨kind,path,s⟩

def lossValue : Read LossValue := do
  let tag ← u8
  if tag = 0 then do
    let v ← value
    pure (.value v)
  else if tag = 1 then do
    let t ← total
    pure (.total t)
  else if tag = 2 then do
    let f ← vec str
    pure (.fields f)
  else fail (.badTag tag)

def lifeKind : Read LifeKind := do
  let tag ← u8
  if tag = 0 then pure .insert
  else if tag = 1 then pure .upsert
  else fail (.badTag tag)

def life : Read Life := do
  let seen ← set stamp
  let order ← vec str
  let kind ← lifeKind
  pure ⟨seen,order,kind⟩

def flag : Read Bool := do
  let tag ← u8
  if tag = 0 then pure false
  else if tag = 1 then pure true
  else fail (.badTag tag)

def reg : Read Reg := do
  let s ← stamp
  let v ← value
  let obs ← obsStamped
  let generation ← gen
  let soi ← flag
  pure ⟨s,v,obs,generation,soi⟩

def cellKey : Read CellKey := do
  let l ← stamp
  let p ← str
  pure ⟨l,p⟩

def slotKey : Read SlotKey := do
  let l ← stamp
  let p ← str
  let w ← wid
  let g ← optStamp
  pure ⟨l,p,w,g⟩

def slot : Read Slot := do
  let s ← stamp
  let t ← total
  pure ⟨s,t⟩

def body : Read State := do
  let lives ← map (entry stamp life)
  let dead ← set stamp
  let deletes ← map (entry stamp vv)
  let regs ← map (entry cellKey reg)
  let slots ← map (entry slotKey slot)
  let vv ← vv
  let losses ← map (entry lossKey lossValue)
  pure ⟨lives,deletes,dead,regs,slots,vv,losses⟩

def header : Read Unit := do
  let magic ← take .truncated 3
  if magic ≠ [0x51,0x4D,0x53] then fail .badHeader
  else do
    let version ← u8
    if version ≠ 1 then fail .badHeader else pure ()

end Codec.R

def State.decode (bytes : Bytes) : Except DecodeError State :=
  match (Codec.R.header >>= fun _ => Codec.R.body).run bytes with
  | .error e => .error e
  | .ok (s,[]) => .ok s
  | .ok (_,rest) => .error (.trailing rest.length)

end Kimmy.Merge
