import Kimmy.Merge.Join

/-!
A writer incarnation (`merge_state/writer.rs`): local writes over its own state, each
normalised by a join with the empty state, and the absorption of other states. A refused
write is `none` and changes nothing. The options are a parameter: `Writer::opts` never moves.
-/
namespace Kimmy.Merge

inductive WriteKind where
  | insert
  | inc
  | reg
  | delete
  deriving DecidableEq

/- What a write logs about itself. -/
structure WriteRecord where
  kind : WriteKind
  life : Option MStamp
  paths : List String
  vals : SortedMap String Value := .empty
  n : Option Int64 := none
  generation : Option MStamp := none
  insert : Bool := false
  upsert : Bool := false
  soi : List String := []
  deriving DecidableEq

structure Writer where
  id : WriterId
  clock : Hlc
  state : State

abbrev Skew := Fin (2 ^ 64)

abbrev Fields := List (String × Value)

/- An accepted write before `finish`: the writer with its clock moved and the write made in
its state. `cells` are its register assignments in order: a creation makes one per path, a
later write may assign a path again, and the record keeps the last. -/
structure Draft where
  writer : Writer
  stamp : MStamp
  record : WriteRecord
  cells : Fields

namespace Writer

def new (id : WriterId) : Writer := ⟨id,.zero,.empty⟩

/- The next stamp: above the clock and every version-vector entry, by `1 + skew`. -/
def tick (w : Writer) (skew : Skew) : Hlc :=
  let top := max w.state.maxVv w.clock
  ⟨⟨min (top.wallMs.val + 1 + skew.val) (2 ^ 64 - 1), by omega⟩,0⟩

def stampAt (w : Writer) (skew : Skew) : MStamp := ⟨w.tick skew,w.id⟩

/- Move the clock to the write and replace the state. -/
def at' (w : Writer) (st : MStamp) (s : State) : Writer := { w with clock := st.hlc, state := s }

def covered (s : State) (st : MStamp) : State := { s with vv := s.vv.insert st.writer st.hlc }

end Writer

def State.writeLife (s : State) (o : JoinOptions) : Option MStamp := (s.alive o).max

/- Every slot total of `p`, kept with a generation a write starts. -/
def State.seenTotals (s : State) (p : String) (o : JoinOptions) : SortedMap ObsKey Int :=
  .collect ((s.slots.entries.filter fun x => x.1.path = p && decide (x.1.life ∈ s.alive o)).map
    fun x => (x.1.obs,x.2.total))

def State.obs (s : State) (p : String) (o : JoinOptions) : SortedMap ObsKey (MStamp × Int) :=
  .collect ((s.counted p o).entries.map fun x => (x.1,(x.2.stamp,x.2.total)))

def State.regFor (s : State) (p : String) (v : Value) (st : MStamp) (o : JoinOptions) : Reg :=
  let generation := if v.isNumeric then s.genOf p o else some ⟨st,s.seenTotals p o⟩
  ⟨st,v,s.obs p o,generation,false⟩

def State.setreg (s : State) (p : String) (v : Value) (st : MStamp) (o : JoinOptions) : State :=
  match s.writeLife o with
  | none => s -- `expect`: every caller has read a visible document
  | some l => { s with regs := s.regs.insert ⟨l,p⟩ (s.regFor p v st o) }

/- A cell of a creating write. -/
def creationReg (st : MStamp) (v : Value) (soi : Bool) : Reg :=
  ⟨st,v,.empty,if v.isNumeric then none else some ⟨st,.empty⟩,soi⟩

def putCells (regs : SortedMap CellKey Reg) (st : MStamp) (cells : Fields) (soi : Bool) :
    SortedMap CellKey Reg :=
  cells.foldl (fun regs x => regs.insert ⟨st,x.1⟩ (creationReg st x.2 soi)) regs

namespace Writer
variable (w : Writer) (o : JoinOptions)

/- An explicit insert; refused while a life is alive. -/
def insert (fields : Fields) (skew : Skew) : Option Draft :=
  if w.state.alive o ≠ ∅ then none
  else
    let st := w.stampAt skew
    let s := w.state
    let s := { s with
      lives := s.lives.insert st ⟨s.deletes.keys,fields.map Prod.fst,.insert⟩
      regs := putCells s.regs st fields false }
    some {
      writer := w.at' st (covered s st)
      stamp := st
      record := { kind := .insert, life := some st, paths := fields.map Prod.fst, vals := .collect fields }
      cells := (SortedMap.collect fields).entries }

/- The creation write of a `$setOnInsert` upsert. Paths named twice are a conflict. -/
def upsertSoiCreate (fields : Fields) (incPath : String) (sets : Fields) (skew : Skew) : Option Draft :=
  if ¬ ((fields ++ sets).map Prod.fst ++ [incPath]).Nodup then none
  else if w.state.alive o ≠ ∅ then none
  else
    let st := w.stampAt skew
    let s := w.state
    let s := { s with
      lives := s.lives.insert st ⟨s.deletes.keys,fields.map Prod.fst,.upsert⟩
      regs := putCells (putCells s.regs st fields true) st sets false }
    some {
      writer := w.at' st (covered s st)
      stamp := st
      record := {
        kind := .insert, life := some st, paths := ((fields ++ sets).map Prod.fst).eraseDups
        vals := .collect (fields ++ sets), insert := true, upsert := true, soi := fields.map Prod.fst }
      cells := (SortedMap.collect (fields ++ sets)).entries }

/- The increment write of an upsert on the life its creation made. -/
def upsertIncOn (life : MStamp) (path : String) (n : Int64) (skew : Skew) : Option Draft :=
  if life ∉ w.state.alive o then none
  else if (w.state.regs.get ⟨life,path⟩).isSome then none
  else
    let st := w.stampAt skew
    let s := covered w.state st
    let s := { s with slots := s.slots.insert ⟨life,path,w.id,none⟩ ⟨st,n.toInt⟩ }
    some {
      writer := w.at' st s
      stamp := st
      record := { kind := .inc, life := some life, paths := [path], n := some n }
      cells := [] }

/- An upserting `$inc` that creates the document; refused while a life is alive. -/
def upsertInc (path : String) (n : Int64) (skew : Skew) : Option Draft :=
  if w.state.alive o ≠ ∅ then none
  else
    let st := w.stampAt skew
    let s := w.state
    let s := { s with
      lives := s.lives.insert st ⟨s.deletes.keys,[],.upsert⟩
      slots := s.slots.insert ⟨st,path,w.id,none⟩ ⟨st,n.toInt⟩ }
    some {
      writer := w.at' st s
      stamp := st
      record := { kind := .inc, life := some st, paths := [path], n := some n, insert := true }
      cells := [] }

/- The register writes of one stamp, made one after the other in the same life. -/
def setregs (s : State) (cells : Fields) (st : MStamp) : State :=
  cells.foldl (fun s x => s.setreg x.1 x.2 st o) s

def writeRegs (cells : Fields) (skew : Skew) : Draft :=
  let st := w.stampAt skew
  let s := covered w.state st
  { writer := w.at' st (setregs o s cells st)
    stamp := st
    record := { kind := .reg, life := s.writeLife o, paths := cells.map Prod.fst, vals := .collect cells }
    cells }

def writeRegUnchecked (p : String) (v : Value) (skew : Skew) : Option Draft :=
  some (w.writeRegs o [(p,v)] skew)

/- `$set path = v`; refused when no life is alive or the value is unchanged. -/
def writeSet (path : String) (v : Value) (skew : Skew) : Option Draft := do
  let vis ← w.state.visible o
  if Value.same (vis.get path) v then none else w.writeRegUnchecked o path v skew

/- `$unset path`; refused when no life is alive or the path is absent. -/
def writeUnset (path : String) (skew : Skew) : Option Draft := do
  let vis ← w.state.visible o
  let _ ← vis.get path
  w.writeRegUnchecked o path .null skew

/- The increment of a counter: past the bound, or past `maxTotal` underneath, it is refused. -/
def incSlot (c : Int) (p : String) (n : Int64) (skew : Skew) : Option Draft := do
  let b := o.intBound.toInt
  if ¬ (-b - 1 ≤ c + n.toInt ∧ c + n.toInt ≤ b) then none
  else
    let l ← w.state.writeLife o
    let generation := (w.state.genOf p o).map Gen.stamp
    let key : SlotKey := ⟨l,p,w.id,generation⟩
    let old := ((w.state.slots.get key).map Slot.total).getD 0
    let total := saturatingAdd old n.toInt
    if maxTotal.natAbs < total.natAbs then none
    else
      let st := w.stampAt skew
      let s := covered w.state st
      let s := { s with slots := s.slots.insert key ⟨st,total⟩ }
      some {
        writer := w.at' st s
        stamp := st
        record := { kind := .inc, life := some l, paths := [p], n := some n, generation }
        cells := [] }

/- `$inc path by n`: on a double it is a register write, on a string it is refused. -/
def writeInc (p : String) (n : Int64) (skew : Skew) : Option Draft := do
  let vis ← w.state.visible o
  match vis.get p with
  | none => w.incSlot o 0 p n skew
  | some (.int c) => w.incSlot o c.toInt p n skew
  | some (.double d) => w.writeRegUnchecked o p (.double (doubleAdd d n)) skew
  | some _ => none

/- Replace the whole document: changed fields are set, absent ones unset. -/
def writeReplace (doc : Fields) (skew : Skew) : Option Draft := do
  let vis ← w.state.visible o
  let changes := doc.filter fun x => !Value.same (vis.get x.1) x.2
  let drops := (vis.entries.map Prod.fst).filter fun q => !doc.any fun x => x.1 = q
  if changes = [] ∧ drops = [] then none
  else some (w.writeRegs o (changes ++ drops.map fun q => (q,.null)) skew)

/- Delete the document; refused when no life is alive. -/
def writeDelete (skew : Skew) : Option Draft :=
  if w.state.alive o = ∅ then none
  else
    let st := w.stampAt skew
    let s := covered w.state st
    let s := { s with deletes := s.deletes.insert st s.vv }
    some {
      writer := w.at' st s
      stamp := st
      record := { kind := .delete, life := none, paths := [] }
      cells := [] }

/- Absorb another state: the joined state, the clock at its newest entry, and the records
that are new. -/
def receive (other : State) : Writer × Finset LossKey :=
  let joined := join w.state other o
  ({ w with clock := max joined.1.maxVv w.clock, state := joined.1 }, joined.2)

/- A loss record by itself: refused behind the horizon, when known, or past `maxTotal`. -/
def receiveLoss (key : LossKey) (val : LossValue) : Option Writer :=
  if key.stamp.hlc < w.state.horizon o ∨ (w.state.losses.get key).isSome then none
  else match val with
    | .total t => if maxTotal.natAbs < t.natAbs then none else some (keep key val)
    | _ => some (keep key val)
where
  keep (key : LossKey) (val : LossValue) : Writer :=
    { w with state := { w.state with losses := w.state.losses.insert key val } }

end Writer

/- The writer's own state, normalised as every receiver's join normalises it. -/
def Draft.finish (d : Draft) (o : JoinOptions) : Writer :=
  let s := Writer.covered d.writer.state d.stamp
  { d.writer with state := (join s .empty o).1 }

end Kimmy.Merge
