import Kimmy.KeyOrder
import Kimmy.Ranking
import Kimmy.RunningSum
import Kimmy.Store.Records
import Kimmy.Window.Ends
import Mathlib.Data.List.DropRight

/-!
The state that a window slides (`window_acc.rs`), one slider for each accumulator, and the loop that drives it over
the windows of a partition (`window.rs`). A slider is told each document when it enters the window and when it leaves.
-/
namespace Kimmy.Window
open Decimal.Arith Decimal CanonicalCmp KeyEnc ByteOrder Store

section
variable {δ : Type}

/- An expression over documents: its value, a missing field being null, and its value if it is there. `none` fails
the stage. -/
structure Operand (δ : Type) where
  eval : δ → Option Bson
  present : δ → Option (Option Bson)

/- `Slider`. -/
structure Slider (δ : Type) where
  State : Type
  new : State
  add : List δ → State → Nat → Option State
  remove : List δ → State → Nat → Option State
  reset : State → Nat → State
  value : State → Option Bson

/-! Sums and averages. -/

def fromI64 (n : Int64) : Raw := .finite (decide (n.toInt < 0)) n.toInt.natAbs 0

def decimalTerm : Bson → Option Raw
  | .int32 n => some (fromI64 n.toInt64)
  | .int64 n => some (fromI64 n)
  | .double bits => (fromBinary64 bits).map Prod.fst
  | .decimal128 d => some (decodeRaw d)
  | _ => none

def isDecimal : Bson → Bool
  | .decimal128 _ => true
  | _ => false

namespace Plain

def numbers (p : Plain) : Nat := p.nInt + p.nDbl + p.nan + p.posInf + p.negInf

def nanWord : UInt64 := .ofNat quietNan
def infinityWord : UInt64 := .ofNat infinity

def special (p : Plain) : Option UInt64 :=
  if 0 < p.nan ∨ 0 < p.posInf ∧ 0 < p.negInf then some nanWord
  else if 0 < p.posInf then some infinityWord
  else if 0 < p.negInf then some (negated infinityWord)
  else none

end Plain

/- The field of the double nearest to `num / den` units of the smallest subnormal, ties to even. -/
def quotientField (num den : Nat) : Nat :=
  let k := Nat.log2 (num / den) - 52
  let unit := den * 2 ^ k
  let q := num / unit
  let r := num % unit
  let kept := if unit < 2 * r ∨ 2 * r = unit ∧ q % 2 = 1 then q + 1 else q
  min infinity (k * 2 ^ 52 + kept)

/- `x / y` for a finite positive `y`. -/
def dividedBy (x y : UInt64) : UInt64 :=
  if fieldOf x < infinity then
    .ofNat ((if signOf x then 2 ^ 63 else 0) ||| quotientField (unitsOf x * 2 ^ 1074) (unitsOf y))
  else x

/- `as f64`. -/
def doubleOf (n : Int) : UInt64 := ofTotal (n * 2 ^ 1074)

/- The narrowest width that holds it. -/
def integerBson (n : Int) : Bson :=
  if -2 ^ 31 ≤ n ∧ n < 2 ^ 31 then .int32 (.ofInt n) else .int64 (.ofInt n)

structure SumState where
  plain : Plain
  dec : Option RunningSum
  decN : Nat
  lo : Nat
  hi : Nat

namespace SumState

def new : SumState := ⟨.new,none,0,0,0⟩

def addTerm (sum : RunningSum) (v : Bson) : RunningSum := (decimalTerm v).elim sum sum.add

/- The first decimal brings in the numbers already in the window. -/
def gathered (e : Operand δ) (docs : List δ) (st : SumState) : Option RunningSum :=
  match st.dec with
  | some sum => some sum
  | none => ((docs.drop st.lo).take (st.hi - st.lo)).foldlM (fun sum doc => (e.eval doc).map (addTerm sum)) .new

def add (e : Operand δ) (docs : List δ) (st : SumState) (i : Nat) : Option SumState := do
  let v ← docs[i]?.bind e.eval
  let st ← if isDecimal v then do
      let sum ← st.gathered e docs
      some { st with dec := some sum, decN := st.decN + 1 }
    else some { st with plain := st.plain.apply v true }
  some { st with dec := st.dec.map (addTerm · v), hi := i + 1 }

def remove (e : Operand δ) (docs : List δ) (st : SumState) (i : Nat) : Option SumState := do
  let v ← docs[i]?.bind e.eval
  let st := if isDecimal v then { st with decN := st.decN - 1 } else { st with plain := st.plain.apply v false }
  some { st with dec := st.dec.map (fun sum => (decimalTerm v).elim sum sum.remove), lo := i + 1 }

/- Integers alone: a long in the window makes a long, otherwise the narrowest width. -/
def integers (p : Plain) : Bson :=
  match fits64 p.ints with
  | some n => if 0 < p.nLong then .int64 (.ofInt n) else integerBson n
  | none => .double (doubleOf p.ints)

def plainValue (avg : Bool) (p : Plain) : Bson :=
  if avg && p.numbers = 0 then .null
  else
    let answer (total : UInt64) : Bson := .double (if avg then dividedBy total (doubleOf p.numbers) else total)
    match p.special with
    | some total => answer total
    | none =>
        if p.nDbl = 0 then if avg then answer (doubleOf p.ints) else integers p
        else answer (p.doubles.valueWith p.ints)

def value (avg : Bool) (st : SumState) : Option Bson :=
  match st.dec with
  | some sum =>
      if 0 < st.decN then do
        let raw ← if avg then sum.finishAvg else sum.finishSum
        (packRaw raw).map .decimal128
      else some (plainValue avg st.plain)
  | none => some (plainValue avg st.plain)

end SumState

def sumSlider (e : Operand δ) (avg : Bool) : Slider δ where
  State := SumState
  new := .new
  add := SumState.add e
  remove := SumState.remove e
  reset _ start := ⟨.new,none,0,start,start⟩
  value := SumState.value avg

/-! The least and the greatest. -/

/- Whether the newcomer `v` leaves `x` no chance to be the answer again. -/
def beats (max : Bool) (v x : Bson) : Bool :=
  if max then (canonicalCmp x v).isLE else (canonicalCmp x v).isGT

/- A queue of values by position, from which only the oldest held leaves. -/
def popAt {β : Type} (i : Nat) : List (Nat × β) → List (Nat × β)
  | [] => []
  | x :: rest => if x.1 = i then rest else x :: rest

def extremeSlider (e : Operand δ) (max : Bool) : Slider δ where
  State := List (Nat × Bson)
  new := []
  add docs deque i := do
    let v ← docs[i]?.bind e.eval
    some (if v = .null then deque else deque.rdropWhile (fun x => beats max v x.2) ++ [(i,v)])
  remove _ deque i := some (popAt i deque)
  reset _ _ := []
  value deque := some (deque.head?.elim .null Prod.snd)

/-! Queues. -/

inductive Queue where
  | push
  | first (n : Nat)
  | last (n : Nat)

/- `$push` takes what is there, the others null for what is missing. -/
def Queue.read (kind : Queue) (e : Operand δ) (doc : δ) : Option (Option Bson) :=
  match kind with
  | .push => e.present doc
  | _ => (e.eval doc).map some

def Queue.answer (kind : Queue) (values : List Bson) : List Bson :=
  match kind with
  | .push => values
  | .first n => values.take n
  | .last n => values.drop (values.length - n)

def queueSlider (e : Operand δ) (kind : Queue) : Slider δ where
  State := List (Nat × Bson)
  new := []
  add docs live i := do
    let found ← docs[i]?.bind (kind.read e)
    some (live ++ found.toList.map fun v => (i,v))
  remove _ live i := some (popAt i live)
  reset _ _ := []
  value live := some (.array (kind.answer (live.map Prod.snd)))

/-! The set of values. -/

/- The key a value is grouped by. Every value has one, so what stands in for a failure is never reached. -/
def groupKey (v : Bson) : Bytes := (encode v).getD []

structure SetState where
  live : SortedMap Nat Bson
  positions : SortedMap Bytes (List Nat)
  firsts : SortedMap Nat Unit

namespace SetState

def new : SetState := ⟨.empty,.empty,.empty⟩

def enter (st : SetState) (i : Nat) (v : Bson) : SetState :=
  let queue := (st.positions.get (groupKey v)).getD []
  { live := st.live.insert i v
    positions := st.positions.insert (groupKey v) (queue ++ [i])
    firsts := if queue.isEmpty then st.firsts.insert i () else st.firsts }

def leave (st : SetState) (i : Nat) : SetState :=
  match st.live.get i with
  | none => st
  | some v =>
      let st := { st with live := st.live.remove i }
      match st.positions.get (groupKey v) with
      | none => st
      | some queue =>
          let firsts := st.firsts.remove i
          match queue.tail with
          | next :: rest =>
              { st with positions := st.positions.insert (groupKey v) (next :: rest), firsts := firsts.insert next () }
          | [] => { st with positions := st.positions.remove (groupKey v), firsts := firsts }

def value (st : SetState) : Option Bson :=
  (st.firsts.entries.mapM fun x => st.live.get x.1).map .array

end SetState

def setSlider (e : Operand δ) : Slider δ where
  State := SetState
  new := .new
  add docs st i := do
    let found ← docs[i]?.bind e.present
    some (found.elim st (st.enter i))
  remove _ st i := some (st.leave i)
  reset _ _ := .new
  value := SetState.value

/-! Rows in rank order. -/

def emptyArray : Bson → Bool
  | .array [] => true
  | _ => false

def isMinKey : Bson → Bool
  | .minKey => true
  | _ => false

/- The canonical order, except that an empty array sorts below null and above the least key. -/
def keyCmp (a b : Bson) : Ordering :=
  match emptyArray a, emptyArray b with
  | true, true => .eq
  | true, false => if isMinKey b then .gt else .lt
  | false, true => (if isMinKey a then .gt else .lt : Ordering).swap
  | false, false => canonicalCmp a b

structure SortKey (δ : Type) where
  key : δ → Bson
  descending : Bool

/- A row holds one key for each direction. -/
structure Row (dirs : List Bool) where
  keys : List Bson
  sized : keys.length = dirs.length
  output : Bson
  seq : Nat

/- Key by key; `flip` reads every direction the other way round. -/
def cmpKeys (flip : Bool) : List Bool → List Bson → List Bson → Ordering
  | d :: dirs, a :: as, b :: bs =>
      (if d != flip then (keyCmp a b).swap else keyCmp a b).then (cmpKeys flip dirs as bs)
  | _, _, _ => .eq

def Row.cmpRank {dirs : List Bool} (flip : Bool) (x y : Row dirs) : Ordering :=
  (cmpKeys flip dirs x.keys y.keys).then (compare x.seq y.seq)

structure RankState (α : Type) where
  set : List α
  fifo : List α
  seq : Nat

/- How many rows are answered: one of them by itself, or up to `n` in an array. -/
inductive RankSize where
  | single
  | many (n : Nat)

def RankSize.limit : RankSize → Nat
  | .single => 1
  | .many n => n

def RankSize.answer (size : RankSize) (outputs : List Bson) : Bson :=
  match size with
  | .single => outputs.head?.getD .null
  | .many _ => .array outputs

def dirsOf (sort : List (SortKey δ)) (bottom : Bool) : List Bool := sort.map fun k => k.descending != bottom

def rankedSlider (e : Operand δ) (sort : List (SortKey δ)) (bottom : Bool) (size : RankSize) : Slider δ where
  State := RankState (Row (dirsOf sort bottom))
  new := ⟨[],[],0⟩
  add docs st i := do
    let doc ← docs[i]?
    let output ← e.eval doc
    let row : Row (dirsOf sort bottom) := ⟨sort.map (·.key doc),by simp [dirsOf],output,st.seq⟩
    some ⟨Ranking.place (Row.cmpRank false) row st.set,st.fifo ++ [row],st.seq + 1⟩
  remove _ st _ := some (match st.fifo with
    | [] => st
    | row :: fifo => { st with set := Ranking.takeOut (Row.cmpRank false) row st.set, fifo := fifo })
  reset st _ := { st with set := [], fifo := [] }
  value st :=
    let rows := st.set.take size.limit
    -- the rows that rank last are answered in the order asked for
    let rows := if bottom then rows.mergeSort fun x y => (x.cmpRank true y).isLE else rows
    some (size.answer (rows.map Row.output))

structure Best where
  value : Bson
  seq : Nat

def Best.cmp (max : Bool) (x y : Best) : Ordering :=
  (if max then (canonicalCmp x.value y.value).swap else canonicalCmp x.value y.value).then (compare x.seq y.seq)

structure BestState where
  set : List Best
  fifo : List (Nat × Best)
  seq : Nat

/- Null and undefined are passed over. -/
def bestSlider (e : Operand δ) (max : Bool) (n : Nat) : Slider δ where
  State := BestState
  new := ⟨[],[],0⟩
  add docs st i := do
    let v ← docs[i]?.bind e.eval
    some (if v = .null ∨ v = .undefined then st
      else ⟨Ranking.place (Best.cmp max) ⟨v,st.seq⟩ st.set,st.fifo ++ [(i,⟨v,st.seq⟩)],st.seq + 1⟩)
  remove _ st i := some (match st.fifo with
    | (j,best) :: fifo =>
        if j = i then { st with set := Ranking.takeOut (Best.cmp max) best st.set, fifo := fifo } else st
    | [] => st)
  reset st _ := { st with set := [], fifo := [] }
  value st := some (.array ((st.set.take n).map Best.value))

/-! The accumulators. -/

/- `n` is read once, from the first document of the partition. -/
inductive Accumulator (δ : Type) where
  | sum (e : Operand δ)
  | avg (e : Operand δ)
  | min (e : Operand δ)
  | max (e : Operand δ)
  | first (e : Operand δ)
  | last (e : Operand δ)
  | push (e : Operand δ)
  | addToSet (e : Operand δ)
  | count
  | firstN (e : Operand δ) (n : Nat)
  | lastN (e : Operand δ) (n : Nat)
  | maxN (e : Operand δ) (n : Nat)
  | minN (e : Operand δ) (n : Nat)
  | top (e : Operand δ) (sort : List (SortKey δ))
  | bottom (e : Operand δ) (sort : List (SortKey δ))
  | topN (e : Operand δ) (sort : List (SortKey δ)) (n : Nat)
  | bottomN (e : Operand δ) (sort : List (SortKey δ)) (n : Nat)

/- `none`: the accumulator is a closed form of the ends. -/
def makeSlider : Accumulator δ → Option (Slider δ)
  | .sum e => some (sumSlider e false)
  | .avg e => some (sumSlider e true)
  | .min e => some (extremeSlider e false)
  | .max e => some (extremeSlider e true)
  | .first _ | .last _ | .count => none
  | .push e => some (queueSlider e .push)
  | .addToSet e => some (setSlider e)
  | .firstN e n => some (queueSlider e (.first n))
  | .lastN e n => some (queueSlider e (.last n))
  | .maxN e n => some (bestSlider e true n)
  | .minN e n => some (bestSlider e false n)
  | .top e sort => some (rankedSlider e sort false .single)
  | .bottom e sort => some (rankedSlider e sort true .single)
  | .topN e sort n => some (rankedSlider e sort false (.many n))
  | .bottomN e sort n => some (rankedSlider e sort true (.many n))

/- A value that is missing leaves the field out; no document gives null. -/
def edge (e : Operand δ) (docs : List δ) : Option Nat → Option (Option Bson)
  | some i => docs[i]?.bind e.present
  | none => some (some .null)

/- The answer from the ends of the window alone. -/
def closedForm (acc : Accumulator δ) (docs : List δ) (s e : Nat) : Option (Option Bson) :=
  match acc with
  | .first x => edge x docs (if s < e then some s else none)
  | .last x => edge x docs (if s < e then some (e - 1) else none)
  | .count => some (some (integerBson (e - s : Nat)))
  | _ => none

/-! The loop. -/

namespace Slider
variable (S : Slider δ)

/- The documents from one position up to another enter, or leave. -/
def addUpTo (docs : List δ) (st : S.State) (start stop : Nat) : Option S.State :=
  (List.range' start (stop - start)).foldlM (S.add docs) st

def removeUpTo (docs : List δ) (st : S.State) (start stop : Nat) : Option S.State :=
  (List.range' start (stop - start)).foldlM (S.remove docs) st

structure Sliding where
  state : S.State
  span : Nat × Nat
  previous : Option ((Nat × Nat) × Bson)

/- One window of `slide`: the same as the last one answers the same; one that starts where the held documents end,
or past it, starts over. -/
def slideStep (docs : List δ) (x : S.Sliding) (window : Nat × Nat) : Option (S.Sliding × Bson) :=
  match x.previous.filter (·.1 = window) with
  | some (_,v) => some (x,v)
  | none => do
      let (st,span) := if x.span.2 ≤ window.1 then (S.reset x.state window.1,(window.1,window.1)) else (x.state,x.span)
      let st ← S.addUpTo docs st span.2 window.2
      let st ← S.removeUpTo docs st span.1 window.1
      let v ← S.value st
      some (⟨st,(max span.1 window.1,max span.2 window.2),some (window,v)⟩,v)

def slideFrom (docs : List δ) : S.Sliding → List (Nat × Nat) → Option (List (Option Bson))
  | _, [] => some []
  | x, window :: rest => do
      let (x,v) ← S.slideStep docs x window
      let more ← slideFrom docs x rest
      some (some v :: more)

/- Windows that are all the whole partition have one answer. -/
def slide (docs : List δ) (ends : List (Nat × Nat)) : Option (List (Option Bson)) :=
  if ends.all (· = (0,docs.length)) then do
    let st ← S.addUpTo docs S.new 0 docs.length
    let v ← S.value st
    some (List.replicate docs.length (some v))
  else S.slideFrom docs ⟨S.new,(0,0),none⟩ ends

end Slider

def accumulator (acc : Accumulator δ) (docs : List δ) (ends : List (Nat × Nat)) : Option (List (Option Bson)) :=
  match makeSlider acc with
  | some S => S.slide docs ends
  | none => ends.mapM fun window => closedForm acc docs window.1 window.2

/- The accumulator applied once to some documents and nothing else. -/
def afresh (acc : Accumulator δ) (docs : List δ) : Option (Option Bson) :=
  match makeSlider acc with
  | some S => do
      let st ← S.addUpTo docs S.new 0 docs.length
      let v ← S.value st
      some (some v)
  | none => closedForm acc docs 0 docs.length

end

end Kimmy.Window
