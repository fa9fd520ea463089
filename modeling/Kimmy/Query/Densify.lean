import Kimmy.KeyEnc
import Kimmy.KeyOrder
import Kimmy.PathWrite
import Kimmy.SortedMap
import Kimmy.StableSort
import Kimmy.Store.Records

/-!
`$densify` (`densify.rs`): documents generated to close the gaps of a field. Each partition has a grid that a cursor
goes along; the documents are walked in order and the grid brought up to each, once to count and once to build.
-/
namespace Kimmy.Query.Densify
open CanonicalCmp KeyEnc StableSort
open ByteOrder (Bytes)

inductive Failure where
  | nonFinite
  | wrongKind
  | mixedKinds
  | needsUnit
  | unitForDates
  | boundsKind
  | limit
  | unset
  | stuck
  | unending
  deriving DecidableEq, Repr

inductive Step where
  | int32 (n : Int32)
  | int64 (n : Int64)
  | double (bits : UInt64)

def Step.integer : Step → Option Int
  | .int32 n => some n.toInt
  | .int64 n => some n.toInt
  | .double _ => none

/- The three numeric types that bounds and step agree on. -/
inductive NumberType where
  | int
  | long
  | double
  deriving DecidableEq

def numberType : Bson → Option NumberType
  | .int32 _ => some .int
  | .int64 _ => some .long
  | .double _ => some .double
  | _ => none

def Step.numberType : Step → NumberType
  | .int32 _ => .int
  | .int64 _ => .long
  | .double _ => .double

def isDate : Bson → Bool
  | .dateTime _ => true
  | _ => false

inductive Bounds where
  | full
  | grouped
  | explicit (lo hi : Bson)

/- What `parse` lets through: a step above nought, and bounds in order and of the step's type, or dates. `Bounds::Partition`
is `grouped`. -/
structure DensifySpec where
  field : String
  partitionFields : List String
  step : Step
  unit : Option String
  bounds : Bounds
  positive : ∀ n, step.integer = some n → 0 < n
  ordered : ∀ lo hi, bounds = .explicit lo hi → canonicalCmp lo hi ≠ .gt
  alike : ∀ lo hi, bounds = .explicit lo hi → isDate lo ∧ isDate hi ∨
    numberType lo = some step.numberType ∧ numberType hi = some step.numberType

/-! The grid. -/

def checkedAdd (a b : Int) : Option Bson :=
  if -2 ^ 63 ≤ a + b ∧ a + b < 2 ^ 63 then some (.int64 (Int64.ofInt (a + b))) else none

/- The step added to the point before. Dates, and numbers one of which is a double, are stepped by `elsewhere`. -/
structure Grid where
  step : Step
  elsewhere : Bson → Except Failure (Option Bson)

def Grid.after (grid : Grid) (base : Bson) : Except Failure (Option Bson) :=
  match base, grid.step with
  | .int32 b, .int32 s =>
      let v := b.toInt + s.toInt
      .ok (some (if -2 ^ 31 ≤ v ∧ v < 2 ^ 31 then .int32 (Int32.ofInt v) else .int64 (Int64.ofInt v)))
  | .int32 b, .int64 s => .ok (checkedAdd b.toInt s.toInt)
  | .int64 b, .int32 s => .ok (checkedAdd b.toInt s.toInt)
  | .int64 b, .int64 s => .ok (checkedAdd b.toInt s.toInt)
  | base, _ => grid.elsewhere base

structure Row where
  value : Bson
  doc : Nat
  part : Nat

structure Part where
  fields : Document
  rep : List (Option Bson)

structure Cursor where
  next : Bson
  done : Bool

structure Span where
  lo : Bson
  hi : Bson
  inclusive : Bool

def Span.contains (span : Span) (g : Bson) : Bool :=
  match canonicalCmp g span.hi with
  | .lt => true
  | .eq => span.inclusive
  | .gt => false

/- Where the walk puts what it finds. -/
structure Sink (σ : Type) where
  doc : σ → Row → Except Failure σ
  generated : σ → Nat → Bson → Except Failure σ

/- An integer grid has no more points than there are words. -/
def rounds : Nat := 2 ^ 64 + 2

section
variable {σ : Type} (grid : Grid) (sink : Sink σ)

/- The points of the range below `before`, all of them with `none`, that the cursor has not passed. -/
def catchUpFor (span : Span) (before : Option Bson) (part : Nat) : Nat → Cursor → σ → Except Failure (Cursor × σ)
  | 0, _, _ => .error .unending
  | left + 1, cursor, s =>
      if cursor.done || !span.contains cursor.next then .ok (cursor,s)
      else if before.any fun v => (canonicalCmp cursor.next v).isGE then .ok (cursor,s)
      else do
        let s ← sink.generated s part cursor.next
        match ← grid.after cursor.next with
        | some next => catchUpFor span before part left { cursor with next } s
        | none => catchUpFor span before part left { cursor with done := true } s

def catchUp (span : Span) (before : Option Bson) (part : Nat) (cursor : Cursor) (s : σ) : Except Failure (Cursor × σ) :=
  catchUpFor grid sink span before part rounds cursor s

/- The point a document sits on is not generated. -/
def passFor (value : Bson) : Nat → Cursor → Except Failure Cursor
  | 0, _ => .error .unending
  | left + 1, cursor =>
      if !cursor.done && canonicalCmp cursor.next value == .eq then do
        match ← grid.after cursor.next with
        | some next => passFor value left { cursor with next }
        | none => passFor value left { cursor with done := true }
      else .ok cursor

def pass (value : Bson) (cursor : Cursor) : Except Failure Cursor := passFor grid value rounds cursor

abbrev Cursors := List (Option Cursor)

/- Below the start a document is passed by. -/
def take (spans : List (Option Span)) (acc : Cursors × σ) (row : Row) : Except Failure (Cursors × σ) :=
  let (cursors,s) := acc
  match spans.getD row.part none, cursors.getD row.part none with
  | some span, some cursor => do
      if (canonicalCmp row.value span.lo).isGE then
        let (cursor,s) ← catchUp grid sink span (some row.value) row.part cursor s
        let cursor ← pass grid row.value cursor
        let s ← sink.doc s row
        .ok (cursors.set row.part (some cursor),s)
      else
        let s ← sink.doc s row
        .ok (cursors,s)
  | _, _ => do
      let s ← sink.doc s row
      .ok (cursors,s)

def finish (spans : List (Option Span)) (acc : Cursors × σ) (part : Nat) : Except Failure (Cursors × σ) :=
  let (cursors,s) := acc
  match spans.getD part none, cursors.getD part none with
  | some span, some cursor => do
      let (cursor,s) ← catchUp grid sink span none part cursor s
      .ok (cursors.set part (some cursor),s)
  | _, _ => .ok (cursors,s)

/- The rows of one partition, in order. -/
def rowsOf (part : Nat) (rows : List Row) : List Row := rows.filter fun row => row.part = part

def walk (bounds : Bounds) (rows : List Row) (order : List Nat) (spans : List (Option Span)) (s : σ) : Except Failure σ := do
  let cursors : Cursors := spans.map fun span => span.map fun span => ⟨span.lo,false⟩
  match bounds with
  | .full =>
      let acc ← rows.foldlM (take grid sink spans) (cursors,s)
      let (_,s) ← order.foldlM (finish grid sink spans) acc
      .ok s
  | _ =>
      let (_,s) ← order.foldlM (fun acc p => do
        let acc ← (rowsOf p rows).foldlM (take grid sink spans) acc
        finish grid sink spans acc p) (cursors,s)
      .ok s

end

/-! Reading the documents. -/

def groupKey (v : Bson) : Bytes := (encode v).getD []

def fieldsOf (doc : Document) (fields : List String) : Document :=
  fields.foldl (fun out field => match (resolve doc field).head? with
    | some v => (setPath out field v).1
    | none => out) []

def compareFields (missingFirst : Bool) : List (Option Bson) → List (Option Bson) → Ordering
  | x :: a, y :: b =>
      let (before,after) := if missingFirst then (Ordering.lt,Ordering.gt) else (Ordering.gt,Ordering.lt)
      let o := match x, y with
        | some x, some y => canonicalCmp x y
        | none, none => .eq
        | none, some y => (canonicalCmp .null y).then before
        | some x, none => (canonicalCmp x .null).then after
      if o ≠ .eq then o else compareFields missingFirst a b
  | _, _ => .eq

structure Reading where
  docs : List Document
  passthrough : List Nat
  rows : List Row
  parts : List Part
  index : SortedMap Bytes Nat
  dates : Option Bool

def isFinite (bits : UInt64) : Bool := bits.toNat / 2 ^ 52 % 2 ^ 11 ≠ 2 ^ 11 - 1

def steppable : Bson → Except Failure Bson
  | .int32 n => .ok (.int32 n)
  | .int64 n => .ok (.int64 n)
  | .dateTime t => .ok (.dateTime t)
  | .double bits => if isFinite bits then .ok (.double bits) else .error .nonFinite
  | _ => .error .wrongKind

/- The partition of a document, filed under its key when it is the first of it. -/
def partOf (spec : DensifySpec) (r : Reading) (doc : Document) : Nat × Reading :=
  let held := fieldsOf doc spec.partitionFields
  let key := groupKey (.document held)
  match r.index.get key with
  | some part => (part,r)
  | none =>
      let rep := spec.partitionFields.map fun f => (resolve held f).head?
      (r.parts.length,{ r with parts := r.parts ++ [⟨held,rep⟩], index := r.index.insert key r.parts.length })

def readDoc (spec : DensifySpec) (r : Reading) (doc : Document) : Except Failure Reading :=
  let place := r.docs.length
  match (resolve doc spec.field).head? with
  | none | some .null => .ok { r with passthrough := r.passthrough ++ [place], docs := r.docs ++ [doc] }
  | some v => do
      let value ← steppable v
      if r.dates.any (· ≠ isDate value) then .error .mixedKinds
      else
        let (part,r) := partOf spec { r with dates := some (isDate value) } doc
        .ok { r with rows := r.rows ++ [⟨value,place,part⟩], docs := r.docs ++ [doc] }

def readAll (spec : DensifySpec) (input : List Document) : Except Failure Reading :=
  input.foldlM (readDoc spec) ⟨[],[],[],[],.empty,none⟩

/- A date field needs a unit, and a numeric one takes none; explicit bounds are of the field's kind. -/
def checkKinds (spec : DensifySpec) (dates : Option Bool) : Except Failure Unit :=
  match dates with
  | none => .ok ()
  | some dated =>
      match spec.unit, dated with
      | none, true => .error .needsUnit
      | some _, false => .error .unitForDates
      | _, _ => match spec.bounds with
          | .explicit lo _ => if isDate lo ≠ dated then .error .boundsKind else .ok ()
          | _ => .ok ()

def widen (found : Option (Bson × Bson)) (v : Bson) : Option (Bson × Bson) :=
  match found with
  | none => some (v,v)
  | some (lo,hi) =>
      some (if canonicalCmp v lo = .lt then v else lo,if canonicalCmp v hi = .gt then v else hi)

def reach (rows : List Row) : Option (Bson × Bson) := rows.foldl (fun found row => widen found row.value) none

def spansOf (spec : DensifySpec) (rows : List Row) (parts : Nat) : List (Option Span) :=
  (List.range parts).map fun p =>
    match spec.bounds with
    | .explicit lo hi => some ⟨lo,hi,canonicalCmp lo hi == .eq⟩
    | .full => (reach rows).map fun (lo,hi) => ⟨lo,hi,true⟩
    | .grouped => (reach (rowsOf p rows)).map fun (lo,hi) => ⟨lo,hi,true⟩

/-! The two passes. -/

def countSink (maxDocuments : Nat) : Sink Nat where
  doc total _ := .ok total
  generated total _ _ := if maxDocuments < total + 1 then .error .limit else .ok (total + 1)

structure Build where
  docs : List (Option Document)
  out : List Document

/- A document leaves its place, so it is put out once. -/
def Build.moved (b : Build) (place : Nat) : Build :=
  match b.docs.getD place none with
  | some doc => ⟨b.docs.set place none,b.out ++ [doc]⟩
  | none => b

def setOr (doc : Document) (path : String) (value : Bson) : Except Failure Document :=
  match setPath doc path value with
  | (doc,.ok ()) => .ok doc
  | (_,.error _) => .error .unset

/- The partition fields first, then the densified field. -/
def generatedDoc (spec : DensifySpec) (fields : Document) (value : Bson) : Except Failure Document := do
  let doc ← spec.partitionFields.foldlM (fun doc f => match (resolve fields f).head? with
    | some v => setOr doc f v
    | none => .ok doc) []
  setOr doc spec.field value

def buildSink (spec : DensifySpec) (parts : List Part) : Sink Build where
  doc b row := .ok (b.moved row.doc)
  generated b part value := do
    let doc ← generatedDoc spec (((parts[part]?).map Part.fields).getD []) value
    .ok { b with out := b.out ++ [doc] }

section
variable (spec : DensifySpec) (elsewhere : Bson → Except Failure (Option Bson)) (maxDocuments : Nat)

def sorted (r : Reading) : List Row := sortBy (fun a b => canonicalCmp a.value b.value) r.rows

def partOrder (r : Reading) : List Nat :=
  let rep (p : Nat) := ((r.parts[p]?).map Part.rep).getD []
  sortBy (fun a b => compareFields false (rep a) (rep b)) (List.range r.parts.length)

def walkOver {σ : Type} (r : Reading) (sink : Sink σ) (s : σ) : Except Failure σ :=
  walk ⟨spec.step,elsewhere⟩ sink spec.bounds (sorted r) (partOrder r) (spansOf spec (sorted r) r.parts.length) s

/- The first pass. -/
def count (r : Reading) : Except Failure Nat := walkOver spec elsewhere r (countSink maxDocuments) r.docs.length

def apply (input : List Document) : Except Failure (List Document) := do
  let r ← readAll spec input
  checkKinds spec r.dates
  let _ ← count spec elsewhere maxDocuments r
  let led := r.passthrough.foldl Build.moved ⟨r.docs.map some,[]⟩
  let built ← walkOver spec elsewhere r (buildSink spec r.parts) led
  .ok built.out

end

end Kimmy.Query.Densify
