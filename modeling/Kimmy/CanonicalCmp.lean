import Kimmy.CmpNumbers

/-!
The canonical order (`cmp.rs`): a rank per type group, and inside a group the group's own
comparison. Documents and arrays compare element by element over the common length, then
by length.
-/
namespace Kimmy.CanonicalCmp
open ByteOrder

def typeRank : Bson → UInt8
  | .minKey => 0x01
  | .null | .undefined => 0x10
  | .double _ | .int32 _ | .int64 _ | .decimal128 _ => 0x20
  | .string _ | .symbol _ => 0x30
  | .document _ => 0x40
  | .array _ => 0x50
  | .binary _ _ => 0x60
  | .objectId _ => 0x70
  | .boolean _ => 0x80
  | .dateTime _ => 0x90
  | .timestamp _ _ => 0xA0
  | .regularExpression _ _ => 0xB0
  | .dbPointer => 0xC0
  | .javaScriptCode _ => 0xD0
  | .javaScriptCodeWithScope _ _ => 0xE0
  | .maxKey => 0xF0

/- `str` and `[u8]` compare by bytes. -/
def cmpText (x y : String) : Ordering := compare (asBytes x) (asBytes y)

mutual

def canonicalCmp (a b : Bson) : Ordering :=
  if typeRank a ≠ typeRank b then compare (typeRank a) (typeRank b)
  else match a, b with
    | .minKey, _ | .maxKey, _ => .eq
    | .null, _ | .undefined, _ => .eq
    | .double x, b => Number.cmpNumbers (.double x) b
    | .int32 x, b => Number.cmpNumbers (.int32 x) b
    | .int64 x, b => Number.cmpNumbers (.int64 x) b
    | .decimal128 x, b => Number.cmpNumbers (.decimal128 x) b
    | .string x, .string y | .string x, .symbol y | .symbol x, .string y | .symbol x, .symbol y =>
        cmpText x y
    | .document x, .document y => (cmpFields x y).then (compare x.length y.length)
    | .array x, .array y => (cmpItems x y).then (compare x.length y.length)
    | .binary s x, .binary t y =>
        (compare x.bytes.length y.bytes.length).then ((compare s t).then (compare x.bytes y.bytes))
    | .objectId x, .objectId y => compare x.toList y.toList
    | .boolean x, .boolean y => compare x y
    | .dateTime x, .dateTime y => compare x.toInt y.toInt
    | .timestamp t i, .timestamp u j => (compare t u).then (compare i j)
    | .regularExpression p o, .regularExpression q r => (cmpText p q).then (cmpText o r)
    | .dbPointer, .dbPointer => .eq
    | .javaScriptCode x, .javaScriptCode y => cmpText x y
    | .javaScriptCodeWithScope c x, .javaScriptCodeWithScope d y =>
        (cmpText c d).then ((cmpFields x y).then (compare x.length y.length))
    | _, _ => .eq

/- The zipped loop over two arrays; the length comparison after it is the caller's. -/
def cmpItems : List Bson → List Bson → Ordering
  | x :: xs, y :: ys => (canonicalCmp x y).then (cmpItems xs ys)
  | _, _ => .eq

def cmpFields : List (String × Bson) → List (String × Bson) → Ordering
  | (k,x) :: xs, (l,y) :: ys => (cmpText k l).then ((canonicalCmp x y).then (cmpFields xs ys))
  | _, _ => .eq

end

theorem cmpRanks {a b : Bson} (differ : typeRank a ≠ typeRank b) :
    canonicalCmp a b = compare (typeRank a) (typeRank b) := by
  unfold canonicalCmp
  rw [if_pos differ]

/- Documents and arrays after the rank test: the loop, then the lengths. -/
def cmpDocuments (x y : List (String × Bson)) : Ordering := (cmpFields x y).then (compare x.length y.length)

def cmpArrays (x y : List Bson) : Ordering := (cmpItems x y).then (compare x.length y.length)

end Kimmy.CanonicalCmp
