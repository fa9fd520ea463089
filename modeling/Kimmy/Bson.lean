import Kimmy.ByteOrder

/-!
BSON values as the comparator and the key encoder read them. Numbers keep their stored
form: a double is its 64 bits, a `Decimal128` the 128 bits of its BID word. What neither
function reads (the contents of a DBPointer) is not kept.
-/
namespace Kimmy
open ByteOrder

/- A `Vec<u8>`: its length is below `isize::MAX`, so it survives the cast to `u64`. -/
structure Blob where
  bytes : Bytes
  fits : bytes.length < 2 ^ 63
  deriving DecidableEq

abbrev Decimal128 := BitVec 128

inductive Bson where
  | double (bits : UInt64)
  | string (text : String)
  | document (fields : List (String × Bson))
  | array (items : List Bson)
  | binary (subtype : UInt8) (bytes : Blob)
  | undefined
  | objectId (bytes : Vector UInt8 12)
  | boolean (value : Bool)
  | dateTime (millis : Int64)
  | null
  | regularExpression (pattern options : String)
  | dbPointer
  | javaScriptCode (code : String)
  | symbol (text : String)
  | javaScriptCodeWithScope (code : String) (scope : List (String × Bson))
  | int32 (value : Int32)
  | timestamp (time increment : UInt32)
  | int64 (value : Int64)
  | decimal128 (word : Decimal128)
  | minKey
  | maxKey

/- `str::as_bytes`. -/
def asBytes (text : String) : Bytes := text.toByteArray.data.toList

theorem asBytesInj {s t : String} (same : asBytes s = asBytes t) : s = t := by
  apply String.toByteArray_inj.mp
  exact ByteArray.ext (Array.toList_inj.mp same)

end Kimmy
