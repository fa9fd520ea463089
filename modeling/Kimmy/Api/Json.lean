import Kimmy.Binary64
import Kimmy.DecimalParse
import Kimmy.PathWrite

/-!
JSON at the HTTP edge (`json.rs`): reading a value into BSON, with the Extended JSON wrappers, and writing BSON back. A wrapper
is an object of one key, recognised by that key alone.
-/
namespace Kimmy.Api
open Decimal.Arith (fieldOf signOf infinity quietNan)

/- `serde_json::Number`, as the workspace builds it. -/
inductive Number where
  | posInt (n : UInt64)
  | negInt (n : Int64)
  | float (bits : UInt64)

/- `serde_json::Value`; a map keeps the order of its keys. -/
inductive Json where
  | null
  | bool (value : Bool)
  | number (value : Number)
  | string (text : String)
  | array (items : List Json)
  | object (map : List (String × Json))

namespace Number

def asI64 : Number → Option Int64
  | .posInt n => if n.toNat < 2 ^ 63 then some n.toInt64 else none
  | .negInt n => some n
  | .float _ => none

def asU64 : Number → Option UInt64
  | .posInt n => some n
  | _ => none

def asF64 : Number → Option UInt64
  | .posInt n => some n.toFloat.toBits
  | .negInt n => some n.toFloat.toBits
  | .float bits => some bits

/- `From<i64>`. -/
def ofI64 (n : Int64) : Number := if n < 0 then .negInt n else .posInt n.toUInt64

/- `from_f64`: a number only if it is finite. -/
def fromF64 (bits : UInt64) : Option Number := if fieldOf bits < infinity then some (.float bits) else none

end Number

namespace Json

def asStr : Json → Option String
  | .string text => some text
  | _ => none

def asObject : Json → Option (List (String × Json))
  | .object map => some map
  | _ => none

def asU64 : Json → Option UInt64
  | .number n => n.asU64
  | _ => none

end Json

namespace Map

def get (map : List (String × Json)) (key : String) : Option Json := (map.find? fun field => field.1 == key).map Prod.snd

def insert (map : List (String × Json)) (key : String) (value : Json) : List (String × Json) :=
  match map with
  | [] => [(key,value)]
  | (other,held) :: rest => if other = key then (other,value) :: rest else (other,held) :: insert rest key value

end Map

/- One NaN of each type. -/
def nanDouble : UInt64 := .ofNat quietNan

def nanDecimal : Decimal128 := BitVec.ofNat 128 Decimal.nanBits

def oneNan (word : Decimal128) : Decimal128 := if Decimal.decode word = .nan then nanDecimal else word

/- What other crates read and write: base64, the hex of an ObjectId, RFC 3339 dates, the numerals of a double and the text of a
decimal. Each text written is read back. -/
structure Codecs where
  decode : String → Option Blob
  encode : Blob → String
  parseOid : String → Option (Vector UInt8 12)
  toHex : Vector UInt8 12 → String
  parseRfc3339 : String → Option Int64
  parseNumeral : String → Option UInt64
  decimalText : Decimal128 → String
  decoded : ∀ bytes, decode (encode bytes) = some bytes
  parsedOid : ∀ oid, parseOid (toHex oid) = some oid
  parsedDecimal : ∀ text word, Decimal.Parse.parse (asBytes text) = .ok word →
    Decimal.Parse.parse (asBytes (decimalText word)) = .ok (oneNan word)

inductive Wrapper where
  | oid
  | date
  | numberLong
  | numberInt
  | numberDouble
  | numberDecimal
  | binary
  | regularExpression
  | timestamp
  | minKey
  | maxKey

namespace Wrapper

def key : Wrapper → String
  | .oid => "$oid"
  | .date => "$date"
  | .numberLong => "$numberLong"
  | .numberInt => "$numberInt"
  | .numberDouble => "$numberDouble"
  | .numberDecimal => "$numberDecimal"
  | .binary => "$binary"
  | .regularExpression => "$regularExpression"
  | .timestamp => "$timestamp"
  | .minKey => "$minKey"
  | .maxKey => "$maxKey"

def named : String → Option Wrapper
  | "$oid" => some .oid
  | "$date" => some .date
  | "$numberLong" => some .numberLong
  | "$numberInt" => some .numberInt
  | "$numberDouble" => some .numberDouble
  | "$numberDecimal" => some .numberDecimal
  | "$binary" => some .binary
  | "$regularExpression" => some .regularExpression
  | "$timestamp" => some .timestamp
  | "$minKey" => some .minKey
  | "$maxKey" => some .maxKey
  | _ => none

end Wrapper

/- `invalid {key}: {value}`, with the parser's reason for a decimal, or a number that is not representable. -/
inductive Refused where
  | invalid (wrapper : Wrapper) (value : Json)
  | invalidDecimal (value : Json) (why : Decimal.Parse.ParseError)
  | notRepresentable (n : Number)

/-! Texts. -/

/- `parse` of a signed integer: a sign, at least one digit, no overflow. -/
def parseDigits (digits : List Char) : Option Nat :=
  if digits.isEmpty || !digits.all Char.isDigit then none
  else some (digits.foldl (fun n c => 10 * n + (c.toNat - '0'.toNat)) 0)

def parseSigned (bits : Nat) (text : String) : Option Int := do
  let value ← match text.toList with
    | '-' :: digits => (parseDigits digits).map fun n => -(n : Int)
    | '+' :: digits => (parseDigits digits).map Int.ofNat
    | digits => (parseDigits digits).map Int.ofNat
  if -2 ^ (bits - 1) ≤ value ∧ value < 2 ^ (bits - 1) then some value else none

def parseI64 (text : String) : Option Int64 := (parseSigned 64 text).map Int64.ofInt

def parseI32 (text : String) : Option Int32 := (parseSigned 32 text).map Int32.ofInt

def positiveInfinity : UInt64 := .ofNat infinity

def negativeInfinity : UInt64 := .ofNat (2 ^ 63 + infinity)

/- `parse::<f64>`: the spellings the writer uses, then any other text. -/
def parseF64 (codecs : Codecs) (text : String) : Option UInt64 :=
  if text = "NaN" then some nanDouble
  else if text = "Infinity" then some positiveInfinity
  else if text = "-Infinity" then some negativeInfinity
  else codecs.parseNumeral text

def hexValue (c : Char) : Option Nat :=
  if '0' ≤ c ∧ c ≤ '9' then some (c.toNat - '0'.toNat)
  else if 'a' ≤ c ∧ c ≤ 'f' then some (c.toNat - 'a'.toNat + 10)
  else if 'A' ≤ c ∧ c ≤ 'F' then some (c.toNat - 'A'.toNat + 10)
  else none

def parseHexByte (text : String) : Option UInt8 :=
  match text.toList with
  | [high,low] => do
      let high ← hexValue high
      let low ← hexValue low
      return .ofNat (16 * high + low)
  | _ => none

def hexDigit (n : Nat) : Char := if n < 10 then .ofNat ('0'.toNat + n) else .ofNat ('a'.toNat + (n - 10))

/- `{:02x}`. -/
def hexByte (b : UInt8) : String := String.ofList [hexDigit (b.toNat / 16),hexDigit (b.toNat % 16)]

/- `CString::try_from`. -/
def cstring (text : String) : Option String := if '\u0000' ∈ text.toList then none else some text

def sortChars (text : String) : String := String.ofList (text.toList.mergeSort fun a b => decide (a ≤ b))

/-! Reading. -/

def numberToBson (n : Number) : Except Refused Bson :=
  match n.asI64 with
  | some i => .ok (if -2 ^ 31 ≤ i.toInt ∧ i.toInt < 2 ^ 31 then .int32 i.toInt32 else .int64 i)
  | none => match n.asF64 with
      | some f => .ok (.double f)
      | none => .error (.notRepresentable n)

def orBad (wrapper : Wrapper) (value : Json) : Option Bson → Except Refused Bson
  | some bson => .ok bson
  | none => .error (.invalid wrapper value)

def readDate (codecs : Codecs) : Json → Option Int64
  | .number n => n.asI64
  | .string text => codecs.parseRfc3339 text
  | .object inner => (Map.get inner "$numberLong").bind Json.asStr |>.bind parseI64
  | _ => none

def readSubtype : Option Json → Option UInt8
  | none => some 0
  | some (.string hex) => parseHexByte hex
  | some _ => none

def readBinary (codecs : Codecs) (value : Json) : Option Bson := do
  let inner ← value.asObject
  let text ← (Map.get inner "base64").bind Json.asStr
  let bytes ← codecs.decode text
  let subtype ← readSubtype (Map.get inner "subType")
  return .binary subtype bytes

/- An object of exactly two keys. -/
def asPair (value : Json) : Option (List (String × Json)) := value.asObject.filter fun inner => inner.length == 2

def readRegex (value : Json) : Option Bson := do
  let inner ← asPair value
  let pattern ← (Map.get inner "pattern").bind Json.asStr
  let options ← (Map.get inner "options").bind Json.asStr
  let pattern ← cstring pattern
  let options ← cstring (sortChars options)
  return .regularExpression pattern options

def readPart (inner : List (String × Json)) (key : String) : Option UInt32 :=
  ((Map.get inner key).bind Json.asU64).bind fun n => if n.toNat < 2 ^ 32 then some n.toUInt32 else none

def readTimestamp (value : Json) : Option Bson := do
  let inner ← asPair value
  let time ← readPart inner "t"
  let increment ← readPart inner "i"
  return .timestamp time increment

def readDecimal (value : Json) : Except Refused Bson :=
  match value.asStr with
  | none => .error (.invalid .numberDecimal value)
  | some text => match Decimal.Parse.parse (asBytes text) with
      | .ok word => .ok (.decimal128 word)
      | .error why => .error (.invalidDecimal value why)

def readWrapper (codecs : Codecs) (wrapper : Wrapper) (value : Json) : Except Refused Bson :=
  match wrapper with
  | .oid => orBad wrapper value ((value.asStr.bind codecs.parseOid).map .objectId)
  | .date => orBad wrapper value ((readDate codecs value).map .dateTime)
  | .numberLong => orBad wrapper value ((value.asStr.bind parseI64).map .int64)
  | .numberInt => orBad wrapper value ((value.asStr.bind parseI32).map .int32)
  | .numberDouble => orBad wrapper value ((value.asStr.bind (parseF64 codecs)).map .double)
  | .numberDecimal => readDecimal value
  | .binary => orBad wrapper value (readBinary codecs value)
  | .regularExpression => orBad wrapper value (readRegex value)
  | .timestamp => orBad wrapper value (readTimestamp value)
  | .minKey => .ok .minKey
  | .maxKey => .ok .maxKey

def extendedJson (codecs : Codecs) (map : List (String × Json)) : Except Refused (Option Bson) :=
  match map with
  | [(key,value)] => match Wrapper.named key with
      | some wrapper => (readWrapper codecs wrapper value).map some
      | none => .ok none
  | _ => .ok none

mutual

def jsonToBson (codecs : Codecs) : Json → Except Refused Bson
  | .null => .ok .null
  | .bool b => .ok (.boolean b)
  | .string text => .ok (.string text)
  | .number n => numberToBson n
  | .array items => (itemsToBson codecs items).map .array
  | .object map => match extendedJson codecs map with
      | .error refused => .error refused
      | .ok (some bson) => .ok bson
      | .ok none => (fieldsToBson codecs map []).map .document

def itemsToBson (codecs : Codecs) : List Json → Except Refused (List Bson)
  | [] => .ok []
  | item :: rest => match jsonToBson codecs item with
      | .error refused => .error refused
      | .ok first => (itemsToBson codecs rest).map (first :: ·)

def fieldsToBson (codecs : Codecs) : List (String × Json) → Document → Except Refused Document
  | [], doc => .ok doc
  | (key,value) :: rest, doc => match jsonToBson codecs value with
      | .error refused => .error refused
      | .ok bson => fieldsToBson codecs rest (doc.insert key bson)

end

/-! Writing. -/

/- Every NaN is one value, whatever its sign bit. -/
def nonFiniteSpelling (bits : UInt64) : String :=
  if infinity < fieldOf bits then "NaN" else if signOf bits then "-Infinity" else "Infinity"

def wrap (wrapper : Wrapper) (value : Json) : Json := .object [(wrapper.key,value)]

def doubleToJson (bits : UInt64) : Json :=
  match Number.fromF64 bits with
  | some n => .number n
  | none => wrap .numberDouble (.string (nonFiniteSpelling bits))

mutual

def bsonToJson (codecs : Codecs) : Bson → Json
  | .null | .undefined => .null
  | .boolean b => .bool b
  | .string text | .symbol text => .string text
  | .int32 i => .number (.ofI64 i.toInt64)
  | .int64 i => .number (.ofI64 i)
  | .double bits => doubleToJson bits
  | .array items => .array (itemsToJson codecs items)
  | .document fields => .object (fieldsToJson codecs fields [])
  | .objectId oid => wrap .oid (.string (codecs.toHex oid))
  | .dateTime millis => wrap .date (.number (.ofI64 millis))
  | .binary subtype bytes =>
      wrap .binary (.object [("base64",.string (codecs.encode bytes)),("subType",.string (hexByte subtype))])
  | .regularExpression pattern options =>
      wrap .regularExpression (.object [("pattern",.string pattern),("options",.string options)])
  | .timestamp time increment =>
      wrap .timestamp (.object [("t",.number (.posInt time.toUInt64)),("i",.number (.posInt increment.toUInt64))])
  | .decimal128 word => wrap .numberDecimal (.string (codecs.decimalText word))
  | .minKey => wrap .minKey (.number (.posInt 1))
  | .maxKey => wrap .maxKey (.number (.posInt 1))
  | .javaScriptCode code => .object [("$code",.string code)]
  | .javaScriptCodeWithScope code scope => .object [("$code",.string code),("$scope",.object (fieldsToJson codecs scope []))]
  | .dbPointer => .null

def itemsToJson (codecs : Codecs) : List Bson → List Json
  | [] => []
  | item :: rest => bsonToJson codecs item :: itemsToJson codecs rest

/- `document_to_json`. -/
def fieldsToJson (codecs : Codecs) : List (String × Bson) → List (String × Json) → List (String × Json)
  | [], map => map
  | (key,value) :: rest, map => fieldsToJson codecs rest (Map.insert map key (bsonToJson codecs value))

end

end Kimmy.Api
