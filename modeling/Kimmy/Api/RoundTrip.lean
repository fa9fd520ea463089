import Kimmy.Api.Json

/-!
What the reader yields is read back from what the writer makes of it. A document the reader yields is never a wrapper, since an
object of one key that names one was read as one; the types it yields are those the writer has a form for. What changes is said
by `settled`.
-/
namespace Kimmy.Api
open Decimal.Arith (fieldOf signOf infinity quietNan)

mutual

/- A map holds each key once, at every depth. -/
def Json.Distinct : Json → Prop
  | .object map => (map.map Prod.fst).Nodup ∧ MapDistinct map
  | .array items => JsonsDistinct items
  | _ => True

def MapDistinct : List (String × Json) → Prop
  | [] => True
  | (_,value) :: rest => value.Distinct ∧ MapDistinct rest

def JsonsDistinct : List Json → Prop
  | [] => True
  | item :: rest => item.Distinct ∧ JsonsDistinct rest

end

/- A JSON value as a request holds it. -/
structure Body where
  json : Json
  distinct : json.Distinct

mutual

/- A value as the reader yields it. -/
def Yielded : Bson → Prop
  | .document fields => (fields.map Prod.fst).Nodup ∧ (∀ key value, fields = [(key,value)] → Wrapper.named key = none) ∧
      FieldsYielded fields
  | .array items => ItemsYielded items
  | .regularExpression pattern options => cstring pattern = some pattern ∧ cstring options = some options ∧ sortChars options = options
  | .decimal128 word => ∃ text, Decimal.Parse.parse (asBytes text) = .ok word
  | .undefined | .symbol _ | .dbPointer | .javaScriptCode _ | .javaScriptCodeWithScope _ _ => False
  | _ => True

def FieldsYielded : List (String × Bson) → Prop
  | [] => True
  | (_,value) :: rest => Yielded value ∧ FieldsYielded rest

def ItemsYielded : List Bson → Prop
  | [] => True
  | item :: rest => Yielded item ∧ ItemsYielded rest

end

def fitsI32 (i : Int64) : Bool := decide (-2 ^ 31 ≤ i.toInt ∧ i.toInt < 2 ^ 31)

mutual

/- What a round trip makes of a value: a 64-bit integer in the 32-bit range becomes one, and a NaN becomes the one NaN. -/
def settled : Bson → Bson
  | .int64 i => if fitsI32 i then .int32 i.toInt32 else .int64 i
  | .double bits => if infinity < fieldOf bits then .double nanDouble else .double bits
  | .decimal128 word => .decimal128 (oneNan word)
  | .document fields => .document (settledFields fields)
  | .array items => .array (settledItems items)
  | other => other

def settledFields : List (String × Bson) → List (String × Bson)
  | [] => []
  | (key,value) :: rest => (key,settled value) :: settledFields rest

def settledItems : List Bson → List Bson
  | [] => []
  | item :: rest => settled item :: settledItems rest

end

/-! Keys of wrappers. -/

theorem namedKey (wrapper : Wrapper) : Wrapper.named wrapper.key = some wrapper := by
  cases wrapper <;> rfl

/-! Maps. -/

theorem mapInsertNew {map : List (String × Json)} {key : String} (new : key ∉ map.map Prod.fst) (value : Json) :
    Map.insert map key value = map ++ [(key,value)] := by
  induction map with
  | nil => rfl
  | cons field rest ih =>
    obtain ⟨other,held⟩ := field
    have apart : key ≠ other := fun same => new (List.mem_cons.mpr (Or.inl same))
    rw [Map.insert, if_neg (Ne.symm apart), ih fun later => new (List.mem_cons_of_mem _ later)]
    rfl

/- The next key of a map is new to what was built so far. -/
theorem nextNew {α β : Type} {done : List (String × α)} {key : String} {value : β} {rest : List (String × β)}
    (once : (done.map Prod.fst ++ ((key,value) :: rest).map Prod.fst).Nodup) : key ∉ done.map Prod.fst := by
  intro inside
  exact (List.nodup_append.mp once).2.2 key inside key List.mem_cons_self rfl

theorem nextOnce {α β : Type} {done : List (String × α)} {key : String} {value : β} {rest : List (String × β)}
    (once : (done.map Prod.fst ++ ((key,value) :: rest).map Prod.fst).Nodup) (made : α) :
    ((done ++ [(key,made)]).map Prod.fst ++ rest.map Prod.fst).Nodup := by
  simpa using once

section
variable {codecs : Codecs}

/-! Numbers. -/

theorem asI64OfI64 (i : Int64) : (Number.ofI64 i).asI64 = some i := by
  unfold Number.ofI64
  split_ifs with negative
  · rfl
  · have small : i.toUInt64.toNat < 2 ^ 63 := by
      rw [Int64.toNat_toUInt64_of_le (Int64.not_lt.mp negative)]
      exact Int64.toNatClampNeg_lt i
    simp only [Number.asI64, if_pos small, Int64.toInt64_toUInt64]

theorem numberOfI64 (i : Int64) :
    numberToBson (.ofI64 i) = .ok (if -2 ^ 31 ≤ i.toInt ∧ i.toInt < 2 ^ 31 then .int32 i.toInt32 else .int64 i) := by
  unfold numberToBson
  rw [asI64OfI64]

theorem hexDigitRead : ∀ n < 16, hexValue (hexDigit n) = some n := by decide

theorem hexByteRead (b : UInt8) : parseHexByte (hexByte b) = some b := by
  have bound := b.toNat_lt
  have halves : 16 * (b.toNat / 16) + b.toNat % 16 = b.toNat := by omega
  simp only [parseHexByte, hexByte, String.toList_ofList, hexDigitRead _ (show b.toNat / 16 < 16 by omega),
    hexDigitRead _ (show b.toNat % 16 < 16 by omega), Option.bind_eq_bind, Option.bind_some, halves, UInt8.ofNat_toNat]
  rfl

/-! Wrappers. -/

theorem readWrapped (wrapper : Wrapper) (value : Json) : jsonToBson codecs (wrap wrapper value) = readWrapper codecs wrapper value := by
  unfold wrap
  rw [jsonToBson]
  simp only [extendedJson, namedKey]
  cases readWrapper codecs wrapper value <;> rfl

theorem orBadOk {wrapper : Wrapper} {value : Json} {read : Option Bson} {b : Bson} (is : orBad wrapper value read = .ok b) :
    read = some b := by
  cases read with
  | none => cases is
  | some made =>
    cases is
    rfl

theorem cstringKeeps {text kept : String} (is : cstring text = some kept) : kept = text ∧ cstring kept = some kept := by
  have made := is
  unfold cstring at is
  split_ifs at is with nul
  cases is
  exact ⟨rfl,made⟩

theorem sortCharsTwice (text : String) : sortChars (sortChars text) = sortChars text := by
  unfold sortChars
  rw [String.toList_ofList]
  refine congrArg String.ofList (List.mergeSort_of_pairwise ?_)
  refine List.pairwise_mergeSort (fun a b c below above => ?_) (fun a b => ?_) _
  · simp only [decide_eq_true_eq] at *
    exact Char.le_trans below above
  · simpa using Char.le_total a b

theorem regexYielded {value : Json} {b : Bson} (is : readRegex value = some b) : Yielded b := by
  unfold readRegex at is
  obtain ⟨inner,_,is⟩ := Option.bind_eq_some_iff.mp is
  obtain ⟨written,_,is⟩ := Option.bind_eq_some_iff.mp is
  obtain ⟨options,_,is⟩ := Option.bind_eq_some_iff.mp is
  obtain ⟨pattern,read,is⟩ := Option.bind_eq_some_iff.mp is
  obtain ⟨kept,sorted,is⟩ := Option.bind_eq_some_iff.mp is
  cases is
  obtain ⟨same,fixed⟩ := cstringKeeps sorted
  have sortedTwice : sortChars kept = kept := by
    rw [same]
    exact sortCharsTwice options
  exact ⟨(cstringKeeps read).2,fixed,sortedTwice⟩

theorem decimalYielded {value : Json} {b : Bson} (is : readDecimal value = .ok b) : Yielded b := by
  unfold readDecimal at is
  cases text : value.asStr with
  | none =>
    rw [text] at is
    cases is
  | some text' =>
    rw [text] at is
    simp only at is
    cases read : Decimal.Parse.parse (asBytes text') with
    | error why =>
      rw [read] at is
      cases is
    | ok word =>
      rw [read] at is
      cases is
      exact ⟨text',read⟩

theorem wrapperYielded {wrapper : Wrapper} {value : Json} {b : Bson} (is : readWrapper codecs wrapper value = .ok b) : Yielded b := by
  cases wrapper with
  | numberDecimal => exact decimalYielded is
  | regularExpression => exact regexYielded (orBadOk is)
  | minKey | maxKey =>
    cases is
    trivial
  | binary =>
    have read := orBadOk is
    simp only [readBinary, Option.bind_eq_bind, Option.bind_eq_some_iff, Option.pure_def, Option.some.injEq] at read
    obtain ⟨inner,_,text,_,bytes,_,subtype,_,rfl⟩ := read
    trivial
  | timestamp =>
    have read := orBadOk is
    simp only [readTimestamp, Option.bind_eq_bind, Option.bind_eq_some_iff, Option.pure_def, Option.some.injEq] at read
    obtain ⟨inner,_,time,_,increment,_,rfl⟩ := read
    trivial
  | oid | date | numberLong | numberInt | numberDouble =>
    obtain ⟨made,_,rfl⟩ := Option.map_eq_some_iff.mp (orBadOk is)
    trivial

theorem numberYielded {n : Number} {b : Bson} (is : numberToBson n = .ok b) : Yielded b := by
  unfold numberToBson at is
  cases integer : n.asI64 with
  | some i =>
    rw [integer] at is
    cases is
    split_ifs <;> trivial
  | none =>
    rw [integer] at is
    simp only at is
    cases double : n.asF64 with
    | some f =>
      rw [double] at is
      cases is
      trivial
    | none =>
      rw [double] at is
      cases is

/-! What the reader yields. -/

theorem wrappedYielded {map : List (String × Json)} {b : Bson} (is : extendedJson codecs map = .ok (some b)) : Yielded b := by
  unfold extendedJson at is
  split at is
  · split at is
    · rename_i wrapper _
      cases read : readWrapper codecs wrapper _ with
      | error refused =>
        rw [read] at is
        cases is
      | ok made =>
        rw [read] at is
        cases is
        exact wrapperYielded read
    · cases is
  · cases is

/- An object of one key that was not read as a wrapper has no wrapper's key. -/
theorem unwrapped {map : List (String × Json)} {key : String} (is : extendedJson codecs map = .ok none)
    (single : map.map Prod.fst = [key]) : Wrapper.named key = none := by
  obtain ⟨⟨name,value⟩,rfl,rfl⟩ : ∃ field, map = [field] ∧ field.1 = key := by
    cases map with
    | nil => cases single
    | cons field rest =>
      cases rest with
      | nil => exact ⟨field,rfl,List.head_eq_of_cons_eq single⟩
      | cons next later => cases single
  unfold extendedJson at is
  cases named : Wrapper.named name with
  | none => rfl
  | some wrapper =>
    simp only [named] at is
    cases read : readWrapper codecs wrapper value with
    | error refused =>
      rw [read] at is
      cases is
    | ok made =>
      rw [read] at is
      cases is

theorem exceptMapOk {ε α β : Type} {f : α → β} {x : Except ε α} {y : β} (is : x.map f = .ok y) : ∃ a, x = .ok a ∧ f a = y := by
  cases x with
  | error e => cases is
  | ok a =>
    cases is
    exact ⟨a,rfl,rfl⟩

theorem fieldsYieldedAppend {first second : List (String × Bson)} (one : FieldsYielded first) (two : FieldsYielded second) :
    FieldsYielded (first ++ second) := by
  induction first with
  | nil => exact two
  | cons field rest ih => exact ⟨one.1,ih one.2⟩

mutual

theorem readYielded : (j : Json) → j.Distinct → (b : Bson) → jsonToBson codecs j = .ok b → Yielded b
  | .null, _, b, is | .bool _, _, b, is | .string _, _, b, is => by
      rw [jsonToBson] at is
      cases is
      trivial
  | .number n, _, b, is => by
      rw [jsonToBson] at is
      exact numberYielded is
  | .array items, distinct, b, is => by
      rw [jsonToBson] at is
      obtain ⟨read,all,rfl⟩ := exceptMapOk is
      exact readItemsYielded items distinct read all
  | .object map, distinct, b, is => by
      rw [jsonToBson] at is
      cases wrapped : extendedJson codecs map with
      | error refused =>
        rw [wrapped] at is
        cases is
      | ok found =>
        rw [wrapped] at is
        cases found with
        | some made =>
          cases is
          exact wrappedYielded wrapped
        | none =>
          obtain ⟨doc,read,rfl⟩ := exceptMapOk is
          obtain ⟨fields,names⟩ := readFieldsYielded map distinct.2 [] doc read distinct.1 trivial
          rw [List.map_nil, List.nil_append] at names
          refine ⟨by rw [names]; exact distinct.1,fun key value single => ?_,fields⟩
          rw [single] at names
          exact unwrapped wrapped names.symm

theorem readItemsYielded : (items : List Json) → JsonsDistinct items → (read : List Bson) → itemsToBson codecs items = .ok read →
    ItemsYielded read
  | [], _, read, is => by
      rw [itemsToBson] at is
      cases is
      trivial
  | item :: rest, distinct, read, is => by
      rw [itemsToBson] at is
      cases first : jsonToBson codecs item with
      | error refused =>
        rw [first] at is
        cases is
      | ok b =>
        rw [first] at is
        obtain ⟨later,all,rfl⟩ := exceptMapOk is
        exact ⟨readYielded item distinct.1 b first,readItemsYielded rest distinct.2 later all⟩

theorem readFieldsYielded : (map : List (String × Json)) → MapDistinct map → (doc out : Document) →
    fieldsToBson codecs map doc = .ok out → (doc.map Prod.fst ++ map.map Prod.fst).Nodup → FieldsYielded doc →
    FieldsYielded out ∧ out.map Prod.fst = doc.map Prod.fst ++ map.map Prod.fst
  | [], _, doc, out, is, _, yielded => by
      rw [fieldsToBson] at is
      cases is
      exact ⟨yielded,(List.append_nil _).symm⟩
  | (key,value) :: rest, distinct, doc, out, is, once, yielded => by
      rw [fieldsToBson] at is
      cases first : jsonToBson codecs value with
      | error refused =>
        rw [first] at is
        cases is
      | ok b =>
        rw [first] at is
        simp only at is
        rw [Document.insertNew (nextNew once)] at is
        have own := readYielded value distinct.1 b first
        obtain ⟨all,names⟩ := readFieldsYielded rest distinct.2 (doc ++ [(key,b)]) out is (nextOnce once b)
          (fieldsYieldedAppend yielded ⟨own,trivial⟩)
        refine ⟨all,names.trans ?_⟩
        simp

end

/-! Reading what is written. -/

attribute [local simp] bsonToJson settled

theorem fieldsToJsonNew (fields : List (String × Bson)) {map : List (String × Json)}
    (once : (map.map Prod.fst ++ fields.map Prod.fst).Nodup) :
    fieldsToJson codecs fields map = map ++ fields.map fun field => (field.1,bsonToJson codecs field.2) := by
  induction fields generalizing map with
  | nil => exact (List.append_nil map).symm
  | cons field rest ih =>
    obtain ⟨key,value⟩ := field
    rw [fieldsToJson, mapInsertNew (nextNew once), ih (nextOnce once _), List.map_cons, List.append_assoc]
    rfl

/- The bits of an infinity are its sign. -/
theorem infinityBits {bits : UInt64} (is : fieldOf bits = infinity) :
    bits = if signOf bits then negativeInfinity else positiveInfinity := by
  have split : bits.toNat = 2 ^ 63 * (bits.toNat / 2 ^ 63) + fieldOf bits := (Nat.div_add_mod _ _).symm
  have bound := bits.toNat_lt
  refine UInt64.toNat_inj.mp ?_
  by_cases sign : signOf bits = true
  · have one : bits.toNat / 2 ^ 63 = 1 := by simpa [signOf] using sign
    rw [if_pos sign, split, one, is]
    decide
  · have zero : bits.toNat / 2 ^ 63 = 0 := by
      have other : ¬bits.toNat / 2 ^ 63 = 1 := by simpa [signOf] using sign
      omega
    rw [if_neg sign, split, zero, is]
    decide

theorem doubleRead (bits : UInt64) : jsonToBson codecs (doubleToJson bits) = .ok (settled (.double bits)) := by
  unfold doubleToJson Number.fromF64
  simp only [settled]
  by_cases finite : fieldOf bits < infinity
  · rw [if_pos finite, if_neg (by omega)]
    simp only [jsonToBson]
    rfl
  · rw [if_neg finite]
    simp only
    rw [readWrapped]
    unfold nonFiniteSpelling
    by_cases above : infinity < fieldOf bits
    · rw [if_pos above, if_pos above]
      rfl
    · have is : fieldOf bits = infinity := by omega
      have own := infinityBits is
      rw [if_neg above, if_neg above]
      by_cases sign : signOf bits = true
      · rw [if_pos sign] at own ⊢
        rw [own]
        rfl
      · rw [if_neg sign] at own ⊢
        rw [own]
        rfl

theorem int32Read (i : Int32) : jsonToBson codecs (bsonToJson codecs (.int32 i)) = .ok (settled (.int32 i)) := by
  have range : -2 ^ 31 ≤ i.toInt64.toInt ∧ i.toInt64.toInt < 2 ^ 31 := by
    rw [Int32.toInt_toInt64]
    exact ⟨i.le_toInt,i.toInt_lt⟩
  simp only [bsonToJson, jsonToBson, settled, numberOfI64, if_pos range, Int32.toInt32_toInt64]

theorem int64Read (i : Int64) : jsonToBson codecs (bsonToJson codecs (.int64 i)) = .ok (settled (.int64 i)) := by
  simp only [bsonToJson, jsonToBson, settled, numberOfI64, fitsI32, decide_eq_true_eq]

theorem oidRead (oid : Vector UInt8 12) : jsonToBson codecs (bsonToJson codecs (.objectId oid)) = .ok (settled (.objectId oid)) := by
  simp only [bsonToJson, readWrapped, settled, readWrapper, Json.asStr, Option.bind_some, codecs.parsedOid, Option.map_some, orBad]

theorem dateRead (millis : Int64) : jsonToBson codecs (bsonToJson codecs (.dateTime millis)) = .ok (settled (.dateTime millis)) := by
  simp only [bsonToJson, readWrapped, settled, readWrapper, readDate, asI64OfI64, Option.map_some, orBad]

theorem binaryRead (subtype : UInt8) (bytes : Blob) :
    jsonToBson codecs (bsonToJson codecs (.binary subtype bytes)) = .ok (settled (.binary subtype bytes)) := by
  have read : readBinary codecs (.object [("base64",.string (codecs.encode bytes)),("subType",.string (hexByte subtype))]) =
      some (.binary subtype bytes) := by
    have base : Map.get [("base64",Json.string (codecs.encode bytes)),("subType",.string (hexByte subtype))] "base64" =
        some (.string (codecs.encode bytes)) := rfl
    have hex : Map.get [("base64",Json.string (codecs.encode bytes)),("subType",.string (hexByte subtype))] "subType" =
        some (.string (hexByte subtype)) := rfl
    simp only [readBinary, Json.asObject, Option.bind_eq_bind, Option.bind_some, base, hex, Json.asStr, codecs.decoded, readSubtype,
      hexByteRead, Option.pure_def]
  simp only [bsonToJson, readWrapped, settled, readWrapper, read, orBad]

theorem regexRead {pattern options : String} (yielded : Yielded (.regularExpression pattern options)) :
    jsonToBson codecs (bsonToJson codecs (.regularExpression pattern options)) = .ok (settled (.regularExpression pattern options)) := by
  obtain ⟨first,second,sorted⟩ := yielded
  have read : readRegex (.object [("pattern",.string pattern),("options",.string options)]) = some (.regularExpression pattern options) := by
    have pair : asPair (.object [("pattern",.string pattern),("options",.string options)]) =
        some [("pattern",.string pattern),("options",.string options)] := rfl
    have text : Map.get [("pattern",Json.string pattern),("options",.string options)] "pattern" = some (.string pattern) := rfl
    have flags : Map.get [("pattern",Json.string pattern),("options",.string options)] "options" = some (.string options) := rfl
    simp only [readRegex, pair, Option.bind_eq_bind, Option.bind_some, text, flags, Json.asStr, sorted, first, second, Option.pure_def]
  simp only [bsonToJson, readWrapped, settled, readWrapper, read, orBad]

theorem partRead {inner : List (String × Json)} {key : String} (n : UInt32) (is : Map.get inner key = some (.number (.posInt n.toUInt64))) :
    readPart inner key = some n := by
  have small : n.toUInt64.toNat < 2 ^ 32 := by
    rw [UInt32.toNat_toUInt64]
    exact n.toNat_lt
  simp only [readPart, is, Option.bind_some, Json.asU64, Number.asU64, if_pos small, UInt32.toUInt32_toUInt64]

theorem timestampRead (time increment : UInt32) :
    jsonToBson codecs (bsonToJson codecs (.timestamp time increment)) = .ok (settled (.timestamp time increment)) := by
  have pair : asPair (.object [("t",.number (.posInt time.toUInt64)),("i",.number (.posInt increment.toUInt64))]) =
      some [("t",.number (.posInt time.toUInt64)),("i",.number (.posInt increment.toUInt64))] := rfl
  have first : readPart [("t",.number (.posInt time.toUInt64)),("i",.number (.posInt increment.toUInt64))] "t" = some time :=
    partRead time rfl
  have second : readPart [("t",.number (.posInt time.toUInt64)),("i",.number (.posInt increment.toUInt64))] "i" = some increment :=
    partRead increment rfl
  simp only [bsonToJson, readWrapped, settled, readWrapper, readTimestamp, pair, Option.bind_eq_bind, Option.bind_some,
    first, second, Option.pure_def, orBad]

theorem decimalRead {word : Decimal128} (yielded : Yielded (.decimal128 word)) :
    jsonToBson codecs (bsonToJson codecs (.decimal128 word)) = .ok (settled (.decimal128 word)) := by
  obtain ⟨text,read⟩ := yielded
  simp only [bsonToJson, readWrapped, settled, readWrapper, readDecimal, Json.asStr, codecs.parsedDecimal text word read]

mutual

theorem writtenRead : (b : Bson) → Yielded b → jsonToBson codecs (bsonToJson codecs b) = .ok (settled b)
  | .document fields, yielded => by
      obtain ⟨once,single,each⟩ := yielded
      have written : fieldsToJson codecs fields [] = fields.map fun field => (field.1,bsonToJson codecs field.2) := by
        rw [fieldsToJsonNew fields (by simpa using once), List.nil_append]
      have plain : extendedJson codecs (fields.map fun field => (field.1,bsonToJson codecs field.2)) = .ok none := by
        match fields, single with
        | [], _ => rfl
        | [(key,value)], single =>
          simp only [List.map_cons, List.map_nil, extendedJson, single key value rfl]
        | _ :: _ :: _, _ => rfl
      have all := writtenFields fields each [] (by simpa using once)
      simp only [bsonToJson, written, jsonToBson, plain, all, settled, List.nil_append]
      rfl
  | .array items, yielded => by
      have all := writtenItems items yielded
      simp only [bsonToJson, jsonToBson, all, settled]
      rfl
  | .regularExpression _ _, yielded => regexRead yielded
  | .decimal128 _, yielded => decimalRead yielded
  | .double bits, _ => doubleRead bits
  | .int32 i, _ => int32Read i
  | .int64 i, _ => int64Read i
  | .objectId oid, _ => oidRead oid
  | .dateTime millis, _ => dateRead millis
  | .binary subtype bytes, _ => binaryRead subtype bytes
  | .timestamp time increment, _ => timestampRead time increment
  | .null, _ | .boolean _, _ | .string _, _ => by simp only [bsonToJson, jsonToBson, settled]
  | .minKey, _ | .maxKey, _ => by simp only [bsonToJson, readWrapped, readWrapper, settled]
  | .undefined, yielded | .symbol _, yielded | .dbPointer, yielded | .javaScriptCode _, yielded
  | .javaScriptCodeWithScope _ _, yielded => False.elim yielded

theorem writtenFields : (fields : List (String × Bson)) → FieldsYielded fields → (doc : Document) →
    (doc.map Prod.fst ++ fields.map Prod.fst).Nodup →
    fieldsToBson codecs (fields.map fun field => (field.1,bsonToJson codecs field.2)) doc = .ok (doc ++ settledFields fields)
  | [], _, doc, _ => by
      rw [List.map_nil, fieldsToBson, settledFields, List.append_nil]
  | (key,value) :: rest, yielded, doc, once => by
      rw [List.map_cons, fieldsToBson, writtenRead value yielded.1]
      simp only
      rw [Document.insertNew (nextNew once), writtenFields rest yielded.2 _ (nextOnce once _), List.append_assoc]
      rfl

theorem writtenItems : (items : List Bson) → ItemsYielded items → itemsToBson codecs (itemsToJson codecs items) = .ok (settledItems items)
  | [], _ => rfl
  | item :: rest, yielded => by
      rw [itemsToJson, itemsToBson, writtenRead item yielded.1, writtenItems rest yielded.2]
      rfl

end

end

/-! A further round. -/

theorem oneNanTwice (word : Decimal128) : oneNan (oneNan word) = oneNan word := by
  have one : Decimal.decode nanDecimal = .nan := by decide
  unfold oneNan
  by_cases nan : Decimal.decode word = .nan
  · rw [if_pos nan, if_pos one]
  · rw [if_neg nan, if_neg nan]

theorem settledNames (fields : List (String × Bson)) : (settledFields fields).map Prod.fst = fields.map Prod.fst := by
  induction fields with
  | nil => rfl
  | cons field rest ih =>
    rw [settledFields, List.map_cons, List.map_cons, ih]

mutual

theorem settledYielded (codecs : Codecs) : (b : Bson) → Yielded b → Yielded (settled b)
  | .document fields, yielded => by
      obtain ⟨once,single,each⟩ := yielded
      simp only [settled]
      refine ⟨by rw [settledNames]; exact once,fun key value is => ?_,settledFieldsYielded codecs fields each⟩
      match fields, single, is with
      | [(name,held)], single, is =>
        obtain ⟨same,_⟩ : name = key ∧ settled held = value := by simpa [settledFields] using is
        rw [← same]
        exact single name held rfl
  | .array items, yielded => by
      simp only [settled]
      exact settledItemsYielded codecs items yielded
  | .int64 i, _ => by
      simp only [settled]
      split_ifs <;> trivial
  | .double bits, _ => by
      simp only [settled]
      split_ifs <;> trivial
  | .decimal128 word, yielded => by
      obtain ⟨text,read⟩ := yielded
      simp only [settled]
      exact ⟨codecs.decimalText word,codecs.parsedDecimal text word read⟩
  | .string _, yielded | .binary _ _, yielded | .undefined, yielded | .objectId _, yielded | .boolean _, yielded
  | .dateTime _, yielded | .null, yielded | .regularExpression _ _, yielded | .javaScriptCode _, yielded
  | .javaScriptCodeWithScope _ _, yielded | .int32 _, yielded | .timestamp _ _, yielded | .minKey, yielded
  | .maxKey, yielded | .symbol _, yielded | .dbPointer, yielded => by
      simp only [settled]
      exact yielded

theorem settledFieldsYielded (codecs : Codecs) : (fields : List (String × Bson)) → FieldsYielded fields →
    FieldsYielded (settledFields fields)
  | [], _ => trivial
  | (_,value) :: rest, yielded => ⟨settledYielded codecs value yielded.1,settledFieldsYielded codecs rest yielded.2⟩

theorem settledItemsYielded (codecs : Codecs) : (items : List Bson) → ItemsYielded items → ItemsYielded (settledItems items)
  | [], _ => trivial
  | item :: rest, yielded => ⟨settledYielded codecs item yielded.1,settledItemsYielded codecs rest yielded.2⟩

end

mutual

theorem settledTwice : (b : Bson) → settled (settled b) = settled b
  | .document fields => by simp only [settled, settledFieldsTwice fields]
  | .array items => by simp only [settled, settledItemsTwice items]
  | .int64 i => by
      by_cases small : fitsI32 i = true
      · simp only [settled, if_pos small]
      · simp only [settled, if_neg small]
  | .double bits => by
      have one : infinity < fieldOf nanDouble := by decide
      by_cases nan : infinity < fieldOf bits
      · simp only [settled, if_pos nan, if_pos one]
      · simp only [settled, if_neg nan]
  | .decimal128 word => by simp only [settled, oneNanTwice]
  | .string _ | .binary _ _ | .undefined | .objectId _ | .boolean _ | .dateTime _ | .null | .regularExpression _ _
  | .javaScriptCode _ | .javaScriptCodeWithScope _ _ | .int32 _ | .timestamp _ _ | .minKey | .maxKey | .symbol _
  | .dbPointer => by simp only [settled]

theorem settledFieldsTwice : (fields : List (String × Bson)) → settledFields (settledFields fields) = settledFields fields
  | [] => rfl
  | (key,value) :: rest => by rw [settledFields, settledFields, settledTwice value, settledFieldsTwice rest]

theorem settledItemsTwice : (items : List Bson) → settledItems (settledItems items) = settledItems items
  | [] => rfl
  | item :: rest => by rw [settledItems, settledItems, settledTwice item, settledItemsTwice rest]

end

theorem readBack (codecs : Codecs) (body : Body) {b : Bson} (read : jsonToBson codecs body.json = .ok b) :
    jsonToBson codecs (bsonToJson codecs b) = .ok (settled b) ∧
    jsonToBson codecs (bsonToJson codecs (settled b)) = .ok (settled b) := by
  have yielded := readYielded body.json body.distinct b read
  have further := @writtenRead codecs (settled b) (settledYielded codecs b yielded)
  rw [settledTwice] at further
  exact ⟨writtenRead b yielded,further⟩

/- Codecs that read what they write: a byte is written as the character of its number. -/
def byteText (bytes : ByteOrder.Bytes) : String := String.ofList (bytes.map fun b => Char.ofNat b.toNat)

def textBytes (text : String) : ByteOrder.Bytes := text.toList.map fun c => UInt8.ofNat c.toNat

theorem textBytesBack (bytes : ByteOrder.Bytes) : textBytes (byteText bytes) = bytes := by
  unfold textBytes byteText
  rw [String.toList_ofList, List.map_map]
  refine (List.map_congr_left fun b _ => ?_).trans (List.map_id bytes)
  have bound := b.toNat_lt
  have valid : b.toNat.isValidChar := Or.inl (by omega)
  have back : (Char.ofNat b.toNat).toNat = b.toNat := by
    rw [Char.ofNat, dif_pos valid]
    rfl
  simp only [Function.comp_apply, back, UInt8.ofNat_toNat, id]

theorem readableNan (text : String) (word : Decimal128) (read : Decimal.Parse.parse (asBytes text) = .ok word) :
    ∃ written, Decimal.Parse.parse (asBytes written) = .ok (oneNan word) := by
  unfold oneNan
  split_ifs with nan
  · exact ⟨"NaN",by decide⟩
  · exact ⟨text,read⟩

open Classical in
noncomputable def byteCodecs : Codecs where
  decode := fun text => if fits : (textBytes text).length < 2 ^ 63 then some ⟨textBytes text,fits⟩ else none
  encode := fun bytes => byteText bytes.bytes
  parseOid := fun text => if size : (textBytes text).length = 12 then some ⟨(textBytes text).toArray,by simpa using size⟩ else none
  toHex := fun oid => byteText oid.toList
  parseRfc3339 := fun _ => none
  parseNumeral := fun _ => none
  decimalText := fun word =>
    if some : ∃ written, Decimal.Parse.parse (asBytes written) = .ok (oneNan word) then some.choose else ""
  decoded := by
    intro bytes
    simp only [textBytesBack, bytes.fits, dite_true]
  parsedOid := by
    intro oid
    simp only [textBytesBack, Vector.length_toList, dite_true]
    exact congrArg some (Vector.toArray_inj.mp (Array.toArray_toList))
  parsedDecimal := by
    intro text word read
    have some := readableNan text word read
    rw [dif_pos some]
    exact some.choose_spec

theorem readBackLong :
    jsonToBson byteCodecs (bsonToJson byteCodecs (.document [("a",.int64 5),("b",.array [.double 0x3FF0000000000000])])) =
        .ok (.document [("a",.int32 5),("b",.array [.double 0x3FF0000000000000])]) ∧
      jsonToBson byteCodecs (bsonToJson byteCodecs (.document [("a",.int32 5),("b",.array [.double 0x3FF0000000000000])])) =
        .ok (.document [("a",.int32 5),("b",.array [.double 0x3FF0000000000000])]) :=
  readBack byteCodecs
    ⟨.object [("a",.object [("$numberLong",.string "5")]),("b",.array [.number (.float 0x3FF0000000000000)])],by
      simp [Json.Distinct, MapDistinct, JsonsDistinct]⟩
    (by rfl)

end Kimmy.Api
