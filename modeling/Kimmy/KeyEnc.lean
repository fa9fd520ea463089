import Kimmy.CanonicalCmp
import Kimmy.KeyNumber

/-!
The order-preserving key encoder (`keyenc.rs`). A key is a type tag and a self-delimiting
body, so keys concatenate into compound keys and a descending component is its key with
every byte inverted. `none` stands for the one `expect` on the way, the exponent field of
a number; `encodeTotal` shows that it never fires.
-/
namespace Kimmy.KeyEnc
open ByteOrder BigInt KeyNumber CanonicalCmp

def tagMinKey : UInt8 := 0x01
def leastKeyTag : UInt8 := tagMinKey
def tagNull : UInt8 := 0x10
def tagNumber : UInt8 := 0x20
def tagString : UInt8 := 0x30
def tagDocument : UInt8 := 0x40
def tagArray : UInt8 := 0x50
def tagBinary : UInt8 := 0x60
def tagObjectId : UInt8 := 0x70
def tagBool : UInt8 := 0x80
def tagDate : UInt8 := 0x90
def tagTimestamp : UInt8 := 0xA0
def tagRegex : UInt8 := 0xB0
def tagDbPointer : UInt8 := 0xC0
def tagJsCode : UInt8 := 0xD0
def tagJsCodeWithScope : UInt8 := 0xE0
def tagMaxKey : UInt8 := 0xF0

def numNan : UInt8 := 0x00
def numNegInf : UInt8 := 0x01
def numNegative : UInt8 := 0x02
def numZero : UInt8 := 0x03
def numPositive : UInt8 := 0x04
def numPosInf : UInt8 := 0x05

def escapeTerminator : Bytes := [0x00,0x00]
def exactEnd : Bytes := escapeTerminator
def truncatedEnd : Bytes := [0x00,0x01]
def elementPresent : UInt8 := 0x01
def elementEnd : UInt8 := 0x00

def encodeBytes (bytes : Bytes) : Bytes := escape bytes ++ escapeTerminator

/- The sign bit flipped, so that two's complement sorts as an unsigned number. -/
def encodeI64 (v : Int64) : Bytes := be 8 (v.toUInt64 ^^^ (1 : UInt64) <<< 63).toNat

/- `u16::try_from`. -/
def tryU16 (v : Int) : Option Nat := if 0 ≤ v ∧ v < 65536 then some v.toNat else none

def encodeBody (body : Body) : Option Bytes := do
  let biased ← tryU16 (body.exp + 32768)
  let window := (be 16 body.window).take (16 - trailingZeros 128 body.window / 8)
  return be 2 biased ++ (escape window ++ if body.inexact then truncatedEnd else exactEnd)

def encodeFinite (negative : Bool) (body : Body) : Option Bytes := do
  let bytes ← encodeBody body
  return if negative then numNegative :: invert bytes else numPositive :: bytes

def encodeNumeric : Numeric → Option Bytes
  | .nan => some [numNan]
  | .negInfinity => some [numNegInf]
  | .zero => some [numZero]
  | .posInfinity => some [numPosInf]
  | .finite negative exp mantissa => encodeFinite negative (KeyNumber.binary exp mantissa)

def encodeDecimal : Decimal → Option Bytes
  | .nan => some [numNan]
  | .negInfinity => some [numNegInf]
  | .zero => some [numZero]
  | .posInfinity => some [numPosInf]
  | .finite negative coefficient exponent =>
      encodeFinite negative (KeyNumber.decimal coefficient exponent)

mutual

def encode : Bson → Option Bytes
  | .minKey => some [tagMinKey]
  | .maxKey => some [tagMaxKey]
  | .null | .undefined => some [tagNull]
  | .double v => do
      let bytes ← encodeNumeric (Numeric.fromF64 v)
      return tagNumber :: bytes
  | .int32 v => do
      let bytes ← encodeNumeric (Numeric.fromI64 v.toInt)
      return tagNumber :: bytes
  | .int64 v => do
      let bytes ← encodeNumeric (Numeric.fromI64 v.toInt)
      return tagNumber :: bytes
  | .decimal128 d => do
      let bytes ← encodeDecimal (Decimal.decode d)
      return tagNumber :: bytes
  | .string s | .symbol s => some (tagString :: encodeBytes (asBytes s))
  | .document d => do
      let fields ← encodeFields d
      return tagDocument :: (fields ++ [elementEnd])
  | .array a => do
      let items ← encodeItems a
      return tagArray :: (items ++ [elementEnd])
  | .binary subtype b => some (tagBinary :: (be 8 (b.bytes.length % 2 ^ 64) ++ (subtype :: b.bytes)))
  | .objectId oid => some (tagObjectId :: oid.toList)
  | .boolean v => some [tagBool,if v then 1 else 0]
  | .dateTime dt => some (tagDate :: encodeI64 dt)
  | .timestamp time increment => some (tagTimestamp :: (be 4 time.toNat ++ be 4 increment.toNat))
  | .regularExpression pattern options =>
      some (tagRegex :: (encodeBytes (asBytes pattern) ++ encodeBytes (asBytes options)))
  | .dbPointer => some [tagDbPointer]
  | .javaScriptCode code => some (tagJsCode :: encodeBytes (asBytes code))
  | .javaScriptCodeWithScope code scope => do
      let fields ← encodeFields scope
      return tagJsCodeWithScope :: (encodeBytes (asBytes code) ++ tagDocument :: (fields ++ [elementEnd]))

def encodeFields : List (String × Bson) → Option Bytes
  | [] => some []
  | (key,val) :: rest => do
      let value ← encode val
      let fields ← encodeFields rest
      return elementPresent :: (encodeBytes (asBytes key) ++ (value ++ fields))

def encodeItems : List Bson → Option Bytes
  | [] => some []
  | element :: rest => do
      let value ← encode element
      let items ← encodeItems rest
      return elementPresent :: (value ++ items)

end

def encodeCompound : List Bson → Option Bytes
  | [] => some []
  | value :: rest => do
      let bytes ← encode value
      let more ← encodeCompound rest
      return bytes ++ more

/- A descending component has every byte of its encoding inverted. -/
def encodeCompoundOrdered : List (Bson × Bool) → Option Bytes
  | [] => some []
  | (value,descending) :: rest => do
      let bytes ← encode value
      let more ← encodeCompoundOrdered rest
      return (if descending then invert bytes else bytes) ++ more

/-! The parts of a key, as codes. -/

theorem codesEncodeBytes (x y : Bytes) : Codes (compare x y) (encodeBytes x) (encodeBytes y) := by
  have ended := codesEscaped x y (e := 0) (f := 0) (by decide) (by decide)
  simpa [encodeBytes, escapeTerminator] using ended

theorem codesSame {x y : Bytes} (length : x.length = y.length) : Codes (compare x y) x y := by
  induction x generalizing y with
  | nil =>
    obtain rfl := List.eq_nil_of_length_eq_zero length.symm
    exact rfl
  | cons c x ih =>
    cases y with
    | nil => simp at length
    | cons d y =>
      rw [List.compare_cons_cons]
      exact codesAppend (codesByte c d) (ih (by simpa using length))

theorem compareU64 (a b : UInt64) : compare a b = compare a.toNat b.toNat := by
  simp only [compare, compareOfLessAndEq, UInt64.lt_iff_toNat_lt, UInt64.toNat_inj]

theorem compareU32 (a b : UInt32) : compare a b = compare a.toNat b.toNat := by
  simp only [compare, compareOfLessAndEq, UInt32.lt_iff_toNat_lt, UInt32.toNat_inj]

/- Flipping the sign bit adds `2^63` to the signed value. -/
theorem flipSign (v : Int64) : ((v.toUInt64 ^^^ (1 : UInt64) <<< 63).toNat : Int) = v.toInt + 2 ^ 63 := by
  have range := v.toUInt64.toNat_lt
  have signed : v.toInt = if 2 * v.toUInt64.toNat < 2 ^ 64 then (v.toUInt64.toNat : Int)
      else v.toUInt64.toNat - 2 ^ 64 := BitVec.toInt_eq_toNat_cond _
  rw [UInt64.toNat_xor, show ((1 : UInt64) <<< 63).toNat = 2 ^ 63 by decide, signed]
  generalize v.toUInt64.toNat = n at *
  have high : (n ^^^ 2 ^ 63) / 2 ^ 63 = n / 2 ^ 63 ^^^ 1 := Nat.xor_div_two_pow
  have low : (n ^^^ 2 ^ 63) % 2 ^ 63 = n % 2 ^ 63 := by
    rw [Nat.xor_mod_two_pow]; simp
  have parts := Nat.div_add_mod (n ^^^ 2 ^ 63) (2 ^ 63)
  rw [high, low] at parts
  obtain positive | negative : n / 2 ^ 63 = 0 ∨ n / 2 ^ 63 = 1 := by omega
  · rw [positive, show (0 ^^^ 1 : Nat) = 1 from rfl] at parts
    rw [if_pos (by omega)]
    omega
  · rw [negative, show (1 ^^^ 1 : Nat) = 0 from rfl] at parts
    rw [if_neg (by omega)]
    omega

theorem compareShift {a b : Nat} {x y k : Int} (ha : (a : Int) = x + k) (hb : (b : Int) = y + k) :
    compare a b = compare x y := by
  rcases lt_trichotomy x y with h | h | h
  · rw [compare_lt_iff_lt.mpr h, compare_lt_iff_lt]; omega
  · rw [compare_eq_iff_eq.mpr h, compare_eq_iff_eq]; omega
  · rw [compare_gt_iff_gt.mpr h, compare_gt_iff_gt]; omega

theorem codesI64 (x y : Int64) : Codes (compare x.toInt y.toInt) (encodeI64 x) (encodeI64 y) := by
  rw [← compareShift (flipSign x) (flipSign y)]
  exact codesBe (UInt64.toNat_lt _) (UInt64.toNat_lt _)

/-! Numbers: the class is the subtag, and two bodies of one sign sort as their magnitudes. -/

theorem windowStripped {w : Nat} (low : 2 ^ 127 ≤ w) (high : w < 2 ^ 128) :
    let kept := 16 - trailingZeros 128 w / 8
    be 16 w = (be 16 w).take kept ++ List.replicate (16 - kept) 0 ∧ Stripped ((be 16 w).take kept) := by
  have pos : 0 < w := lt_of_lt_of_le (by decide) low
  have zeros : trailingZeros 128 w ≤ 127 := by
    by_contra many
    have divides := (dvdTrailingZeros (k := 128) pos high).mpr (by omega)
    exact absurd (Nat.le_of_dvd pos divides) (by omega)
  obtain ⟨k,hk⟩ : ∃ k, trailingZeros 128 w / 8 = k := ⟨_,rfl⟩
  have whole : 256 ^ k ∣ w := by
    rw [show 256 = 2 ^ 8 by rfl, ← pow_mul, dvdTrailingZeros pos high]
    omega
  have last : ¬ 256 ^ (k + 1) ∣ w := by
    rw [show 256 = 2 ^ 8 by rfl, ← pow_mul, dvdTrailingZeros pos high]
    omega
  obtain ⟨v,hv⟩ := whole
  have bytes : be 16 w = be (16 - k) v ++ List.replicate k 0 := by
    rw [hv, mul_comm, ← beShift, Nat.sub_add_cancel (by omega)]
  have taken : (be 16 w).take (16 - k) = be (16 - k) v := by
    rw [bytes, List.take_left' (beLength _ _)]
  dsimp only
  rw [hk, taken, bytes, show 16 - (16 - k) = k by omega]
  refine ⟨rfl,?_⟩
  obtain ⟨n,hn⟩ : ∃ n, 16 - k = n + 1 := ⟨15 - k,by omega⟩
  rw [hn, beSnoc]
  intro zero
  rw [List.getLast?_concat, Option.some.injEq, ← UInt8.toNat_inj, UInt8.toNat_ofNat'] at zero
  exact last ⟨v / 256,by rw [hv, pow_succ, mul_assoc]; congr 1; simp at zero; omega⟩

theorem codesWindow {w v : Nat} {e f : UInt8} (hw : 2 ^ 127 ≤ w ∧ w < 2 ^ 128) (hv : 2 ^ 127 ≤ v ∧ v < 2 ^ 128)
    (he : e < 0xFF) (hf : f < 0xFF) :
    Codes ((compare w v).then (compare e f))
      (escape ((be 16 w).take (16 - trailingZeros 128 w / 8)) ++ [0,e])
      (escape ((be 16 v).take (16 - trailingZeros 128 v / 8)) ++ [0,f]) := by
  obtain ⟨splitW,strippedW⟩ := windowStripped hw.1 hw.2
  obtain ⟨splitV,strippedV⟩ := windowStripped hv.1 hv.2
  have whole : compare (be 16 w) (be 16 v) = compare w v := codesCompareWhole (codesBe hw.2 hv.2)
  have length (n k : Nat) : ((be 16 n).take (16 - k)).length + (16 - (16 - k)) = 16 := by
    rw [List.length_take, beLength]; omega
  rw [splitW, splitV, compareStripped strippedW strippedV (by rw [length, length])] at whole
  rw [← whole]
  exact codesEscaped _ _ he hf

theorem tryU16Spec {v : Int} (low : -32768 ≤ v) (high : v < 32768) :
    ∃ n : Nat, tryU16 (v + 32768) = some n ∧ (n : Int) = v + 32768 ∧ n < 256 ^ 2 := by
  refine ⟨(v + 32768).toNat,?_,by omega,by omega⟩
  rw [tryU16, if_pos (by omega)]

def markByte (inexact : Bool) : UInt8 := if inexact then 1 else 0

theorem encodeBodyEq {x : ℚ} {b : Body} (h : Keyed x b) :
    ∃ n : Nat, (n : Int) = b.exp + 32768 ∧ n < 256 ^ 2 ∧ encodeBody b = some (be 2 n ++
      (escape ((be 16 b.window).take (16 - trailingZeros 128 b.window / 8)) ++ [0,markByte b.inexact])) := by
  obtain ⟨n,read,value,small⟩ := tryU16Spec h.field.1 h.field.2
  refine ⟨n,value,small,?_⟩
  simp only [encodeBody, read]
  cases b.inexact <;> rfl

theorem codesBody {x y : ℚ} {a b : Body} {ka kb : Bytes} (hx : Keyed x a) (hy : Keyed y b)
    (ea : encodeBody a = some ka) (eb : encodeBody b = some kb) : Codes (compare x y) ka kb := by
  obtain ⟨n,hn,smallN,bytesA⟩ := encodeBodyEq hx
  obtain ⟨m,hm,smallM,bytesB⟩ := encodeBodyEq hy
  rw [bytesA, Option.some.injEq] at ea
  rw [bytesB, Option.some.injEq] at eb
  subst ea eb
  have marks : compare (markByte a.inexact) (markByte b.inexact) = compare a.inexact b.inexact := by
    cases a.inexact <;> cases b.inexact <;> decide
  have below (inexact : Bool) : markByte inexact < 0xFF := by cases inexact <;> decide
  rw [← bodyCmp hx hy, Body.cmp, ← compareShift hn hm, ← marks]
  exact codesAppend (codesBe smallN smallM)
    (codesWindow (hx.body.range (by decide)) (hy.body.range (by decide)) (below _) (below _))

def encodeNumber : Number → Option Bytes
  | .binary n => encodeNumeric n
  | .decimal d => encodeDecimal d

/- A finite number's key, whichever representation it came from. -/
theorem encodeFiniteEq {x : ℚ} {b : Body} (h : Keyed x b) (negative : Bool) : ∃ bytes,
    encodeBody b = some bytes ∧ encodeFinite negative b =
      some (if negative then numNegative :: invert bytes else numPositive :: bytes) := by
  obtain ⟨_,_,_,bytes⟩ := encodeBodyEq h
  exact ⟨_,bytes,by simp only [encodeFinite, bytes]; rfl⟩

theorem codesFinite {negative : Bool} {x y : ℚ} {a b : Body} {ka kb : Bytes} (hx : Keyed x a) (hy : Keyed y b)
    (ea : encodeFinite negative a = some ka) (eb : encodeFinite negative b = some kb) :
    Codes (compare (Exact.signed negative x) (Exact.signed negative y)) ka kb := by
  obtain ⟨bytesA,bodyA,keyA⟩ := encodeFiniteEq hx negative
  obtain ⟨bytesB,bodyB,keyB⟩ := encodeFiniteEq hy negative
  rw [keyA, Option.some.injEq] at ea
  rw [keyB, Option.some.injEq] at eb
  subst ea eb
  have order := codesBody hx hy bodyA bodyB
  rw [Exact.compareSigned]
  cases negative
  · exact codesCons numPositive order
  · exact codesCons numNegative (codesInvert order)

/- A finite number is a sign and a keyed magnitude; any other is its subtag alone. -/
theorem numberView {n : Number} (proper : n.Proper) :
    (∃ s v b, n.value = .finite (Exact.signed s v) ∧ Keyed v b ∧ encodeNumber n = encodeFinite s b ∧
      n.classRank = if s then 2 else 4) ∨
    ((∀ m : Number, n.classRank = m.classRank → m.value = n.value) ∧ n.value.cmp n.value = .eq ∧
      n.classRank ≠ 2 ∧ n.classRank ≠ 4 ∧ encodeNumber n = some [UInt8.ofNat n.classRank]) := by
  rcases Number.finiteOrSpecial n with ⟨s,c,e,rfl⟩ | ⟨s,exp,m,rfl⟩ | ⟨two,four,equal,fixed⟩
  · exact .inl ⟨s,_,_,rfl,decimalKeyed proper,rfl,by cases s <;> rfl⟩
  · exact .inl ⟨s,_,_,rfl,binaryKeyed proper,rfl,by cases s <;> rfl⟩
  · refine .inr ⟨fixed,equal,two,four,?_⟩
    rcases n with (_ | _ | ⟨_ | _,_,_⟩ | _ | _) | (_ | _ | _ | _ | ⟨_ | _,_,_⟩) <;>
      first | rfl | exact absurd rfl two | exact absurd rfl four

theorem numberTotal {n : Number} (proper : n.Proper) : ∃ k, encodeNumber n = some k := by
  rcases numberView proper with ⟨s,_,_,_,keyed,key,_⟩ | ⟨_,_,_,_,key⟩
  · obtain ⟨_,_,total⟩ := encodeFiniteEq keyed s
    exact ⟨_,key.trans total⟩
  · exact ⟨_,key⟩

theorem numberHead {n : Number} {k : Bytes} (proper : n.Proper) (key : encodeNumber n = some k) :
    ∃ rest, k = UInt8.ofNat n.classRank :: rest ∧ n.classRank < 256 := by
  rcases numberView proper with ⟨s,_,_,_,keyed,same,rank⟩ | ⟨_,_,_,_,same⟩
  · obtain ⟨_,_,total⟩ := encodeFiniteEq keyed s
    rw [same, total, Option.some.injEq] at key
    subst key
    rw [rank]
    cases s <;> exact ⟨_,rfl,by decide⟩
  · rw [same, Option.some.injEq] at key
    refine ⟨[],key.symm,?_⟩
    rcases n with (_ | _ | ⟨_ | _,_,_⟩ | _ | _) | (_ | _ | _ | _ | ⟨_ | _,_,_⟩) <;>
      simp [Number.classRank, Numeric.classRank]

theorem codesNumber {x y : Number} {kx ky : Bytes} (hx : x.Proper) (hy : y.Proper)
    (ex : encodeNumber x = some kx) (ey : encodeNumber y = some ky) : Codes (x.cmp y) kx ky := by
  by_cases same : x.classRank = y.classRank
  · rw [Number.cmpExact hx hy]
    rcases numberView hx with ⟨s,v,b,value,keyed,key,rank⟩ | ⟨fixed,equal,two,four,key⟩
    · rcases numberView hy with ⟨t,w,d,value',keyed',key',rank'⟩ | ⟨_,_,two',four',_⟩
      · have signs : s = t := by
          rw [rank, rank'] at same
          cases s <;> cases t <;> simp_all
        subst signs
        rw [value, value']
        exact codesFinite keyed keyed' (key ▸ ex) (key' ▸ ey)
      · rw [← same, rank] at two' four'
        cases s <;> contradiction
    · rcases numberView hy with ⟨t,_,_,_,_,_,rank'⟩ | ⟨_,_,_,_,key'⟩
      · rw [same, rank'] at two four
        cases t <;> contradiction
      · rw [fixed y same, equal]
        rw [key, Option.some.injEq] at ex
        rw [key', Option.some.injEq] at ey
        exact ex.symm.trans ((congrArg (fun r => [UInt8.ofNat r]) same).trans ey)
  · obtain ⟨restX,rfl,smallX⟩ := numberHead hx ex
    obtain ⟨restY,rfl,smallY⟩ := numberHead hy ey
    have ranks : x.cmp y = compare x.classRank y.classRank := by
      simp only [Number.cmp, ne_eq, same, not_false_eq_true, if_true]
    have bytes := codesByte (UInt8.ofNat x.classRank) (UInt8.ofNat y.classRank)
    rw [compareByte, UInt8.toNat_ofNat', UInt8.toNat_ofNat', Nat.mod_eq_of_lt smallX,
      Nat.mod_eq_of_lt smallY] at bytes
    rw [ranks]
    rcases lt_or_gt_of_ne same with less | greater
    · rw [compare_lt_iff_lt.mpr less] at bytes ⊢
      exact belowAppend bytes restX restY
    · rw [compare_gt_iff_gt.mpr greater] at bytes ⊢
      exact belowAppend bytes restY restX

/-! The whole encoder, by induction over the value. -/

theorem encodeOfNumber {b : Bson} {n : Number} (h : Number.of b = some n) :
    encode b = (encodeNumber n).map (tagNumber :: ·) := by
  cases b with
  | double v => cases h; simp only [encode, encodeNumber, Option.map_eq_map, bind_pure_comp]
  | int32 v => cases h; simp only [encode, encodeNumber, Option.map_eq_map, bind_pure_comp]
  | int64 v => cases h; simp only [encode, encodeNumber, Option.map_eq_map, bind_pure_comp]
  | decimal128 d => cases h; simp only [encode, encodeNumber, Option.map_eq_map, bind_pure_comp]
  | _ => cases h

theorem numberEncodes {b : Bson} {n : Number} (h : Number.of b = some n) :
    ∃ body, encode b = some (tagNumber :: body) := by
  obtain ⟨k,key⟩ := numberTotal ((Number.ofSpec b).2 n h)
  exact ⟨k,by rw [encodeOfNumber h, key]; rfl⟩

mutual

/- Every value has a key, and its leading byte is the type's rank. -/
theorem encodeTotal : ∀ a : Bson, ∃ body, encode a = some (typeRank a :: body)
  | .double v => numberEncodes (b := .double v) rfl
  | .int32 v => numberEncodes (b := .int32 v) rfl
  | .int64 v => numberEncodes (b := .int64 v) rfl
  | .decimal128 v => numberEncodes (b := .decimal128 v) rfl
  | .document d => by
      obtain ⟨k,fields⟩ := fieldsTotal d
      exact ⟨_,by rw [encode, fields]; rfl⟩
  | .array a => by
      obtain ⟨k,items⟩ := itemsTotal a
      exact ⟨_,by rw [encode, items]; rfl⟩
  | .javaScriptCodeWithScope code scope => by
      obtain ⟨k,fields⟩ := fieldsTotal scope
      exact ⟨_,by rw [encode, fields]; rfl⟩
  | .minKey | .maxKey | .null | .undefined | .string _ | .symbol _ | .binary _ _ | .objectId _
  | .boolean _ | .dateTime _ | .timestamp _ _ | .regularExpression _ _ | .dbPointer
  | .javaScriptCode _ => ⟨_,by rw [encode]; rfl⟩

theorem fieldsTotal : ∀ d : List (String × Bson), ∃ k, encodeFields d = some k
  | [] => ⟨_,by rw [encodeFields]⟩
  | (key,val) :: rest => by
      obtain ⟨_,value⟩ := encodeTotal val
      obtain ⟨_,fields⟩ := fieldsTotal rest
      exact ⟨_,by rw [encodeFields, value, fields]; rfl⟩

theorem itemsTotal : ∀ a : List Bson, ∃ k, encodeItems a = some k
  | [] => ⟨_,by rw [encodeItems]⟩
  | element :: rest => by
      obtain ⟨_,value⟩ := encodeTotal element
      obtain ⟨_,items⟩ := itemsTotal rest
      exact ⟨_,by rw [encodeItems, value, items]; rfl⟩

end

theorem encodeHead {a : Bson} {k : Bytes} (h : encode a = some k) : ∃ body, k = typeRank a :: body := by
  obtain ⟨body,key⟩ := encodeTotal a
  rw [key, Option.some.injEq] at h
  exact ⟨body,h.symm⟩

theorem compareBool (x y : Bool) :
    compare (if x then (1 : UInt8) else 0) (if y then 1 else 0) = compare x y := by
  cases x <;> cases y <;> decide

theorem compareSucc (n m : Nat) : compare (n + 1) (m + 1) = compare n m := by
  simp only [compare, compareOfLessAndEq, Nat.add_lt_add_iff_right, Nat.add_right_cancel_iff]

theorem codesRanks {a b : Bson} {ka kb : Bytes} (ha : encode a = some ka) (hb : encode b = some kb)
    (differ : typeRank a ≠ typeRank b) : Codes (compare (typeRank a) (typeRank b)) ka kb := by
  obtain ⟨restA,rfl⟩ := encodeHead ha
  obtain ⟨restB,rfl⟩ := encodeHead hb
  have heads := codesByte (typeRank a) (typeRank b)
  cases order : compare (typeRank a) (typeRank b) with
  | lt => rw [order] at heads; exact belowAppend heads restA restB
  | gt => rw [order] at heads; exact belowAppend heads restB restA
  | eq => rw [order] at heads; exact absurd (List.cons.inj heads).1 differ

theorem codesNumbers {a b : Bson} {x y : Number} {ka kb : Bytes} (readA : Number.of a = some x)
    (readB : Number.of b = some y) (ha : encode a = some ka) (hb : encode b = some kb) :
    Codes (Number.cmpNumbers a b) ka kb := by
  have properA := (Number.ofSpec a).2 x readA
  have properB := (Number.ofSpec b).2 y readB
  obtain ⟨bytesA,keyA⟩ := numberTotal properA
  obtain ⟨bytesB,keyB⟩ := numberTotal properB
  rw [encodeOfNumber readA, keyA, Option.map_some, Option.some.injEq] at ha
  rw [encodeOfNumber readB, keyB, Option.map_some, Option.some.injEq] at hb
  subst ha hb
  rw [Number.cmpNumbers, readA, readB]
  exact codesCons tagNumber (codesNumber properA properB keyA keyB)

/- A composite's elements, in the order and with the end mark of its key. -/
def FieldsCoded (d : List (String × Bson)) : Prop := ∀ d' k k', encodeFields d = some k →
  encodeFields d' = some k' → Codes (cmpDocuments d d') (k ++ [elementEnd]) (k' ++ [elementEnd])

def ItemsCoded (a : List Bson) : Prop := ∀ a' k k', encodeItems a = some k →
  encodeItems a' = some k' → Codes (cmpArrays a a') (k ++ [elementEnd]) (k' ++ [elementEnd])

/- What the induction knows about the values held inside `a`. -/
def Inside : Bson → Prop
  | .document d => FieldsCoded d
  | .array a => ItemsCoded a
  | .javaScriptCodeWithScope _ scope => FieldsCoded scope
  | _ => True

theorem codesTagged {tag : UInt8} {x y ka kb : Bytes} {o : Ordering} (keyA : some (tag :: x) = some ka)
    (keyB : some (tag :: y) = some kb) (order : Codes o x y) : Codes o ka kb := by
  cases keyA
  cases keyB
  exact codesCons tag order

theorem codesSameRank {a b : Bson} {ka kb : Bytes} (inside : Inside a) (ha : encode a = some ka)
    (hb : encode b = some kb) (same : typeRank a = typeRank b) : Codes (canonicalCmp a b) ka kb := by
  cases a with
  | double v =>
    cases b with
    | double w | int32 w | int64 w | decimal128 w => exact codesNumbers rfl rfl ha hb
    | _ => exact absurd same (of_decide_eq_false rfl)
  | int32 v =>
    cases b with
    | double w | int32 w | int64 w | decimal128 w => exact codesNumbers rfl rfl ha hb
    | _ => exact absurd same (of_decide_eq_false rfl)
  | int64 v =>
    cases b with
    | double w | int32 w | int64 w | decimal128 w => exact codesNumbers rfl rfl ha hb
    | _ => exact absurd same (of_decide_eq_false rfl)
  | decimal128 v =>
    cases b with
    | double w | int32 w | int64 w | decimal128 w => exact codesNumbers rfl rfl ha hb
    | _ => exact absurd same (of_decide_eq_false rfl)
  | string x =>
    cases b with
    | string y | symbol y => exact codesTagged ha hb (codesEncodeBytes _ _)
    | _ => exact absurd same (of_decide_eq_false rfl)
  | symbol x =>
    cases b with
    | string y | symbol y => exact codesTagged ha hb (codesEncodeBytes _ _)
    | _ => exact absurd same (of_decide_eq_false rfl)
  | document d =>
    cases b with
    | document d' =>
      obtain ⟨k,fields⟩ := fieldsTotal d
      obtain ⟨k',fields'⟩ := fieldsTotal d'
      rw [encode, fields] at ha
      rw [encode, fields'] at hb
      exact codesTagged ha hb (inside _ _ _ fields fields')
    | _ => exact absurd same (of_decide_eq_false rfl)
  | array x =>
    cases b with
    | array y =>
      obtain ⟨k,items⟩ := itemsTotal x
      obtain ⟨k',items'⟩ := itemsTotal y
      rw [encode, items] at ha
      rw [encode, items'] at hb
      exact codesTagged ha hb (inside _ _ _ items items')
    | _ => exact absurd same (of_decide_eq_false rfl)
  | binary s x =>
    cases b with
    | binary t y =>
      have length (z : Blob) : z.bytes.length % 2 ^ 64 = z.bytes.length :=
        Nat.mod_eq_of_lt (lt_trans z.fits (by decide))
      rw [encode, length] at ha hb
      refine codesTagged ha hb ?_
      show Codes ((compare x.bytes.length y.bytes.length).then
        ((compare s t).then (compare x.bytes y.bytes))) _ _
      -- the bytes have no terminator: they are reached only when the lengths agree
      by_cases long : x.bytes.length = y.bytes.length
      · exact codesAppend (codesBe (lt_trans x.fits (by decide)) (lt_trans y.fits (by decide)))
          (codesAppend (codesByte s t) (codesSame long))
      · have lengths : Codes _ (be 8 x.bytes.length) (be 8 y.bytes.length) :=
          codesBe (lt_trans x.fits (by decide)) (lt_trans y.fits (by decide))
        cases order : compare x.bytes.length y.bytes.length with
        | lt => rw [order] at lengths; exact belowAppend lengths _ _
        | gt => rw [order] at lengths; exact belowAppend lengths _ _
        | eq => exact absurd (compare_eq_iff_eq.mp order) long
    | _ => exact absurd same (of_decide_eq_false rfl)
  | objectId x =>
    cases b with
    | objectId y => exact codesTagged ha hb (codesSame (by simp))
    | _ => exact absurd same (of_decide_eq_false rfl)
  | boolean x =>
    cases b with
    | boolean y =>
      refine codesTagged ha hb ?_
      show Codes (compare x y) _ _
      rw [← compareBool]
      exact codesByte _ _
    | _ => exact absurd same (of_decide_eq_false rfl)
  | dateTime x =>
    cases b with
    | dateTime y => exact codesTagged ha hb (codesI64 x y)
    | _ => exact absurd same (of_decide_eq_false rfl)
  | timestamp t i =>
    cases b with
    | timestamp u j =>
      refine codesTagged ha hb ?_
      show Codes ((compare t u).then (compare i j)) _ _
      rw [compareU32, compareU32]
      exact codesAppend (codesBe t.toNat_lt u.toNat_lt) (codesBe i.toNat_lt j.toNat_lt)
    | _ => exact absurd same (of_decide_eq_false rfl)
  | regularExpression p o =>
    cases b with
    | regularExpression q r =>
      exact codesTagged ha hb (codesAppend (codesEncodeBytes _ _) (codesEncodeBytes _ _))
    | _ => exact absurd same (of_decide_eq_false rfl)
  | javaScriptCode x =>
    cases b with
    | javaScriptCode y => exact codesTagged ha hb (codesEncodeBytes _ _)
    | _ => exact absurd same (of_decide_eq_false rfl)
  | javaScriptCodeWithScope code scope =>
    cases b with
    | javaScriptCodeWithScope code' scope' =>
      obtain ⟨k,fields⟩ := fieldsTotal scope
      obtain ⟨k',fields'⟩ := fieldsTotal scope'
      rw [encode, fields] at ha
      rw [encode, fields'] at hb
      exact codesTagged ha hb
        (codesAppend (codesEncodeBytes _ _) (codesCons tagDocument (inside _ _ _ fields fields')))
    | _ => exact absurd same (of_decide_eq_false rfl)
  | null =>
    cases b with
    | null | undefined => exact codesTagged ha hb (show Codes .eq [] [] from rfl)
    | _ => exact absurd same (of_decide_eq_false rfl)
  | undefined =>
    cases b with
    | null | undefined => exact codesTagged ha hb (show Codes .eq [] [] from rfl)
    | _ => exact absurd same (of_decide_eq_false rfl)
  | dbPointer =>
    cases b with
    | dbPointer => exact codesTagged ha hb (show Codes .eq [] [] from rfl)
    | _ => exact absurd same (of_decide_eq_false rfl)
  | minKey =>
    cases b with
    | minKey => exact codesTagged ha hb (show Codes .eq [] [] from rfl)
    | _ => exact absurd same (of_decide_eq_false rfl)
  | maxKey =>
    cases b with
    | maxKey => exact codesTagged ha hb (show Codes .eq [] [] from rfl)
    | _ => exact absurd same (of_decide_eq_false rfl)

theorem codesOfInside {a b : Bson} {ka kb : Bytes} (inside : Inside a) (ha : encode a = some ka)
    (hb : encode b = some kb) : Codes (canonicalCmp a b) ka kb := by
  by_cases same : typeRank a = typeRank b
  · exact codesSameRank inside ha hb same
  · rw [cmpRanks same]
    exact codesRanks ha hb same

/- One element more on both sides, its own code in front. -/
theorem codesElement {o o' : Ordering} {x y kx ky : Bytes} {n m : Nat} (head : Codes o x y)
    (tail : Codes (o'.then (compare n m)) (kx ++ [elementEnd]) (ky ++ [elementEnd])) :
    Codes ((o.then o').then (compare (n + 1) (m + 1))) (elementPresent :: (x ++ kx) ++ [elementEnd])
      (elementPresent :: (y ++ ky) ++ [elementEnd]) := by
  rw [compareSucc, Ordering.then_assoc]
  simpa using codesCons elementPresent (codesAppend head tail)

mutual

theorem insideAll : ∀ a : Bson, Inside a
  | .document d => fieldsCoded d
  | .array a => itemsCoded a
  | .javaScriptCodeWithScope _ scope => fieldsCoded scope
  | .minKey | .maxKey | .null | .undefined | .string _ | .symbol _ | .binary _ _ | .objectId _
  | .boolean _ | .dateTime _ | .timestamp _ _ | .regularExpression _ _ | .dbPointer
  | .javaScriptCode _ | .double _ | .int32 _ | .int64 _ | .decimal128 _ => trivial

theorem fieldsCoded : ∀ d : List (String × Bson), FieldsCoded d
  | [] => by
      intro d' k k' h h'
      cases d' with
      | nil =>
        rw [encodeFields] at h h'
        cases h
        cases h'
        exact rfl
      | cons field rest =>
        obtain ⟨value,hv⟩ := encodeTotal field.2
        obtain ⟨fields,hf⟩ := fieldsTotal rest
        rw [encodeFields] at h
        rw [encodeFields, hv, hf] at h'
        cases h
        cases h'
        exact belowHead (by decide) _ _
  | (key,val) :: rest => by
      intro d' k k' h h'
      obtain ⟨value,hv⟩ := encodeTotal val
      obtain ⟨fields,hf⟩ := fieldsTotal rest
      rw [encodeFields, hv, hf] at h
      cases h
      cases d' with
      | nil =>
        rw [encodeFields] at h'
        cases h'
        exact belowHead (by decide) _ _
      | cons field rest' =>
        obtain ⟨value',hv'⟩ := encodeTotal field.2
        obtain ⟨fields',hf'⟩ := fieldsTotal rest'
        rw [encodeFields, hv', hf'] at h'
        cases h'
        have head := codesAppend (codesEncodeBytes (asBytes key) (asBytes field.1))
          (codesOfInside (insideAll val) hv hv')
        have whole := codesElement head (fieldsCoded rest _ _ _ hf hf')
        rw [Ordering.then_assoc (compare _ _), List.append_assoc, List.append_assoc] at whole
        exact whole

theorem itemsCoded : ∀ a : List Bson, ItemsCoded a
  | [] => by
      intro a' k k' h h'
      cases a' with
      | nil =>
        rw [encodeItems] at h h'
        cases h
        cases h'
        exact rfl
      | cons element rest =>
        obtain ⟨value,hv⟩ := encodeTotal element
        obtain ⟨items,hi⟩ := itemsTotal rest
        rw [encodeItems] at h
        rw [encodeItems, hv, hi] at h'
        cases h
        cases h'
        exact belowHead (by decide) _ _
  | element :: rest => by
      intro a' k k' h h'
      obtain ⟨value,hv⟩ := encodeTotal element
      obtain ⟨items,hi⟩ := itemsTotal rest
      rw [encodeItems, hv, hi] at h
      cases h
      cases a' with
      | nil =>
        rw [encodeItems] at h'
        cases h'
        exact belowHead (by decide) _ _
      | cons element' rest' =>
        obtain ⟨value',hv'⟩ := encodeTotal element'
        obtain ⟨items',hi'⟩ := itemsTotal rest'
        rw [encodeItems, hv', hi'] at h'
        cases h'
        exact codesElement (codesOfInside (insideAll element) hv hv') (itemsCoded rest _ _ _ hi hi')

end

end Kimmy.KeyEnc
