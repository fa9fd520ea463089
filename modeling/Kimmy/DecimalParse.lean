import Kimmy.DecimalFormat

/-!
Reading a `Decimal128` from text (`decimal/parse.rs`): the strict parser, exact or refused. A
text is its UTF-8 bytes; every character the syntax knows is one byte of its own.
-/
namespace Kimmy.Decimal.Parse
open ByteOrder

inductive ParseError where
  | syntaxError
  | inexact
  | overflow
  | underflow
  deriving DecidableEq, Repr

def precision : Nat := 34
def payloadDigits : Nat := precision - 1
def exponentCap : Int := 2 ^ 40

def isAsciiDigit (b : UInt8) : Bool := 0x30 ≤ b && b ≤ 0x39

def toAsciiLowercase (b : UInt8) : UInt8 := if 0x41 ≤ b ∧ b ≤ 0x5A then b + 0x20 else b

def eqIgnoreAsciiCase (x y : Bytes) : Bool := x.map toAsciiLowercase == y.map toAsciiLowercase

/- `inf`, `infinity`, `nan` and `snan`. -/
def infText : Bytes := [0x69,0x6E,0x66]
def infinityText : Bytes := [0x69,0x6E,0x66,0x69,0x6E,0x69,0x74,0x79]
def nanText : Bytes := [0x6E,0x61,0x6E]
def snanText : Bytes := [0x73,0x6E,0x61,0x6E]

def isMinus (b : UInt8) : Bool := b == 0x2D
def isPlus (b : UInt8) : Bool := b == 0x2B
def isPoint (b : UInt8) : Bool := b == 0x2E
def isExponentMark (b : UInt8) : Bool := b == 0x65 || b == 0x45
def isZero (b : UInt8) : Bool := b == 0x30

/- The number a string of digits spells. -/
def digitsValue (digits : Bytes) : Nat := digits.foldl (fun acc b => acc * 10 + (b.toNat - 0x30)) 0

def trimZeros (digits : Bytes) : Bytes := digits.dropWhile isZero

/- The text before and after the first byte that `mark` accepts. -/
def splitOnce (mark : UInt8 → Bool) : Bytes → Option (Bytes × Bytes)
  | [] => none
  | b :: rest =>
      if mark b then some ([],rest) else (splitOnce mark rest).map fun parts => (b :: parts.1,parts.2)

/- Leading zeros of a payload are not counted. -/
def readPayload (signalling : Bool) (payload : Bytes) : Except ParseError (Bool × Nat) :=
  if !payload.all isAsciiDigit then .error .syntaxError
  else if payloadDigits < (trimZeros payload).length then .error .syntaxError
  else .ok (signalling,digitsValue (trimZeros payload))

/- `none` where the text names no NaN at all. -/
def nan (rest : Bytes) : Option (Except ParseError (Bool × Nat)) :=
  let starts (word : Bytes) := eqIgnoreAsciiCase (rest.take word.length) word
  if starts snanText then some (readPayload true (rest.drop 4))
  else if starts nanText then some (readPayload false (rest.drop 3))
  else none

structure Written where
  digits : Bytes
  exponent : Int

/- The exponent after its mark: an optional sign, and digits read up to the cap. -/
def readExponent (written : Bytes) : Except ParseError Int :=
  let unsigned := match written with
    | b :: rest => if isPlus b || isMinus b then rest else written
    | [] => written
  if unsigned.isEmpty || !unsigned.all isAsciiDigit then .error .syntaxError
  else
    let magnitude := unsigned.foldl (fun (acc : Int) b => min (acc * 10 + (b.toNat - 0x30 : Nat)) exponentCap) 0
    .ok (match written with
      | b :: _ => if isMinus b then -magnitude else magnitude
      | [] => magnitude)

def cutExponent (text : Bytes) : Bytes × Option Bytes :=
  match splitOnce isExponentMark text with
  | some (mantissa,exponent) => (mantissa,some exponent)
  | none => (text,none)

def cutPoint (mantissa : Bytes) : Bytes × Bytes :=
  match splitOnce isPoint mantissa with
  | some (whole,fraction) => (whole,fraction)
  | none => (mantissa,[])

def scaleOf : Option Bytes → Except ParseError Int
  | none => .ok 0
  | some written => readExponent written

/- A finite number as written: at least one digit, and nothing but digits around the one point. -/
def finite (text : Bytes) : Except ParseError Written :=
  let (mantissa,exponent) := cutExponent text
  let (whole,fraction) := cutPoint mantissa
  if whole.length + fraction.length = 0 || !whole.all isAsciiDigit || !fraction.all isAsciiDigit then .error .syntaxError
  else do
    let exponent ← scaleOf exponent
    let fractionLen := min (fraction.length : Int) exponentCap
    return ⟨trimZeros (whole ++ fraction),exponent - fractionLen⟩

/- Digits past the precision must be zeros, which move into the exponent. -/
def fitDigits (number : Written) : Except ParseError Written :=
  if precision < number.digits.length then
    let dropped := number.digits.drop precision
    if dropped.any (!isZero ·) then .error .inexact
    else .ok ⟨number.digits.take precision,number.exponent + dropped.length⟩
  else .ok number

/- Below the range, zeros at the end may be dropped, nothing else. -/
def fitLow (number : Written) : Except ParseError Written :=
  if number.exponent < minExponent then
    let keep := (number.digits.length : Int) - (minExponent - number.exponent)
    if keep ≤ 0 then .error .underflow
    else if (number.digits.drop keep.toNat).any (!isZero ·) then .error .underflow
    else .ok ⟨number.digits.take keep.toNat,minExponent⟩
  else .ok number

/- Above the range, the coefficient takes zeros while it has room. -/
def fitHigh (number : Written) : Except ParseError (Nat × Int) :=
  let coefficient := digitsValue number.digits
  if maxExponent < number.exponent then
    let pad := number.exponent - maxExponent
    if (precision : Int) < number.digits.length + pad then .error .overflow
    else .ok (coefficient * 10 ^ pad.toNat,maxExponent)
  else .ok (coefficient,number.exponent)

def fit (number : Written) : Except ParseError (Nat × Int) :=
  if number.digits.isEmpty then .ok (0,max minExponent (min number.exponent maxExponent))
  else do
    let number ← fitDigits number
    let number ← fitLow number
    fitHigh number

def signallingBits : Nat := 1 <<< 121

def word (negative : Bool) (fields : Nat) : Decimal128 := BitVec.ofNat 128 ((negative.toNat <<< 127) ||| fields)

/- The sign, and what is after it. -/
def takeSign (text : Bytes) : Bool × Bytes :=
  match text with
  | b :: rest => if isMinus b then (true,rest) else if isPlus b then (false,rest) else (false,text)
  | [] => (false,text)

def parse (text : Bytes) : Except ParseError Decimal128 :=
  let (negative,rest) := takeSign text
  if eqIgnoreAsciiCase rest infText || eqIgnoreAsciiCase rest infinityText then .ok (word negative infinityBits)
  else match nan rest with
    | some read => do
        let (signalling,payload) ← read
        let quiet := nanBits ||| payload
        return word negative (if signalling then quiet ||| signallingBits else quiet)
    | none => do
        let number ← finite rest
        let (coefficient,exponent) ← fit number
        return word negative (((exponent - minExponent).toNat <<< 113) ||| coefficient)

/-! Strings of digits. -/

def Digits (digits : Bytes) : Prop := ∀ b ∈ digits, isAsciiDigit b = true

theorem digitsAll {digits : Bytes} : digits.all isAsciiDigit = true ↔ Digits digits := by
  simp [Digits, List.all_eq_true]

/- A byte that only a finite number starts with. -/
def startsNumber (b : UInt8) : Bool := isAsciiDigit b || isPoint b

theorem everyByte {P : UInt8 → Prop} (all : ∀ n < 256, P (UInt8.ofNat n)) (b : UInt8) : P b := by
  have here := all b.toNat b.toNat_lt
  rwa [UInt8.ofNat_toNat] at here

/- What the parser tells apart by one byte, for all 256 of them. -/
theorem heads (b : UInt8) :
    (startsNumber b = true → isMinus b = false ∧ isPlus b = false ∧
      toAsciiLowercase b ≠ 0x69 ∧ toAsciiLowercase b ≠ 0x6E ∧ toAsciiLowercase b ≠ 0x73) ∧
    (isAsciiDigit b = true → isMinus b = false ∧ isPlus b = false ∧ isExponentMark b = false ∧ isPoint b = false) ∧
    (toAsciiLowercase b = 0x69 ∨ toAsciiLowercase b = 0x6E ∨ toAsciiLowercase b = 0x73 →
      isMinus b = false ∧ isPlus b = false) := by
  revert b
  exact everyByte (by decide +kernel)

theorem numberHead (b : UInt8) : startsNumber b = true → isMinus b = false ∧ isPlus b = false ∧
    toAsciiLowercase b ≠ 0x69 ∧ toAsciiLowercase b ≠ 0x6E ∧ toAsciiLowercase b ≠ 0x73 := (heads b).1

theorem digitHead (b : UInt8) : isAsciiDigit b = true → isMinus b = false ∧ isPlus b = false ∧
    isExponentMark b = false ∧ isPoint b = false := (heads b).2.1

theorem letterHead (b : UInt8) : toAsciiLowercase b = 0x69 ∨ toAsciiLowercase b = 0x6E ∨ toAsciiLowercase b = 0x73 →
    isMinus b = false ∧ isPlus b = false := (heads b).2.2

theorem digitRange {b : UInt8} (digit : isAsciiDigit b = true) : 0x30 ≤ b.toNat ∧ b.toNat ≤ 0x39 := by
  simp only [isAsciiDigit, Bool.and_eq_true, decide_eq_true_eq, UInt8.le_iff_toNat_le] at digit
  exact digit

theorem foldDigits (digits : Bytes) (n : Nat) :
    digits.foldl (fun acc b => acc * 10 + (b.toNat - 0x30)) n = n * 10 ^ digits.length + digitsValue digits := by
  induction digits generalizing n with
  | nil => simp [digitsValue]
  | cons b rest ih =>
    have split : digitsValue (b :: rest) = (b.toNat - 0x30) * 10 ^ rest.length + digitsValue rest := by
      rw [digitsValue, List.foldl_cons, ih]
      simp
    rw [List.foldl_cons, ih, split, List.length_cons, pow_succ]
    ring

theorem valueCons (b : UInt8) (rest : Bytes) :
    digitsValue (b :: rest) = (b.toNat - 0x30) * 10 ^ rest.length + digitsValue rest := by
  rw [digitsValue, List.foldl_cons, foldDigits]
  simp

theorem valueAppend (x y : Bytes) : digitsValue (x ++ y) = digitsValue x * 10 ^ y.length + digitsValue y := by
  rw [digitsValue, List.foldl_append, foldDigits]
  rfl

theorem valueBound {digits : Bytes} (all : Digits digits) : digitsValue digits < 10 ^ digits.length := by
  induction digits with
  | nil => simp [digitsValue]
  | cons b rest ih =>
    have range := digitRange (all b List.mem_cons_self)
    have below := ih fun c member => all c (List.mem_cons_of_mem _ member)
    rw [valueCons, List.length_cons, pow_succ]
    calc (b.toNat - 0x30) * 10 ^ rest.length + digitsValue rest
        < (b.toNat - 0x30) * 10 ^ rest.length + 10 ^ rest.length := by omega
      _ = (b.toNat - 0x30 + 1) * 10 ^ rest.length := by ring
      _ ≤ 10 * 10 ^ rest.length := Nat.mul_le_mul_right _ (by omega)
      _ = 10 ^ rest.length * 10 := Nat.mul_comm _ _

theorem zeroValue {digits : Bytes} (all : Digits digits) :
    digitsValue digits = 0 ↔ digits.any (!isZero ·) = false := by
  induction digits with
  | nil => simp [digitsValue]
  | cons b rest ih =>
    have range := digitRange (all b List.mem_cons_self)
    have power : 0 < 10 ^ rest.length := by positivity
    have digit : b.toNat - 0x30 = 0 ↔ isZero b = true := by
      simp only [isZero, beq_iff_eq, ← UInt8.toNat_inj]
      show _ ↔ b.toNat = 0x30
      omega
    rw [valueCons, List.any_cons, Bool.or_eq_false_iff, Nat.add_eq_zero_iff, Nat.mul_eq_zero, Bool.not_eq_false',
      ih fun c member => all c (List.mem_cons_of_mem _ member), digit]
    constructor
    · rintro ⟨first | power,rest⟩
      · exact ⟨first,rest⟩
      · omega
    · rintro ⟨first,rest⟩
      exact ⟨Or.inl first,rest⟩

theorem trimValue (digits : Bytes) : digitsValue (trimZeros digits) = digitsValue digits := by
  unfold trimZeros
  induction digits with
  | nil => rfl
  | cons b rest ih =>
    rw [List.dropWhile_cons]
    split_ifs with zero
    · rw [ih, valueCons]
      simp only [isZero, beq_iff_eq] at zero
      simp [zero]
    · rfl

theorem trimDigits {digits : Bytes} (all : Digits digits) : Digits (trimZeros digits) :=
  fun b member => all b ((List.dropWhile_sublist _).subset member)

theorem trimLength (digits : Bytes) : (trimZeros digits).length ≤ digits.length :=
  (List.dropWhile_sublist _).length_le

/- Digits that do not start with a zero. -/
structure Leads (digits : Bytes) : Prop where
  all : Digits digits
  least : 10 ^ (digits.length - 1) ≤ digitsValue digits
  some : digits ≠ []

theorem leadsCons {b : UInt8} {rest : Bytes} (all : Digits (b :: rest)) (nonzero : isZero b = false) : Leads (b :: rest) := by
  have range := digitRange (all b List.mem_cons_self)
  have digit : 1 ≤ b.toNat - 0x30 := by
    have differ : b.toNat ≠ 0x30 := by
      intro same
      have : b = 0x30 := UInt8.toNat_inj.mp same
      simp [isZero, this] at nonzero
    omega
  refine ⟨all,?_,List.cons_ne_nil _ _⟩
  rw [valueCons, List.length_cons, Nat.add_sub_cancel]
  calc 10 ^ rest.length = 1 * 10 ^ rest.length := (Nat.one_mul _).symm
    _ ≤ (b.toNat - 0x30) * 10 ^ rest.length := Nat.mul_le_mul_right _ digit
    _ ≤ _ := Nat.le_add_right _ _

theorem trimLeads {digits : Bytes} (all : Digits digits) (some : trimZeros digits ≠ []) : Leads (trimZeros digits) := by
  have kept := trimDigits all
  cases is : trimZeros digits with
  | nil => exact absurd is some
  | cons b rest =>
    rw [is] at kept
    refine leadsCons kept ?_
    have left : digits.dropWhile isZero ≠ [] := some
    have head := List.head_dropWhile_not isZero left
    simp only [trimZeros] at is
    simpa only [is, List.head_cons] using head

theorem takeLeads {digits : Bytes} (leads : Leads digits) {n : Nat} (pos : 0 < n) : Leads (digits.take n) := by
  obtain ⟨all,least,some⟩ := leads
  rcases digits with _ | ⟨b, rest⟩
  · exact absurd rfl some
  obtain ⟨m,rfl⟩ : ∃ m, n = m + 1 := ⟨n - 1,by omega⟩
  rw [List.take_succ_cons]
  refine leadsCons (fun c member => all c ?_) ?_
  · rcases List.mem_cons.mp member with rfl | member
    · exact List.mem_cons_self
    · exact List.mem_cons_of_mem _ (List.mem_of_mem_take member)
  · by_contra zero
    rw [Bool.not_eq_false] at zero
    simp only [isZero, beq_iff_eq] at zero
    have below := valueBound fun c member => all c (List.mem_cons_of_mem _ member)
    rw [valueCons, zero, List.length_cons, Nat.add_sub_cancel] at least
    simp at least
    omega

/-! Fitting a value into the format. -/

/- No pair of the format is worth `n * 10 ^ q`. -/
def Unheld (n : Nat) (q : Int) : Prop := ∀ c e, Fits c e → magnitude c e ≠ magnitude n q

/- The pair is worth `n * 10 ^ q`, and no pair of that value has an exponent nearer `q`. -/
structure Nearest (n : Nat) (q : Int) (c : Nat) (e : Int) : Prop where
  fits : Fits c e
  worth : magnitude c e = magnitude n q
  nearest : ∀ d f, Fits d f → magnitude d f = magnitude n q → |e - q| ≤ |f - q|

/- A value of more digits than its exponent leaves room for is above every pair. -/
theorem unheldHigh {n l : Nat} {q : Int} (least : 10 ^ l ≤ n) (high : maxExponent + 34 ≤ l + q) (up : maxExponent ≤ q) :
    Unheld n q := by
  intro c e fits same
  have top := fits.2.2
  have scaled := scaledOf same (by omega : e ≤ q)
  have small := fitsDigits fits
  have : 10 ^ 34 ≤ n * 10 ^ (q - e).toNat :=
    calc 10 ^ 34 ≤ 10 ^ (l + (q - e).toNat) := Nat.pow_le_pow_right (by decide) (by omega)
      _ = 10 ^ l * 10 ^ (q - e).toNat := pow_add _ _ _
      _ ≤ n * 10 ^ (q - e).toNat := Nat.mul_le_mul_right _ least
  omega

/- A value whose digits all lie below the least exponent is below every pair but zero. -/
theorem unheldLow {n l : Nat} {q : Int} (pos : 0 < n) (most : n < 10 ^ l) (low : l + q ≤ minExponent) : Unheld n q := by
  intro c e fits same
  have bottom := fits.2.1
  have scaled := scaledOf same.symm (by omega : q ≤ e)
  have positive : 0 < c := by
    rcases Nat.eq_zero_or_pos c with rfl | positive
    · omega
    · exact positive
  have : 10 ^ l ≤ c * 10 ^ (e - q).toNat :=
    calc 10 ^ l ≤ 10 ^ (e - q).toNat := Nat.pow_le_pow_right (by decide) (by omega)
      _ ≤ c * 10 ^ (e - q).toNat := Nat.le_mul_of_pos_left _ positive
  omega

def Written.value (number : Written) : ℚ := magnitude (digitsValue number.digits) number.exponent

theorem splitValue {digits : Bytes} (n : Nat) (e : Int) (zeros : digitsValue (digits.drop n) = 0) :
    magnitude (digitsValue digits) e = magnitude (digitsValue (digits.take n)) (e + (digits.drop n).length) := by
  have whole := valueAppend (digits.take n) (digits.drop n)
  rw [List.take_append_drop, zeros, Nat.add_zero] at whole
  rw [whole, magnitudeShift]

/- A digit that may not be dropped: no pair of a larger exponent has the value. -/
theorem splitUnheld {digits : Bytes} (all : Digits digits) (n : Nat) {e f : Int} {d : Nat}
    (nonzero : digitsValue (digits.drop n) ≠ 0) (same : magnitude d f = magnitude (digitsValue digits) e) :
    f < e + (digits.drop n).length := by
  by_contra above
  rw [not_lt] at above
  have whole := valueAppend (digits.take n) (digits.drop n)
  rw [List.take_append_drop] at whole
  have rest : Digits (digits.drop n) := fun b member => all b (List.mem_of_mem_drop member)
  have below := valueBound rest
  generalize digitsValue (digits.drop n) = low at *
  generalize (digits.drop n).length = l at *
  have scaled := scaledOf same.symm (by omega : e ≤ f)
  -- the value would be a multiple of the power the digit stands below
  have multiple : 10 ^ l ∣ digitsValue digits := by
    rw [scaled]
    exact (pow_dvd_pow 10 (by omega)).mul_left d
  rw [whole, Nat.dvd_add_right (Dvd.intro_left _ rfl)] at multiple
  exact absurd (Nat.le_of_dvd (by omega) multiple) (by omega)

theorem leadsPos {digits : Bytes} (leads : Leads digits) : 0 < digitsValue digits :=
  lt_of_lt_of_le (by positivity) leads.least

theorem precisionIs : precision = 34 := rfl

theorem dropDigits {digits : Bytes} (leads : Leads digits) (n : Nat) : Digits (digits.drop n) :=
  fun b member => leads.all b (List.mem_of_mem_drop member)

theorem dropNonzero {digits : Bytes} (leads : Leads digits) {n : Nat} (more : (digits.drop n).any (!isZero ·) = true) :
    digitsValue (digits.drop n) ≠ 0 := by
  rw [ne_eq, zeroValue (dropDigits leads n), more]
  exact Bool.noConfusion

theorem dropZero {digits : Bytes} (leads : Leads digits) {n : Nat} (none : ¬ (digits.drop n).any (!isZero ·) = true) :
    digitsValue (digits.drop n) = 0 := by
  rw [zeroValue (dropDigits leads n)]
  exact Bool.eq_false_of_not_eq_true none

theorem fitDigitsOk {number w : Written} (leads : Leads number.digits) (is : fitDigits number = .ok w) :
    Leads w.digits ∧ w.value = number.value ∧ w.digits.length ≤ 34 ∧
      (w.exponent = number.exponent ∨ number.exponent < w.exponent ∧ w.digits.length = 34) := by
  have prec := precisionIs
  simp only [fitDigits] at is
  split_ifs at is with long more
  · cases is
    refine ⟨takeLeads leads (by decide),(splitValue precision _ (dropZero leads more)).symm,
      List.length_take_le _ _,Or.inr ⟨?_,?_⟩⟩
    · simp only [List.length_drop]
      omega
    · rw [List.length_take]
      omega
  · cases is
    exact ⟨leads,rfl,by omega,Or.inl rfl⟩

theorem fitDigitsError {number : Written} {err : ParseError} (leads : Leads number.digits)
    (is : fitDigits number = .error err) : err ≠ .syntaxError ∧ Unheld (digitsValue number.digits) number.exponent := by
  have prec := precisionIs
  simp only [fitDigits] at is
  split_ifs at is with long more
  cases is
  refine ⟨by decide,fun c e fits same => ?_⟩
  have below := splitUnheld leads.all precision (dropNonzero leads more) same
  rw [List.length_drop] at below
  -- an exponent this small needs more than 34 digits
  have small := fitsDigits fits
  have least := leads.least
  generalize number.digits.length = l at *
  generalize digitsValue number.digits = n at *
  rcases le_total e number.exponent with under | above
  · have scaled := scaledOf same under
    have : 10 ^ 34 ≤ n := le_trans (Nat.pow_le_pow_right (by decide) (by omega)) least
    have : n ≤ n * 10 ^ (number.exponent - e).toNat := Nat.le_mul_of_pos_right _ (by positivity)
    omega
  · have scaled := scaledOf same.symm above
    have : c * 10 ^ (e - number.exponent).toNat < 10 ^ (l - 1) :=
      calc c * 10 ^ (e - number.exponent).toNat < 10 ^ 34 * 10 ^ (e - number.exponent).toNat :=
            Nat.mul_lt_mul_of_pos_right small (by positivity)
        _ = 10 ^ (34 + (e - number.exponent).toNat) := (pow_add _ _ _).symm
        _ ≤ 10 ^ (l - 1) := Nat.pow_le_pow_right (by decide) (by omega)
    omega

theorem fitLowOk {number w : Written} (leads : Leads number.digits) (is : fitLow number = .ok w) :
    Leads w.digits ∧ w.value = number.value ∧ w.digits.length ≤ number.digits.length ∧
      (w = number ∧ minExponent ≤ w.exponent ∨ w.exponent = minExponent ∧ number.exponent < minExponent) := by
  simp only [fitLow] at is
  split_ifs at is with low none more
  · cases is
    refine ⟨takeLeads leads (by omega),?_,List.length_take_le' _ _,Or.inr ⟨rfl,low⟩⟩
    rw [Written.value, Written.value, splitValue _ number.exponent (dropZero leads more)]
    congr 1
    rw [List.length_drop]
    show minExponent = _
    omega
  · cases is
    exact ⟨leads,rfl,le_rfl,Or.inl ⟨rfl,by omega⟩⟩

theorem fitLowError {number : Written} {err : ParseError} (leads : Leads number.digits)
    (is : fitLow number = .error err) : err ≠ .syntaxError ∧ Unheld (digitsValue number.digits) number.exponent := by
  simp only [fitLow] at is
  split_ifs at is with low none more
  · cases is
    exact ⟨by decide,unheldLow (leadsPos leads) (valueBound leads.all) (by omega)⟩
  · cases is
    refine ⟨by decide,fun c e fits same => ?_⟩
    have below := splitUnheld leads.all _ (dropNonzero leads more) same
    rw [List.length_drop] at below
    have bottom := fits.2.1
    omega

theorem fitHighOk {number : Written} {c : Nat} {e : Int} (leads : Leads number.digits) (short : number.digits.length ≤ 34)
    (low : minExponent ≤ number.exponent) (is : fitHigh number = .ok (c,e)) :
    Fits c e ∧ magnitude c e = number.value ∧
      (e = number.exponent ∨ e = maxExponent ∧ maxExponent < number.exponent ∧ number.digits.length < 34) := by
  have prec := precisionIs
  simp only [fitHigh] at is
  have below := valueBound leads.all
  have nines : maxCoefficient + 1 = 10 ^ 34 := by decide
  split_ifs at is with high room
  · cases is
    have fits : digitsValue number.digits * 10 ^ (number.exponent - maxExponent).toNat < 10 ^ 34 :=
      calc digitsValue number.digits * 10 ^ (number.exponent - maxExponent).toNat
          < 10 ^ number.digits.length * 10 ^ (number.exponent - maxExponent).toNat :=
            Nat.mul_lt_mul_of_pos_right below (by positivity)
        _ = 10 ^ (number.digits.length + (number.exponent - maxExponent).toNat) := (pow_add _ _ _).symm
        _ ≤ 10 ^ 34 := Nat.pow_le_pow_right (by decide) (by omega)
    refine ⟨⟨by omega,by decide,le_rfl⟩,?_,Or.inr ⟨rfl,high,by omega⟩⟩
    rw [magnitudeShift, Written.value]
    congr 1
    omega
  · cases is
    have fits : digitsValue number.digits < 10 ^ 34 := lt_of_lt_of_le below (Nat.pow_le_pow_right (by decide) short)
    exact ⟨⟨by omega,low,by omega⟩,rfl,Or.inl rfl⟩

theorem fitHighError {number : Written} {err : ParseError} (leads : Leads number.digits)
    (is : fitHigh number = .error err) : err ≠ .syntaxError ∧ Unheld (digitsValue number.digits) number.exponent := by
  have prec := precisionIs
  simp only [fitHigh] at is
  split_ifs at is with high room
  cases is
  have some : 0 < number.digits.length := List.length_pos_iff.mpr leads.some
  exact ⟨by decide,unheldHigh leads.least (by omega) (by omega)⟩

theorem zeroNearest (q : Int) : Nearest 0 q 0 (max minExponent (min q maxExponent)) := by
  have range : minExponent ≤ maxExponent := by decide
  refine ⟨⟨Nat.zero_le _,by omega,by omega⟩,by simp [magnitude],fun d f fits _ => ?_⟩
  exact clampNearest q fits.2.1 fits.2.2

theorem fitOk {number : Written} {c : Nat} {e : Int} (leads : number.digits = [] ∨ Leads number.digits)
    (is : fit number = .ok (c,e)) : Nearest (digitsValue number.digits) number.exponent c e := by
  rcases leads with empty | leads
  · simp only [fit, empty, List.isEmpty_nil, if_true, Except.ok.injEq, Prod.mk.injEq] at is
    obtain ⟨rfl,rfl⟩ := is
    rw [empty]
    exact zeroNearest _
  · simp only [fit, List.isEmpty_iff, leads.some, if_false] at is
    cases first : fitDigits number with
    | error err => rw [first] at is; cases is
    | ok w =>
      rw [first] at is
      change fitLow w >>= fitHigh = _ at is
      cases second : fitLow w with
      | error err => rw [second] at is; cases is
      | ok v =>
        rw [second] at is
        change fitHigh v = _ at is
        obtain ⟨leadsW,valueW,short,moved⟩ := fitDigitsOk leads first
        obtain ⟨leadsV,valueV,shorter,kept⟩ := fitLowOk leadsW second
        obtain ⟨fits,worth,last⟩ := fitHighOk leadsV (by omega) (by rcases kept with ⟨_,low⟩ | ⟨low,_⟩ <;> omega) is
        rw [valueV, valueW] at worth
        refine ⟨fits,worth,fun d f held same => ?_⟩
        -- digits that were dropped cannot be kept by any pair: its exponent is no smaller
        have raised : number.exponent < w.exponent → w.exponent ≤ f := by
          intro up
          by_contra below
          rw [not_le] at below
          have long : w.digits.length = 34 := by omega
          have scaled := scaledOf (same.trans valueW.symm) below.le
          have least := leadsW.least
          have small := fitsDigits held
          rw [long] at least
          have : 10 ^ 34 ≤ digitsValue w.digits * 10 ^ (w.exponent - f).toNat :=
            calc 10 ^ 34 = 10 ^ 33 * 10 ^ 1 := by norm_num
              _ ≤ digitsValue w.digits * 10 ^ (w.exponent - f).toNat :=
                Nat.mul_le_mul least (Nat.pow_le_pow_right (by decide) (by omega))
          omega
        obtain ⟨_,bottom,top⟩ := held
        have where' : e = number.exponent ∨ (number.exponent < e ∧ e ≤ f) ∨ (f ≤ e ∧ e < number.exponent) := by
          rcases last with same | ⟨top',over',room⟩
          · rcases kept with ⟨rfl,_⟩ | ⟨low,under⟩
            · rcases moved with still | ⟨up,_⟩
              · exact Or.inl (by omega)
              · exact Or.inr (Or.inl ⟨by omega,by have := raised up; omega⟩)
            · exact Or.inr (Or.inl ⟨by omega,by omega⟩)
          · rcases kept with ⟨rfl,_⟩ | ⟨low,under⟩
            · exact Or.inr (Or.inr ⟨by omega,by omega⟩)
            · unfold minExponent maxExponent at *
              omega
        rcases abs_cases (e - number.exponent) with first | first <;>
          rcases abs_cases (f - number.exponent) with second | second <;> omega

theorem fitError {number : Written} {err : ParseError} (leads : number.digits = [] ∨ Leads number.digits)
    (is : fit number = .error err) : err ≠ .syntaxError ∧ Unheld (digitsValue number.digits) number.exponent := by
  rcases leads with empty | leads
  · simp [fit, empty] at is
  · simp only [fit, List.isEmpty_iff, leads.some, if_false] at is
    cases first : fitDigits number with
    | error e =>
      rw [first] at is
      cases is
      exact fitDigitsError leads first
    | ok w =>
      rw [first] at is
      change fitLow w >>= fitHigh = _ at is
      obtain ⟨leadsW,valueW,_,_⟩ := fitDigitsOk leads first
      cases second : fitLow w with
      | error e =>
        rw [second] at is
        cases is
        obtain ⟨other,none⟩ := fitLowError leadsW second
        exact ⟨other,fun d f held same => none d f held (same.trans valueW.symm)⟩
      | ok v =>
        rw [second] at is
        change fitHigh v = _ at is
        obtain ⟨leadsV,valueV,_,_⟩ := fitLowOk leadsW second
        obtain ⟨other,none⟩ := fitHighError leadsV is
        exact ⟨other,fun d f held same => none d f held (same.trans (valueV.trans valueW).symm)⟩

/-! An exponent read up to the cap stands for the one that is written: past it, no pair has the value. -/

structure Capped (length : Nat) (read written : Int) : Prop where
  short : length < 2 ^ 39
  stands : read = written ∨ 2 ^ 39 < read ∧ read ≤ written ∨ read ≤ -(2 ^ 40) ∧ written ≤ read

theorem unheldPos {n : Nat} {q : Int} (none : Unheld n q) : 0 < n := by
  rcases Nat.eq_zero_or_pos n with rfl | pos
  · exact absurd (by simp [magnitude]) (none 0 0 (by decide))
  · exact pos

theorem cappedUnheld {n l : Nat} {read written : Int} (capped : Capped l read written) (most : n < 10 ^ l)
    (none : Unheld n read) : Unheld n written := by
  have pos := unheldPos none
  obtain ⟨short,rfl | ⟨high,more⟩ | ⟨low,more⟩⟩ := capped
  · exact none
  · have top : maxExponent + 34 < 2 ^ 39 := by decide
    exact unheldHigh (l := 0) pos (by push_cast; omega) (by omega)
  · have bottom : -(2 ^ 39) < minExponent := by decide
    exact unheldLow pos most (by omega)

theorem cappedNearest {n l : Nat} {read written : Int} (capped : Capped l read written) (most : n < 10 ^ l) {c : Nat} {e : Int}
    (near : Nearest n read c e) : Nearest n written c e := by
  have top : maxExponent + 34 < 2 ^ 39 := by decide
  have bottom : -(2 ^ 39) < minExponent := by decide
  have range : minExponent ≤ maxExponent := by decide
  rcases Nat.eq_zero_or_pos n with rfl | pos
  · obtain ⟨fits,worth,nearest⟩ := near
    have zero (q : Int) : magnitude 0 q = 0 := by simp [magnitude]
    rw [zero] at worth
    refine ⟨fits,by rw [worth, zero],fun d f held same => ?_⟩
    obtain ⟨short,rfl | ⟨high,more⟩ | ⟨low,more⟩⟩ := capped
    · exact nearest d f held same
    · have last := nearest 0 maxExponent ⟨Nat.zero_le _,range,le_rfl⟩ (by rw [zero, zero])
      have limit := held.2.2
      have own := fits.2.2
      rcases abs_cases (e - written) with first | first <;> rcases abs_cases (f - written) with second | second <;>
        rcases abs_cases (e - read) with third | third <;> rcases abs_cases (maxExponent - read) with fourth | fourth <;>
        omega
    · have last := nearest 0 minExponent ⟨Nat.zero_le _,le_rfl,range⟩ (by rw [zero, zero])
      have limit := held.2.1
      have own := fits.2.1
      rcases abs_cases (e - written) with first | first <;> rcases abs_cases (f - written) with second | second <;>
        rcases abs_cases (e - read) with third | third <;> rcases abs_cases (minExponent - read) with fourth | fourth <;>
        omega
  · obtain ⟨short,rfl | ⟨high,more⟩ | ⟨low,more⟩⟩ := capped
    · exact near
    · exact absurd near.worth (unheldHigh (l := 0) pos (by push_cast; omega) (by omega) c e near.fits)
    · exact absurd near.worth (unheldLow pos most (by omega) c e near.fits)

/-! The documented syntax, and what a text of it means. -/

inductive Meaning where
  | nan (negative signalling : Bool) (payload : Nat)
  | inf (negative : Bool)
  | finite (negative : Bool) (coefficient : Nat) (exponent : Int)

inductive Sign : Bytes → Bool → Prop where
  | absent : Sign [] false
  | plus : Sign [0x2B] false
  | minus : Sign [0x2D] true

/- `digits "." [digits] | ["."] digits`: the digits before the point and those after it. -/
inductive DecimalPart : Bytes → Bytes → Bytes → Prop where
  | pointed {whole fraction} (digits : Digits whole) (some : whole ≠ []) (more : Digits fraction) :
      DecimalPart (whole ++ 0x2E :: fraction) whole fraction
  | leading {fraction} (digits : Digits fraction) (some : fraction ≠ []) : DecimalPart (0x2E :: fraction) [] fraction
  | whole {whole} (digits : Digits whole) (some : whole ≠ []) : DecimalPart whole whole []

/- `[("e" | "E") [sign] digits]`. -/
inductive ExponentPart : Bytes → Int → Prop where
  | absent : ExponentPart [] 0
  | scaled {mark sign negative digits} (marks : isExponentMark mark = true) (signs : Sign sign negative)
      (all : Digits digits) (some : digits ≠ []) :
      ExponentPart (mark :: (sign ++ digits)) (if negative then -(digitsValue digits : Int) else digitsValue digits)

inductive Numeric : Bytes → Meaning → Prop where
  | finite {sign negative number whole fraction scale exponent} (signs : Sign sign negative)
      (part : DecimalPart number whole fraction) (scaled : ExponentPart scale exponent) :
      Numeric (sign ++ (number ++ scale)) (.finite negative (digitsValue (whole ++ fraction)) (exponent - fraction.length))
  | infinity {sign negative name} (signs : Sign sign negative)
      (named : eqIgnoreAsciiCase name infText = true ∨ eqIgnoreAsciiCase name infinityText = true) :
      Numeric (sign ++ name) (.inf negative)
  | nan {sign negative name payload} (signs : Sign sign negative) (named : eqIgnoreAsciiCase name nanText = true)
      (digits : Digits payload) (short : (trimZeros payload).length ≤ payloadDigits) :
      Numeric (sign ++ (name ++ payload)) (.nan negative false (digitsValue payload))
  | snan {sign negative name payload} (signs : Sign sign negative) (named : eqIgnoreAsciiCase name snanText = true)
      (digits : Digits payload) (short : (trimZeros payload).length ≤ payloadDigits) :
      Numeric (sign ++ (name ++ payload)) (.nan negative true (digitsValue payload))

/-! The first byte tells the forms apart. -/

theorem takeSignSome {sign rest : Bytes} {negative : Bool} (signs : Sign sign negative)
    (plain : ∀ b ∈ rest.head?, isMinus b = false ∧ isPlus b = false) : takeSign (sign ++ rest) = (negative,rest) := by
  cases signs with
  | absent =>
    rcases rest with _ | ⟨b, rest⟩
    · rfl
    · obtain ⟨minus,plus⟩ := plain b rfl
      simp [takeSign, minus, plus]
  | plus => rfl
  | minus => rfl

theorem takeSignRead {text rest : Bytes} {negative : Bool} (is : takeSign text = (negative,rest)) :
    ∃ sign, Sign sign negative ∧ text = sign ++ rest := by
  rcases text with _ | ⟨b, text⟩
  · cases is
    exact ⟨[],.absent,rfl⟩
  · simp only [takeSign] at is
    split_ifs at is with minus plus
    · cases is
      rw [isMinus, beq_iff_eq] at minus
      exact ⟨[0x2D],.minus,by rw [minus]; rfl⟩
    · cases is
      rw [isPlus, beq_iff_eq] at plus
      exact ⟨[0x2B],.plus,by rw [plus]; rfl⟩
    · cases is
      exact ⟨[],.absent,rfl⟩

theorem splitOnceAt {mark : UInt8 → Bool} {x y : Bytes} {m : UInt8} (clear : ∀ b ∈ x, mark b = false) (marks : mark m = true) :
    splitOnce mark (x ++ m :: y) = some (x,y) := by
  induction x with
  | nil => simp [splitOnce, marks]
  | cons b x ih =>
    have here := clear b List.mem_cons_self
    rw [List.cons_append, splitOnce, here, ih fun c member => clear c (List.mem_cons_of_mem _ member)]
    rfl

theorem splitOnceNone {mark : UInt8 → Bool} {x : Bytes} (clear : ∀ b ∈ x, mark b = false) : splitOnce mark x = none := by
  induction x with
  | nil => rfl
  | cons b x ih =>
    have here := clear b List.mem_cons_self
    rw [splitOnce, here, ih fun c member => clear c (List.mem_cons_of_mem _ member)]
    rfl

theorem splitOnceRead {mark : UInt8 → Bool} {t x y : Bytes} (is : splitOnce mark t = some (x,y)) :
    ∃ m, mark m = true ∧ t = x ++ m :: y := by
  induction t generalizing x with
  | nil => cases is
  | cons b t ih =>
    rw [splitOnce] at is
    split_ifs at is with marks
    · cases is
      exact ⟨b,marks,rfl⟩
    · obtain ⟨⟨x', y'⟩,found,same⟩ := Option.map_eq_some_iff.mp is
      cases same
      obtain ⟨m,marks',rfl⟩ := ih found
      exact ⟨m,marks',rfl⟩

/-! The exponent and the finite number, both ways. -/

theorem cappedFold (digits : Bytes) (n : Nat) :
    digits.foldl (fun (acc : Int) b => min (acc * 10 + (b.toNat - 0x30 : Nat)) exponentCap) (min (n : Int) exponentCap) =
      min ((digits.foldl (fun acc b => acc * 10 + (b.toNat - 0x30)) n : Nat) : Int) exponentCap := by
  induction digits generalizing n with
  | nil => rfl
  | cons b rest ih =>
    rw [List.foldl_cons, List.foldl_cons, ← ih]
    congr 1
    unfold exponentCap
    push_cast
    omega

theorem readExponentOk {sign digits : Bytes} {negative : Bool} (signs : Sign sign negative) (all : Digits digits)
    (some : digits ≠ []) : readExponent (sign ++ digits) =
      .ok (if negative then -min (digitsValue digits : Int) exponentCap else min (digitsValue digits : Int) exponentCap) := by
  have fold := cappedFold digits 0
  rw [show min ((0 : Nat) : Int) exponentCap = 0 from rfl] at fold
  have nonempty : digits.isEmpty = false := by simpa using some
  have checked := digitsAll.mpr all
  cases signs with
  | absent =>
    rcases digits with _ | ⟨b, rest⟩
    · exact absurd rfl some
    obtain ⟨minus,plus,_⟩ := digitHead b (all b List.mem_cons_self)
    simp only [readExponent, List.nil_append, minus, plus, Bool.or_self, Bool.false_eq_true, if_false, nonempty, checked,
      Bool.not_true, fold]
    rfl
  | plus =>
    simp only [readExponent, List.cons_append, List.nil_append]
    rw [show isPlus 0x2B = true from rfl, show isMinus 0x2B = false from rfl]
    simp only [Bool.true_or, if_true, nonempty, checked, Bool.not_true, Bool.or_self, Bool.false_eq_true, if_false, fold]
    rfl
  | minus =>
    simp only [readExponent, List.cons_append, List.nil_append]
    rw [show isMinus 0x2D = true from rfl]
    simp only [Bool.or_true, if_true, nonempty, checked, Bool.not_true, Bool.or_self, Bool.false_eq_true, if_false, fold]
    rfl

theorem readExponentRead {written : Bytes} :
    (∃ sign negative digits, Sign sign negative ∧ Digits digits ∧ digits ≠ [] ∧ written = sign ++ digits) ∨
      readExponent written = .error .syntaxError := by
  rcases written with _ | ⟨b, rest⟩
  · exact Or.inr rfl
  by_cases signed : (isPlus b || isMinus b) = true
  · by_cases fine : (rest.isEmpty || !rest.all isAsciiDigit) = true
    · refine Or.inr ?_
      simp only [readExponent, signed, if_true, fine]
    · simp only [Bool.or_eq_true, not_or, Bool.not_eq_true', Bool.not_eq_false, List.isEmpty_iff] at fine
      refine Or.inl ?_
      rcases Bool.or_eq_true_iff.mp signed with plus | minus
      · rw [isPlus, beq_iff_eq] at plus
        exact ⟨_,_,rest,.plus,digitsAll.mp fine.2,fine.1,by rw [plus]; rfl⟩
      · rw [isMinus, beq_iff_eq] at minus
        exact ⟨_,_,rest,.minus,digitsAll.mp fine.2,fine.1,by rw [minus]; rfl⟩
  · by_cases fine : (b :: rest).all isAsciiDigit = true
    · exact Or.inl ⟨[],false,b :: rest,.absent,digitsAll.mp fine,List.cons_ne_nil _ _,rfl⟩
    · refine Or.inr ?_
      rw [Bool.not_eq_true] at signed fine
      simp only [readExponent, signed, Bool.false_eq_true, if_false, fine, Bool.not_false, Bool.or_true, if_true]

theorem finiteEq (text : Bytes) : finite text =
    let parts := cutPoint (cutExponent text).1
    if parts.1.length + parts.2.length = 0 || !parts.1.all isAsciiDigit || !parts.2.all isAsciiDigit then .error .syntaxError
    else (scaleOf (cutExponent text).2).bind fun exponent =>
      .ok ⟨trimZeros (parts.1 ++ parts.2),exponent - min (parts.2.length : Int) exponentCap⟩ :=
  rfl

theorem partCut {t w f : Bytes} (part : DecimalPart t w f) : cutPoint t = (w,f) ∧ Digits w ∧ Digits f ∧
    w.length + f.length ≠ 0 ∧ ∀ b ∈ t, isExponentMark b = false := by
  have clear {x : Bytes} (digits : Digits x) : ∀ b ∈ x, isPoint b = false := fun b member =>
    (digitHead b (digits b member)).2.2.2
  have unmarked {x : Bytes} (digits : Digits x) : ∀ b ∈ x, isExponentMark b = false := fun b member =>
    (digitHead b (digits b member)).2.2.1
  have point : isPoint 0x2E = true := rfl
  have nonzero {x : Bytes} (some : x ≠ []) : x.length ≠ 0 := by simpa using some
  cases part with
  | pointed digits some more =>
    refine ⟨by rw [cutPoint, splitOnceAt (clear digits) point],digits,more,by have := nonzero some; omega,?_⟩
    intro b member
    rcases List.mem_append.mp member with member | member
    · exact unmarked digits b member
    · rcases List.mem_cons.mp member with rfl | member
      · rfl
      · exact unmarked more b member
  | leading digits some =>
    have none : Digits [] := fun b member => absurd member List.not_mem_nil
    refine ⟨by rw [cutPoint, ← List.nil_append (0x2E :: f), splitOnceAt (clear none) point],none,digits,
      by have := nonzero some; omega,?_⟩
    intro b member
    rcases List.mem_cons.mp member with rfl | member
    · rfl
    · exact unmarked digits b member
  | whole digits some =>
    have none : Digits [] := fun b member => absurd member List.not_mem_nil
    exact ⟨by rw [cutPoint, splitOnceNone (clear digits)],digits,none,by have := nonzero some; omega,unmarked digits⟩

theorem cutPart {t w f : Bytes} (cut : cutPoint t = (w,f)) (whole : Digits w) (fraction : Digits f)
    (some : w.length + f.length ≠ 0) : DecimalPart t w f := by
  unfold cutPoint at cut
  cases split : splitOnce isPoint t with
  | none =>
    rw [split] at cut
    cases cut
    exact .whole whole (by rintro rfl; exact some rfl)
  | some pair =>
    obtain ⟨x, y⟩ := pair
    rw [split] at cut
    cases cut
    obtain ⟨m,marks,rfl⟩ := splitOnceRead split
    rw [isPoint, beq_iff_eq] at marks
    subst marks
    rcases w with _ | ⟨b, w⟩
    · exact .leading fraction (by rintro rfl; exact some rfl)
    · exact .pointed whole (List.cons_ne_nil _ _) fraction

theorem finiteOk {t w f x : Bytes} {q : Int} (part : DecimalPart t w f) (scaled : ExponentPart x q)
    (short : (t ++ x).length < 2 ^ 39) : ∃ number, finite (t ++ x) = .ok number ∧ number.digits = trimZeros (w ++ f) ∧
      Capped (w ++ f).length number.exponent (q - f.length) := by
  obtain ⟨cut,whole,fraction,some,unmarked⟩ := partCut part
  have bound : (w ++ f).length ≤ t.length := by
    cases part <;> simp only [List.length_append, List.length_cons, List.append_nil, List.nil_append] <;> omega
  rw [List.length_append] at short
  have pass : ¬ (w.length + f.length = 0 || !w.all isAsciiDigit || !f.all isAsciiDigit) = true := by
    simp [digitsAll.mpr whole, digitsAll.mpr fraction]
    simpa using some
  have cap : (f.length : Int) ≤ exponentCap := by
    rw [List.length_append] at bound
    unfold exponentCap
    omega
  cases scaled with
  | absent =>
    rw [List.append_nil, finiteEq, cutExponent, splitOnceNone unmarked]
    simp only [cut]
    rw [if_neg pass]
    refine ⟨_,rfl,rfl,by omega,Or.inl ?_⟩
    show 0 - min (f.length : Int) exponentCap = _
    omega
  | @scaled mark sign negative digits marks signs all nonempty =>
    rw [finiteEq, cutExponent, splitOnceAt unmarked marks]
    simp only [cut, scaleOf]
    rw [if_neg pass, readExponentOk signs all nonempty]
    refine ⟨_,rfl,rfl,by omega,?_⟩
    rw [List.length_append] at bound
    simp only
    rw [min_eq_left cap]
    unfold exponentCap
    cases negative <;> simp only [Bool.false_eq_true, if_false, if_true] <;> omega

theorem finiteRead (text : Bytes) : (∃ t w f x q, DecimalPart t w f ∧ ExponentPart x q ∧ text = t ++ x) ∨
    finite text = .error .syntaxError := by
  rw [finiteEq]
  cases cut : cutPoint (cutExponent text).1 with
  | mk w f =>
    by_cases pass : (w.length + f.length = 0 || !w.all isAsciiDigit || !f.all isAsciiDigit) = true
    · exact Or.inr (by simp only [if_pos pass])
    · simp only [if_neg pass]
      simp only [Bool.or_eq_true, not_or, Bool.not_eq_true', Bool.not_eq_false, decide_eq_true_eq] at pass
      have part := cutPart cut (digitsAll.mp pass.1.2) (digitsAll.mp pass.2) pass.1.1
      cases split : splitOnce isExponentMark text with
      | none =>
        simp only [cutExponent, split] at part
        exact Or.inl ⟨_,_,_,_,_,part,.absent,(List.append_nil _).symm⟩
      | some pair =>
        obtain ⟨mantissa, written⟩ := pair
        obtain ⟨mark,marks,rfl⟩ := splitOnceRead split
        simp only [cutExponent, split] at part
        rcases @readExponentRead written with ⟨sign,negative,digits,signs,all,nonempty,rfl⟩ | refused
        · exact Or.inl ⟨_,_,_,_,_,part,.scaled marks signs all nonempty,rfl⟩
        · refine Or.inr ?_
          simp only [cutExponent, split, scaleOf, refused]
          rfl

/-! The names, both ways. -/

theorem notNamed {b c : UInt8} {rest name : Bytes} (differ : toAsciiLowercase b ≠ toAsciiLowercase c) :
    eqIgnoreAsciiCase (b :: rest) (c :: name) = false := by
  simp [eqIgnoreAsciiCase, differ]

theorem nameLength {x name : Bytes} (named : eqIgnoreAsciiCase x name = true) : x.length = name.length := by
  simpa using congrArg List.length (eq_of_beq named)

/- A name starts with its own letter. -/
theorem nameHead {x name : Bytes} {c : UInt8} (named : eqIgnoreAsciiCase x (c :: name) = true) :
    ∃ b rest, x = b :: rest ∧ toAsciiLowercase b = toAsciiLowercase c := by
  rcases x with _ | ⟨b, rest⟩
  · cases named
  · have same := eq_of_beq named
    rw [List.map_cons, List.map_cons] at same
    exact ⟨b,rest,rfl,(List.cons.inj same).1⟩

theorem nanEq (rest : Bytes) : nan rest =
    if eqIgnoreAsciiCase (rest.take 4) snanText then some (readPayload true (rest.drop 4))
    else if eqIgnoreAsciiCase (rest.take 3) nanText then some (readPayload false (rest.drop 3))
    else none :=
  rfl

theorem readPayloadOk (signalling : Bool) {payload : Bytes} (digits : Digits payload)
    (short : (trimZeros payload).length ≤ payloadDigits) : readPayload signalling payload = .ok (signalling,digitsValue payload) := by
  rw [readPayload, digitsAll.mpr digits, Bool.not_true, if_neg Bool.noConfusion, if_neg (by omega), trimValue]

theorem readPayloadRead (signalling : Bool) (payload : Bytes) :
    (Digits payload ∧ (trimZeros payload).length ≤ payloadDigits) ∨ readPayload signalling payload = .error .syntaxError := by
  unfold readPayload
  split_ifs with other long
  · exact Or.inr rfl
  · exact Or.inr rfl
  · rw [Bool.not_eq_true', Bool.not_eq_false] at other
    exact Or.inl ⟨digitsAll.mp other,by omega⟩

theorem nanOk {name payload : Bytes} (named : eqIgnoreAsciiCase name nanText = true) (digits : Digits payload)
    (short : (trimZeros payload).length ≤ payloadDigits) :
    nan (name ++ payload) = some (.ok (false,digitsValue payload)) := by
  have length := nameLength named
  obtain ⟨b,rest,rfl,letter⟩ := nameHead named
  have other : eqIgnoreAsciiCase ((b :: rest ++ payload).take 4) snanText = false := by
    rw [List.cons_append, List.take_succ_cons]
    exact notNamed (by rw [letter]; decide)
  have taken : (b :: rest ++ payload).take 3 = b :: rest := List.take_left' length
  have left : (b :: rest ++ payload).drop 3 = payload := List.drop_left' length
  rw [nanEq, other, if_neg Bool.noConfusion, taken, if_pos named, left, readPayloadOk false digits short]

theorem snanOk {name payload : Bytes} (named : eqIgnoreAsciiCase name snanText = true) (digits : Digits payload)
    (short : (trimZeros payload).length ≤ payloadDigits) :
    nan (name ++ payload) = some (.ok (true,digitsValue payload)) := by
  have length := nameLength named
  have taken : (name ++ payload).take 4 = name := List.take_left' length
  have left : (name ++ payload).drop 4 = payload := List.drop_left' length
  rw [nanEq, taken, if_pos named, left, readPayloadOk true digits short]

/- What is no NaN of the syntax is refused, or is left to the other forms. -/
theorem nanRead {rest : Bytes} {read : Except ParseError (Bool × Nat)} (is : nan rest = some read) :
    (∃ name payload, (eqIgnoreAsciiCase name nanText = true ∨ eqIgnoreAsciiCase name snanText = true) ∧ Digits payload ∧
      (trimZeros payload).length ≤ payloadDigits ∧ rest = name ++ payload) ∨ read = .error .syntaxError := by
  rw [nanEq] at is
  split_ifs at is with signalling quiet
  · cases is
    rcases readPayloadRead true (rest.drop 4) with ⟨digits,short⟩ | refused
    · exact Or.inl ⟨_,_,Or.inr signalling,digits,short,(List.take_append_drop 4 rest).symm⟩
    · exact Or.inr refused
  · cases is
    rcases readPayloadRead false (rest.drop 3) with ⟨digits,short⟩ | refused
    · exact Or.inl ⟨_,_,Or.inl quiet,digits,short,(List.take_append_drop 3 rest).symm⟩
    · exact Or.inr refused

theorem partHead {t w f : Bytes} (part : DecimalPart t w f) : ∃ b rest, t = b :: rest ∧ startsNumber b = true := by
  have first {x : Bytes} (digits : Digits x) (some : x ≠ []) : ∃ b rest, x = b :: rest ∧ startsNumber b = true := by
    rcases x with _ | ⟨b, rest⟩
    · exact absurd rfl some
    · exact ⟨b,rest,rfl,by rw [startsNumber, digits b List.mem_cons_self]; rfl⟩
  cases part with
  | pointed digits some more =>
    obtain ⟨b,rest,rfl,starts⟩ := first digits some
    exact ⟨b,_,rfl,starts⟩
  | leading digits some => exact ⟨_,_,rfl,rfl⟩
  | whole digits some => exact first digits some

/-! The parser against the syntax. -/

def isInfinity (rest : Bytes) : Bool := eqIgnoreAsciiCase rest infText || eqIgnoreAsciiCase rest infinityText

theorem parseEq (text : Bytes) : parse text =
    if isInfinity (takeSign text).2 then .ok (word (takeSign text).1 infinityBits)
    else match nan (takeSign text).2 with
      | some read => read.bind fun payload =>
          .ok (word (takeSign text).1
            (if payload.1 then nanBits ||| payload.2 ||| signallingBits else nanBits ||| payload.2))
      | none => (finite (takeSign text).2).bind fun number => (fit number).bind fun pair =>
          .ok (word (takeSign text).1 (((pair.2 - minExponent).toNat <<< 113) ||| pair.1)) :=
  rfl

theorem wordPack (negative : Bool) (c : Nat) (e : Int) :
    word negative (((e - minExponent).toNat <<< 113) ||| c) = pack negative c e := by
  rw [word, pack, packBits, Nat.or_assoc, show e - minExponent = e + exponentBias from rfl]

theorem parseFinite {s t w f x : Bytes} {negative : Bool} {q : Int} (signs : Sign s negative) (part : DecimalPart t w f)
    (scaled : ExponentPart x q) (short : (s ++ (t ++ x)).length < 2 ^ 39) :
    ∃ number, number.digits = trimZeros (w ++ f) ∧ Capped (w ++ f).length number.exponent (q - f.length) ∧
      parse (s ++ (t ++ x)) = (fit number).bind fun pair => .ok (pack negative pair.1 pair.2) := by
  obtain ⟨number,read,digits,capped⟩ := finiteOk part scaled (by rw [List.length_append] at short; omega)
  refine ⟨number,digits,capped,?_⟩
  obtain ⟨b,rest,rfl,starts⟩ := partHead part
  obtain ⟨minus,plus,notI,notN,notS⟩ := numberHead b starts
  have sign : takeSign (s ++ (b :: rest ++ x)) = (negative,b :: rest ++ x) := by
    refine takeSignSome signs fun c member => ?_
    cases member
    exact ⟨minus,plus⟩
  have finiteOnly : isInfinity (b :: rest ++ x) = false := by
    rw [List.cons_append, isInfinity, infText, infinityText, notNamed notI, notNamed notI]
    rfl
  have noNan : nan (b :: rest ++ x) = none := by
    rw [nanEq, List.cons_append, List.take_succ_cons, List.take_succ_cons, snanText, nanText, notNamed notS, notNamed notN]
    rfl
  rw [parseEq, sign]
  simp only [finiteOnly, noNan, read, wordPack]
  rfl

theorem parseInfinity {s name : Bytes} {negative : Bool} (signs : Sign s negative)
    (named : eqIgnoreAsciiCase name infText = true ∨ eqIgnoreAsciiCase name infinityText = true) :
    parse (s ++ name) = .ok (word negative infinityBits) := by
  have letter : ∃ b rest, name = b :: rest ∧ toAsciiLowercase b = 0x69 := by
    rcases named with named | named
    · exact nameHead named
    · exact nameHead named
  obtain ⟨b,rest,rfl,letter⟩ := letter
  have sign : takeSign (s ++ b :: rest) = (negative,b :: rest) := by
    refine takeSignSome signs fun c member => ?_
    cases member
    exact letterHead b (Or.inl letter)
  have infinity : isInfinity (b :: rest) = true := Bool.or_eq_true_iff.mpr named
  rw [parseEq, sign]
  simp only [infinity, if_true]

theorem parseNan {s name payload : Bytes} {negative signalling : Bool} {value : Nat} (signs : Sign s negative)
    (letter : ∃ b rest, name = b :: rest ∧ (toAsciiLowercase b = 0x6E ∨ toAsciiLowercase b = 0x73))
    (read : nan (name ++ payload) = some (.ok (signalling,value))) :
    parse (s ++ (name ++ payload)) =
      .ok (word negative (if signalling then nanBits ||| value ||| signallingBits else nanBits ||| value)) := by
  obtain ⟨b,rest,rfl,letter⟩ := letter
  have sign : takeSign (s ++ (b :: rest ++ payload)) = (negative,b :: rest ++ payload) := by
    refine takeSignSome signs fun c member => ?_
    cases member
    exact letterHead b (Or.inr letter)
  have other : toAsciiLowercase b ≠ toAsciiLowercase 0x69 := by
    rcases letter with is | is <;> rw [is] <;> decide
  have finiteOnly : isInfinity (b :: rest ++ payload) = false := by
    rw [List.cons_append, isInfinity, infText, infinityText, notNamed other, notNamed other]
    rfl
  rw [parseEq, sign]
  simp only [finiteOnly, read]
  rfl

/- A text that is not refused as syntax is of the syntax. -/
theorem parseRead {text : Bytes} (accepted : parse text ≠ .error .syntaxError) : ∃ m, Numeric text m := by
  obtain ⟨s,signs,split⟩ := @takeSignRead text (takeSign text).2 _ rfl
  rw [parseEq] at accepted
  rw [split]
  generalize (takeSign text).2 = rest at *
  generalize (takeSign text).1 = negative at *
  by_cases infinity : isInfinity rest = true
  · exact ⟨_,.infinity signs (Bool.or_eq_true_iff.mp infinity)⟩
  · rw [if_neg infinity] at accepted
    cases named : nan rest with
    | some read =>
      rcases nanRead named with ⟨name,payload,names | names,digits,short,rfl⟩ | rfl
      · exact ⟨_,.nan signs names digits short⟩
      · exact ⟨_,.snan signs names digits short⟩
      · rw [named] at accepted
        exact absurd rfl accepted
    | none =>
      rcases finiteRead rest with ⟨t,w,f,x,q,part,scaled,rfl⟩ | refused
      · exact ⟨_,.finite signs part scaled⟩
      · rw [named] at accepted
        simp only [refused] at accepted
        exact absurd rfl accepted

theorem wordBits (negative : Bool) {fields : Nat} (below : fields < 2 ^ 127) :
    (word negative fields).toNat = negative.toNat * 2 ^ 127 + fields := by
  have sign : negative.toNat ≤ 1 := by cases negative <;> decide
  rw [word, ← Nat.shiftLeft_add_eq_or_of_lt below, Nat.shiftLeft_eq, BitVec.toNat_ofNat, Nat.mod_eq_of_lt]
  omega

theorem nanFields (negative : Bool) {v : Nat} (low : v < 2 ^ 122) :
    decodeRaw (word negative (31 * 2 ^ 122 + v)) = .nan ∧
      (word negative (31 * 2 ^ 122 + v)).toNat = negative.toNat * 2 ^ 127 + (31 * 2 ^ 122 + v) := by
  have bits := @wordBits negative (31 * 2 ^ 122 + v) (by omega)
  refine ⟨?_,bits⟩
  have sign : negative.toNat ≤ 1 := by cases negative <;> decide
  rw [decodeRaw, bits, decodeRawBits]
  simp only [Nat.shiftRight_eq_div_pow]
  rw [Nat.and_two_pow_sub_one_eq_mod _ 2, Nat.and_two_pow_sub_one_eq_mod _ 5, if_pos (by omega), if_neg (by omega),
    if_pos (by omega)]

/- A NaN keeps its sign, its signalling bit and its payload, each in its own field. -/
theorem nanWord (negative signalling : Bool) {payload : Nat} (small : payload < 10 ^ 33) :
    ∃ w, w = word negative (if signalling then nanBits ||| payload ||| signallingBits else nanBits ||| payload) ∧
      decodeRaw w = .nan ∧
      w.toNat = negative.toNat * 2 ^ 127 + (31 * 2 ^ 122 + (signalling.toNat * 2 ^ 121 + payload)) := by
  refine ⟨_,rfl,?_⟩
  have low : signalling.toNat * 2 ^ 121 + payload < 2 ^ 122 := by cases signalling <;> simp <;> omega
  have fields : (if signalling then nanBits ||| payload ||| signallingBits else nanBits ||| payload) =
      31 * 2 ^ 122 + (signalling.toNat * 2 ^ 121 + payload) := by
    have quiet : nanBits ||| (signalling.toNat * 2 ^ 121 + payload) = 31 * 2 ^ 122 + (signalling.toNat * 2 ^ 121 + payload) := by
      rw [nanBits, ← Nat.shiftLeft_add_eq_or_of_lt low, Nat.shiftLeft_eq]
    rw [← quiet]
    cases signalling with
    | false => simp
    | true =>
      have signal : signallingBits ||| payload = 1 * 2 ^ 121 + payload := by
        rw [signallingBits, ← Nat.shiftLeft_add_eq_or_of_lt (by omega), Nat.shiftLeft_eq]
      rw [if_pos rfl, Nat.or_assoc, Nat.or_comm payload, signal]
      rfl
  rw [fields]
  exact nanFields negative low

theorem payloadBound {payload : Bytes} (digits : Digits payload) (short : (trimZeros payload).length ≤ payloadDigits) :
    digitsValue payload < 10 ^ 33 := by
  rw [← trimValue]
  exact lt_of_lt_of_le (valueBound (trimDigits digits)) (Nat.pow_le_pow_right (by decide) short)

/- The syntax is accepted exactly, and a number is read exactly or refused because no `Decimal128` equals it. -/
theorem parsesExactly (text : Bytes) (short : text.length < 2 ^ 39) :
    (parse text = .error .syntaxError ↔ ¬ ∃ m, Numeric text m) ∧
    (∀ negative n q, Numeric text (.finite negative n q) →
      (∀ w, parse text = .ok w → Exact.decimal w = .finite (Exact.signed negative (magnitude n q)) ∧
        ∃ c e, decodeRaw w = .finite negative c e ∧ Nearest n q c e) ∧
      ((∃ err, parse text = .error err) ↔
        ∀ w, Exact.decimal w ≠ .finite (Exact.signed negative (magnitude n q)))) ∧
    (∀ negative, Numeric text (.inf negative) → ∃ w, parse text = .ok w ∧ decodeRaw w = .inf negative) ∧
    ∀ negative signalling payload, Numeric text (.nan negative signalling payload) →
      ∃ w, parse text = .ok w ∧ decodeRaw w = .nan ∧
        w.toNat = negative.toNat * 2 ^ 127 + (31 * 2 ^ 122 + (signalling.toNat * 2 ^ 121 + payload)) := by
  have finite {negative : Bool} {n : Nat} {q : Int} (numeric : Numeric text (.finite negative n q)) :
      (∃ c e, parse text = .ok (pack negative c e) ∧ Nearest n q c e) ∨
        ∃ err, parse text = .error err ∧ err ≠ .syntaxError ∧ Unheld n q := by
    cases numeric with
    | @finite s _ t w f x q signs part scaled =>
      obtain ⟨number,digits,capped,parsed⟩ := parseFinite signs part scaled short
      have all : Digits (w ++ f) := by
        obtain ⟨_,whole,fraction,_⟩ := partCut part
        exact fun b member => (List.mem_append.mp member).elim (whole b) (fraction b)
      have leads : number.digits = [] ∨ Leads number.digits := by
        rw [digits]
        exact or_iff_not_imp_left.mpr (trimLeads all)
      have value : digitsValue number.digits = digitsValue (w ++ f) := by rw [digits, trimValue]
      have most := valueBound all
      cases fitted : fit number with
      | ok pair =>
        refine Or.inl ⟨pair.1,pair.2,by rw [parsed, fitted]; rfl,?_⟩
        exact cappedNearest capped most (value ▸ fitOk leads fitted)
      | error err =>
        obtain ⟨other,none⟩ := fitError leads fitted
        exact Or.inr ⟨err,by rw [parsed, fitted]; rfl,other,cappedUnheld capped most (value ▸ none)⟩
  have infinity {negative : Bool} (numeric : Numeric text (.inf negative)) :
      ∃ w, parse text = .ok w ∧ decodeRaw w = .inf negative := by
    cases numeric with
    | infinity signs named =>
      exact ⟨_,parseInfinity signs named,by cases negative <;> decide +kernel⟩
  have nan {negative signalling : Bool} {payload : Nat} (numeric : Numeric text (.nan negative signalling payload)) :
      ∃ w, parse text = .ok w ∧ decodeRaw w = .nan ∧
        w.toNat = negative.toNat * 2 ^ 127 + (31 * 2 ^ 122 + (signalling.toNat * 2 ^ 121 + payload)) := by
    cases numeric with
    | nan signs named digits few =>
      obtain ⟨b,rest,is,letter⟩ := nameHead named
      obtain ⟨w,rfl,read⟩ := nanWord negative false (payloadBound digits few)
      exact ⟨_,parseNan signs ⟨b,rest,is,Or.inl letter⟩ (nanOk named digits few),read⟩
    | snan signs named digits few =>
      obtain ⟨b,rest,is,letter⟩ := nameHead named
      obtain ⟨w,rfl,read⟩ := nanWord negative true (payloadBound digits few)
      exact ⟨_,parseNan signs ⟨b,rest,is,Or.inr letter⟩ (snanOk named digits few),read⟩
  refine ⟨⟨?_,?_⟩,fun negative n q numeric => ⟨fun w parsed => ?_,?_⟩,fun _ => infinity,fun _ _ _ => nan⟩
  · rintro refused ⟨m,numeric⟩
    cases m with
    | finite negative n q =>
      rcases finite numeric with ⟨_,_,parsed,_⟩ | ⟨err,parsed,other,_⟩
      · rw [refused] at parsed
        cases parsed
      · rw [refused] at parsed
        cases parsed
        exact other rfl
    | inf negative =>
      obtain ⟨_,parsed,_⟩ := infinity numeric
      rw [refused] at parsed
      cases parsed
    | nan negative signalling payload =>
      obtain ⟨_,parsed,_⟩ := nan numeric
      rw [refused] at parsed
      cases parsed
  · intro none
    by_contra accepted
    exact none (parseRead accepted)
  · rcases finite numeric with ⟨c,e,is,near⟩ | ⟨err,is,_⟩
    · rw [is] at parsed
      cases parsed
      exact ⟨by rw [packValue negative near.fits, near.worth],c,e,decodeRawPack negative near.fits,near⟩
    · rw [is] at parsed
      cases parsed
  · constructor
    · rintro ⟨err,refused⟩ w same
      rcases finite numeric with ⟨c,e,is,near⟩ | ⟨err',is,_,none⟩
      · rw [is] at refused
        cases refused
      · obtain ⟨sign,c,e,fits,worth⟩ := finiteHolds same
        exact none c e fits (signedMagnitude worth.symm)
    · intro none
      rcases finite numeric with ⟨c,e,is,near⟩ | ⟨err,is,_⟩
      · exact absurd (by rw [packValue negative near.fits, near.worth]) (none (pack negative c e))
      · exact ⟨err,is⟩

/- `1.50` keeps its written exponent. -/
theorem parsesPrice : ∃ w, parse [0x31,0x2E,0x35,0x30] = .ok w ∧ decodeRaw w = .finite false 150 (-2) ∧
    Exact.decimal w = .finite (Exact.signed false (magnitude 150 (-2))) := by
  have numeric : Numeric [0x31,0x2E,0x35,0x30] (.finite false 150 (-2)) := by
    have one : Digits [0x31] := digitsAll.mp rfl
    have fifty : Digits [0x35,0x30] := digitsAll.mp rfl
    exact .finite .absent (.pointed one (List.cons_ne_nil _ _) fifty) .absent
  have parsed : parse [0x31,0x2E,0x35,0x30] = .ok (pack false 150 (-2)) := by decide
  have exact' := (((parsesExactly _ (by decide)).2.1 _ _ _ numeric).1 _ parsed).1
  exact ⟨_,parsed,by decide,exact'⟩

end Kimmy.Decimal.Parse
