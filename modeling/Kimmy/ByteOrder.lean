import Mathlib.Data.Nat.Digits.Lemmas
import Mathlib.Order.Compare

/-!
Byte strings under `memcmp`. A code is judged pairwise: `Codes o x y` says that the
two strings are equal when `o` is `eq`, and otherwise differ inside both of them, with
the smaller byte on the side `o` names. Such a difference survives any suffix and is
reversed by inverting every byte, which is all a self-delimiting key needs.
-/
namespace Kimmy.ByteOrder

abbrev Bytes := List UInt8

/- The first difference lies inside both strings: neither is a prefix of the other. -/
def Below (x y : Bytes) : Prop :=
  ∃ (p : Bytes) (c d : UInt8) (u v : Bytes), x = p ++ c :: u ∧ y = p ++ d :: v ∧ c < d

def Codes : Ordering → Bytes → Bytes → Prop
  | .lt, x, y => Below x y
  | .eq, x, y => x = y
  | .gt, x, y => Below y x

theorem belowCompare {x y} (h : Below x y) (s t : Bytes) : compare (x ++ s) (y ++ t) = .lt := by
  obtain ⟨p,c,d,u,v,rfl,rfl,lt⟩ := h
  induction p with
  | nil =>
    have first : compare c d = .lt := by
      simpa only [compare, compareOfLessAndEq, ite_eq_left_iff] using fun no => absurd lt no
    simp [List.compare_cons_cons, first]
  | cons a p ih => simpa [List.compare_cons_cons] using ih

theorem belowAppend {x y} (h : Below x y) (s t : Bytes) : Below (x ++ s) (y ++ t) := by
  obtain ⟨p,c,d,u,v,rfl,rfl,lt⟩ := h
  exact ⟨p,c,d,u ++ s,v ++ t,by simp,by simp,lt⟩

theorem belowPrefix {x y} (h : Below x y) (q : Bytes) : Below (q ++ x) (q ++ y) := by
  obtain ⟨p,c,d,u,v,rfl,rfl,lt⟩ := h
  exact ⟨q ++ p,c,d,u,v,by simp,by simp,lt⟩

theorem belowHead {c d : UInt8} (lt : c < d) (u v : Bytes) : Below (c :: u) (d :: v) :=
  ⟨[],c,d,u,v,rfl,rfl,lt⟩

theorem belowNotPrefix {x y} (h : Below x y) : ¬ x <+: y ∧ ¬ y <+: x := by
  have apart := belowCompare h
  constructor
  · rintro ⟨t,rfl⟩
    have := apart t []
    simp at this
  · rintro ⟨t,rfl⟩
    have := apart [] t
    simp at this

/-! Rules for codes. -/

theorem codesSwap {o x y} (h : Codes o x y) : Codes o.swap y x := by
  cases o with
  | lt => exact h
  | eq => exact h.symm
  | gt => exact h

/- The rule every compound code is assembled with. -/
theorem codesAppend {o o' x y x' y'} (h : Codes o x y) (h' : Codes o' x' y') :
    Codes (o.then o') (x ++ x') (y ++ y') := by
  cases o with
  | lt => exact belowAppend h x' y'
  | gt => exact belowAppend h y' x'
  | eq =>
    cases (show x = y from h)
    cases o' with
    | lt => exact belowPrefix h' x
    | eq => exact congrArg (x ++ ·) h'
    | gt => exact belowPrefix h' x

theorem codesPrefix {o x y} (q : Bytes) (h : Codes o x y) : Codes o (q ++ x) (q ++ y) := by
  have same : Codes .eq q q := rfl
  simpa using codesAppend same h

theorem codesCons {o x y} (c : UInt8) (h : Codes o x y) : Codes o (c :: x) (c :: y) :=
  codesPrefix [c] h

theorem codesCompare {o x y} (h : Codes o x y) (s t : Bytes) :
    compare (x ++ s) (y ++ t) = o.then (compare s t) := by
  cases o with
  | lt => exact belowCompare h s t
  | gt =>
    have back := belowCompare h t s
    rw [Std.OrientedOrd.eq_swap, back]
    rfl
  | eq =>
    cases (show x = y from h)
    induction x with
    | nil => rfl
    | cons c x ih => simpa [List.compare_cons_cons] using ih rfl

theorem codesCompareWhole {o x y} (h : Codes o x y) : compare x y = o := by
  simpa using codesCompare h [] []

theorem codesNotPrefix {o x y} (h : Codes o x y) (differ : x ≠ y) : ¬ x <+: y := by
  cases o with
  | lt => exact (belowNotPrefix h).1
  | eq => exact absurd h differ
  | gt => exact (belowNotPrefix h).2

/-! Inverting every byte turns the order round, because no code is a prefix of another. -/

def invert (x : Bytes) : Bytes := x.map (fun c => ~~~c)

theorem complementLt {c d : UInt8} (lt : c < d) : ~~~d < ~~~c := by
  rw [UInt8.lt_iff_toNat_lt] at *
  simp only [UInt8.toNat_not, UInt8.size]
  have := c.toNat_lt
  have := d.toNat_lt
  omega

theorem belowInvert {x y} (h : Below x y) : Below (invert y) (invert x) := by
  obtain ⟨p,c,d,u,v,rfl,rfl,lt⟩ := h
  exact ⟨invert p,~~~d,~~~c,invert v,invert u,by simp [invert],by simp [invert],complementLt lt⟩

theorem codesInvert {o x y} (h : Codes o x y) : Codes o.swap (invert x) (invert y) := by
  cases o with
  | lt => exact belowInvert h
  | eq => exact congrArg invert h
  | gt => exact belowInvert h

/-! Fixed-width naturals, most significant byte first. -/

def be : Nat → Nat → Bytes
  | 0, _ => []
  | width + 1, value => UInt8.ofNat (value / 256 ^ width) :: be width (value % 256 ^ width)

theorem beLength (width value : Nat) : (be width value).length = width := by
  induction width generalizing value with
  | zero => rfl
  | succ width ih => simp [be, ih]

theorem compareDivMod (a b m : Nat) :
    compare a b = (compare (a / m) (b / m)).then (compare (a % m) (b % m)) := by
  have ha := Nat.div_add_mod a m
  have hb := Nat.div_add_mod b m
  rcases Nat.eq_zero_or_pos m with rfl | pos
  · simp
  rcases lt_trichotomy (a / m) (b / m) with high | high | high
  · have less : a < b := lt_of_not_ge fun ge => absurd (Nat.div_le_div_right (c := m) ge) (by omega)
    rw [compare_lt_iff_lt.mpr high, compare_lt_iff_lt.mpr less]
    rfl
  · rw [compare_eq_iff_eq.mpr high, Ordering.eq_then]
    rw [high] at ha
    rcases lt_trichotomy (a % m) (b % m) with low | low | low
    · rw [compare_lt_iff_lt.mpr low, compare_lt_iff_lt]; omega
    · rw [compare_eq_iff_eq.mpr low, compare_eq_iff_eq]; omega
    · rw [compare_gt_iff_gt.mpr low, compare_gt_iff_gt]; omega
  · have less : b < a := lt_of_not_ge fun ge => absurd (Nat.div_le_div_right (c := m) ge) (by omega)
    rw [compare_gt_iff_gt.mpr high, compare_gt_iff_gt.mpr less]
    rfl

theorem compareByte (c d : UInt8) : compare c d = compare c.toNat d.toNat := by
  simp only [compare, compareOfLessAndEq, UInt8.lt_iff_toNat_lt, UInt8.toNat_inj]

theorem codesByte (c d : UInt8) : Codes (compare c d) [c] [d] := by
  rw [compareByte]
  rcases lt_trichotomy c.toNat d.toNat with lt | same | gt
  · rw [compare_lt_iff_lt.mpr lt]
    exact belowHead (UInt8.lt_iff_toNat_lt.mpr lt) [] []
  · rw [compare_eq_iff_eq.mpr same]
    exact congrArg (fun c => [c]) (UInt8.toNat_inj.mp same)
  · rw [compare_gt_iff_gt.mpr gt]
    exact belowHead (UInt8.lt_iff_toNat_lt.mpr gt) [] []

theorem codesBe {width a b : Nat} (ha : a < 256 ^ width) (hb : b < 256 ^ width) :
    Codes (compare a b) (be width a) (be width b) := by
  induction width generalizing a b with
  | zero =>
    have : compare a b = .eq := compare_eq_iff_eq.mpr (by simp at ha hb; omega)
    rw [this]
    exact rfl
  | succ width ih =>
    rw [compareDivMod a b (256 ^ width)]
    have pos : 0 < 256 ^ width := by positivity
    have top {n : Nat} (h : n < 256 ^ (width + 1)) : n / 256 ^ width < 256 :=
      Nat.div_lt_of_lt_mul (by rwa [pow_succ] at h)
    have head := codesByte (UInt8.ofNat (a / 256 ^ width)) (UInt8.ofNat (b / 256 ^ width))
    rw [compareByte, UInt8.toNat_ofNat', UInt8.toNat_ofNat', Nat.mod_eq_of_lt (top ha),
      Nat.mod_eq_of_lt (top hb)] at head
    exact codesAppend head (ih (Nat.mod_lt a pos) (Nat.mod_lt b pos))

theorem beSnoc (width value : Nat) :
    be (width + 1) value = be width (value / 256) ++ [UInt8.ofNat value] := by
  induction width generalizing value with
  | zero => simp [be]
  | succ width ih =>
    rw [be, ih, be, List.cons_append]
    have top : value / 256 ^ (width + 1) = value / 256 / 256 ^ width := by
      rw [Nat.div_div_eq_div_mul, pow_succ']
    have middle : value % 256 ^ (width + 1) / 256 = value / 256 % 256 ^ width := by
      rw [pow_succ', Nat.mod_mul_right_div_self]
    have last : UInt8.ofNat (value % 256 ^ (width + 1)) = UInt8.ofNat value := by
      rw [← UInt8.toNat_inj, UInt8.toNat_ofNat', UInt8.toNat_ofNat', pow_succ',
        Nat.mod_mul_right_mod]
    rw [top, middle, last]

theorem beShift (width k value : Nat) :
    be (width + k) (value * 256 ^ k) = be width value ++ List.replicate k 0 := by
  induction k with
  | zero => simp
  | succ k ih =>
    rw [← Nat.add_assoc, beSnoc, pow_succ, ← Nat.mul_assoc, Nat.mul_div_cancel _ (by decide), ih,
      List.replicate_succ', List.append_assoc]
    congr 2
    rw [List.cons.injEq, ← UInt8.toNat_inj, UInt8.toNat_ofNat']
    simp

/-! Zero bytes at the end of equally long strings say nothing about their order. -/

def Stripped (x : Bytes) : Prop := x.getLast? ≠ some 0

theorem strippedTail {c x} (h : Stripped (c :: x)) : Stripped x := by
  cases x with
  | nil => simp [Stripped]
  | cons d x => simpa [Stripped] using h

theorem compareZeros {y : Bytes} (stripped : Stripped y) (nonempty : y ≠ []) {a b : Nat}
    (length : a = y.length + b) : compare (List.replicate a 0) (y ++ List.replicate b 0) = .lt := by
  induction y generalizing a with
  | nil => contradiction
  | cons d y ih =>
    obtain ⟨a,rfl⟩ : ∃ n, a = n + 1 := ⟨y.length + b,by rw [length, List.length_cons]; omega⟩
    rw [List.replicate_succ, List.cons_append, List.compare_cons_cons]
    by_cases zero : d = 0
    · have more : y ≠ [] := fun none => stripped (by simp [none, zero])
      rw [zero, compareByte, compare_eq_iff_eq.mpr rfl, Ordering.eq_then]
      exact ih (strippedTail stripped) more (by simpa [Nat.add_right_comm] using length)
    · have less : compare (0 : UInt8) d = .lt := by
        rw [compareByte, compare_lt_iff_lt]
        exact UInt8.lt_iff_toNat_lt.mp (UInt8.pos_iff_ne_zero.mpr zero)
      rw [less, Ordering.lt_then]

theorem compareStripped {x y : Bytes} (hx : Stripped x) (hy : Stripped y) {a b : Nat}
    (length : x.length + a = y.length + b) :
    compare (x ++ List.replicate a 0) (y ++ List.replicate b 0) = compare x y := by
  induction x generalizing y with
  | nil =>
    cases y with
    | nil =>
      have same : a = b := by simpa using length
      simp [same]
    | cons d y => exact compareZeros hy (by simp) (by simpa using length)
  | cons c x ih =>
    cases y with
    | nil =>
      have less := compareZeros hx (by simp) (b := a) (a := b) (by simpa using length.symm)
      rw [Std.OrientedOrd.eq_swap, List.nil_append, less]
      rfl
    | cons d y =>
      rw [List.cons_append, List.cons_append, List.compare_cons_cons, List.compare_cons_cons,
        ih (strippedTail hx) (strippedTail hy) (by simp only [List.length_cons] at length; omega)]

/-! Byte strings of any length, NULs escaped as `00 FF` and closed by `00` and an end
mark below `FF`. The mark decides between two strings with the same bytes. -/

def escape : Bytes → Bytes
  | [] => []
  | c :: rest => if c = 0 then 0 :: 0xFF :: escape rest else c :: escape rest

theorem codesEscaped (x y : Bytes) {e f : UInt8} (he : e < 0xFF) (hf : f < 0xFF) :
    Codes ((compare x y).then (compare e f)) (escape x ++ [0,e]) (escape y ++ [0,f]) := by
  induction x generalizing y with
  | nil =>
    cases y with
    | nil =>
      simpa [escape] using codesCons 0 (codesByte e f)
    | cons d y =>
      have : compare [] (d :: y) = .lt := rfl
      simp only [this, Ordering.lt_then, escape]
      split
      · exact belowPrefix (belowHead he [] _) [0]
      · exact belowHead (UInt8.pos_iff_ne_zero.mpr ‹_›) _ _
  | cons c x ih =>
    cases y with
    | nil =>
      have : compare (c :: x) [] = .gt := rfl
      simp only [this, Ordering.gt_then, escape]
      split
      · exact belowPrefix (belowHead hf [] _) [0]
      · exact belowHead (UInt8.pos_iff_ne_zero.mpr ‹_›) _ _
    | cons d y =>
      rw [List.compare_cons_cons, Ordering.then_assoc]
      have tails := ih y
      by_cases hc : c = 0 <;> by_cases hd : d = 0
      · subst hc hd
        simpa [escape] using codesPrefix [0,0xFF] tails
      · have : compare c d = .lt := by
          rw [compareByte, compare_lt_iff_lt, hc]
          exact UInt8.lt_iff_toNat_lt.mp (UInt8.pos_iff_ne_zero.mpr hd)
        rw [this, Ordering.lt_then, escape, escape, if_pos hc, if_neg hd]
        exact belowHead (UInt8.pos_iff_ne_zero.mpr hd) _ _
      · have : compare c d = .gt := by
          rw [compareByte, compare_gt_iff_gt, hd]
          exact UInt8.lt_iff_toNat_lt.mp (UInt8.pos_iff_ne_zero.mpr hc)
        rw [this, Ordering.gt_then, escape, escape, if_neg hc, if_pos hd]
        exact belowHead (UInt8.pos_iff_ne_zero.mpr hc) _ _
      · simp only [escape, hc, hd, if_false]
        simpa using codesAppend (codesByte c d) tails

end Kimmy.ByteOrder
