import Kimmy.KeyEnc

/-!
What the key encoder and the comparator promise each other: keys sort as values do, one
component or many, ascending or descending; and the canonical order is a total preorder
that agrees with the exact values of numbers.
-/
namespace Kimmy.KeyOrder
open ByteOrder CanonicalCmp KeyEnc

theorem codesKeys (a b : Bson) : ∃ ka kb, encode a = some ka ∧ encode b = some kb ∧
    Codes (canonicalCmp a b) ka kb := by
  obtain ⟨bodyA,keyA⟩ := encodeTotal a
  obtain ⟨bodyB,keyB⟩ := encodeTotal b
  exact ⟨_,_,keyA,keyB,codesOfInside (insideAll a) keyA keyB⟩

theorem codesEq {o x y} (h : Codes o x y) : x = y ↔ o = .eq := by
  rw [← codesCompareWhole h, Std.LawfulEqOrd.compare_eq_iff_eq]

/- Two values share a key exactly when they are equal. -/
theorem keysAgree (a b : Bson) : ∃ ka kb, encode a = some ka ∧ encode b = some kb ∧
    (ka = kb ↔ canonicalCmp a b = .eq) := by
  obtain ⟨ka,kb,keyA,keyB,coded⟩ := codesKeys a b
  exact ⟨ka,kb,keyA,keyB,codesEq coded⟩

theorem encodeOrder (a b : Bson) : ∃ ka kb, encode a = some ka ∧ encode b = some kb ∧
    compare ka kb = canonicalCmp a b ∧ (ka = kb ↔ canonicalCmp a b = .eq) := by
  obtain ⟨ka,kb,keyA,keyB,coded⟩ := codesKeys a b
  exact ⟨ka,kb,keyA,keyB,codesCompareWhole coded,codesEq coded⟩

/- The canonical order is the byte order of the keys, so it has the byte order's laws. -/
theorem canonicalCmpKeys : ∃ key : Bson → Bytes, ∀ a b, canonicalCmp a b = compare (key a) (key b) := by
  refine ⟨fun a => typeRank a :: (encodeTotal a).choose,fun a b => ?_⟩
  exact (codesCompareWhole (codesOfInside (insideAll a) (encodeTotal a).choose_spec
    (encodeTotal b).choose_spec)).symm

theorem canonicalCmpNumbers {a b : Bson} {x y : Exact} (readA : Exact.ofBson a = some x)
    (readB : Exact.ofBson b = some y) : canonicalCmp a b = Number.cmpNumbers a b := by
  cases a with
  | double v | int32 v | int64 v | decimal128 v =>
    cases b with
    | double w | int32 w | int64 w | decimal128 w => rfl
    | _ => cases readB
  | _ => cases readA

theorem canonicalCmpExact {a b : Bson} {x y : Exact} (readA : Exact.ofBson a = some x)
    (readB : Exact.ofBson b = some y) : canonicalCmp a b = x.cmp y := by
  rw [canonicalCmpNumbers readA readB]
  exact Number.cmpNumbersExact readA readB

theorem cmpRefl (a : Bson) : canonicalCmp a a = .eq := by
  obtain ⟨key,same⟩ := canonicalCmpKeys
  rw [same]
  exact Std.ReflOrd.compare_self

theorem cmpSwap (a b : Bson) : canonicalCmp b a = (canonicalCmp a b).swap := by
  obtain ⟨key,same⟩ := canonicalCmpKeys
  rw [same, same]
  exact Std.OrientedOrd.eq_swap

theorem cmpTrans (a b c : Bson) (first : (canonicalCmp a b).isLE) (second : (canonicalCmp b c).isLE) :
    (canonicalCmp a c).isLE := by
  obtain ⟨key,same⟩ := canonicalCmpKeys
  rw [same] at *
  exact Std.TransOrd.isLE_trans first second

instance canonicalTrans : Std.TransCmp canonicalCmp where
  eq_swap {a b} := cmpSwap b a
  isLE_trans {a b c} := cmpTrans a b c

/- A comparison read in one direction or the other. -/
def directed {α : Type} (cmp : α → α → Ordering) (down : Bool) (a b : α) : Ordering :=
  if down then (cmp a b).swap else cmp a b

instance directedTrans {α : Type} {cmp : α → α → Ordering} [Std.TransCmp cmp] (down : Bool) : Std.TransCmp (directed cmp down) := by
  cases down with
  | false => exact inferInstanceAs (Std.TransCmp cmp)
  | true =>
    have same : directed cmp true = fun a b => cmp b a := funext fun a => funext fun b => Std.OrientedCmp.eq_swap.symm
    rw [same]
    infer_instance

theorem cmpCongr {x y : Bson} (same : canonicalCmp x y = .eq) (z : Bson) : canonicalCmp x z = canonicalCmp y z := by
  obtain ⟨key,is⟩ := canonicalCmpKeys
  rw [is] at same
  rw [is, is, Std.LawfulEqOrd.compare_eq_iff_eq.mp same]

theorem rankSame {x y : Bson} (same : canonicalCmp x y = .eq) : typeRank x = typeRank y := by
  by_contra differ
  rw [cmpRanks differ] at same
  exact differ (Std.LawfulEqOrd.compare_eq_iff_eq.mp same)

theorem canonicalCmpTotalPreorder :
    (∀ a, canonicalCmp a a = .eq) ∧ (∀ a b, canonicalCmp b a = (canonicalCmp a b).swap) ∧
    (∀ a b c, (canonicalCmp a b).isLE → (canonicalCmp b c).isLE → (canonicalCmp a c).isLE) ∧
    ∀ a b x y, Exact.ofBson a = some x → Exact.ofBson b = some y → canonicalCmp a b = x.cmp y :=
  ⟨cmpRefl,cmpSwap,cmpTrans,fun _ _ _ _ readA readB => canonicalCmpExact readA readB⟩

/- `0.1` as a double is slightly above the decimal `0.1`, and both are above the integer 0. -/
theorem canonicalCmpTenths :
    let double := Bson.double 0x3FB999999999999A
    let decimal := Bson.decimal128 0x303E0000000000000000000000000001#128
    canonicalCmp (.int32 0) decimal = .lt ∧ canonicalCmp decimal double = .lt ∧
      (canonicalCmp (.int32 0) double).isLE := by
  dsimp only
  have zero : Exact.ofBson (.int32 0) = some (.finite 0) := by
    simp [Exact.ofBson]
  have tenth : Exact.ofBson (.decimal128 0x303E0000000000000000000000000001#128) =
      some (.finite (1 * 10 ^ (-1 : Int))) := by
    rfl
  have double : Exact.ofBson (.double 0x3FB999999999999A) =
      some (.finite ((2 ^ 52 + 2702159776422298) * 2 ^ (-56 : Int))) := by
    rfl
  obtain ⟨_,_,trans,exact⟩ := canonicalCmpTotalPreorder
  have first := exact _ _ _ _ zero tenth
  have second := exact _ _ _ _ tenth double
  have below : (0 : ℚ) < 1 * 10 ^ (-1 : Int) := by norm_num
  have above : (1 * 10 ^ (-1 : Int) : ℚ) < (2 ^ 52 + 2702159776422298) * 2 ^ (-56 : Int) := by norm_num
  rw [Exact.cmp, compare_lt_iff_lt.mpr below] at first
  rw [Exact.cmp, compare_lt_iff_lt.mpr above] at second
  exact ⟨first,second,trans _ _ _ (by rw [first]; rfl) (by rw [second]; rfl)⟩

/-! Compound keys. -/

def cmpComponents : List Bool → List Bson → List Bson → Ordering
  | descending :: more, x :: xs, y :: ys =>
      (if descending then (canonicalCmp x y).swap else canonicalCmp x y).then (cmpComponents more xs ys)
  | _, _, _ => .eq

/- The sort keys the storage layer files documents under when it cannot key them. -/
def reserved : List Bytes := [[],[0x00]]

theorem codesComponents {directions : List Bool} {xs ys : List Bson} (hx : xs.length = directions.length)
    (hy : ys.length = directions.length) : ∃ kx ky, encodeCompoundOrdered (xs.zip directions) = some kx ∧
      encodeCompoundOrdered (ys.zip directions) = some ky ∧ Codes (cmpComponents directions xs ys) kx ky := by
  induction directions generalizing xs ys with
  | nil =>
    rw [List.zip_nil_right, List.zip_nil_right]
    exact ⟨[],[],rfl,rfl,by rw [cmpComponents]; rfl; simp⟩
  | cons descending more ih =>
    cases xs with
    | nil => simp at hx
    | cons x xs =>
      cases ys with
      | nil => simp at hy
      | cons y ys =>
        obtain ⟨restX,restY,keyX,keyY,rest⟩ := ih (by simpa using hx) (by simpa using hy)
        obtain ⟨kx,ky,headX,headY,head⟩ := codesKeys x y
        refine ⟨_,_,by rw [List.zip_cons_cons, encodeCompoundOrdered, headX, keyX]; rfl,
          by rw [List.zip_cons_cons, encodeCompoundOrdered, headY, keyY]; rfl,?_⟩
        refine codesAppend ?_ rest
        cases descending with
        | false => exact head
        | true => exact codesInvert head

/- Ascending tags start at `01`; the highest, `F0`, inverts to `0F`. -/
theorem tagBytes (x : Bson) : leastKeyTag ≤ typeRank x ∧ leastKeyTag ≤ ~~~(typeRank x) := by
  cases x <;> simp only [typeRank] <;> decide

theorem leadingByte {descending : Bool} {more : List Bool} {x : Bson} {xs : List Bson} {k : Bytes}
    (h : encodeCompoundOrdered ((x :: xs).zip (descending :: more)) = some k) :
    ∃ c rest, k = c :: rest ∧ leastKeyTag ≤ c := by
  obtain ⟨body,key⟩ := encodeTotal x
  rw [List.zip_cons_cons, encodeCompoundOrdered, key] at h
  simp only [Option.bind_eq_bind, Option.bind_some] at h
  obtain ⟨tail,_,whole⟩ := Option.bind_eq_some_iff.mp h
  cases whole
  obtain ⟨low,inverted⟩ := tagBytes x
  cases descending with
  | false => exact ⟨_,_,rfl,low⟩
  | true => exact ⟨_,_,rfl,inverted⟩

theorem aboveReserved {c : UInt8} {rest : Bytes} (tag : leastKeyTag ≤ c) :
    ∀ run ∈ reserved, compare run (c :: rest) = .lt := by
  have above : Below [0x00] (c :: rest) :=
    belowHead (UInt8.lt_of_lt_of_le (by decide : (0x00 : UInt8) < leastKeyTag) tag) [] rest
  intro run mem
  rcases List.mem_cons.mp mem with rfl | mem
  · rfl
  · rw [List.mem_singleton.mp mem]
    simpa using belowCompare above [] []

theorem compoundOrder (directions : List Bool) (xs ys : List Bson) (hx : xs.length = directions.length)
    (hy : ys.length = directions.length) :
    ∃ kx ky, encodeCompoundOrdered (xs.zip directions) = some kx ∧
      encodeCompoundOrdered (ys.zip directions) = some ky ∧
      compare kx ky = cmpComponents directions xs ys ∧
      (kx ≠ ky → ¬ kx <+: ky) ∧
      (∀ s t, kx ≠ ky → compare (kx ++ s) (ky ++ t) = compare kx ky) ∧
      (directions ≠ [] → (∃ c rest, kx = c :: rest ∧ leastKeyTag ≤ c) ∧
        ∀ run ∈ reserved, compare run kx = .lt) := by
  obtain ⟨kx,ky,keyX,keyY,coded⟩ := codesComponents hx hy
  refine ⟨kx,ky,keyX,keyY,codesCompareWhole coded,codesNotPrefix coded,fun s t differ => ?_,fun some => ?_⟩
  · have unequal : cmpComponents directions xs ys ≠ .eq := fun same => differ ((codesEq coded).mpr same)
    rw [codesCompare coded, codesCompareWhole coded]
    cases order : cmpComponents directions xs ys with
    | lt => rfl
    | eq => contradiction
    | gt => rfl
  · cases directions with
    | nil => contradiction
    | cons descending more =>
      cases xs with
      | nil => simp at hx
      | cons x xs =>
        obtain ⟨c,rest,rfl,tag⟩ := leadingByte keyX
        exact ⟨⟨c,rest,rfl,tag⟩,aboveReserved tag⟩

/- A mixed pair: the first component ties, the descending second one decides. -/
theorem compoundOrderPair :
    ∃ kx ky, encodeCompoundOrdered [(.null,false),(.boolean true,true)] = some kx ∧
      encodeCompoundOrdered [(.undefined,false),(.boolean false,true)] = some ky ∧ compare kx ky = .lt := by
  obtain ⟨kx,ky,keyX,keyY,order,_⟩ := compoundOrder [false,true] [.null,.boolean true]
    [.undefined,.boolean false] rfl rfl
  exact ⟨kx,ky,keyX,keyY,order.trans (by rfl)⟩

/- With no component the key is the empty run itself. -/
theorem compoundOrderEmpty : encodeCompoundOrdered (([] : List Bson).zip []) = some [] ∧
    ([] : Bytes) ∈ reserved ∧ ¬ ∀ run ∈ reserved, compare run ([] : Bytes) = .lt := by
  refine ⟨rfl,by simp [reserved],fun above => ?_⟩
  have := above [] (by simp [reserved])
  contradiction

end Kimmy.KeyOrder
