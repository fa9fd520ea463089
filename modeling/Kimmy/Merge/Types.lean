import Kimmy.SortedMap
import Mathlib.Data.Prod.Lex
import Mathlib.Order.Fin.Basic
import Mathlib.Data.String.Basic

/-!
Identities, stamps and values of the merge state (`merge_state/types.rs`, `hlc.rs`,
`ids.rs`). Every key type is ordered field by field, as its derived `Ord` is; byte arrays
are the numbers their big-endian bytes spell.
-/
namespace Kimmy.Merge

-- the widths of the stamps and ids
instance neZero16 : NeZero (2 ^ 16 : Nat) := ⟨by decide⟩
instance neZero32 : NeZero (2 ^ 32 : Nat) := ⟨by decide⟩
instance neZero64 : NeZero (2 ^ 64 : Nat) := ⟨by decide⟩
instance neZero128 : NeZero (2 ^ 128 : Nat) := ⟨by decide⟩
instance neZero144 : NeZero (2 ^ 144 : Nat) := ⟨by decide⟩

/- A hybrid logical timestamp, ordered by `(wall_ms, counter)`. -/
structure Hlc where
  wallMs : Fin (2 ^ 64)
  counter : Fin (2 ^ 16)

instance : LinearOrder Hlc := LinearOrder.lift' (fun h => toLex (h.wallMs, h.counter))
  fun x y same => by cases x; cases y; simpa using same

def Hlc.zero : Hlc := ⟨0,0⟩

instance : Inhabited Hlc := ⟨Hlc.zero⟩

/- One writer incarnation: a 16-byte node id and an 18-byte epoch. -/
structure WriterId where
  node : Fin (2 ^ 128)
  epoch : Fin (2 ^ 144)

instance : LinearOrder WriterId := LinearOrder.lift' (fun w => toLex (w.node, w.epoch))
  fun x y same => by cases x; cases y; simpa using same

/- The stamp of a write, ordered by `(hlc, node, epoch)`. -/
structure MStamp where
  hlc : Hlc
  writer : WriterId

instance : LinearOrder MStamp := LinearOrder.lift' (fun s => toLex (s.hlc, s.writer))
  fun x y same => by cases x; cases y; simpa using same

/- A flat cell value. `null` is an unset field; a double is its bits, so that equality of
values is equality of encodings. -/
inductive Value where
  | null
  | int (value : Int64)
  | double (bits : UInt64)
  | str (text : String)
  deriving DecidableEq

def Value.isNumeric : Value → Bool
  | .null | .int _ => true
  | .double _ | .str _ => false

/- `f64` equality: no NaN equals anything, and the two zeros are equal. -/
def doubleEq (a b : UInt64) : Bool :=
  let magnitude (x : UInt64) := x.toNat % 2 ^ 63
  let infinity := 0x7FF0000000000000
  magnitude a ≤ infinity && magnitude b ≤ infinity &&
    (a == b || (magnitude a == 0 && magnitude b == 0))

/- `d + n as f64`. -/
def doubleAdd (d : UInt64) (n : Int64) : UInt64 := (Float.ofBits d + n.toFloat).toBits

/- The write diff: value and type, a missing field being `null`. -/
def Value.same (current : Option Value) (new : Value) : Bool :=
  match current.getD .null, new with
  | .double a, .double b => doubleEq a b
  | a, b => a == b

inductive LossKind where
  | clash
  | deleteWon
  | insertLost
  | retiredWriter

def LossKind.rank : LossKind → Nat
  | .clash => 0
  | .deleteWon => 1
  | .insertLost => 2
  | .retiredWriter => 3

instance : LinearOrder LossKind := LinearOrder.lift' LossKind.rank
  fun x y same => by cases x <;> cases y <;> first | rfl | exact absurd same (by decide)

/- The key of a loss record: its kind, the path (`"_"` for a whole document) and the stamp
of the lost write. -/
structure LossKey where
  kind : LossKind
  path : String
  stamp : MStamp

instance : LinearOrder LossKey :=
  LinearOrder.lift' (fun k => toLex (k.kind, toLex (k.path, k.stamp)))
    fun x y same => by cases x; cases y; simpa using same

/- What a loss record keeps of the lost write: a register value, a slot total, or the field
order of a whole document. -/
inductive LossValue where
  | value (value : Value)
  | total (total : Int)
  | fields (order : List String)
  deriving DecidableEq

theorem stampLtHlc {x y : MStamp} (below : x.hlc < y.hlc) : x < y :=
  Prod.Lex.toLex_lt_toLex.mpr (Or.inl below)

theorem hlcLeOfLt {x y : MStamp} (below : x < y) : x.hlc ≤ y.hlc := by
  rcases Prod.Lex.toLex_lt_toLex.mp below with lower | ⟨same, _⟩
  · exact lower.le
  · exact same.le

theorem hlcLtOfLt {x y : MStamp} (below : x < y) (writer : x.writer = y.writer) : x.hlc < y.hlc := by
  rcases Prod.Lex.toLex_lt_toLex.mp below with lower | ⟨_, wrong⟩
  · exact lower
  · exact absurd writer wrong.ne

theorem hlcZeroLe (h : Hlc) : Hlc.zero ≤ h := by
  rcases h with ⟨wall, counter⟩
  refine Prod.Lex.toLex_le_toLex.mpr ?_
  rcases eq_or_lt_of_le (Fin.zero_le wall) with same | below
  · exact Or.inr ⟨same, Fin.zero_le counter⟩
  · exact Or.inl below

end Kimmy.Merge
