import Kimmy.Merge.Codec
import Kimmy.Merge.Reach

/-!
The format of a merge state is canonical: what `decode` accepts is what `encode` writes, for
every state whose counter totals are in range, and those of a run always are.
-/
namespace Kimmy.Merge
open ByteOrder Reading

namespace Codec

/-! Collections. -/

theorem lastBelow {α κ : Type} [LinearOrder κ] (key : α → κ) {xs : List α}
    (sorted : xs.Pairwise fun x y => key x < key y) {k : κ} :
    (xs.getLast?.any fun last => decide (k ≤ key last)) = false ↔ ∀ x ∈ xs, key x < k := by
  induction xs using List.reverseRecOn with
  | nil => simp
  | append_singleton xs last _ =>
      rw [List.pairwise_append] at sorted
      simp only [List.getLast?_append, List.getLast?_singleton, Option.some_or, Option.any_some,
        decide_eq_false_iff_not, not_le, List.mem_append, List.mem_singleton]
      refine ⟨fun above x member => ?_,fun all => all last (Or.inr rfl)⟩
      rcases member with inside | rfl
      · exact (sorted.2.2 x inside last (List.mem_singleton.mpr rfl)).trans above
      · exact above

theorem insertEntries {κ ν : Type} [LinearOrder κ] (m : SortedMap κ ν) {k : κ} {v : ν}
    (above : ∀ x ∈ m.entries, x.1 < k) : (m.insert k v).entries = m.entries ++ [(k,v)] := by
  have sorted : (m.entries ++ [(k,v)]).Pairwise fun x y => x.1 < y.1 := by
    refine List.pairwise_append.mpr ⟨m.sorted,List.pairwise_singleton _ _,fun x member y last => ?_⟩
    rw [List.mem_singleton.mp last]
    exact above x member
  have same : m.insert k v = ⟨m.entries ++ [(k,v)],sorted⟩ := by
    refine SortedMap.ext fun j => Option.ext fun u => ?_
    rw [SortedMap.getInsert, ←SortedMap.memEntries (m := ⟨m.entries ++ [(k,v)],sorted⟩), List.mem_append,
      List.mem_singleton, SortedMap.memEntries]
    split_ifs with here
    · subst here
      constructor
      · exact fun found => Or.inr (by rw [Option.some.inj found])
      · rintro (old | new)
        · exact absurd (above _ (SortedMap.memEntries.mpr old)) (lt_irrefl _)
        · exact congrArg (fun x => some x.2) new.symm
    · refine ⟨Or.inl,fun found => found.resolve_right fun new => here (congrArg Prod.fst new)⟩
  rw [same]

theorem mapBuilds {κ ν : Type} [LinearOrder κ] : Builds (fun m : SortedMap κ ν => m.entries) R.put where
  grows {m x t} taken := by
    unfold R.put at taken
    split_ifs at taken with refused
    cases taken
    exact insertEntries m ((lastBelow Prod.fst m.sorted).mp (Bool.eq_false_of_not_eq_true refused))
  accepts {m x later t} shape := by
    have sorted := t.sorted
    rw [shape, List.pairwise_append] at sorted
    have fine := (lastBelow Prod.fst m.sorted).mpr fun y member => sorted.2.2 y member x List.mem_cons_self
    exact ⟨m.insert x.1 x.2,by unfold R.put; rw [fine]; rfl⟩
  same {m t} shape := by
    cases m
    cases t
    cases shape
    rfl

theorem setBuilds {κ : Type} [LinearOrder κ] : Builds (fun m : Finset κ => SortedMap.elements m) R.putSet where
  grows {m k t} taken := by
    unfold R.putSet at taken
    split_ifs at taken with refused
    cases taken
    have above := (lastBelow id (SortedMap.elementsSorted m)).mp (Bool.eq_false_of_not_eq_true refused)
    have sorted : (SortedMap.elements m ++ [k]).Pairwise (· < ·) := by
      refine List.pairwise_append.mpr ⟨SortedMap.elementsSorted m,List.pairwise_singleton _ _,fun x member y last => ?_⟩
      rw [List.mem_singleton.mp last]
      exact above x member
    refine List.Perm.eq_of_pairwise' (SortedMap.elementsSorted _) sorted ?_
    refine (List.perm_ext_iff_of_nodup (SortedMap.elementsNodup _) (sorted.imp fun below => below.ne)).mpr fun x => ?_
    simp [or_comm]
  accepts {m k later t} shape := by
    have sorted := SortedMap.elementsSorted t
    rw [shape, List.pairwise_append] at sorted
    have fine := (lastBelow id (SortedMap.elementsSorted m)).mpr
      fun y member => sorted.2.2 y member k List.mem_cons_self
    exact ⟨insert k m,by unfold R.putSet; simp only [id] at fine; rw [fine]; rfl⟩
  same {m t} shape := by
    ext k
    rw [←SortedMap.memElements, shape, SortedMap.memElements]

theorem vecBuilds {α : Type} : Builds (id : List α → List α) R.push where
  grows taken := by
    cases taken
    rfl
  accepts {s a _ _} _ := ⟨s ++ [a],rfl⟩
  same shape := shape

section
variable {κ ν : Type} [LinearOrder κ]

theorem readsEntries {good : κ × ν → Prop} {write : κ × ν → Bytes} {item : R.Read (κ × ν)}
    (reads : Reads good write item) (some : ∀ x, good x → write x ≠ []) :
    Reads (fun m : SortedMap κ ν => ∀ x ∈ m.entries, good x) (fun m => seq write m.entries) (R.map item) :=
  readsMany mapBuilds rfl reads some

theorem readsSet {write : κ → Bytes} {item : R.Read κ} (reads : Reads (fun _ => True) write item)
    (some : ∀ x, write x ≠ []) :
    Reads (fun _ => True) (fun m : Finset κ => seq write (SortedMap.elements m)) (R.set item) := by
  have empty : SortedMap.elements (∅ : Finset κ) = [] := List.eq_nil_iff_forall_not_mem.mpr (by simp)
  exact Reads.iff (readsMany setBuilds empty reads fun x _ => some x) (by simp)

theorem readsVec {α : Type} {write : α → Bytes} {item : R.Read α} (reads : Reads (fun _ => True) write item)
    (some : ∀ x, write x ≠ []) : Reads (fun _ => True) (seq write) (R.vec item) :=
  Reads.iff (readsMany vecBuilds rfl reads fun x _ => some x) (by simp)

end

/-! Scalars. -/

theorem readsI64 : Reads (fun _ => True) i64 R.i64 :=
  readsMap (fun v : Int64 => v.toUInt64.toNat) readsWord (fun v _ => v.toUInt64.toNat_lt)
    (fun n small => ⟨trivial,by simpa using Nat.mod_eq_of_lt small⟩) fun v _ => by simp

theorem readsI128 : Reads (fun v : Int => -2 ^ 127 ≤ v ∧ v < 2 ^ 127) i128 R.i128 := by
  refine readsMap (fun v : Int => (v % 2 ^ 128).toNat) readsWord (fun v _ => ?_) (fun n small => ?_) fun v range => ?_
  · have low := Int.emod_nonneg v (show (2 : Int) ^ 128 ≠ 0 by decide)
    have high := Int.emod_lt_of_pos v (show (0 : Int) < 2 ^ 128 by decide)
    omega
  · split_ifs with positive
    · omega
    · omega
  · split_ifs with positive
    · omega
    · omega

/- A counter total that `decode` takes. -/
def Small (t : Int) : Prop := t.natAbs ≤ maxTotal.natAbs

theorem readsTotal : Reads Small i128 R.total := by
  have whole : Reads Small (fun t => i128 (id t) ++ []) R.total := by
    refine readsBind id readsI128 (fun t small => ?_) fun t _ => ?_
    · unfold Small at small
      have limit : maxTotal.natAbs = 2 ^ 119 := by decide
      simp only [id]
      omega
    · split_ifs with large
      · refine readsFail fun c held => ?_
        obtain ⟨small, rfl⟩ := held
        exact absurd large (not_lt.mpr small)
      · exact readsPure ⟨not_lt.mp large,rfl⟩ (fun _ held => held.2) rfl
  exact whole.congr fun t _ => (List.append_nil _).symm

theorem readsStr : Reads (fun _ => True) str R.str := by
  have whole : Reads (fun _ => True) (fun s => (be 8 (asBytes s).length ++ asBytes s) ++ []) R.str := by
    refine readsBind asBytes readsBlob (fun _ _ => trivial) fun b _ => ?_
    unfold String.fromUTF8?
    by_cases valid : (⟨⟨b⟩⟩ : ByteArray).IsValidUTF8
    · rw [dif_pos valid]
      refine readsPure ⟨trivial,rfl⟩ (fun c held => asBytesInj (held.2.trans ?_)) rfl
      rfl
    · rw [dif_neg valid]
      refine readsFail fun c held => valid ?_
      have same : c.toByteArray = ⟨⟨b⟩⟩ := by
        rcases h : c.toByteArray with ⟨⟨x⟩⟩
        have bytes := held.2
        simp only [asBytes, h] at bytes
        rw [bytes]
      exact same ▸ c.isValidUTF8
  exact whole.congr fun s _ => (List.append_nil _).symm

theorem ofNatVal {n : Nat} [NeZero n] (x : Fin n) : Fin.ofNat n x.val = x := Fin.ext (Nat.mod_eq_of_lt x.isLt)

theorem readsHlc : Reads (fun _ => True) hlc R.hlc := by
  refine readsBind (fun h : Hlc => h.wallMs.val) readsWord (fun h _ => h.wallMs.isLt) fun wall small => ?_
  refine readsMap (fun h : Hlc => h.counter.val) readsWord (fun h _ => h.counter.isLt) (fun counter small' => ?_) ?_
  · exact ⟨⟨trivial,Nat.mod_eq_of_lt small⟩,Nat.mod_eq_of_lt small'⟩
  · rintro ⟨w, c⟩ ⟨_, rfl⟩
    exact congrArg₂ Hlc.mk (ofNatVal w) (ofNatVal c)

theorem readsWid : Reads (fun _ => True) wid R.wid := by
  refine readsBind (fun w : WriterId => w.node.val) readsWord (fun w _ => w.node.isLt) fun node small => ?_
  refine readsMap (fun w : WriterId => w.epoch.val) readsWord (fun w _ => w.epoch.isLt) (fun epoch small' => ?_) ?_
  · exact ⟨⟨trivial,Nat.mod_eq_of_lt small⟩,Nat.mod_eq_of_lt small'⟩
  · rintro ⟨n, e⟩ ⟨_, rfl⟩
    exact congrArg₂ WriterId.mk (ofNatVal n) (ofNatVal e)

theorem readsStamp : Reads (fun _ => True) stamp R.stamp := by
  refine readsBind MStamp.hlc readsHlc (fun _ _ => trivial) fun h _ => ?_
  refine readsMap MStamp.writer readsWid (fun _ _ => trivial) (fun w _ => ⟨⟨trivial,rfl⟩,rfl⟩) ?_
  rintro ⟨x, w⟩ ⟨_, rfl⟩
  rfl

theorem hlcSome (h : Hlc) : hlc h ≠ [] := by simp [hlc, be]

theorem stampSome (s : MStamp) : stamp s ≠ [] := by simp [stamp, hlcSome]

theorem widSome (w : WriterId) : wid w ≠ [] := by simp [wid, be]

theorem strSome (s : String) : str s ≠ [] := by simp [str, len, be]

/-! Tagged values. -/

theorem readsOptStamp : Reads (fun _ => True) optStamp R.optStamp := by
  have whole : Reads (fun _ => True) (fun g : Option MStamp => (if g.isSome then 1 else 0) ::
      (g.map stamp).getD []) R.optStamp := by
    refine readsTag fun tag => ?_
    split_ifs with zero one
    · refine readsPure (by simp [zero]) (fun g held => ?_) rfl
      cases g <;> simp_all
    · refine (readsMap (fun g : Option MStamp => g.getD ⟨.zero,⟨0,0⟩⟩) readsStamp (fun _ _ => trivial)
        (fun s _ => ⟨by simp [one],rfl⟩) ?_).congr ?_
      · rintro (_ | s) held
        · simp_all
        · rfl
      · rintro (_ | s) held
        · simp_all
        · rfl
    · refine readsFail fun g held => ?_
      cases g <;> simp_all
  exact whole.congr fun g _ => by cases g <;> rfl

theorem readsLossKind : Reads (fun _ => True) (fun k => [lossKind k]) R.lossKind := by
  refine readsTag fun tag => ?_
  split_ifs with zero one two three
  · exact readsPure (by simp [zero, lossKind]) (fun k held => by cases k <;> simp_all [lossKind]) rfl
  · exact readsPure (by simp [one, lossKind]) (fun k held => by cases k <;> simp_all [lossKind]) rfl
  · exact readsPure (by simp [two, lossKind]) (fun k held => by cases k <;> simp_all [lossKind]) rfl
  · exact readsPure (by simp [three, lossKind]) (fun k held => by cases k <;> simp_all [lossKind]) rfl
  · exact readsFail fun k held => by cases k <;> simp_all [lossKind]

theorem readsLifeKind : Reads (fun _ => True) (fun k => [lifeKind k]) R.lifeKind := by
  refine readsTag fun tag => ?_
  split_ifs with zero one
  · exact readsPure (by simp [zero, lifeKind]) (fun k held => by cases k <;> simp_all [lifeKind]) rfl
  · exact readsPure (by simp [one, lifeKind]) (fun k held => by cases k <;> simp_all [lifeKind]) rfl
  · exact readsFail fun k held => by cases k <;> simp_all [lifeKind]

theorem readsFlag : Reads (fun _ => True) (fun b : Bool => [if b then 1 else 0]) R.flag := by
  refine readsTag fun tag => ?_
  split_ifs with zero one
  · exact readsPure (by simp [zero]) (fun b held => by cases b <;> simp_all) rfl
  · exact readsPure (by simp [one]) (fun b held => by cases b <;> simp_all) rfl
  · exact readsFail fun b held => by cases b <;> simp_all

def valueTag : Value → UInt8
  | .null => 0
  | .int _ => 1
  | .double _ => 2
  | .str _ => 3

/- What a tag is followed by. -/
def valueInt : Value → Int64
  | .int i => i
  | _ => 0

def valueDouble : Value → Nat
  | .double d => d.toNat
  | _ => 0

def valueStr : Value → String
  | .str s => s
  | _ => ""

theorem readsValue : Reads (fun _ => True) value R.value := by
  have whole : Reads (fun _ => True) (fun v => valueTag v :: (value v).tail) R.value := by
    refine readsTag fun tag => ?_
    split_ifs with zero one two three
    · exact readsPure (by simp [zero, valueTag]) (fun v held => by cases v <;> simp_all [valueTag]) rfl
    · refine (readsMap valueInt readsI64 (fun _ _ => trivial)
        (fun i _ => ⟨by simp [one, valueTag],rfl⟩) ?_).congr ?_
      · rintro (_ | i | d | s) held <;> simp_all [valueTag, valueInt]
      · rintro (_ | i | d | s) held <;> simp_all [valueTag, value, valueInt]
    · refine (readsMap valueDouble readsWord ?_
        (fun n small => ⟨by simp [two, valueTag],Nat.mod_eq_of_lt small⟩) ?_).congr ?_
      · rintro (_ | i | d | s) held
        · exact Nat.zero_lt_succ _
        · exact Nat.zero_lt_succ _
        · exact d.toNat_lt
        · exact Nat.zero_lt_succ _
      · rintro (_ | i | d | s) held <;> simp_all [valueTag, valueDouble]
      · rintro (_ | i | d | s) held <;> simp_all [valueTag, value, valueDouble]
    · refine (readsMap valueStr readsStr (fun _ _ => trivial)
        (fun s _ => ⟨by simp [three, valueTag],rfl⟩) ?_).congr ?_
      · rintro (_ | i | d | s) held <;> simp_all [valueTag, valueStr]
      · rintro (_ | i | d | s) held <;> simp_all [valueTag, value, valueStr]
    · exact readsFail fun v held => by cases v <;> simp_all [valueTag]
  exact whole.congr fun v _ => by cases v <;> rfl

/-! Records and maps. -/

theorem readsEntry {κ ν : Type} {fine : κ → Prop} {good : ν → Prop} {head : κ → Bytes} {tail : ν → Bytes}
    {key : R.Read κ} {val : R.Read ν} (reads : Reads fine head key) (reads' : Reads good tail val) :
    Reads (fun x => fine x.1 ∧ good x.2) (fun x => head x.1 ++ tail x.2) (R.entry key val) :=
  readsPair reads reads'

theorem appendSome {x y : Bytes} (some : x ≠ []) : x ++ y ≠ [] := by simp [some]

theorem readsVv : Reads (fun _ => True) vv R.vv :=
  (readsEntries (readsEntry readsWid readsHlc) fun x _ => appendSome (widSome x.1)).iff (by simp)

theorem readsObsKey : Reads (fun _ => True) obsKey R.obsKey := by
  have whole : Reads (fun _ => True) (fun k : ObsKey => stamp k.life ++ (wid k.writer ++ optStamp k.generation))
      R.obsKey := by
    refine readsBind ObsKey.life readsStamp (fun _ _ => trivial) fun l _ => ?_
    refine readsBind ObsKey.writer readsWid (fun _ _ => trivial) fun w _ => ?_
    refine readsMap ObsKey.generation readsOptStamp (fun _ _ => trivial) (fun g _ => ⟨⟨⟨trivial,rfl⟩,rfl⟩,rfl⟩) ?_
    rintro ⟨l, w, g⟩ ⟨⟨_, rfl⟩, rfl⟩
    rfl
  exact whole.congr fun k _ => by simp [obsKey]

theorem obsKeySome (k : ObsKey) : obsKey k ≠ [] := appendSome (appendSome (stampSome _))

theorem readsObs : Reads (fun m : SortedMap ObsKey Int => ∀ x ∈ m.entries, Small x.2) obs R.obs :=
  (readsEntries (readsEntry readsObsKey readsTotal) fun x _ => appendSome (obsKeySome x.1)).iff (by simp)

theorem readsObsStamped :
    Reads (fun m : SortedMap ObsKey (MStamp × Int) => ∀ x ∈ m.entries, Small x.2.2) obsStamped R.obsStamped := by
  have item := readsEntry readsObsKey (readsEntry readsStamp readsTotal)
  have whole := readsEntries item fun x _ => appendSome (obsKeySome x.1)
  exact (whole.iff (by simp)).congr fun m _ => by simp [obsStamped]

def GenSmall (g : Option Gen) : Prop := ∀ x, g = some x → ∀ y ∈ x.seen.entries, Small y.2

theorem readsGen : Reads GenSmall gen R.gen := by
  have whole : Reads GenSmall (fun g : Option Gen => (if g.isSome then 1 else 0) ::
      ((g.map fun x => stamp x.stamp ++ obs x.seen).getD [])) R.gen := by
    refine readsTag fun tag => ?_
    split_ifs with zero one
    · exact readsPure (by simp [zero, GenSmall]) (fun g held => by cases g <;> simp_all) rfl
    · refine (readsBind (fun g : Option Gen => (g.map Gen.stamp).getD ⟨.zero,⟨0,0⟩⟩) readsStamp (fun _ _ => trivial)
        fun s _ => readsMap (fun g : Option Gen => (g.map Gen.seen).getD .empty) readsObs ?_ ?_ ?_).congr ?_
      · rintro (_ | x) ⟨⟨small, same⟩, _⟩
        · simp_all
        · exact small x rfl
      · refine fun m small => ⟨⟨⟨fun x same => ?_,by simp [one]⟩,rfl⟩,rfl⟩
        cases same
        exact small
      · rintro (_ | ⟨x, seen⟩) ⟨⟨_, same⟩, rfl⟩
        · simp_all
        · rfl
      · rintro (_ | x) ⟨_, same⟩
        · simp_all
        · rfl
    · exact readsFail fun g held => by cases g <;> simp_all
  exact whole.congr fun g _ => by cases g <;> rfl

theorem readsLossKey : Reads (fun _ => True) lossKey R.lossKey := by
  have whole : Reads (fun _ => True) (fun k : LossKey => [lossKind k.kind] ++ (str k.path ++ stamp k.stamp))
      R.lossKey := by
    refine readsBind LossKey.kind readsLossKind (fun _ _ => trivial) fun kind _ => ?_
    refine readsBind LossKey.path readsStr (fun _ _ => trivial) fun p _ => ?_
    refine readsMap LossKey.stamp readsStamp (fun _ _ => trivial) (fun s _ => ⟨⟨⟨trivial,rfl⟩,rfl⟩,rfl⟩) ?_
    rintro ⟨k, p, s⟩ ⟨⟨_, rfl⟩, rfl⟩
    rfl
  exact whole.congr fun k _ => by simp [lossKey]

def lossTag : LossValue → UInt8
  | .value _ => 0
  | .total _ => 1
  | .fields _ => 2

def LossSmall (v : LossValue) : Prop := ∀ t, v = .total t → Small t

def lossRegister : LossValue → Value
  | .value x => x
  | _ => .null

def lossTotal : LossValue → Int
  | .total t => t
  | _ => 0

def lossFields : LossValue → List String
  | .fields f => f
  | _ => []

theorem readsLossValue : Reads LossSmall lossValue R.lossValue := by
  have whole : Reads LossSmall (fun v => lossTag v :: (lossValue v).tail) R.lossValue := by
    refine readsTag fun tag => ?_
    split_ifs with zero one two
    · refine (readsMap lossRegister readsValue (fun _ _ => trivial)
        (fun x _ => ⟨by simp [zero, lossTag, LossSmall],rfl⟩) ?_).congr ?_
      · rintro (x | t | f) held <;> simp_all [lossTag, lossRegister]
      · rintro (x | t | f) held <;> simp_all [lossTag, lossValue, lossRegister]
    · refine (readsMap lossTotal readsTotal ?_
        (fun t small => ⟨by simp [one, lossTag, LossSmall, small],rfl⟩) ?_).congr ?_
      · rintro (x | t | f) ⟨small, same⟩
        · simp_all [lossTag]
        · exact small t rfl
        · simp_all [lossTag]
      · rintro (x | t | f) held <;> simp_all [lossTag, lossTotal]
      · rintro (x | t | f) held <;> simp_all [lossTag, lossValue, lossTotal]
    · refine (readsMap lossFields (readsVec readsStr strSome)
        (fun _ _ => trivial) (fun f _ => ⟨by simp [two, lossTag, LossSmall],rfl⟩) ?_).congr ?_
      · rintro (x | t | f) held <;> simp_all [lossTag, lossFields]
      · rintro (x | t | f) held <;> simp_all [lossTag, lossValue, lossFields]
    · exact readsFail fun v held => by cases v <;> simp_all [lossTag]
  exact whole.congr fun v _ => by cases v <;> rfl

theorem readsLife : Reads (fun _ => True) life R.life := by
  have whole : Reads (fun _ => True) (fun v : Life => seq stamp (SortedMap.elements v.seen) ++
      (seq str v.order ++ [lifeKind v.kind])) R.life := by
    refine readsBind Life.seen (readsSet readsStamp stampSome) (fun _ _ => trivial) fun seen _ => ?_
    refine readsBind Life.order (readsVec readsStr strSome) (fun _ _ => trivial) fun order _ => ?_
    refine readsMap Life.kind readsLifeKind (fun _ _ => trivial) (fun k _ => ⟨⟨⟨trivial,rfl⟩,rfl⟩,rfl⟩) ?_
    rintro ⟨s, o, k⟩ ⟨⟨_, rfl⟩, rfl⟩
    rfl
  exact whole.congr fun v _ => by simp [life]

/- The totals a register keeps. -/
structure RegSmall (r : Reg) : Prop where
  obs : ∀ x ∈ r.obs.entries, Small x.2.2
  generation : GenSmall r.generation

theorem readsReg : Reads RegSmall reg R.reg := by
  have whole : Reads RegSmall (fun r : Reg => stamp r.stamp ++ (value r.value ++ (obsStamped r.obs ++
      (gen r.generation ++ [if r.soi then 1 else 0])))) R.reg := by
    refine readsBind Reg.stamp readsStamp (fun _ _ => trivial) fun s _ => ?_
    refine readsBind Reg.value readsValue (fun _ _ => trivial) fun v _ => ?_
    refine readsBind Reg.obs readsObsStamped (fun _ held => held.1.1.obs) fun obs small => ?_
    refine readsBind Reg.generation readsGen (fun _ held => held.1.1.1.generation) fun g small' => ?_
    refine readsMap Reg.soi readsFlag (fun _ _ => trivial)
      (fun b _ => ⟨⟨⟨⟨⟨⟨small,small'⟩,rfl⟩,rfl⟩,rfl⟩,rfl⟩,rfl⟩) ?_
    rintro ⟨s, v, obs, g, soi⟩ ⟨⟨⟨⟨_, rfl⟩, rfl⟩, rfl⟩, rfl⟩
    rfl
  exact whole.congr fun r _ => by simp [reg]

theorem readsCellKey : Reads (fun _ => True) (fun k : CellKey => stamp k.life ++ str k.path) R.cellKey := by
  refine readsBind CellKey.life readsStamp (fun _ _ => trivial) fun l _ => ?_
  refine readsMap CellKey.path readsStr (fun _ _ => trivial) (fun p _ => ⟨⟨trivial,rfl⟩,rfl⟩) ?_
  rintro ⟨l, p⟩ ⟨_, rfl⟩
  rfl

theorem readsSlotKey : Reads (fun _ => True) slotKey R.slotKey := by
  have whole : Reads (fun _ => True) (fun k : SlotKey => stamp k.life ++ (str k.path ++ (wid k.writer ++
      optStamp k.generation))) R.slotKey := by
    refine readsBind SlotKey.life readsStamp (fun _ _ => trivial) fun l _ => ?_
    refine readsBind SlotKey.path readsStr (fun _ _ => trivial) fun p _ => ?_
    refine readsBind SlotKey.writer readsWid (fun _ _ => trivial) fun w _ => ?_
    refine readsMap SlotKey.generation readsOptStamp (fun _ _ => trivial)
      (fun g _ => ⟨⟨⟨⟨trivial,rfl⟩,rfl⟩,rfl⟩,rfl⟩) ?_
    rintro ⟨l, p, w, g⟩ ⟨⟨⟨_, rfl⟩, rfl⟩, rfl⟩
    rfl
  exact whole.congr fun k _ => by simp [slotKey]

theorem readsSlot : Reads (fun v : Slot => Small v.total) (fun v => stamp v.stamp ++ i128 v.total) R.slot := by
  refine readsBind Slot.stamp readsStamp (fun _ _ => trivial) fun s _ => ?_
  refine readsMap Slot.total readsTotal (fun _ held => held.1) (fun t small => ⟨⟨small,rfl⟩,rfl⟩) ?_
  rintro ⟨s, t⟩ ⟨_, rfl⟩
  rfl

/- Every counter total of the state is in range. -/
structure Totals (s : State) : Prop where
  regs : ∀ k r, s.regs.get k = some r → RegSmall r
  slots : ∀ k v, s.slots.get k = some v → Small v.total
  losses : ∀ k v, s.losses.get k = some v → LossSmall v

theorem forallEntries {κ ν : Type} [LinearOrder κ] {m : SortedMap κ ν} {good : ν → Prop} :
    (∀ x ∈ m.entries, good x.2) ↔ ∀ k v, m.get k = some v → good v := by
  constructor
  · exact fun all k v held => all (k,v) (SortedMap.memEntries.mpr held)
  · exact fun all x member => all x.1 x.2 (SortedMap.memEntry.mp member)

theorem readsBody : Reads Totals State.writeBody R.body := by
  have lives : Reads (fun _ => True) (fun m : SortedMap MStamp Life => seq (fun x => stamp x.1 ++ life x.2) m.entries)
      (R.map (R.entry R.stamp R.life)) :=
    (readsEntries (readsEntry readsStamp readsLife) fun x _ => appendSome (stampSome x.1)).iff (by simp)
  have deletes : Reads (fun _ => True) (fun m : SortedMap MStamp Vv => seq (fun x => stamp x.1 ++ vv x.2) m.entries)
      (R.map (R.entry R.stamp R.vv)) :=
    (readsEntries (readsEntry readsStamp readsVv) fun x _ => appendSome (stampSome x.1)).iff (by simp)
  have regs := readsEntries (readsEntry readsCellKey readsReg) fun x _ => appendSome (appendSome (stampSome x.1.life))
  have slots := readsEntries (readsEntry readsSlotKey readsSlot)
    fun x _ => appendSome (appendSome (appendSome (appendSome (stampSome x.1.life))))
  have losses := readsEntries (readsEntry readsLossKey readsLossValue) fun x _ => List.cons_ne_nil _ _
  have whole : Reads Totals (fun s : State =>
      seq (fun x => stamp x.1 ++ life x.2) s.lives.entries ++ (seq stamp (SortedMap.elements s.dead) ++
      (seq (fun x => stamp x.1 ++ vv x.2) s.deletes.entries ++
      (seq (fun x => stamp x.1.life ++ str x.1.path ++ reg x.2) s.regs.entries ++
      (seq (fun x => slotKey x.1 ++ (stamp x.2.stamp ++ i128 x.2.total)) s.slots.entries ++
      (vv s.vv ++ seq (fun x => lossKey x.1 ++ lossValue x.2) s.losses.entries)))))) R.body := by
    refine readsBind State.lives lives (fun _ _ => trivial) fun l _ => ?_
    refine readsBind State.dead (readsSet readsStamp stampSome) (fun _ _ => trivial) fun d _ => ?_
    refine readsBind State.deletes deletes (fun _ _ => trivial) fun x _ => ?_
    refine readsBind State.regs regs (fun s held y member => ?_) fun r fineR => ?_
    · exact ⟨trivial,held.1.1.1.regs y.1 y.2 (SortedMap.memEntry.mp member)⟩
    refine readsBind State.slots slots (fun s held y member => ?_) fun v fineV => ?_
    · exact ⟨trivial,held.1.1.1.1.slots y.1 y.2 (SortedMap.memEntry.mp member)⟩
    refine readsBind State.vv readsVv (fun _ _ => trivial) fun w _ => ?_
    refine readsMap State.losses losses (fun s held y member => ?_) (fun m fineM => ?_) ?_
    · exact ⟨trivial,held.1.1.1.1.1.1.losses y.1 y.2 (SortedMap.memEntry.mp member)⟩
    · refine ⟨⟨⟨⟨⟨⟨⟨⟨fun k r held => ?_,fun k u held => ?_,fun k u held => ?_⟩,rfl⟩,rfl⟩,rfl⟩,rfl⟩,rfl⟩,rfl⟩,rfl⟩
      · exact (fineR _ (SortedMap.memEntries.mpr held)).2
      · exact (fineV _ (SortedMap.memEntries.mpr held)).2
      · exact (fineM _ (SortedMap.memEntries.mpr held)).2
    · rintro ⟨l, x, d, r, v, w, m⟩ ⟨⟨⟨⟨⟨⟨_, rfl⟩, rfl⟩, rfl⟩, rfl⟩, rfl⟩, rfl⟩
      rfl
  exact whole.congr fun s _ => by simp [State.writeBody]

theorem readsHeader : Reads (fun _ => True) (fun _ => [0x51,0x4D,0x53] ++ [1]) R.header := by
  have whole : Reads (fun _ => True) (fun _ : Unit => id [0x51,0x4D,0x53] ++ ([1] ++ [])) R.header := by
    refine readsBind (fun _ : Unit => ([0x51,0x4D,0x53] : Bytes)) readsTake (fun _ _ => rfl) fun magic _ => ?_
    split_ifs with wrong
    · exact readsFail fun _ held => wrong held.2.symm
    · refine readsBind (fun _ : Unit => (1 : UInt8)) readsByte (fun _ _ => trivial) fun version _ => ?_
      split_ifs with other
      · exact readsFail fun _ held => other held.2.symm
      · exact readsPure ⟨⟨trivial,(not_not.mp wrong).symm⟩,(not_not.mp other).symm⟩ (fun _ _ => rfl) rfl
  exact whole.congr fun _ _ => by simp

theorem readsState : Reads Totals State.encode (R.header >>= fun _ => R.body) :=
  readsBind (fun _ => ()) readsHeader (fun _ _ => trivial) fun _ _ => Reads.iff readsBody fun _ => and_iff_left rfl

theorem decodeIff {b : Bytes} {s : State} :
    State.decode b = .ok s ↔ (R.header >>= fun _ => R.body).run b = .ok (s,[]) := by
  unfold State.decode
  split
  · next e failed => simp [failed]
  · next t found => simp [found]
  · next t rest more found =>
      simp only [found, reduceCtorEq, Except.ok.injEq, Prod.mk.injEq, false_iff, not_and]
      exact fun _ => more

theorem decodeEncode {s : State} (totals : Totals s) (small : s.encode.length < 256 ^ 8) :
    State.decode s.encode = .ok s := by
  have read := Reads.back readsState [] totals small
  rw [List.append_nil] at read
  rw [decodeIff]
  exact read

theorem encodeDecode {b : Bytes} {s : State} (accepted : State.decode b = .ok s) : s.encode = b := by
  rw [decodeIff] at accepted
  have shape := (Reads.only readsState accepted).1
  rw [List.append_nil] at shape
  exact shape.symm

end Codec

/-! The totals of a run. -/

open Codec State

theorem emptyTotals : Totals .empty := by
  constructor
  all_goals
    intro _ _ held
    cases held

theorem joinTotals {s t : State} {o} (left : Totals s) (right : Totals t) : Totals (join s t o).1 where
  regs k r held := by
    obtain ⟨_, x, y, side, source⟩ := joinedRegs held
    cases side with
    | left => exact left.regs k r source
    | right => exact right.regs k r source
  slots k v held := by
    obtain ⟨_, x, y, side, source⟩ := joinedSlots held
    cases side with
    | left => exact left.slots k v source
    | right => exact right.slots k v source
  losses k v held := by
    rw [joinLosses] at held
    split_ifs at held with kept
    rw [Option.or_eq_some_iff, Option.or_eq_some_iff] at held
    rcases held with (own | ⟨_, other⟩) | ⟨_, new⟩
    · exact left.losses k v own
    · exact right.losses k v other
    · have slot {x y c u} (side : Side (prefilter s (joinHorizon s t o)) (prefilter t (joinHorizon s t o)) x y)
          (found : x.slots.get c = some u) : LossSmall (.total u.total) := by
        intro n same
        cases same
        cases side with
        | left => exact left.slots c u found
        | right => exact right.slots c u found
      cases newRecordsLost s t o new with
      | insert | clash | cellOfInsert | deadCell | dropped => exact nofun
      | slotOfInsert side found => exact slot side found
      | deadSlot side found => exact slot side found

theorem creationSmall (st v soi) : RegSmall (creationReg st v soi) where
  obs _ member := absurd member (List.not_mem_nil)
  generation x same y member := by
    unfold creationReg at same
    split_ifs at same
    cases same
    exact absurd member (List.not_mem_nil)

theorem putCellsSmall {regs : SortedMap CellKey Reg} {st cells soi} (small : ∀ k r, regs.get k = some r → RegSmall r)
    (k r) (held : (putCells regs st cells soi).get k = some r) : RegSmall r := by
  rw [getPutCells, Option.or_eq_some_iff] at held
  rcases held with new | ⟨_, old⟩
  · split_ifs at new
    obtain ⟨v, _, rfl⟩ := Option.map_eq_some_iff.mp new
    exact creationSmall st v soi
  · exact small k r old

section
variable {o : JoinOptions} {s : State} (totals : Totals s)
include totals

theorem obsSmall (p) : ∀ x ∈ (s.obs p o).entries, Codec.Small x.2.2 := by
  intro x member
  have pair := SortedMap.collectMem (SortedMap.memEntry.mp member)
  obtain ⟨y, counted, same⟩ := List.mem_map.mp pair
  have source := SortedMap.collectMem (SortedMap.memEntry.mp counted)
  obtain ⟨z, slot, same'⟩ := List.mem_map.mp source
  have held := SortedMap.memEntry.mp (List.mem_filter.mp slot).1
  have total : x.2.2 = z.2.total := by
    rw [←congrArg (fun w => w.2.2) same, ←congrArg (fun w => w.2.total) same']
  rw [total]
  exact totals.slots _ _ held

theorem seenSmall (p) : ∀ x ∈ (s.seenTotals p o).entries, Codec.Small x.2 := by
  intro x member
  have pair := SortedMap.collectMem (SortedMap.memEntry.mp member)
  obtain ⟨z, slot, same⟩ := List.mem_map.mp pair
  have held := SortedMap.memEntry.mp (List.mem_filter.mp slot).1
  rw [←congrArg Prod.snd same]
  exact totals.slots _ _ held

theorem genOfSmall (p) : GenSmall (s.genOf p o) := by
  intro g same
  obtain ⟨r, won, generation⟩ := Option.bind_eq_some_iff.mp same
  obtain ⟨⟨k, held, _⟩, _⟩ := winnerSome won
  exact (totals.regs k r held).generation g generation

theorem setregTotals (p v st) : Totals (s.setreg p v st o) := by
  unfold setreg
  split
  · exact totals
  · refine ⟨fun k r held => ?_,totals.slots,totals.losses⟩
    replace held := (SortedMap.getInsert _ _ _ _).symm.trans held
    split_ifs at held
    · cases held
      refine ⟨obsSmall totals p,?_⟩
      simp only [regFor]
      split_ifs
      · exact genOfSmall totals p
      · intro g same
        cases same
        exact seenSmall totals p
    · exact totals.regs k r held

omit totals in
theorem setregsTotals (st) (cells : Fields) : ∀ {s : State}, Totals s → Totals (Writer.setregs o s cells st) := by
  induction cells with
  | nil => exact fun totals => totals
  | cons x cells ih => exact fun totals => ih (setregTotals totals x.1 x.2 st)

theorem slotTotals {k : SlotKey} {v : Slot} (small : Codec.Small v.total) : Totals { s with slots := s.slots.insert k v } where
  regs := totals.regs
  slots j u held := by
    replace held := (SortedMap.getInsert _ _ _ _).symm.trans held
    split_ifs at held
    · cases held
      exact small
    · exact totals.slots j u held
  losses := totals.losses

end

theorem amountSmall (n : Int64) : Codec.Small n.toInt := by
  have low := n.le_toInt
  have high := n.toInt_lt
  have limit : maxTotal.natAbs = 2 ^ 119 := by decide
  unfold Codec.Small
  omega

section
variable {w : Writer} {o : JoinOptions} {d : Draft} {skew : Skew} (totals : Totals w.state)
include totals

theorem upsertSoiCreateTotals {fields incPath sets}
    (accepted : w.upsertSoiCreate o fields incPath sets skew = some d) : Totals d.writer.state := by
  simp only [Writer.upsertSoiCreate, ne_eq, ite_not, Option.ite_none_right_eq_some, Option.some.injEq] at accepted
  obtain ⟨_, _, rfl⟩ := accepted
  exact ⟨putCellsSmall (putCellsSmall totals.regs),totals.slots,totals.losses⟩

theorem upsertIncOnTotals {life path n} (accepted : w.upsertIncOn o life path n skew = some d) :
    Totals d.writer.state := by
  simp only [Writer.upsertIncOn, ite_not, Option.ite_none_right_eq_some, Option.ite_none_left_eq_some,
    Option.some.injEq] at accepted
  obtain ⟨_, _, rfl⟩ := accepted
  have covered : Totals (Writer.covered w.state (w.stampAt skew)) := ⟨totals.regs,totals.slots,totals.losses⟩
  exact slotTotals covered (amountSmall n)

theorem draftedTotals (drafted : Drafted w o d) : Totals d.writer.state := by
  have covered (st) : Totals (Writer.covered w.state st) := ⟨totals.regs,totals.slots,totals.losses⟩
  cases drafted with
  | insert accepted =>
      simp only [Writer.insert, ne_eq, ite_not, Option.ite_none_right_eq_some, Option.some.injEq] at accepted
      obtain ⟨_, rfl⟩ := accepted
      exact ⟨putCellsSmall totals.regs,totals.slots,totals.losses⟩
  | @upsertInc path n skew _ accepted =>
      simp only [Writer.upsertInc, ne_eq, ite_not, Option.ite_none_right_eq_some, Option.some.injEq] at accepted
      obtain ⟨_, rfl⟩ := accepted
      have moved := slotTotals totals (k := ⟨w.stampAt skew,path,w.id,none⟩) (v := ⟨w.stampAt skew,n.toInt⟩)
        (amountSmall n)
      exact ⟨moved.regs,moved.slots,moved.losses⟩
  | @regs cells skew l life => exact setregsTotals _ cells (covered (w.stampAt skew))
  | inc accepted =>
      simp only [Writer.incSlot, ite_not, Option.ite_none_right_eq_some, Option.bind_eq_bind,
        Option.bind_eq_some_iff, Option.ite_none_left_eq_some, Option.some.injEq] at accepted
      obtain ⟨_, l, _, small, rfl⟩ := accepted
      exact slotTotals (covered _) (not_lt.mp small)
  | delete accepted =>
      simp only [Writer.writeDelete, Option.ite_none_left_eq_some, Option.some.injEq] at accepted
      obtain ⟨_, rfl⟩ := accepted
      exact ⟨totals.regs,totals.slots,totals.losses⟩

end

/- Every state of any run, with any retention. -/
structure RunTotals (sys : Sys) : Prop where
  pooled : ∀ id, ∃ past, ((sys.nodes id).writer.state,past) ∈ sys.pool
  totals : ∀ m ∈ sys.pool, Totals m.1

theorem holdTotals {sys : Sys} {id : WriterId} {node : Node} (holds : RunTotals sys)
    (totals : Totals node.writer.state) : RunTotals (sys.hold id node) where
  pooled x := by
    by_cases here : x = id
    · have own : (sys.hold id node).nodes id = node := Function.update_self _ _ _
      rw [here, own]
      exact ⟨node.past,List.mem_append_right _ (List.mem_singleton.mpr rfl)⟩
    · have other : (sys.hold id node).nodes x = sys.nodes x := Function.update_of_ne here _ _
      rw [other]
      exact (holds.pooled x).imp fun _ member => List.mem_append_left _ member
  totals m member := by
    rcases List.mem_append.mp member with old | new
    · exact holds.totals m old
    · cases List.mem_singleton.mp new
      exact totals

theorem nodeTotals {sys : Sys} (holds : RunTotals sys) (id) : Totals (sys.nodes id).writer.state :=
  (holds.pooled id).elim fun _ member => holds.totals _ member

theorem commitTotals {sys : Sys} {o id d} (holds : RunTotals sys) (totals : Totals d.writer.state) :
    RunTotals (sys.commit o id d) := by
  have raw : Totals (Writer.covered d.writer.state d.stamp) := ⟨totals.regs,totals.slots,totals.losses⟩
  have held : RunTotals (sys.hold id ⟨d.finish o,insert d.stamp (sys.nodes id).past,(sys.nodes id).reported⟩) :=
    holdTotals holds (joinTotals raw emptyTotals)
  exact ⟨held.pooled,held.totals⟩

theorem runTotals (o : JoinOptions) (actions : List Action) : RunTotals (Sys.run o actions) := by
  refine Sys.runRule (P := RunTotals) ?_ ?_ ?_ ?_ ?_ ?_ actions
  · refine ⟨fun _ => ⟨∅,List.mem_singleton.mpr rfl⟩,fun m member => ?_⟩
    cases List.mem_singleton.mp member
    exact emptyTotals
  · exact fun _ id _ _ _ holds accepted => commitTotals holds (draftedTotals (nodeTotals holds id) (draftShape accepted))
  · exact fun _ id _ _ _ _ _ holds accepted => commitTotals holds (upsertSoiCreateTotals (nodeTotals holds id) accepted)
  · exact fun _ id _ _ _ _ _ _ _ _ _ created accepted =>
      commitTotals created (upsertIncOnTotals (nodeTotals created id) accepted)
  · exact fun _ id m holds member => holdTotals holds (joinTotals (nodeTotals holds id) (holds.totals m member))
  · intro sys id m key val w holds member held taken
    have own := nodeTotals holds id
    unfold Writer.receiveLoss at taken
    split_ifs at taken with refused
    have kept (small : LossSmall val) : Totals { (sys.nodes id).writer.state with
        losses := (sys.nodes id).writer.state.losses.insert key val } := by
      refine ⟨own.regs,own.slots,fun k v found => ?_⟩
      replace found := (SortedMap.getInsert _ _ _ _).symm.trans found
      split_ifs at found
      · cases found
        exact small
      · exact own.losses k v found
    split at taken
    · split_ifs at taken with large
      cases taken
      refine holdTotals holds (kept fun t same => ?_)
      cases same
      exact not_lt.mp large
    · cases taken
      refine holdTotals holds (kept fun t same => ?_)
      next other => exact absurd same (other t)

namespace Sys

/- `encode` counts with 64-bit lengths; no byte vector is longer. -/
theorem canonicalFormat : (∀ o actions, ∀ s ∈ (run o actions).states, s.encode.length < 2 ^ 64 →
      State.decode s.encode = .ok s) ∧
    (∀ b s, State.decode b = .ok s → s.encode = b) ∧
    (∀ b c s, State.decode b = .ok s → State.decode c = .ok s → b = c) ∧
    ∀ b, (¬ ∃ s : State, s.encode = b) → ∃ e, State.decode b = .error e := by
  refine ⟨fun o actions s held small => ?_,fun b s => encodeDecode,fun b c s one two => ?_,fun b other => ?_⟩
  · obtain ⟨m, member, rfl⟩ := List.mem_map.mp held
    exact decodeEncode ((runTotals o actions).totals m member) small
  · rw [←encodeDecode one, ←encodeDecode two]
  · cases read : State.decode b with
    | error e => exact ⟨e,rfl⟩
    | ok s => exact absurd ⟨s,encodeDecode read⟩ other

theorem canonicalFormatClash : ∃ s ∈ (run .default (clashRun ⟨1,0⟩ ⟨2,0⟩)).states, s.losses ≠ .empty ∧
    State.decode s.encode = .ok s := by
  have held : (run .default (clashRun ⟨1,0⟩ ⟨2,0⟩)).states.getD 5 .empty ∈
      (run .default (clashRun ⟨1,0⟩ ⟨2,0⟩)).states := by decide +kernel
  exact ⟨_,held,by decide +kernel,canonicalFormat.1 _ _ _ held (by decide +kernel)⟩

end Sys
end Kimmy.Merge
