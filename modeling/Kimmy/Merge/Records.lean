import Kimmy.Merge.Join
import Mathlib.Tactic.Tauto

/-!
What a join keeps and what it reports, entry by entry. `Lost` lists the ways a write can be
reported; it reads its two sides alike, so a join reports the same records in either
order.
-/
namespace Kimmy.Merge

def SeenByDelete (out : State) (st : MStamp) : Prop :=
  ∃ d vv, out.deletes.get d = some vv ∧ cov vv st = true

/- `Side s t x y`: `x` is one of the two sides and `y` the other. -/
inductive Side (s t : State) : State → State → Prop where
  | left : Side s t s t
  | right : Side s t t s

theorem Side.swap {s t x y} (side : Side s t x y) : Side t s x y := by
  cases side with
  | left => exact .right
  | right => exact .left

inductive Lost (s t out : State) (ret : Fin (2 ^ 64)) (al : Finset MStamp) : LossKey → LossValue → Prop where
  | insert {l v} (lost : l ∈ reported out ret) (held : out.lives.get l = some v) :
      Lost s t out ret al ⟨.insertLost,"_",l⟩ (.fields v.order)
  | clash {x y a b ra rb} (side : Side s t x y) (lower : x.regs.get a = some ra)
      (higher : y.regs.get b = some rb) (path : a.path = b.path) (aliveA : a.life ∈ al)
      (aliveB : b.life ∈ al) (below : ra.stamp < rb.stamp) (unseen : cov y.vv ra.stamp = false)
      (unseen' : cov x.vv rb.stamp = false) :
      Lost s t out ret al ⟨.clash,a.path,ra.stamp⟩ (.value ra.value)
  | cellOfInsert {x y k r} (side : Side s t x y) (held : x.regs.get k = some r)
      (lost : k.life ∈ reported out ret) (later : r.stamp ≠ k.life) :
      Lost s t out ret al ⟨.insertLost,k.path,r.stamp⟩ (.value r.value)
  | slotOfInsert {x y k v} (side : Side s t x y) (held : x.slots.get k = some v)
      (lost : k.life ∈ reported out ret) :
      Lost s t out ret al ⟨.insertLost,k.path,v.stamp⟩ (.total v.total)
  | deadCell {x y k r} (side : Side s t x y) (held : x.regs.get k = some r) (gone : k.life ∉ al)
      (other : k.life ∉ reported out ret) (unseen : ¬ SeenByDelete out r.stamp) :
      Lost s t out ret al ⟨.deleteWon,k.path,r.stamp⟩ (.value r.value)
  | deadSlot {x y k v} (side : Side s t x y) (held : x.slots.get k = some v) (gone : k.life ∉ al)
      (other : k.life ∉ reported out ret) (unseen : ¬ SeenByDelete out v.stamp) :
      Lost s t out ret al ⟨.deleteWon,k.path,v.stamp⟩ (.total v.total)
  | dropped {x y k r i} (side : Side s t x y) (held : x.regs.get k = some r) (soi : r.soi = true)
      (alive : k.life ∈ al) (upsert : out.isKind .upsert k.life = true) (member : i ∈ al)
      (explicit : out.isKind .insert i = true) :
      Lost s t out ret al ⟨.insertLost,k.path,r.stamp⟩ (.value r.value)

theorem Lost.swap {s t out ret al k v} (lost : Lost s t out ret al k v) : Lost t s out ret al k v := by
  cases lost with
  | insert lost held => exact .insert lost held
  | clash side lower higher path aliveA aliveB below unseen unseen' =>
      exact .clash side.swap lower higher path aliveA aliveB below unseen unseen'
  | cellOfInsert side held lost later => exact .cellOfInsert side.swap held lost later
  | slotOfInsert side held lost => exact .slotOfInsert side.swap held lost
  | deadCell side held gone other unseen => exact .deadCell side.swap held gone other unseen
  | deadSlot side held gone other unseen => exact .deadSlot side.swap held gone other unseen
  | dropped side held soi alive upsert member explicit =>
      exact .dropped side.swap held soi alive upsert member explicit

theorem seenByDeleteIff {out : State} {st} :
    (out.deletes.values.any fun vv => cov vv st) = true ↔ SeenByDelete out st := by
  simp only [List.any_eq_true, SortedMap.memValues, SeenByDelete]
  constructor
  · rintro ⟨vv, ⟨d, held⟩, seen⟩
    exact ⟨d,vv,held,seen⟩
  · rintro ⟨d, vv, held, seen⟩
    exact ⟨vv,⟨d,held⟩,seen⟩

theorem insertsLostLost {s t out ret al k v}
    (member : (k,v) ∈ insertsLost out (reported out ret)) : Lost s t out ret al k v := by
  simp only [insertsLost, List.mem_map, SortedMap.memElements] at member
  obtain ⟨l, lost, same⟩ := member
  obtain ⟨⟨x, held, _⟩, _⟩ := memSuperseded.mp (memReported.mp lost).1
  cases same
  simp only [held]
  exact .insert lost held

theorem clashesLost {s t out ret al k v} (member : (k,v) ∈ clashes s t al) :
    Lost s t out ret al k v := by
  simp only [clashes, List.mem_flatMap, List.mem_filterMap, List.mem_map, List.mem_filter,
    SortedMap.memEntry, Bool.and_eq_true, decide_eq_true_eq, Option.ite_none_right_eq_some,
    Bool.not_eq_true', Prod.exists] at member
  obtain ⟨p, _, _, ⟨ka, ra, ⟨heldA, rfl, aliveA⟩, rfl⟩, _, ⟨kb, rb, ⟨heldB, path, aliveB⟩, rfl⟩,
    ⟨⟨apart, unseenA⟩, unseenB⟩, same⟩ := member
  by_cases below : ra.stamp < rb.stamp
  · simp only [below, if_true, Option.some.injEq, Prod.mk.injEq] at same
    obtain ⟨rfl, rfl⟩ := same
    exact .clash .left heldA heldB path.symm aliveA aliveB below unseenA unseenB
  · simp only [below, if_false, Option.some.injEq, Prod.mk.injEq] at same
    obtain ⟨rfl, rfl⟩ := same
    rw [←path]
    exact .clash .right heldB heldA path aliveB aliveA
      (lt_of_le_of_ne (not_lt.mp below) (Ne.symm apart)) unseenB unseenA

theorem lostClashes {s t al a b ra rb} (lower : s.regs.get a = some ra) (higher : t.regs.get b = some rb)
    (path : a.path = b.path) (aliveA : a.life ∈ al) (aliveB : b.life ∈ al) (apart : ra.stamp ≠ rb.stamp)
    (unseen : cov t.vv ra.stamp = false) (unseen' : cov s.vv rb.stamp = false) :
    let lo := if ra.stamp < rb.stamp then ra else rb
    ((⟨.clash,a.path,lo.stamp⟩, .value lo.value) : Record) ∈ clashes s t al := by
  simp only [clashes, List.mem_flatMap, List.mem_filterMap, List.mem_map, List.mem_filter,
    SortedMap.memEntry, Bool.and_eq_true, decide_eq_true_eq, Option.ite_none_right_eq_some,
    Bool.not_eq_true', Prod.exists, SortedMap.memElements, List.mem_toFinset, List.mem_append]
  exact ⟨a.path,Or.inl ⟨a,ra,lower,rfl⟩,ra,⟨a,ra,⟨lower,rfl,aliveA⟩,rfl⟩,rb,⟨b,rb,⟨higher,path.symm,aliveB⟩,rfl⟩,
    ⟨⟨apart,unseen⟩,unseen'⟩,rfl⟩

theorem deadCellsLost {s t out ret al x y k v} (side : Side s t x y)
    (member : (k,v) ∈ deadCells out al (reported out ret) x) : Lost s t out ret al k v := by
  simp only [deadCells, List.mem_append, List.mem_filterMap, SortedMap.memEntry, Prod.exists] at member
  rcases member with ⟨c, r, held, same⟩ | ⟨c, r, held, same⟩
  · split_ifs at same with inLost dying
    · cases same
      simp only [Bool.and_eq_true, decide_eq_true_eq] at inLost
      exact .cellOfInsert side held inLost.1 inLost.2
    · cases same
      simp only [Bool.and_eq_true, decide_eq_true_eq, Bool.not_eq_true', ←Bool.not_eq_true,
        seenByDeleteIff] at dying
      exact .deadCell side held dying.1.1 dying.1.2 dying.2
  · split_ifs at same with inLost dying
    · cases same
      exact .slotOfInsert side held inLost
    · cases same
      simp only [Bool.and_eq_true, decide_eq_true_eq, Bool.not_eq_true', ←Bool.not_eq_true,
        seenByDeleteIff] at dying
      exact .deadSlot side held dying.1.1 dying.1.2 dying.2

theorem droppedCellsLost {s t out ret al x y k v} (side : Side s t x y)
    (member : (k,v) ∈ droppedCells out al x) : Lost s t out ret al k v := by
  unfold droppedCells at member
  split_ifs at member with explicit
  · obtain ⟨i, inside, kind⟩ := explicit
    simp only [List.mem_filterMap, SortedMap.memEntry, Prod.exists] at member
    obtain ⟨c, r, held, same⟩ := member
    split_ifs at same with fits
    cases same
    simp only [Bool.and_eq_true, decide_eq_true_eq] at fits
    exact .dropped side held fits.1.1 fits.1.2 fits.2 inside kind
  · simp at member

theorem lostDeadCells {out al ret x k r} (held : x.regs.get k = some r) :
    (k.life ∈ reported out ret → r.stamp ≠ k.life →
      ((⟨.insertLost,k.path,r.stamp⟩, .value r.value) : Record) ∈ deadCells out al (reported out ret) x) ∧
    (k.life ∉ al → k.life ∉ reported out ret → ¬ SeenByDelete out r.stamp →
      ((⟨.deleteWon,k.path,r.stamp⟩, .value r.value) : Record) ∈ deadCells out al (reported out ret) x) := by
  simp only [deadCells, List.mem_append, List.mem_filterMap, SortedMap.memEntry, Prod.exists]
  refine ⟨fun lost later => Or.inl ⟨k,r,held,?_⟩,fun gone other unseen => Or.inl ⟨k,r,held,?_⟩⟩
  · simp [lost, later]
  · rw [←seenByDeleteIff] at unseen
    simp [other, gone, unseen]

theorem lostDeadSlots {out al ret x k v} (held : x.slots.get k = some v) :
    (k.life ∈ reported out ret →
      ((⟨.insertLost,k.path,v.stamp⟩, .total v.total) : Record) ∈ deadCells out al (reported out ret) x) ∧
    (k.life ∉ al → k.life ∉ reported out ret → ¬ SeenByDelete out v.stamp →
      ((⟨.deleteWon,k.path,v.stamp⟩, .total v.total) : Record) ∈ deadCells out al (reported out ret) x) := by
  simp only [deadCells, List.mem_append, List.mem_filterMap, SortedMap.memEntry, Prod.exists]
  refine ⟨fun lost => Or.inr ⟨k,v,held,?_⟩,fun gone other unseen => Or.inr ⟨k,v,held,?_⟩⟩
  · simp [lost]
  · rw [←seenByDeleteIff] at unseen
    simp [other, gone, unseen]

theorem memRecords {s t out ret al k v} :
    (k,v) ∈ records s t out ret al ↔ Lost s t out ret al k v := by
  simp only [records, List.mem_append]
  constructor
  · rintro (((lost | clash) | (cells | cells)) | (cells | cells))
    · exact insertsLostLost lost
    · exact clashesLost clash
    · exact deadCellsLost .left cells
    · exact deadCellsLost .right cells
    · exact droppedCellsLost .left cells
    · exact droppedCellsLost .right cells
  · intro lost
    have dead {x y c} (side : Side s t x y) (member : c ∈ deadCells out al (reported out ret) x) :
        c ∈ deadCells out al (reported out ret) s ∨ c ∈ deadCells out al (reported out ret) t := by
      cases side with
      | left => exact Or.inl member
      | right => exact Or.inr member
    cases lost with
    | @insert l x lost held =>
        refine Or.inl (Or.inl (Or.inl ?_))
        simp only [insertsLost, List.mem_map, SortedMap.memElements]
        exact ⟨l,lost,by simp [held]⟩
    | clash side lower higher path aliveA aliveB below unseen unseen' =>
        refine Or.inl (Or.inl (Or.inr ?_))
        cases side with
        | left =>
            have found := lostClashes lower higher path aliveA aliveB below.ne unseen unseen'
            simpa only [below, if_true] using found
        | right =>
            have found := lostClashes higher lower path.symm aliveB aliveA below.ne' unseen' unseen
            simpa only [below.not_gt, if_false, path] using found
    | cellOfInsert side held lost later =>
        exact Or.inl (Or.inr (dead side ((lostDeadCells held).1 lost later)))
    | slotOfInsert side held lost => exact Or.inl (Or.inr (dead side ((lostDeadSlots held).1 lost)))
    | deadCell side held gone other unseen =>
        exact Or.inl (Or.inr (dead side ((lostDeadCells held).2 gone other unseen)))
    | deadSlot side held gone other unseen =>
        exact Or.inl (Or.inr (dead side ((lostDeadSlots held).2 gone other unseen)))
    | @dropped x y c r i side held soi alive upsert member explicit =>
        have found : ((⟨.insertLost,c.path,r.stamp⟩, .value r.value) : Record) ∈ droppedCells out al x := by
          unfold droppedCells
          rw [if_pos ⟨i,member,explicit⟩]
          simp only [List.mem_filterMap, SortedMap.memEntry, Prod.exists]
          exact ⟨c,r,held,by simp [soi, alive, upsert]⟩
        cases side with
        | left => exact Or.inr (Or.inl found)
        | right => exact Or.inr (Or.inr found)

/-! The joined state, entry by entry. -/

section
variable (s t : State) (o : JoinOptions)

theorem metMax : (met s t o).maxVv = max s.maxVv t.maxVv := uniteMax

theorem metHorizon : (met s t o).horizon o = joinHorizon s t o := by
  rw [State.horizon, metMax, joinHorizon]

theorem joinVv : (join s t o).1.vv = (unite s t).vv := rfl

theorem joinMax : (join s t o).1.maxVv = max s.maxVv t.maxVv := uniteMax

theorem horizonJoin : (join s t o).1.horizon o = joinHorizon s t o := by
  rw [State.horizon, joinMax, joinHorizon]

theorem joinRegs (k) : (join s t o).1.regs.get k =
    ((met s t o).regs.get k).filter fun _ => decide (k.life ∈ metAlive s t o) :=
  SortedMap.getRetain _ _ _

theorem joinSlots (k) : (join s t o).1.slots.get k =
    ((met s t o).slots.get k).filter fun _ => decide (k.life ∈ metAlive s t o) :=
  SortedMap.getRetain _ _ _

theorem joinRegsDead {k : CellKey} (gone : k.life ∉ metAlive s t o) : (join s t o).1.regs.get k = none := by
  rw [joinRegs, Option.filter_eq_none_iff]
  simp [gone]

theorem joinSlotsDead {k : SlotKey} (gone : k.life ∉ metAlive s t o) : (join s t o).1.slots.get k = none := by
  rw [joinSlots, Option.filter_eq_none_iff]
  simp [gone]

theorem metAliveIff {l} : l ∈ metAlive s t o ↔ (∃ v, (met s t o).lives.get l = some v) ∧
    l ∉ (met s t o).dead ∧ ¬ Killed (met s t o) o.retention l :=
  memAliveIff

theorem joinLives (l) : (join s t o).1.lives.get l = ((met s t o).lives.get l).filter
    fun _ => decide (joinHorizon s t o ≤ l.hlc ∨ l ∈ metAlive s t o) := by
  refine (SortedMap.getRetain _ _ _).trans ?_
  rw [metHorizon]
  cases held : (met s t o).lives.get l with
  | none => rfl
  | some v =>
      have inLives : l ∈ (met s t o).lives.keys := SortedMap.memKeys.mpr ⟨v,held⟩
      have dead : l ∈ (met s t o).dead ∪ ((met s t o).lives.keys \ metAlive s t o) ↔
          l ∉ metAlive s t o := by
        rw [Finset.mem_union, Finset.mem_sdiff]
        refine ⟨?_,fun gone => Or.inr ⟨inLives,gone⟩⟩
        rintro (buried | ⟨_, gone⟩)
        · exact fun alive => ((metAliveIff s t o).mp alive).2.1 buried
        · exact gone
      congr 1
      funext _
      simp only [dead, ←Bool.decide_and, ←decide_not]
      congr 1
      simp only [not_and_or, not_lt, not_not]

theorem joinDeletes (d) : (join s t o).1.deletes.get d = ((met s t o).deletes.get d).filter
    fun _ => decide (joinHorizon s t o ≤ d.hlc) := by
  refine (SortedMap.getRetain _ _ _).trans ?_
  rw [metHorizon]

theorem joinDead {l} : l ∈ (join s t o).1.dead ↔ joinHorizon s t o ≤ l.hlc ∧
    (l ∈ (met s t o).dead ∨ (∃ v, (met s t o).lives.get l = some v) ∧ l ∉ metAlive s t o) := by
  have filtered : l ∈ (join s t o).1.dead ↔
      l ∈ ((met s t o).dead ∪ ((met s t o).lives.keys \ metAlive s t o)).filter
        fun l => (met s t o).horizon o ≤ l.hlc := Iff.rfl
  rw [filtered, Finset.mem_filter, metHorizon, Finset.mem_union, Finset.mem_sdiff, SortedMap.memKeys, and_comm]

/- The records a join makes, before the horizon cuts them. -/
def newRecords : SortedMap LossKey LossValue := .collect
  (records (prefilter s (joinHorizon s t o)) (prefilter t (joinHorizon s t o)) (met s t o) o.retention
    (metAlive s t o))

abbrev Losing (k : LossKey) (v : LossValue) : Prop :=
  Lost (prefilter s (joinHorizon s t o)) (prefilter t (joinHorizon s t o)) (met s t o) o.retention
    (metAlive s t o) k v

theorem newRecordsLost {k v} (held : (newRecords s t o).get k = some v) : Losing s t o k v :=
  memRecords.mp (SortedMap.collectMem held)

theorem lostNewRecords {k v} (lost : Losing s t o k v) : ∃ x, (newRecords s t o).get k = some x :=
  SortedMap.collectSome (memRecords.mpr lost)

theorem joinLosses (k) : (join s t o).1.losses.get k =
    if joinHorizon s t o ≤ k.stamp.hlc then
      ((s.losses.get k).or (t.losses.get k)).or ((newRecords s t o).get k)
    else none := by
  refine SortedMap.getGather.trans ?_
  rw [metHorizon, SortedMap.lookupAppend, SortedMap.lookupAppend]
  simp only [SortedMap.lookupEntries, decide_eq_true_eq]
  rfl

theorem joinFresh {k} : k ∈ (join s t o).2 ↔
    (∃ v, (join s t o).1.losses.get k = some v) ∧ s.losses.get k = none := by
  have shape : (join s t o).2 = (join s t o).1.losses.keys \ s.losses.keys := rfl
  rw [shape, Finset.mem_sdiff, SortedMap.memKeys, SortedMap.memKeys, not_exists]
  exact and_congr_right fun _ => Option.eq_none_iff_forall_ne_some.symm

end
end Kimmy.Merge
