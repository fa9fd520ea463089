import Kimmy.Merge.Causal
import Kimmy.Merge.Meaning

/-!
A run whose clock stays below the retention. Every state is the function of its past that a
join computes, every past is closed, and every write of the log was made in the state of
its causal past.
-/
namespace Kimmy.Merge
open State

/-! A log that agrees on a past says the same of it. -/

theorem newestCongr {κ ν : Type} {written written' : MStamp → κ → Option ν} {past k x}
    (agree : ∀ st ∈ past, written' st k = written st k) :
    Newest written' past k x ↔ Newest written past k x := by
  refine exists_congr fun st => and_congr_right fun member => ?_
  rw [agree st member]
  refine and_congr_right fun _ => forall_congr' fun y => forall_congr' fun inside => ?_
  rw [agree y inside]

section
variable {log log' : Log} {past : Finset MStamp} (same : ∀ st ∈ past, log' st = log st)
include same

theorem lifeAtCongr {st} (member : st ∈ past) : lifeAt log' st = lifeAt log st := by
  rw [lifeAt, lifeAt, same st member]

theorem deleteAtCongr {st} (member : st ∈ past) : deleteAt log' st = deleteAt log st := by
  rw [deleteAt, deleteAt, same st member]

theorem regAtCongr {st} (member : st ∈ past) (k) : regAt log' st k = regAt log st k := by
  rw [regAt, regAt, same st member]

theorem slotAtCongr {st} (member : st ∈ past) (k) : slotAt log' st k = slotAt log st k := by
  rw [slotAt, slotAt, same st member]

theorem firstAtCongr {st} (member : st ∈ past) : FirstAt log' st ↔ FirstAt log st := by
  rw [FirstAt, FirstAt, lifeAtCongr same member]

theorem supersededAtCongr {l} (member : l ∈ past) : Superseded log' past l ↔ Superseded log past l := by
  refine and_congr (firstAtCongr same member) (exists_congr fun n => and_congr_right fun inside => ?_)
  rw [firstAtCongr same inside]

theorem struckCongr {v} : Struck log' past v ↔ Struck log past v := by
  refine exists_congr fun d => and_congr_right fun inside => ?_
  rw [deleteAtCongr same inside]

theorem aliveAtCongr {l} : Alive log' past l ↔ Alive log past l := by
  refine and_congr_right fun member => ?_
  rw [lifeAtCongr same member, supersededAtCongr same member]
  simp only [struckCongr same]

theorem goodCongr {s} (good : Good log s past) : Good log' s past where
  lives l v := by
    rw [good.lives]
    exact and_congr_right fun member => by rw [lifeAtCongr same member]
  deletes d vv := by
    rw [good.deletes]
    exact and_congr_right fun member => by rw [deleteAtCongr same member]
  deadOnly l dead := by
    obtain ⟨member, born, gone⟩ := good.deadOnly l dead
    refine ⟨member,?_,(aliveAtCongr same).not.mpr gone⟩
    rwa [lifeAtCongr same member]
  regs k living r := by
    rw [newestCongr fun st member => regAtCongr same member k]
    exact good.regs k ((aliveAtCongr same).mp living) r
  slots k living v := by
    rw [newestCongr fun st member => slotAtCongr same member k]
    exact good.slots k ((aliveAtCongr same).mp living) v
  regsFrom k r held := by
    obtain ⟨member, wrote⟩ := good.regsFrom k r held
    exact ⟨member,(regAtCongr same member k).trans wrote⟩
  slotsFrom k v held := by
    obtain ⟨member, wrote⟩ := good.slotsFrom k v held
    exact ⟨member,(slotAtCongr same member k).trans wrote⟩
  vv := good.vv
  dead l := by
    rw [good.dead, aliveAtCongr same]
    exact and_congr_right fun member => by rw [lifeAtCongr same member]
  regsAlive k r held := (aliveAtCongr same).mpr (good.regsAlive k r held)
  slotsAlive k v held := (aliveAtCongr same).mpr (good.slotsAlive k v held)

theorem closedCongr (closed : Closed log past) : Closed log' past where
  entry st member := by
    rw [same st member]
    exact closed.entry st member
  life st member e l entry := by
    rw [same st member] at entry
    exact closed.life st member e l entry

end

/-! Reading a state through its past. -/

section
variable {log : Log} {o : JoinOptions} {s : State} {past : Finset MStamp}

theorem goodAlive (good : Good log s past) {l} : l ∈ s.alive o ↔ Alive log past l := by
  rw [State.alive, memAlive]
  constructor
  · rintro ⟨v, held, notDead, judged⟩
    obtain ⟨inside, born⟩ := (good.lives l v).mp held
    by_contra gone
    exact notDead ((good.dead l).mpr ⟨inside,⟨v,born⟩,gone⟩)
  · intro living
    obtain ⟨inside, ⟨v, born, spared⟩, undrawn⟩ := living
    refine ⟨v,(good.lives l v).mpr ⟨inside,born⟩,fun dead => ((good.dead l).mp dead).2.2 ⟨inside,⟨v,born,spared⟩,undrawn⟩,fun d vv held => ?_⟩
    obtain ⟨inD, made⟩ := (good.deletes d vv).mp held
    by_contra unseen
    exact spared ⟨d,inD,⟨vv,made⟩,(not_or.mp unseen).2⟩

theorem pastBelow (pre : Pre log s past) {st} (member : st ∈ past) : st.hlc ≤ s.maxVv := by
  refine (covIff.mp (preCov pre member)).trans ?_
  cases held : s.vv.get st.writer with
  | none => exact hlcZeroLe _
  | some h => exact leMaxVv held

theorem emptyPre (log : Log) : Pre log .empty ∅ := by
  have none {κ ν : Type} {written : MStamp → κ → Option ν} {k x} : ¬ Newest written ∅ k x := by
    rintro ⟨_, member, _⟩
    exact absurd member (Finset.notMem_empty _)
  refine ⟨fun l v => ⟨nofun,fun found => absurd found.1 (Finset.notMem_empty _)⟩,
    fun d v => ⟨nofun,fun found => absurd found.1 (Finset.notMem_empty _)⟩,
    fun _ dead => absurd dead (Finset.notMem_empty _),fun k living => absurd living.1 (Finset.notMem_empty _),
    fun k living => absurd living.1 (Finset.notMem_empty _),nofun,nofun,fun w h => ⟨nofun,fun found => absurd found none⟩⟩

theorem emptyGood (log : Log) : Good log .empty ∅ where
  toPre := emptyPre log
  dead _ := ⟨fun dead => absurd dead (Finset.notMem_empty _),fun found => absurd found.1 (Finset.notMem_empty _)⟩
  regsAlive := nofun
  slotsAlive := nofun

theorem emptyClosed (log : Log) : Closed log ∅ :=
  ⟨fun _ member => absurd member (Finset.notMem_empty _),fun _ member => absurd member (Finset.notMem_empty _)⟩

theorem closedUnion {log : Log} {P Q : Finset MStamp} (closedP : Closed log P) (closedQ : Closed log Q) :
    Closed log (P ∪ Q) where
  entry st member := by
    rcases Finset.mem_union.mp member with inside | inside
    · obtain ⟨e, entry, within⟩ := closedP.entry st inside
      exact ⟨e,entry,within.trans Finset.subset_union_left⟩
    · obtain ⟨e, entry, within⟩ := closedQ.entry st inside
      exact ⟨e,entry,within.trans Finset.subset_union_right⟩
  life st member e l entry found := by
    rcases Finset.mem_union.mp member with inside | inside
    · exact Finset.mem_union_left _ (closedP.life st inside e l entry found)
    · exact Finset.mem_union_right _ (closedQ.life st inside e l entry found)

/- A newest write over a past that a newer stamp joins. -/
theorem newestInsert {κ ν : Type} {written : MStamp → κ → Option ν} {st k x}
    (above : ∀ y ∈ past, y < st) : Newest written (insert st past) k x ↔
      match written st k with
      | some z => x = z
      | none => Newest written past k x := by
  constructor
  · rintro ⟨y, member, wrote, top⟩
    cases made : written st k with
    | some z =>
        have bound := top st (Finset.mem_insert_self _ _) ⟨z,made⟩
        rcases Finset.mem_insert.mp member with rfl | old
        · exact Option.some.inj (wrote.symm.trans made)
        · exact absurd (above y old) (not_lt.mpr bound)
    | none =>
        rcases Finset.mem_insert.mp member with rfl | old
        · rw [made] at wrote
          cases wrote
        · exact ⟨y,old,wrote,fun z inside => top z (Finset.mem_insert_of_mem inside)⟩
  · cases made : written st k with
    | some z =>
        rintro rfl
        refine ⟨st,Finset.mem_insert_self _ _,made,fun y member _ => ?_⟩
        rcases Finset.mem_insert.mp member with rfl | old
        · exact le_rfl
        · exact (above y old).le
    | none =>
        rintro ⟨y, member, wrote, top⟩
        refine ⟨y,Finset.mem_insert_of_mem member,wrote,fun z inside written => ?_⟩
        rcases Finset.mem_insert.mp inside with rfl | old
        · rw [made] at written
          obtain ⟨_, impossible⟩ := written
          cases impossible
        · exact top z old written

end

/-! The invariant of a run below its retention. -/

structure History (o : JoinOptions) (sys : Sys) : Prop where
  general : General o sys
  started : ∀ st e, sys.log st = some e → Hlc.zero < st.hlc
  young : ∀ st e, sys.log st = some e → st.hlc.wallMs < o.retention
  before : ∀ st e, sys.log st = some e → ∀ x ∈ e.ctx, x < st
  sequence : ∀ st e x e', sys.log st = some e → sys.log x = some e' → x.writer = st.writer → x < st → x ∈ e.ctx
  ctxClosed : ∀ st e, sys.log st = some e → Closed sys.log e.ctx
  own : ∀ st e, sys.log st = some e → st ∈ (sys.nodes st.writer).past
  closed : ∀ m ∈ sys.pool, Closed sys.log m.2
  good : ∀ m ∈ sys.pool, Good sys.log m.1 m.2
  meant : ∀ st e, sys.log st = some e →
    ∃ s, Good sys.log s e.ctx ∧ Meant o s st e.record e.cells e.made

theorem startHistory (o : JoinOptions) : History o .init where
  general := startGeneral o
  started _ _ := nofun
  young _ _ := nofun
  before _ _ := nofun
  sequence _ _ _ _ := nofun
  ctxClosed _ _ := nofun
  own _ _ := nofun
  closed m member := by
    cases List.mem_singleton.mp member
    exact emptyClosed _
  good m member := by
    cases List.mem_singleton.mp member
    exact emptyGood _
  meant _ _ := nofun

section
variable {o : JoinOptions} {sys : Sys} {id : WriterId} {d : Draft}

theorem nodeGood (history : History o sys) (id) : Good sys.log (sys.nodes id).writer.state (sys.nodes id).past :=
  history.good _ (history.general.pooled id)

theorem nodeClosed (history : History o sys) (id) : Closed sys.log (sys.nodes id).past :=
  history.closed _ (history.general.pooled id)

theorem closedShort (history : History o sys) {past} (closed : Closed sys.log past) : Short o past :=
  fun st member => (closed.entry st member).elim fun e facts => history.young st e facts.1

/- A slot write keeps the bound on totals. -/
theorem slotBounded (history : History o sys) {st k v} (wrote : slotAt sys.log st k = some v) :
    v.total.natAbs ≤ maxTotal.natAbs := by
  obtain ⟨e, entry, made, stamp⟩ := slotAtSome wrote
  obtain ⟨s, good, meant⟩ := history.meant st e entry
  have older (held : s.slots.get k = some v) : False := by
    have inside := (good.slotsFrom k v held).1
    rw [stamp] at inside
    exact lt_irrefl st (history.before st e entry st inside)
  by_cases inc : e.record.kind = .inc
  · obtain ⟨l, p, n, slot⟩ := meant.counted inc
    rw [slot.slots] at made
    split_ifs at made with here
    · cases made
      rw [here]
      exact slot.bounded
    · exact (older made).elim
  · rw [meant.uncounted inc] at made
    exact (older made).elim

theorem commitShort (framed : Framed (sys.nodes id).writer d) (room : (sys.commit o id d).Retained o) :
    d.stamp.hlc.wallMs < o.retention := by
  have top : d.stamp.hlc ≤ (sys.commit o id d).clock := by
    rw [commitClock framed]
    exact le_max_right _ _
  exact (wallMono top).trans_lt room

section
variable (history : History o sys) (framed : Framed (sys.nodes id).writer d)
  (room : (sys.commit o id d).Retained o)
include history framed room

theorem commitRoom : sys.log d.stamp = none ∧ (sys.nodes id).writer.state.maxVv < d.stamp.hlc ∧
    (sys.nodes id).writer.clock < d.stamp.hlc :=
  have unsaturated := retainedUnsaturated room
  ⟨commitFresh history.general framed unsaturated,commitAbove framed unsaturated⟩

theorem commitReady : Ready o (sys.nodes id).writer.state d.stamp := by
  have good := nodeGood history id
  obtain ⟨_, above, _⟩ := commitRoom history framed room
  refine ⟨fun k r held => stampLtHlc ?_,(nodeNormal history.general id).slotsAlive,fun k v held => ?_⟩
  · exact (pastBelow good.toPre (good.regsFrom k r held).1).trans_lt above
  · exact slotBounded history (good.slotsFrom k v held).2

theorem commitNewest {x} (member : x ∈ (sys.nodes id).past) : x < d.stamp := by
  obtain ⟨_, above, _⟩ := commitRoom history framed room
  exact stampLtHlc ((pastBelow (nodeGood history id).toPre member).trans_lt above)

theorem commitAgrees {past} (closed : Closed sys.log past) :
    ∀ st ∈ past, (sys.commit o id d).log st = sys.log st := by
  intro st member
  obtain ⟨fresh, _⟩ := commitRoom history framed room
  refine Function.update_of_ne (fun same => ?_) _ _
  obtain ⟨e, entry, _⟩ := closed.entry st member
  rw [same, fresh] at entry
  cases entry

theorem commitPre : Pre (sys.commit o id d).log (rawState d) (insert d.stamp (sys.nodes id).past) := by
  obtain ⟨fresh, above, _⟩ := commitRoom history framed room
  have agrees := commitAgrees history framed room (nodeClosed history id)
  have good : Good (sys.commit o id d).log (sys.nodes id).writer.state (sys.nodes id).past :=
    goodCongr agrees (nodeGood history id)
  have closed : Closed (sys.commit o id d).log (sys.nodes id).past := closedCongr agrees (nodeClosed history id)
  have ok := commitOk history.general framed fresh
  have newest {x} (member : x ∈ (sys.nodes id).past) : x < d.stamp := commitNewest history framed room member
  have outside : d.stamp ∉ (sys.nodes id).past := fun member => lt_irrefl _ (newest member)
  have within : (sys.nodes id).past ⊆ insert d.stamp (sys.nodes id).past := Finset.subset_insert _ _
  have entry : (sys.commit o id d).log d.stamp =
      some ⟨(sys.nodes id).past,d.record,d.cells,d.writer.state⟩ := commitEntry
  have fits := nodeFits history.general id
  have regNew (k) : regAt (sys.commit o id d).log d.stamp k =
      ((rawState d).regs.get k).filter fun r => decide (r.stamp = d.stamp) := by rw [regAt, entry]; rfl
  have slotNew (k) : slotAt (sys.commit o id d).log d.stamp k =
      ((rawState d).slots.get k).filter fun v => decide (v.stamp = d.stamp) := by rw [slotAt, entry]; rfl
  refine ⟨fun l v => ?_,fun x v => ?_,fun l dead => ?_,fun k living r => ?_,fun k living v => ?_,fun k r held => ?_,
    fun k v held => ?_,fun w h => ?_⟩
  · by_cases here : l = d.stamp
    · subst here
      have born : lifeAt (sys.commit o id d).log d.stamp = (rawState d).lives.get d.stamp := by
        rw [lifeAt, entry]
        rfl
      rw [born]
      exact (and_iff_right (Finset.mem_insert_self _ _)).symm
    · have kept : (rawState d).lives.get l = (sys.nodes id).writer.state.lives.get l :=
        (framed.lives l).resolve_right fun new => here new.1
      rw [kept, good.lives, Finset.mem_insert, or_iff_right here]
  · by_cases here : x = d.stamp
    · subst here
      have made : deleteAt (sys.commit o id d).log d.stamp = (rawState d).deletes.get d.stamp := by
        rw [deleteAt, entry]
        rfl
      rw [made]
      exact (and_iff_right (Finset.mem_insert_self _ _)).symm
    · have kept : (rawState d).deletes.get x = (sys.nodes id).writer.state.deletes.get x :=
        (framed.deletes x).resolve_right here
      rw [kept, good.deletes, Finset.mem_insert, or_iff_right here]
  · have old : l ∈ (sys.nodes id).writer.state.dead := framed.dead ▸ dead
    obtain ⟨member, born, gone⟩ := good.deadOnly l old
    exact ⟨within member,born,fun living => gone (aliveMono within member living)⟩
  · rw [newestInsert fun y member => newest member, regNew]
    rcases framed.regs k with same | ⟨_, _, x, found, stamp, _⟩
    · have kept : (rawState d).regs.get k = (sys.nodes id).writer.state.regs.get k := same
      have unmade : ((rawState d).regs.get k).filter (fun r => decide (r.stamp = d.stamp)) = none := by
        rw [kept, Option.filter_eq_none_iff]
        exact fun r held => by simpa using freshReg fits fresh held
      rw [unmade, kept]
      exact preRegs ok good.toPre closed within living r
    · have found' : (rawState d).regs.get k = some x := found
      rw [found', Option.filter, if_pos (decide_eq_true stamp)]
      exact Option.some_inj.trans eq_comm
  · rw [newestInsert fun y member => newest member, slotNew]
    rcases framed.slots k with same | ⟨_, _, _, _, x, found, stamp⟩
    · have kept : (rawState d).slots.get k = (sys.nodes id).writer.state.slots.get k := same
      have unmade : ((rawState d).slots.get k).filter (fun r => decide (r.stamp = d.stamp)) = none := by
        rw [kept, Option.filter_eq_none_iff]
        exact fun r held => by simpa using freshSlot fits fresh held
      rw [unmade, kept]
      exact preSlots ok good.toPre closed within living v
    · have found' : (rawState d).slots.get k = some x := found
      rw [found', Option.filter, if_pos (decide_eq_true stamp)]
      exact Option.some_inj.trans eq_comm
  · rcases framed.regs k with same | ⟨_, _, x, found, stamp, _⟩
    · obtain ⟨member, wrote⟩ := good.regsFrom k r (same.symm.trans held)
      exact ⟨within member,wrote⟩
    · cases found.symm.trans held
      rw [stamp, regNew, held]
      exact ⟨Finset.mem_insert_self _ _,by simp [stamp]⟩
  · rcases framed.slots k with same | ⟨_, _, _, _, x, found, stamp⟩
    · obtain ⟨member, wrote⟩ := good.slotsFrom k v (same.symm.trans held)
      exact ⟨within member,wrote⟩
    · cases found.symm.trans held
      rw [stamp, slotNew, held]
      exact ⟨Finset.mem_insert_self _ _,by simp [stamp]⟩
  · rw [newestInsert fun y member => newest member, rawVv framed, hlcAt]
    by_cases here : w = d.stamp.writer
    · simp [here, eq_comm]
    · simpa [here, Ne.symm here] using good.vv w h

variable (meant : Meant o (sys.nodes id).writer.state d.stamp d.record d.cells d.writer.state)
include meant

/- The life a write is in: the one it creates, or one its writer finds alive. -/
theorem commitClosed : Closed (sys.commit o id d).log (insert d.stamp (sys.nodes id).past) where
  entry st member := by
    rcases Finset.mem_insert.mp member with rfl | old
    · exact ⟨_,commitEntry,Finset.subset_insert _ _⟩
    · obtain ⟨e, entry, within⟩ :=
        (closedCongr (commitAgrees history framed room (nodeClosed history id)) (nodeClosed history id)).entry st old
      exact ⟨e,entry,within.trans (Finset.subset_insert _ _)⟩
  life st member e l entry found := by
    rcases Finset.mem_insert.mp member with rfl | old
    · cases commitEntry.symm.trans entry
      rcases meant.target l found with ⟨rfl, _⟩ | ⟨living, _⟩
      · exact Finset.mem_insert_self _ _
      · exact Finset.mem_insert_of_mem ((goodAlive (nodeGood history id)).mp living).1
    · have closed := closedCongr (commitAgrees history framed room (nodeClosed history id)) (nodeClosed history id)
      exact Finset.mem_insert_of_mem (closed.life st old e l entry found)

/- A new write joined with nothing: the state its writer is left with. -/
theorem commitJoining : Joining (sys.commit o id d).log o (rawState d) .empty
    (insert d.stamp (sys.nodes id).past) ∅ where
  ok := commitOk history.general framed (commitRoom history framed room).1
  preS := commitPre history framed room
  preT := emptyPre _
  closedP := commitClosed history framed room meant
  closedQ := emptyClosed _
  shortP st member := by
    rcases Finset.mem_insert.mp member with rfl | old
    · exact commitShort framed room
    · exact closedShort history (nodeClosed history id) st old
  shortQ _ member := absurd member (Finset.notMem_empty _)

theorem commitGood : Good (sys.commit o id d).log (d.finish o).state (insert d.stamp (sys.nodes id).past) := by
  have good := (commitJoining history framed room meant).good
  rwa [Finset.union_empty] at good

theorem commitHistory : History o (sys.commit o id d) := by
  obtain ⟨fresh, _, aboveClock⟩ := commitRoom history framed room
  have entry : (sys.commit o id d).log d.stamp =
      some ⟨(sys.nodes id).past,d.record,d.cells,d.writer.state⟩ := commitEntry
  have old {st e} (other : st ≠ d.stamp) (logged : (sys.commit o id d).log st = some e) : sys.log st = some e :=
    (Function.update_of_ne other _ _).symm.trans logged
  have agrees {past} (closed : Closed sys.log past) := commitAgrees history framed room closed
  have writer := framedWriter history.general framed
  have mine : (sys.commit o id d).nodes id = ⟨d.finish o,insert d.stamp (sys.nodes id).past,(sys.nodes id).reported⟩ :=
    Function.update_self _ _ _
  have others {x} (other : x ≠ id) : (sys.commit o id d).nodes x = sys.nodes x := Function.update_of_ne other _ _
  refine ⟨commitGeneral history.general framed (retainedUnsaturated room),fun st e logged => ?_,fun st e logged => ?_,
    fun st e logged => ?_,fun st e x e' logged logged' same below => ?_,fun st e logged => ?_,fun st e logged => ?_,
    fun m member => ?_,fun m member => ?_,fun st e logged => ?_⟩
  · by_cases here : st = d.stamp
    · rw [here]
      exact (hlcZeroLe _).trans_lt aboveClock
    · exact history.started st e (old here logged)
  · by_cases here : st = d.stamp
    · rw [here]
      exact commitShort framed room
    · exact history.young st e (old here logged)
  · by_cases here : st = d.stamp
    · subst here
      cases entry.symm.trans logged
      exact fun x member => commitNewest history framed room member
    · exact history.before st e (old here logged)
  · by_cases here : st = d.stamp
    · subst here
      cases entry.symm.trans logged
      have known := history.own x e' (old below.ne logged')
      rwa [same, writer] at known
    · by_cases new : x = d.stamp
      · -- the writer's clock was past `st` when it stamped `x`
        have passed := history.general.logged st e (old here logged)
        rw [←same, new, writer] at passed
        rw [new] at below
        exact absurd (stampLtHlc (passed.trans_lt aboveClock)) below.not_gt
      · exact history.sequence st e x e' (old here logged) (old new logged') same below
  · by_cases here : st = d.stamp
    · subst here
      cases entry.symm.trans logged
      exact closedCongr (agrees (nodeClosed history id)) (nodeClosed history id)
    · have closed := history.ctxClosed st e (old here logged)
      exact closedCongr (agrees closed) closed
  · by_cases here : st = d.stamp
    · rw [here, writer, mine]
      exact Finset.mem_insert_self _ _
    · have known := history.own st e (old here logged)
      by_cases own : st.writer = id
      · rw [own] at known ⊢
        rw [mine]
        exact Finset.mem_insert_of_mem known
      · rwa [others own]
  · rcases List.mem_append.mp member with held | new
    · exact closedCongr (agrees (history.closed m held)) (history.closed m held)
    · cases List.mem_singleton.mp new
      exact commitClosed history framed room meant
  · rcases List.mem_append.mp member with held | new
    · exact goodCongr (agrees (history.closed m held)) (history.good m held)
    · cases List.mem_singleton.mp new
      exact commitGood history framed room meant
  · by_cases here : st = d.stamp
    · subst here
      cases entry.symm.trans logged
      exact ⟨_,goodCongr (agrees (nodeClosed history id)) (nodeGood history id),meant⟩
    · obtain ⟨s, good, facts⟩ := history.meant st e (old here logged)
      exact ⟨s,goodCongr (agrees (history.ctxClosed st e (old here logged))) good,facts⟩

end

/- A node that takes a new state of a closed past, with no new write. -/
theorem holdHistory (history : History o sys) {node : Node} (general : General o (sys.hold id node))
    (within : (sys.nodes id).past ⊆ node.past) (closed : Closed sys.log node.past)
    (good : Good sys.log node.writer.state node.past) : History o (sys.hold id node) := by
  refine ⟨general,history.started,history.young,history.before,history.sequence,history.ctxClosed,fun st e logged => ?_,
    fun m member => ?_,fun m member => ?_,history.meant⟩
  · have known := history.own st e logged
    by_cases own : st.writer = id
    · have mine : (sys.hold id node).nodes id = node := Function.update_self _ _ _
      rw [own] at known ⊢
      rw [mine]
      exact within known
    · have other : (sys.hold id node).nodes st.writer = sys.nodes st.writer := Function.update_of_ne own _ _
      rwa [other]
  · rcases List.mem_append.mp member with held | new
    · exact history.closed m held
    · cases List.mem_singleton.mp new
      exact closed
  · rcases List.mem_append.mp member with held | new
    · exact history.good m held
    · cases List.mem_singleton.mp new
      exact good

/- Two states of a run, joined. -/
theorem poolJoining (history : History o sys) {m n} (held : m ∈ sys.pool) (held' : n ∈ sys.pool) :
    Joining sys.log o m.1 n.1 m.2 n.2 where
  ok := history.general.ok
  preS := (history.good m held).toPre
  preT := (history.good n held').toPre
  closedP := history.closed m held
  closedQ := history.closed n held'
  shortP := closedShort history (history.closed m held)
  shortQ := closedShort history (history.closed n held')

theorem receivedHistory (history : History o sys) {m} (member : m ∈ sys.pool) : History o (sys.received o id m) :=
  holdHistory history (receivedGeneral history.general member) Finset.subset_union_left
    (closedUnion (nodeClosed history id) (history.closed m member))
    (poolJoining history (history.general.pooled id) member).good

/- A state is a function of its past but for its loss records. -/
theorem recordGood {log : Log} {s : State} {past} (good : Good log s past) (losses) :
    Good log { s with losses } past where
  lives := good.lives
  deletes := good.deletes
  deadOnly := good.deadOnly
  regs := good.regs
  slots := good.slots
  regsFrom := good.regsFrom
  slotsFrom := good.slotsFrom
  vv := good.vv
  dead := good.dead
  regsAlive := good.regsAlive
  slotsAlive := good.slotsAlive

theorem recordedHistory (history : History o sys) {m key val w} (member : m ∈ sys.pool)
    (held : m.1.losses.get key = some val)
    (taken : (sys.nodes id).writer.receiveLoss o key val = some w) : History o (sys.recorded id w key) := by
  have general := recordedGeneral history.general member held taken
  obtain ⟨rfl, _, _⟩ := lossTaken taken
  exact holdHistory history general (Finset.Subset.refl _) (nodeClosed history id)
    (recordGood (nodeGood history id) _)

/- The life an upsert has just created is the only one, and no slot is in it. -/
theorem createdAlone (history : History o sys) {fields incPath sets skew}
    (accepted : (sys.nodes id).writer.upsertSoiCreate o fields incPath sets skew = some d)
    (room : (sys.commit o id d).Retained o) :
    (∀ l ∈ ((sys.commit o id d).nodes id).writer.state.alive o, l = d.stamp) ∧
      ∀ k : SlotKey, k.life = d.stamp → ((sys.commit o id d).nodes id).writer.state.slots.get k = none := by
  have framed := upsertSoiCreateFramed accepted
  have meant := upsertSoiCreateMeant accepted
  have agrees := commitAgrees history framed room (nodeClosed history id)
  have mine : (sys.commit o id d).nodes id = ⟨d.finish o,insert d.stamp (sys.nodes id).past,(sys.nodes id).reported⟩ :=
    Function.update_self _ _ _
  have outside : d.stamp ∉ (sys.nodes id).past := fun member =>
    lt_irrefl _ (commitNewest history framed room member)
  have shape : d.record.creates = true ∧ d.record.kind ≠ .inc := by
    simp only [Writer.upsertSoiCreate, ne_eq, ite_not, Option.ite_none_right_eq_some, Option.some.injEq] at accepted
    obtain ⟨_, _, rfl⟩ := accepted
    exact ⟨rfl,fun wrong => by cases wrong⟩
  rw [mine]
  have good := commitGood history framed room meant
  refine ⟨fun l living => ?_,fun k own => Option.eq_none_iff_forall_ne_some.mpr fun v held => ?_⟩
  · have alive := (goodAlive good).mp living
    rcases Finset.mem_insert.mp alive.1 with here | inside
    · exact here
    · have before : l ∈ (sys.nodes id).writer.state.alive o :=
        (goodAlive (goodCongr agrees (nodeGood history id))).mpr
          (aliveMono (Finset.subset_insert _ _) inside alive)
      rw [(meant.born shape.1).1] at before
      exact absurd before (Finset.notMem_empty _)
  · obtain ⟨member, wrote⟩ := good.slotsFrom k v held
    have ok := commitOk history.general framed (commitRoom history framed room).1
    rcases Finset.mem_insert.mp member with here | inside
    · rw [here] at wrote
      obtain ⟨e, entry, made, stamp⟩ := slotAtSome wrote
      cases commitEntry.symm.trans entry
      exact shape.2 ((ok _ _ commitEntry).slot k v made stamp).1
    · exact outside (own ▸ slotLife ok (closedCongr agrees (nodeClosed history id)) inside wrote)

end

/- An invariant of runs below the retention: what each kind of step keeps, given the history it
is made in. -/
theorem historyRule {o : JoinOptions} {P : Sys → Prop} (start : P .init)
    (commit : ∀ {sys : Sys} {id d}, History o sys → P sys → Framed (sys.nodes id).writer d →
      (sys.commit o id d).Retained o →
      Meant o (sys.nodes id).writer.state d.stamp d.record d.cells d.writer.state → P (sys.commit o id d))
    (receive : ∀ {sys : Sys} {id m}, History o sys → P sys → m ∈ sys.pool → P (sys.received o id m))
    (receiveLoss : ∀ {sys : Sys} {id m key val w}, History o sys → P sys → m ∈ sys.pool →
      m.1.losses.get key = some val → (sys.nodes id).writer.receiveLoss o key val = some w →
      P (sys.recorded id w key))
    (actions : List Action) (room : (Sys.run o actions).Retained o) :
    History o (Sys.run o actions) ∧ P (Sys.run o actions) := by
  have step {sys : Sys} {id d} (holds : sys.Retained o → History o sys ∧ P sys)
      (framed : Framed (sys.nodes id).writer d)
      (meant : Ready o (sys.nodes id).writer.state d.stamp →
        Meant o (sys.nodes id).writer.state d.stamp d.record d.cells d.writer.state)
      (room : (sys.commit o id d).Retained o) : History o (sys.commit o id d) ∧ P (sys.commit o id d) := by
    obtain ⟨history, holds⟩ := holds (retainedOf commitLater room)
    have made := meant (commitReady history framed room)
    exact ⟨commitHistory history framed room made,commit history holds framed room made⟩
  refine Sys.runRule (P := fun sys => sys.Retained o → History o sys ∧ P sys) (fun _ => ⟨startHistory o,start⟩)
    ?_ ?_ ?_ ?_ ?_ actions room
  · exact fun _ _ _ _ _ holds accepted =>
      step holds (draftedFramed (draftShape accepted)) (draftedMeant (draftShape accepted))
  · exact fun _ _ _ _ _ _ _ holds accepted =>
      step holds (upsertSoiCreateFramed accepted) fun _ => upsertSoiCreateMeant accepted
  · intro sys id fields incPath sets skew d n d' holds accepted created second room
    have history := (holds (retainedOf (commitLater.trans commitLater) room)).1
    obtain ⟨alone, unmoved⟩ := createdAlone history accepted (retainedOf commitLater room)
    refine step created (upsertIncOnFramed second) (fun _ => upsertIncOnMeant second ?_ (unmoved _ rfl)) room
    simp only [Writer.upsertIncOn, ite_not, Option.ite_none_right_eq_some] at second
    exact Finset.eq_singleton_iff_unique_mem.mpr ⟨second.1,alone⟩
  · intro sys id m holds member room
    obtain ⟨history, holds⟩ := holds (retainedOf holdClock room)
    exact ⟨receivedHistory history member,receive history holds member⟩
  · intro sys id m key val w holds member held taken room
    obtain ⟨history, holds⟩ := holds (retainedOf holdClock room)
    exact ⟨recordedHistory history member held taken,receiveLoss history holds member held taken⟩

/- Every state of a run below its retention is the function of its past. -/
theorem runHistory (o : JoinOptions) (actions : List Action) (room : (Sys.run o actions).Retained o) :
    History o (Sys.run o actions) :=
  (historyRule (P := fun _ => True) trivial (fun _ _ _ _ _ => trivial) (fun _ _ _ => trivial)
    (fun _ _ _ _ _ => trivial) actions room).1

end Kimmy.Merge
