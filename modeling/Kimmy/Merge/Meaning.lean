import Kimmy.Merge.Drafts

/-!
What each write means, in terms of the state its writer had read: the life it creates, the
cells it writes with their generation and observations, the slot it moves. The log keeps the
same facts about itself, so the meaning of a write outlives the state it was made in.
-/
namespace Kimmy.Merge
open State

namespace WriteRecord

/- The write creates a life; as an explicit insert; it writes registers. -/
def creates (r : WriteRecord) : Bool := r.kind = .insert || r.insert

def explicit (r : WriteRecord) : Bool := r.kind = .insert && !r.upsert

def isReg (r : WriteRecord) : Bool := r.kind = .insert || r.kind = .reg

end WriteRecord

/- A write starts a generation at a path by assigning a value there that is not numeric. -/
def startsGeneration (cells : Fields) (p : String) : Bool := cells.any fun x => x.1 = p && !x.2.isNumeric

structure CellMeant (o : JoinOptions) (s : State) (st : MStamp) (record : WriteRecord) (cells : Fields)
    (p : String) (r : Reg) : Prop where
  stamp : r.stamp = st
  value : record.vals.get p = some r.value
  soi : r.soi = true ↔ p ∈ record.soi
  generation : r.generation.map Gen.stamp =
    if startsGeneration cells p then some st else (s.genOf p o).map Gen.stamp
  obs : r.value.isNumeric = true → ∀ k, r.obs.get k =
    ((s.slots.get ⟨k.life,p,k.writer,k.generation⟩).filter fun _ =>
      decide (k.life ∈ s.alive o) && genCounts k.generation (r.generation.map Gen.stamp)).map
      fun v => (v.stamp,v.total)

structure SlotMeant (o : JoinOptions) (s : State) (st : MStamp) (record : WriteRecord) (made : State)
    (l : MStamp) (p : String) (n : Int64) : Prop where
  life : record.life = some l
  paths : record.paths = [p]
  amount : record.n = some n
  generation : record.generation = (s.genOf p o).map Gen.stamp
  slots : ∀ k, made.slots.get k =
    if k = ⟨l,p,st.writer,record.generation⟩ then
      some ⟨st,((s.slots.get k).map Slot.total).getD 0 + n.toInt⟩
    else s.slots.get k
  bounded : (((s.slots.get ⟨l,p,st.writer,record.generation⟩).map Slot.total).getD 0 + n.toInt).natAbs ≤ maxTotal.natAbs

structure Meant (o : JoinOptions) (s : State) (st : MStamp) (record : WriteRecord) (cells : Fields)
    (made : State) : Prop where
  target : ∀ l, record.life = some l → l = st ∧ record.creates = true ∨ l ∈ s.alive o ∧ record.creates = false
  targeted : record.kind ≠ .delete → ∃ l, record.life = some l
  born : record.creates = true → s.alive o = ∅ ∧ ∃ v, made.lives.get st = some v ∧
    v.seen = s.deletes.keys ∧ (v.kind = .insert ↔ record.explicit = true)
  unborn : record.creates = false → made.lives.get st = s.lives.get st
  died : record.kind = .delete → made.deletes.get st = some (s.vv.insert st.writer st.hlc)
  undied : record.kind ≠ .delete → made.deletes.get st = s.deletes.get st
  paths : record.isReg = true → ∀ p, p ∈ record.paths ↔ ∃ v, (p,v) ∈ cells
  wrote : record.isReg = true → ∀ k, record.life = some k.life → k.path ∈ record.paths →
    ∃ r, made.regs.get k = some r ∧ CellMeant o s st record cells k.path r
  unwrote : ∀ k, ¬ (record.isReg = true ∧ record.life = some k.life ∧ k.path ∈ record.paths) →
    made.regs.get k = s.regs.get k
  counted : record.kind = .inc → ∃ l p n, SlotMeant o s st record made l p n
  uncounted : record.kind ≠ .inc → made.slots = s.slots

/-! Creations. -/

section
variable {w : Writer} {o : JoinOptions} {d : Draft} {skew : Skew}

theorem noWinner {s : State} (empty : s.alive o = ∅) (p) : s.genOf p o = none := by
  have lost : s.winnerIn p (s.alive o) = none := by
    refine winnerNone.mpr fun k r _ => ?_
    simp [candidate, empty]
  rw [genOf, winner, lost]
  rfl

theorem collected {cells : Fields} {p} : p ∈ cells.map Prod.fst ↔ ∃ v, (SortedMap.collect cells).get p = some v := by
  constructor
  · intro member
    obtain ⟨x, inside, rfl⟩ := List.mem_map.mp member
    exact SortedMap.collectSome inside
  · rintro ⟨v, found⟩
    exact List.mem_map.mpr ⟨_,SortedMap.collectMem found,rfl⟩

theorem startsCollected {cells : Fields} {p v} (held : (SortedMap.collect cells).get p = some v) :
    startsGeneration (SortedMap.collect cells).entries p = !v.isNumeric := by
  rw [Bool.eq_iff_iff, startsGeneration, List.any_eq_true]
  simp only [SortedMap.memEntry, Bool.and_eq_true, decide_eq_true_eq, Prod.exists]
  constructor
  · rintro ⟨q, x, found, rfl, numeric⟩
    rw [held] at found
    cases found
    exact numeric
  · exact fun numeric => ⟨p,v,held,rfl,numeric⟩

/- A creation cell: no life was alive, so there is nothing to inherit or observe. -/
theorem creationMeant {s : State} {st record cells p v soi} (empty : s.alive o = ∅)
    (vals : record.vals = .collect cells) (held : (SortedMap.collect cells).get p = some v)
    (tagged : soi = true ↔ p ∈ record.soi) :
    CellMeant o s st record (SortedMap.collect cells).entries p (creationReg st v soi) where
  stamp := rfl
  value := by rw [vals, held]; rfl
  soi := tagged
  generation := by
    rw [startsCollected held, noWinner empty]
    cases numeric : v.isNumeric <;> simp [creationReg, numeric]
  obs _ k := by
    have none : (creationReg st v soi).obs.get k = none := rfl
    rw [none, empty]
    cases s.slots.get ⟨k.life,p,k.writer,k.generation⟩ <;> simp

theorem insertMeant {fields} (accepted : w.insert o fields skew = some d) :
    Meant o w.state d.stamp d.record d.cells d.writer.state := by
  simp only [Writer.insert, ne_eq, ite_not, Option.ite_none_right_eq_some, Option.some.injEq] at accepted
  obtain ⟨empty, rfl⟩ := accepted
  refine {
    target := fun l life => Or.inl ⟨(Option.some.inj life).symm,rfl⟩
    targeted := fun _ => ⟨_,rfl⟩
    born := fun _ => ⟨empty,_,(SortedMap.getInsert _ _ _ _).trans (if_pos rfl),rfl,by simp [WriteRecord.explicit]⟩
    unborn := fun wrong => by cases wrong
    died := fun wrong => by cases wrong
    undied := fun _ => rfl
    paths := fun _ p => by simp only [SortedMap.memEntries]; exact collected
    wrote := fun _ k life member => ?_
    unwrote := fun k other => ?_
    counted := fun wrong => by cases wrong
    uncounted := fun _ => rfl }
  · obtain ⟨v, held⟩ := collected.mp member
    have own : k.life = w.stampAt skew := (Option.some.inj life).symm
    refine ⟨creationReg (w.stampAt skew) v false,?_,creationMeant empty rfl held (by simp)⟩
    refine (getPutCells fields).trans ?_
    rw [if_pos own, ←SortedMap.getCollect, held]
    rfl
  · refine (getPutCells fields).trans ?_
    by_cases own : k.life = w.stampAt skew
    · have absent : SortedMap.lookup k.path fields.reverse = none := by
        refine Option.eq_none_iff_forall_ne_some.mpr fun v found => other ⟨rfl,congrArg some own.symm,?_⟩
        exact collected.mpr ⟨v,SortedMap.getCollect.trans found⟩
      simp [absent]
    · simp [own]

theorem upsertSoiCreateMeant {fields incPath sets}
    (accepted : w.upsertSoiCreate o fields incPath sets skew = some d) :
    Meant o w.state d.stamp d.record d.cells d.writer.state := by
  simp only [Writer.upsertSoiCreate, ne_eq, ite_not, Option.ite_none_right_eq_some, Option.some.injEq] at accepted
  obtain ⟨distinct, empty, rfl⟩ := accepted
  have apart {p} (soi : p ∈ fields.map Prod.fst) : p ∉ sets.map Prod.fst := by
    rw [List.map_append] at distinct
    exact List.disjoint_of_nodup_append distinct.of_append_left soi
  have shape (k : CellKey) (own : k.life = w.stampAt skew) :
      (putCells (putCells w.state.regs (w.stampAt skew) fields true) (w.stampAt skew) sets false).get k =
      ((SortedMap.lookup k.path sets.reverse).map (creationReg (w.stampAt skew) · false)).or
        (((SortedMap.lookup k.path fields.reverse).map (creationReg (w.stampAt skew) · true)).or
          (w.state.regs.get k)) := by
    rw [getPutCells, getPutCells, if_pos own, if_pos own]
  refine {
    target := fun l life => Or.inl ⟨(Option.some.inj life).symm,rfl⟩
    targeted := fun _ => ⟨_,rfl⟩
    born := fun _ => ⟨empty,_,(SortedMap.getInsert _ _ _ _).trans (if_pos rfl),rfl,by simp [WriteRecord.explicit]⟩
    unborn := fun wrong => by cases wrong
    died := fun wrong => by cases wrong
    undied := fun _ => rfl
    paths := fun _ p => by
      simp only [SortedMap.memEntries]
      rw [List.mem_eraseDups]
      exact collected
    wrote := fun _ k life member => ?_
    unwrote := fun k other => ?_
    counted := fun wrong => by cases wrong
    uncounted := fun _ => rfl }
  · obtain ⟨v, held⟩ := collected.mp (List.mem_eraseDups.mp member)
    have own : k.life = w.stampAt skew := (Option.some.inj life).symm
    have place := held
    rw [SortedMap.getCollect, List.reverse_append, SortedMap.lookupAppend] at place
    cases set : SortedMap.lookup k.path sets.reverse with
    | some x =>
        rw [set] at place
        cases place
        refine ⟨creationReg (w.stampAt skew) v false,(shape k own).trans (by simp [set]),creationMeant empty rfl held ?_⟩
        have inSets : k.path ∈ sets.map Prod.fst := collected.mpr ⟨v,SortedMap.getCollect.trans set⟩
        exact ⟨(fun wrong => by cases wrong),fun soi => absurd inSets (apart soi)⟩
    | none =>
        rw [set, Option.none_or] at place
        refine ⟨creationReg (w.stampAt skew) v true,(shape k own).trans (by simp [set, place]),
          creationMeant empty rfl held ?_⟩
        exact iff_of_true rfl (collected.mpr ⟨v,SortedMap.getCollect.trans place⟩)
  · by_cases own : k.life = w.stampAt skew
    · have absent : SortedMap.lookup k.path (fields ++ sets).reverse = none := by
        refine Option.eq_none_iff_forall_ne_some.mpr fun v found => other ⟨rfl,congrArg some own.symm,?_⟩
        exact List.mem_eraseDups.mpr (collected.mpr ⟨v,SortedMap.getCollect.trans found⟩)
      rw [List.reverse_append, SortedMap.lookupAppend, Option.or_eq_none_iff] at absent
      exact (shape k own).trans (by simp [absent.1, absent.2])
    · refine (getPutCells sets).trans ?_
      rw [getPutCells]
      simp [own]

end

/-! Register writes, one assignment after the other. -/

section
variable {o : JoinOptions} {s : State} {st l : MStamp}

theorem obsGet {s : State} {p} (k) : (s.obs p o).get k =
    ((s.slots.get ⟨k.life,p,k.writer,k.generation⟩).filter fun _ =>
      decide (k.life ∈ s.alive o) && genCounts k.generation ((s.genOf p o).map Gen.stamp)).map
      fun v => (v.stamp,v.total) := by
  have found : (s.obs p o).get k = ((s.counted p o).get k).map fun v => (v.stamp,v.total) := by
    apply Option.ext
    intro x
    have member : (k,x) ∈ (s.counted p o).entries.map (fun y => (y.1,(y.2.stamp,y.2.total))) ↔
        ((s.counted p o).get k).map (fun v => (v.stamp,v.total)) = some x := by
      simp only [List.mem_map, SortedMap.memEntry, Prod.exists, Prod.mk.injEq, Option.map_eq_some_iff]
      constructor
      · rintro ⟨_, v, held, rfl, rfl⟩
        exact ⟨v,held,rfl⟩
      · rintro ⟨v, held, rfl⟩
        exact ⟨k,v,held,rfl,rfl⟩
    rw [State.obs, SortedMap.collectIff, member]
    intro a b first second
    simp only [List.mem_map, SortedMap.memEntry, Prod.mk.injEq] at first second
    obtain ⟨u, heldU, rfl, rfl⟩ := first
    obtain ⟨v, heldV, same, rfl⟩ := second
    rw [same, heldU] at heldV
    rw [Option.some.inj heldV]
  rw [found, counted, countedGet]
  rfl

/- What the register writes of one stamp have made of a path so far. -/
structure Assigned (o : JoinOptions) (s : State) (st : MStamp) (cells : Fields) (p : String) (r : Reg) : Prop where
  stamp : r.stamp = st
  value : SortedMap.lookup p cells.reverse = some r.value
  soi : r.soi = false
  generation : r.generation.map Gen.stamp =
    if startsGeneration cells p then some st else (s.genOf p o).map Gen.stamp
  obs : r.value.isNumeric = true → ∀ k, r.obs.get k =
    ((s.slots.get ⟨k.life,p,k.writer,k.generation⟩).filter fun _ =>
      decide (k.life ∈ s.alive o) && genCounts k.generation (r.generation.map Gen.stamp)).map
      fun v => (v.stamp,v.total)

theorem startsSnoc (cells : Fields) (x : String × Value) (p) : startsGeneration (cells ++ [x]) p =
    (startsGeneration cells p || (x.1 = p && !x.2.isNumeric)) := by
  simp [startsGeneration]

/- The generation the next assignment to `p` finds. -/
theorem genAfter {regs : SortedMap CellKey Reg} {cells : Fields} (member : l ∈ s.alive o)
    (older : ∀ k r, s.regs.get k = some r → r.stamp < st)
    (wrote : ∀ p v, (p,v) ∈ cells → ∃ r, regs.get ⟨l,p⟩ = some r ∧ Assigned o s st cells p r)
    (kept : ∀ k, (k.life = l → ∀ v, (k.path,v) ∉ cells) → regs.get k = s.regs.get k) (p) :
    (({ s with regs } : State).genOf p o).map Gen.stamp =
      if startsGeneration cells p then some st else (s.genOf p o).map Gen.stamp := by
  by_cases assigned : ∃ v, (p,v) ∈ cells
  · obtain ⟨v, inside⟩ := assigned
    obtain ⟨r, held, meant⟩ := wrote p v inside
    rw [←meant.generation]
    have runs : ({ s with regs } : State).candidate p (s.alive o) ⟨l,p⟩ r = true := by
      simp [candidate, suppressed, meant.soi, member]
    have won : ({ s with regs } : State).winnerIn p (s.alive o) = some r := by
      cases result : ({ s with regs } : State).winnerIn p (s.alive o) with
      | none =>
          have lost := winnerNone.mp result ⟨l,p⟩ r held
          rw [runs] at lost
          cases lost
      | some x =>
          obtain ⟨⟨⟨l', q⟩, heldX, fits⟩, top⟩ := winnerSome result
          have above := top ⟨l,p⟩ r held runs
          have path := (candidateIff.mp fits).1
          simp only at path
          subst path
          by_cases own : l' = l
          · subst own
            rw [←heldX, ←held]
          · rw [kept ⟨l',q⟩ fun same => absurd same own] at heldX
            rw [meant.stamp] at above
            exact absurd (older _ x heldX) (not_lt.mpr above)
    have same : ({ s with regs } : State).genOf p o = r.generation := by
      rw [genOf, winner, aliveRegs, won]
      rfl
    rw [same]
  · have none : startsGeneration cells p = false := by
      rw [startsGeneration, List.any_eq_false]
      rintro ⟨q, v⟩ inside
      simp only [Bool.and_eq_true, decide_eq_true_eq, not_and]
      rintro rfl
      exact absurd ⟨v,inside⟩ assigned
    have same : ({ s with regs } : State).winnerIn p (s.alive o) = s.winnerIn p (s.alive o) := by
      refine winnerCongr rfl fun k path => kept k fun _ v inside => assigned ⟨v,?_⟩
      rw [←path]
      exact inside
    rw [none, genOf, winner, aliveRegs, same]
    rfl

theorem setregsMeant (life : s.writeLife o = some l) (older : ∀ k r, s.regs.get k = some r → r.stamp < st)
    (cells : Fields) : ∃ regs, Writer.setregs o s cells st = { s with regs } ∧
      (∀ p v, (p,v) ∈ cells → ∃ r, regs.get ⟨l,p⟩ = some r ∧ Assigned o s st cells p r) ∧
      ∀ k, (k.life = l → ∀ v, (k.path,v) ∉ cells) → regs.get k = s.regs.get k := by
  have member := (writeLifeSome life).1
  induction cells using List.reverseRecOn with
  | nil => exact ⟨s.regs,rfl,nofun,fun _ _ => rfl⟩
  | append_singleton cells x ih =>
      obtain ⟨regs, shape, wrote, kept⟩ := ih
      rcases x with ⟨p, v⟩
      have unfolded : Writer.setregs o s (cells ++ [(p,v)]) st =
          (Writer.setregs o s cells st).setreg p v st o := by simp [Writer.setregs]
      have generation := genAfter member older wrote kept
      rw [unfolded, shape, setregWrites p v st (s := { s with regs }) life]
      refine ⟨regs.insert ⟨l,p⟩ (({ s with regs } : State).regFor p v st o),rfl,fun q u inside => ?_,fun k other => ?_⟩
      · rw [SortedMap.getInsert]
        by_cases here : q = p
        · subst here
          refine ⟨_,if_pos rfl,rfl,by simp [SortedMap.lookup, regFor],rfl,?_,fun numeric k => ?_⟩
          · rw [startsSnoc]
            cases numeric : v.isNumeric with
            | false => simp [regFor, numeric]
            | true => simpa [regFor, numeric] using generation q
          · have given : v.isNumeric = true := numeric
            have inherits : (({ s with regs } : State).regFor q v st o).generation =
                ({ s with regs } : State).genOf q o := by simp [regFor, given]
            rw [inherits]
            exact obsGet k
        · have earlier : (q,u) ∈ cells := by simpa [here] using inside
          obtain ⟨r, held, meant⟩ := wrote q u earlier
          have apart : (⟨l,q⟩ : CellKey) ≠ ⟨l,p⟩ := fun same => here (CellKey.mk.inj same).2
          refine ⟨r,(if_neg apart).trans held,meant.stamp,?_,meant.soi,?_,meant.obs⟩
          · simpa [SortedMap.lookup, here] using meant.value
          · rw [startsSnoc, meant.generation]
            simp [Ne.symm here]
      · have apart : k ≠ ⟨l,p⟩ := fun same => by
          subst same
          exact other rfl v (by simp)
        rw [SortedMap.getInsert, if_neg apart]
        exact kept k fun own u inside => other own u (List.mem_append_left _ inside)

end

/-! Every accepted write means what it says. -/

/- What a write needs of the state it is made in. -/
structure Ready (o : JoinOptions) (s : State) (st : MStamp) : Prop where
  older : ∀ k r, s.regs.get k = some r → r.stamp < st
  slotsAlive : ∀ k v, s.slots.get k = some v → k.life ∈ s.alive o
  bounded : ∀ k v, s.slots.get k = some v → v.total.natAbs ≤ maxTotal.natAbs

section
variable {w : Writer} {o : JoinOptions} {d : Draft} {skew : Skew}

theorem writeRegsMeant {cells l} (life : w.state.writeLife o = some l) (ready : Ready o w.state (w.stampAt skew)) :
    Meant o w.state (w.stampAt skew) (w.writeRegs o cells skew).record (w.writeRegs o cells skew).cells
      (w.writeRegs o cells skew).writer.state := by
  obtain ⟨regs, shape, wrote, kept⟩ :=
    setregsMeant (s := Writer.covered w.state (w.stampAt skew)) life ready.older cells
  have state : (w.writeRegs o cells skew).writer.state =
      { Writer.covered w.state (w.stampAt skew) with regs } := shape
  have target : (w.writeRegs o cells skew).record.life = some l := life
  have member {p} : p ∈ cells.map Prod.fst ↔ ∃ v, (p,v) ∈ cells := by simp
  refine {
    target := fun x found => Or.inr ⟨?_,rfl⟩
    targeted := fun _ => ⟨l,target⟩
    born := fun wrong => by cases wrong
    unborn := fun _ => by rw [state]; rfl
    died := fun wrong => by cases wrong
    undied := fun _ => by rw [state]; rfl
    paths := fun _ _ => member
    wrote := fun _ k own inside => ?_
    unwrote := fun k other => ?_
    counted := fun wrong => by cases wrong
    uncounted := fun _ => by rw [state]; rfl }
  · cases target.symm.trans found
    exact (writeLifeSome life).1
  · obtain ⟨v, inCells⟩ := member.mp inside
    obtain ⟨r, held, meant⟩ := wrote k.path v inCells
    have here : k = ⟨l,k.path⟩ := by
      cases target.symm.trans own
      rfl
    refine ⟨r,?_,meant.stamp,SortedMap.getCollect.trans meant.value,?_,meant.generation,meant.obs⟩
    · rw [state, here]
      exact held
    · rw [meant.soi]
      exact iff_of_false nofun nofun
  · rw [state]
    refine kept k fun own v inside => other ⟨rfl,?_,member.mpr ⟨v,inside⟩⟩
    rw [own]
    exact target

theorem smallIncrement (n : Int64) : n.toInt.natAbs ≤ 2 ^ 63 := by
  have low := n.le_toInt
  have high := n.toInt_lt
  omega

theorem saturateSmall {x : Int} (small : x.natAbs < 2 ^ 127) : saturate x = x := by
  unfold saturate
  rw [min_eq_left (by omega), max_eq_right (by omega)]

theorem upsertIncMeant {path n} (accepted : w.upsertInc o path n skew = some d)
    (ready : Ready o w.state d.stamp) : Meant o w.state d.stamp d.record d.cells d.writer.state := by
  simp only [Writer.upsertInc, ne_eq, ite_not, Option.ite_none_right_eq_some, Option.some.injEq] at accepted
  obtain ⟨empty, rfl⟩ := accepted
  have none (k) : w.state.slots.get k = none := Option.eq_none_iff_forall_ne_some.mpr fun v held => by
    have living := ready.slotsAlive k v held
    rw [empty] at living
    exact absurd living (Finset.notMem_empty _)
  refine {
    target := fun l life => Or.inl ⟨(Option.some.inj life).symm,rfl⟩
    targeted := fun _ => ⟨_,rfl⟩
    born := fun _ => ⟨empty,_,(SortedMap.getInsert _ _ _ _).trans (if_pos rfl),rfl,by simp [WriteRecord.explicit]⟩
    unborn := fun wrong => by cases wrong
    died := fun wrong => by cases wrong
    undied := fun _ => rfl
    paths := fun wrong => by cases wrong
    wrote := fun wrong => by cases wrong
    unwrote := fun _ _ => rfl
    counted := fun _ => ⟨w.stampAt skew,path,n,rfl,rfl,rfl,?_,fun k => ?_,?_⟩
    uncounted := fun other => absurd rfl other }
  · rw [noWinner empty]
    rfl
  · refine (SortedMap.getInsert _ _ _ _).trans ?_
    simp only [none, Option.map_none, Option.getD_none, Int.zero_add]
    rfl
  · simp only [none, Option.map_none, Option.getD_none, Int.zero_add]
    exact (smallIncrement n).trans (by decide)

theorem incSlotMeant {c p n} (accepted : w.incSlot o c p n skew = some d) (ready : Ready o w.state d.stamp) :
    Meant o w.state d.stamp d.record d.cells d.writer.state := by
  simp only [Writer.incSlot, ite_not, Option.ite_none_right_eq_some, Option.bind_eq_bind,
    Option.bind_eq_some_iff, Option.ite_none_left_eq_some, Option.some.injEq] at accepted
  obtain ⟨_, l, life, small, rfl⟩ := accepted
  have old : (((w.state.slots.get ⟨l,p,w.id,(w.state.genOf p o).map Gen.stamp⟩).map Slot.total).getD 0).natAbs ≤
      maxTotal.natAbs := by
    cases held : w.state.slots.get ⟨l,p,w.id,(w.state.genOf p o).map Gen.stamp⟩ with
    | none => decide
    | some v => exact ready.bounded _ v held
  have exactly := saturateSmall (x := ((w.state.slots.get ⟨l,p,w.id,(w.state.genOf p o).map Gen.stamp⟩).map
    Slot.total).getD 0 + n.toInt) (by
      have step := smallIncrement n
      have limit : maxTotal.natAbs = 2 ^ 119 := by decide
      omega)
  rw [saturatingAdd, exactly] at small
  refine {
    target := fun x found => Or.inr ⟨?_,rfl⟩
    targeted := fun _ => ⟨_,rfl⟩
    born := fun wrong => by cases wrong
    unborn := fun _ => rfl
    died := fun wrong => by cases wrong
    undied := fun _ => rfl
    paths := fun wrong => by cases wrong
    wrote := fun wrong => by cases wrong
    unwrote := fun _ _ => rfl
    counted := fun _ => ⟨l,p,n,rfl,rfl,rfl,rfl,fun k => ?_,not_lt.mp small⟩
    uncounted := fun other => absurd rfl other }
  · cases found
    exact (writeLifeSome life).1
  · refine (SortedMap.getInsert _ _ _ _).trans ?_
    rw [saturatingAdd, exactly]
    by_cases here : k = ⟨l,p,w.id,(w.state.genOf p o).map Gen.stamp⟩
    · subst here
      exact (if_pos rfl).trans (if_pos rfl).symm
    · exact (if_neg here).trans (if_neg here).symm

/- The increment of an upsert, on a life that is alone and has neither a register nor a slot
at the path. -/
theorem upsertIncOnMeant {life path n} (accepted : w.upsertIncOn o life path n skew = some d)
    (sole : w.state.alive o = {life}) (unmoved : w.state.slots.get ⟨life,path,w.id,none⟩ = none) :
    Meant o w.state d.stamp d.record d.cells d.writer.state := by
  simp only [Writer.upsertIncOn, ite_not, Option.ite_none_right_eq_some, Option.ite_none_left_eq_some,
    Option.some.injEq] at accepted
  obtain ⟨member, bare, rfl⟩ := accepted
  have lost : w.state.winnerIn path (w.state.alive o) = none := by
    refine winnerNone.mpr fun k r held => ?_
    by_contra runs
    obtain ⟨here, living, _⟩ := candidateIff.mp (Bool.not_eq_false _ ▸ runs)
    rw [sole, Finset.mem_singleton] at living
    have same : k = ⟨life,path⟩ := by rw [←here, ←living]
    rw [same] at held
    simp [held] at bare
  refine {
    target := fun x found => Or.inr ⟨?_,rfl⟩
    targeted := fun _ => ⟨_,rfl⟩
    born := fun wrong => by cases wrong
    unborn := fun _ => rfl
    died := fun wrong => by cases wrong
    undied := fun _ => rfl
    paths := fun wrong => by cases wrong
    wrote := fun wrong => by cases wrong
    unwrote := fun _ _ => rfl
    counted := fun _ => ⟨life,path,n,rfl,rfl,rfl,?_,fun k => ?_,?_⟩
    uncounted := fun other => absurd rfl other }
  · cases found
    exact member
  · rw [genOf, winner, lost]
    rfl
  · refine (SortedMap.getInsert _ _ _ _).trans ?_
    by_cases here : k = ⟨life,path,w.id,none⟩
    · subst here
      rw [unmoved]
      refine (if_pos rfl).trans (Eq.trans ?_ (if_pos rfl).symm)
      rw [Option.map_none, Option.getD_none, Int.zero_add]
    · exact (if_neg here).trans (if_neg here).symm
  · have none : w.state.slots.get ⟨life,path,(w.stampAt skew).writer,none⟩ = Option.none := unmoved
    simp only [none, Option.map_none, Option.getD_none, Int.zero_add]
    exact (smallIncrement n).trans (by decide)

theorem writeDeleteMeant (accepted : w.writeDelete o skew = some d) :
    Meant o w.state d.stamp d.record d.cells d.writer.state := by
  simp only [Writer.writeDelete, Option.ite_none_left_eq_some, Option.some.injEq] at accepted
  obtain ⟨_, rfl⟩ := accepted
  exact {
    target := fun _ wrong => by cases wrong
    targeted := fun other => absurd rfl other
    born := fun wrong => by cases wrong
    unborn := fun _ => rfl
    died := fun _ => (SortedMap.getInsert _ _ _ _).trans (if_pos rfl)
    undied := fun other => absurd rfl other
    paths := fun wrong => by cases wrong
    wrote := fun wrong => by cases wrong
    unwrote := fun _ _ => rfl
    counted := fun wrong => by cases wrong
    uncounted := fun _ => rfl }

theorem draftedMeant (drafted : Drafted w o d) (ready : Ready o w.state d.stamp) :
    Meant o w.state d.stamp d.record d.cells d.writer.state := by
  cases drafted with
  | insert accepted => exact insertMeant accepted
  | upsertInc accepted => exact upsertIncMeant accepted ready
  | regs life => exact writeRegsMeant life ready
  | inc accepted => exact incSlotMeant accepted ready
  | delete accepted => exact writeDeleteMeant accepted

end
end Kimmy.Merge
