import Kimmy.Merge.Records
import Kimmy.Merge.System

/-!
What a local write does to its writer's state. `Framed` holds of every accepted write: it
touches its own stamp, one life and nothing else. `Meant` says what it writes there, in
terms of the state its writer had read.
-/
namespace Kimmy.Merge
open State

structure Framed (w : Writer) (d : Draft) : Prop where
  stamped : ∃ skew, d.stamp = w.stampAt skew
  id : d.writer.id = w.id
  clock : d.writer.clock = d.stamp.hlc
  vv : (Writer.covered d.writer.state d.stamp).vv = w.state.vv.insert d.stamp.writer d.stamp.hlc
  dead : d.writer.state.dead = w.state.dead
  losses : d.writer.state.losses = w.state.losses
  lives : ∀ l, d.writer.state.lives.get l = w.state.lives.get l ∨
    l = d.stamp ∧ d.record.life = some l ∧
      ∃ v, d.writer.state.lives.get l = some v ∧ (v.kind = .insert → d.record.kind = .insert)
  deletes : ∀ x, d.writer.state.deletes.get x = w.state.deletes.get x ∨ x = d.stamp
  regs : ∀ k, d.writer.state.regs.get k = w.state.regs.get k ∨
    d.record.kind ≠ .inc ∧ d.record.life = some k.life ∧
      ∃ r, d.writer.state.regs.get k = some r ∧ r.stamp = d.stamp ∧ (r.soi = true → d.stamp = k.life)
  slots : ∀ k, d.writer.state.slots.get k = w.state.slots.get k ∨
    d.record.kind = .inc ∧ d.record.life = some k.life ∧ k.writer = d.stamp.writer ∧
      k.generation = d.record.generation ∧
      ∃ v, d.writer.state.slots.get k = some v ∧ v.stamp = d.stamp

theorem insertTwice {κ ν : Type} [LinearOrder κ] (m : SortedMap κ ν) (k : κ) (v : ν) :
    (m.insert k v).insert k v = m.insert k v :=
  SortedMap.ext fun j => by
    simp only [SortedMap.getInsert]
    split_ifs <;> rfl

/-! Register writes. -/

section
variable {o : JoinOptions}

theorem aliveRegs (s : State) (regs) : ({ s with regs } : State).alive o = s.alive o := rfl

/- `setreg` writes one register of the life being written. -/
theorem setregWrites {s : State} {l} (p v st) (life : s.writeLife o = some l) :
    s.setreg p v st o = { s with regs := s.regs.insert ⟨l,p⟩ (s.regFor p v st o) } := by
  simp only [setreg, life]

theorem setregsShape {l} (st) (cells : Fields) : ∀ {s : State}, s.writeLife o = some l →
    ∃ regs, Writer.setregs o s cells st = { s with regs } ∧
      ∀ k, regs.get k = s.regs.get k ∨
        k.life = l ∧ ∃ r, regs.get k = some r ∧ r.stamp = st ∧ r.soi = false := by
  induction cells with
  | nil => exact fun {s} _ => ⟨s.regs,rfl,fun _ => Or.inl rfl⟩
  | cons x cells ih =>
      intro s life
      have unfolded : Writer.setregs o s (x :: cells) st = Writer.setregs o (s.setreg x.1 x.2 st o) cells st := rfl
      rw [unfolded, setregWrites x.1 x.2 st life]
      obtain ⟨regs, shape, writes⟩ := ih (s := { s with regs := s.regs.insert ⟨l,x.1⟩ (s.regFor x.1 x.2 st o) }) life
      refine ⟨regs,shape,fun k => ?_⟩
      rcases writes k with same | written
      · rw [same]
        by_cases here : k = ⟨l,x.1⟩
        · subst here
          exact Or.inr ⟨rfl,s.regFor x.1 x.2 st o,by simp,rfl,rfl⟩
        · exact Or.inl (by simp [here])
      · exact Or.inr written

theorem getPutCells {st : MStamp} {soi : Bool} (cells : Fields) : ∀ {regs : SortedMap CellKey Reg} {k},
    (putCells regs st cells soi).get k =
      (if k.life = st then (SortedMap.lookup k.path cells.reverse).map (creationReg st · soi) else none).or
        (regs.get k) := by
  induction cells with
  | nil => exact fun {regs k} => by simp [putCells, SortedMap.lookup]
  | cons x cells ih =>
      intro regs k
      have unfolded : putCells regs st (x :: cells) soi =
          putCells (regs.insert ⟨st,x.1⟩ (creationReg st x.2 soi)) st cells soi := rfl
      rw [unfolded, ih, SortedMap.getInsert, List.reverse_cons, SortedMap.lookupAppend]
      rcases k with ⟨l, p⟩
      by_cases own : l = st
      · by_cases here : p = x.1
        · cases SortedMap.lookup p cells.reverse <;> simp [own, here, SortedMap.lookup]
        · cases SortedMap.lookup p cells.reverse <;> simp [own, here, SortedMap.lookup]
      · simp [own]

end

/-! Every accepted write is framed. -/

section
variable {w : Writer} {o : JoinOptions} {d : Draft} {skew : Skew}

theorem coveredVv (s : State) (st : MStamp) :
    (Writer.covered (Writer.covered s st) st).vv = s.vv.insert st.writer st.hlc :=
  insertTwice _ _ _

/- A creation writes cells of its own life only. -/
theorem creationRegs (regs : SortedMap CellKey Reg) (st cells soi k) :
    (putCells regs st cells soi).get k = regs.get k ∨
      k.life = st ∧ ∃ r, (putCells regs st cells soi).get k = some r ∧ r.stamp = st := by
  rw [getPutCells]
  by_cases own : k.life = st
  · cases SortedMap.lookup k.path cells.reverse with
    | none => exact Or.inl (by simp)
    | some v => exact Or.inr ⟨own,creationReg st v soi,by simp [own],rfl⟩
  · exact Or.inl (by simp [own])

theorem soiRegs (regs : SortedMap CellKey Reg) (st fields sets k) :
    (putCells (putCells regs st fields true) st sets false).get k = regs.get k ∨
      k.life = st ∧ ∃ r, (putCells (putCells regs st fields true) st sets false).get k = some r ∧ r.stamp = st := by
  rcases creationRegs (putCells regs st fields true) st sets false k with same | written
  · rw [same]
    exact creationRegs _ _ _ _ _
  · exact Or.inr written

theorem insertFramed {fields} (accepted : w.insert o fields skew = some d) : Framed w d := by
  simp only [Writer.insert, ne_eq, ite_not, Option.ite_none_right_eq_some, Option.some.injEq] at accepted
  obtain ⟨_, rfl⟩ := accepted
  refine ⟨⟨skew,rfl⟩,rfl,rfl,coveredVv _ _,rfl,rfl,fun l => ?_,fun _ => Or.inl rfl,fun k => ?_,fun _ => Or.inl rfl⟩
  · by_cases own : l = w.stampAt skew
    · exact Or.inr ⟨own,congrArg some own.symm,_,(SortedMap.getInsert _ _ _ _).trans (if_pos own),fun _ => rfl⟩
    · exact Or.inl ((SortedMap.getInsert _ _ _ _).trans (if_neg own))
  · refine (creationRegs _ _ _ _ _).imp id fun written => ?_
    obtain ⟨own, r, found, stamp⟩ := written
    exact ⟨nofun,congrArg some own.symm,r,found,stamp,fun _ => own.symm⟩

theorem upsertSoiCreateFramed {fields incPath sets}
    (accepted : w.upsertSoiCreate o fields incPath sets skew = some d) : Framed w d := by
  simp only [Writer.upsertSoiCreate, ne_eq, ite_not, Option.ite_none_right_eq_some, Option.some.injEq] at accepted
  obtain ⟨_, _, rfl⟩ := accepted
  refine ⟨⟨skew,rfl⟩,rfl,rfl,coveredVv _ _,rfl,rfl,fun l => ?_,fun _ => Or.inl rfl,fun k => ?_,fun _ => Or.inl rfl⟩
  · by_cases own : l = w.stampAt skew
    · exact Or.inr ⟨own,congrArg some own.symm,_,(SortedMap.getInsert _ _ _ _).trans (if_pos own),nofun⟩
    · exact Or.inl ((SortedMap.getInsert _ _ _ _).trans (if_neg own))
  · refine (soiRegs _ _ _ _ _).imp id fun written => ?_
    obtain ⟨own, r, found, stamp⟩ := written
    exact ⟨nofun,congrArg some own.symm,r,found,stamp,fun _ => own.symm⟩

theorem upsertIncOnFramed {life path n} (accepted : w.upsertIncOn o life path n skew = some d) : Framed w d := by
  simp only [Writer.upsertIncOn, ite_not, Option.ite_none_right_eq_some, Option.ite_none_left_eq_some,
    Option.some.injEq] at accepted
  obtain ⟨_, _, rfl⟩ := accepted
  refine ⟨⟨skew,rfl⟩,rfl,rfl,coveredVv _ _,rfl,rfl,fun _ => Or.inl rfl,fun _ => Or.inl rfl,fun _ => Or.inl rfl,
    fun k => ?_⟩
  by_cases own : k = ⟨life,path,w.id,none⟩
  · subst own
    exact Or.inr ⟨rfl,rfl,rfl,rfl,_,(SortedMap.getInsert _ _ _ _).trans (if_pos rfl),rfl⟩
  · exact Or.inl ((SortedMap.getInsert _ _ _ _).trans (if_neg own))

theorem upsertIncFramed {path n} (accepted : w.upsertInc o path n skew = some d) : Framed w d := by
  simp only [Writer.upsertInc, ne_eq, ite_not, Option.ite_none_right_eq_some, Option.some.injEq] at accepted
  obtain ⟨_, rfl⟩ := accepted
  refine ⟨⟨skew,rfl⟩,rfl,rfl,rfl,rfl,rfl,fun l => ?_,fun _ => Or.inl rfl,fun _ => Or.inl rfl,fun k => ?_⟩
  · by_cases own : l = w.stampAt skew
    · exact Or.inr ⟨own,congrArg some own.symm,_,(SortedMap.getInsert _ _ _ _).trans (if_pos own),nofun⟩
    · exact Or.inl ((SortedMap.getInsert _ _ _ _).trans (if_neg own))
  · by_cases own : k = ⟨w.stampAt skew,path,w.id,none⟩
    · subst own
      exact Or.inr ⟨rfl,rfl,rfl,rfl,_,(SortedMap.getInsert _ _ _ _).trans (if_pos rfl),rfl⟩
    · exact Or.inl ((SortedMap.getInsert _ _ _ _).trans (if_neg own))

theorem writeRegsFramed {cells l} (life : w.state.writeLife o = some l) : Framed w (w.writeRegs o cells skew) := by
  obtain ⟨regs, shape, writes⟩ := setregsShape (w.stampAt skew) cells
    (s := Writer.covered w.state (w.stampAt skew)) life
  have state : (w.writeRegs o cells skew).writer.state =
      { Writer.covered w.state (w.stampAt skew) with regs } := shape
  have target : (w.writeRegs o cells skew).record.life = some l := life
  refine ⟨⟨skew,rfl⟩,rfl,rfl,?_,?_,?_,fun _ => Or.inl ?_,fun _ => Or.inl ?_,fun k => ?_,fun _ => Or.inl ?_⟩
  · rw [state]
    exact coveredVv _ _
  · rw [state]
    rfl
  · rw [state]
    rfl
  · rw [state]
    rfl
  · rw [state]
    rfl
  · rw [state]
    refine (writes k).imp id fun written => ?_
    obtain ⟨own, r, found, stamp, soi⟩ := written
    exact ⟨nofun,target.trans (congrArg some own.symm),r,found,stamp,fun yes => by simp [soi] at yes⟩
  · rw [state]
    rfl

theorem writeDeleteFramed (accepted : w.writeDelete o skew = some d) : Framed w d := by
  simp only [Writer.writeDelete, Option.ite_none_left_eq_some, Option.some.injEq] at accepted
  obtain ⟨_, rfl⟩ := accepted
  refine ⟨⟨skew,rfl⟩,rfl,rfl,coveredVv _ _,rfl,rfl,fun _ => Or.inl rfl,fun x => ?_,fun _ => Or.inl rfl,
    fun _ => Or.inl rfl⟩
  by_cases own : x = w.stampAt skew
  · exact Or.inr own
  · exact Or.inl ((SortedMap.getInsert _ _ _ _).trans (if_neg own))

theorem incSlotFramed {c p n} (accepted : w.incSlot o c p n skew = some d) : Framed w d := by
  simp only [Writer.incSlot, ite_not, Option.ite_none_right_eq_some, Option.bind_eq_bind,
    Option.bind_eq_some_iff, Option.ite_none_left_eq_some, Option.some.injEq] at accepted
  obtain ⟨_, l, life, _, rfl⟩ := accepted
  refine ⟨⟨skew,rfl⟩,rfl,rfl,coveredVv _ _,rfl,rfl,fun _ => Or.inl rfl,fun _ => Or.inl rfl,fun _ => Or.inl rfl,
    fun k => ?_⟩
  by_cases own : k = ⟨l,p,w.id,(w.state.genOf p o).map Gen.stamp⟩
  · subst own
    exact Or.inr ⟨rfl,rfl,rfl,rfl,_,(SortedMap.getInsert _ _ _ _).trans (if_pos rfl),rfl⟩
  · exact Or.inl ((SortedMap.getInsert _ _ _ _).trans (if_neg own))

end

/-! The shapes of an accepted write, the two halves of an upsert apart. -/

inductive Drafted (w : Writer) (o : JoinOptions) : Draft → Prop where
  | insert {fields skew d} (accepted : w.insert o fields skew = some d) : Drafted w o d
  | upsertInc {path n skew d} (accepted : w.upsertInc o path n skew = some d) : Drafted w o d
  | regs {cells skew l} (life : w.state.writeLife o = some l) : Drafted w o (w.writeRegs o cells skew)
  | inc {c p n skew d} (accepted : w.incSlot o c p n skew = some d) : Drafted w o d
  | delete {skew d} (accepted : w.writeDelete o skew = some d) : Drafted w o d

section
variable {w : Writer} {o : JoinOptions} {d : Draft}

theorem writeLifeNone {s : State} : s.writeLife o = none ↔ s.alive o = ∅ := Finset.max_eq_bot

theorem writeLifeSome {s : State} {l} (life : s.writeLife o = some l) :
    l ∈ s.alive o ∧ ∀ x ∈ s.alive o, x ≤ l :=
  ⟨Finset.mem_of_max life,fun _ member => Finset.le_max_of_eq member life⟩

theorem visibleLife {s : State} {doc} (shown : s.visible o = some doc) : ∃ l, s.writeLife o = some l := by
  refine Option.ne_none_iff_exists'.mp fun none => ?_
  simp [State.visible, writeLifeNone.mp none] at shown

theorem draftShape {op : Op} {skew} (accepted : op.draft w o skew = some d) : Drafted w o d := by
  cases op with
  | insert fields => exact .insert accepted
  | upsertInc path n => exact .upsertInc accepted
  | delete => exact .delete accepted
  | set path v =>
      simp only [Op.draft, Writer.writeSet, Option.bind_eq_bind, Option.bind_eq_some_iff,
        Option.ite_none_left_eq_some, Writer.writeRegUnchecked, Option.some.injEq] at accepted
      obtain ⟨vis, shown, _, rfl⟩ := accepted
      obtain ⟨l, life⟩ := visibleLife shown
      exact .regs life
  | unset path =>
      simp only [Op.draft, Writer.writeUnset, Option.bind_eq_bind, Option.bind_eq_some_iff,
        Writer.writeRegUnchecked, Option.some.injEq] at accepted
      obtain ⟨vis, shown, _, _, rfl⟩ := accepted
      obtain ⟨l, life⟩ := visibleLife shown
      exact .regs life
  | inc path n =>
      simp only [Op.draft, Writer.writeInc, Option.bind_eq_bind, Option.bind_eq_some_iff] at accepted
      obtain ⟨vis, shown, rest⟩ := accepted
      obtain ⟨l, life⟩ := visibleLife shown
      split at rest
      · exact .inc rest
      · exact .inc rest
      · cases rest
        exact .regs life
      · cases rest
  | replace doc =>
      simp only [Op.draft, Writer.writeReplace, Option.bind_eq_bind, Option.bind_eq_some_iff,
        Option.ite_none_left_eq_some, Option.some.injEq] at accepted
      obtain ⟨vis, shown, _, rfl⟩ := accepted
      obtain ⟨l, life⟩ := visibleLife shown
      exact .regs life

theorem draftedFramed (drafted : Drafted w o d) : Framed w d := by
  cases drafted with
  | insert accepted => exact insertFramed accepted
  | upsertInc accepted => exact upsertIncFramed accepted
  | regs life => exact writeRegsFramed life
  | inc accepted => exact incSlotFramed accepted
  | delete accepted => exact writeDeleteFramed accepted

end
end Kimmy.Merge
