import Kimmy.Merge.History
import Kimmy.Merge.Codec

/-!
Convergence. Below the retention a state without its loss records is determined by the set
of writes it has incorporated, and that set by its version vector; so a join is associative
and equal version vectors mean equal states.
-/
namespace Kimmy.Merge
open State

/- The state without its loss records. -/
def State.bare (s : State) : State := { s with losses := .empty }

/- Two maps of one past, whatever the log says of it. -/
theorem sameMap {κ ν : Type} [LinearOrder κ] {m t : SortedMap κ ν} {holds : κ → ν → Prop}
    (left : ∀ k v, m.get k = some v ↔ holds k v) (right : ∀ k v, t.get k = some v ↔ holds k v) : m = t :=
  SortedMap.ext fun k => Option.ext fun v => (left k v).trans (right k v).symm

section
variable {log : Log} {s t : State} {past : Finset MStamp}

theorem goodRegs (good : Good log s past) (k r) :
    s.regs.get k = some r ↔ Alive log past k.life ∧ Newest (regAt log) past k r := by
  constructor
  · intro held
    have living := good.regsAlive k r held
    exact ⟨living,(good.regs k living r).mp held⟩
  · exact fun found => (good.regs k found.1 r).mpr found.2

theorem goodSlots (good : Good log s past) (k v) :
    s.slots.get k = some v ↔ Alive log past k.life ∧ Newest (slotAt log) past k v := by
  constructor
  · intro held
    have living := good.slotsAlive k v held
    exact ⟨living,(good.slots k living v).mp held⟩
  · exact fun found => (good.slots k found.1 v).mpr found.2

theorem goodUnique (good : Good log s past) (good' : Good log t past) : s.bare = t.bare := by
  have lives : s.lives = t.lives := sameMap good.lives good'.lives
  have deletes : s.deletes = t.deletes := sameMap good.deletes good'.deletes
  have dead : s.dead = t.dead := Finset.ext fun l => (good.dead l).trans (good'.dead l).symm
  have regs : s.regs = t.regs := sameMap (goodRegs good) (goodRegs good')
  have slots : s.slots = t.slots := sameMap (goodSlots good) (goodSlots good')
  have vv : s.vv = t.vv := sameMap good.vv good'.vv
  exact State.ext lives deletes dead regs slots vv rfl

end

section
variable {o : JoinOptions} {sys : Sys}

theorem joinAssoc (history : History o sys) {a b c} (heldA : a ∈ sys.pool) (heldB : b ∈ sys.pool)
    (heldC : c ∈ sys.pool) :
    (join (join a.1 b.1 o).1 c.1 o).1.bare = (join a.1 (join b.1 c.1 o).1 o).1.bare := by
  have ab := poolJoining history heldA heldB
  have bc := poolJoining history heldB heldC
  have left : Joining sys.log o (join a.1 b.1 o).1 c.1 (a.2 ∪ b.2) c.2 :=
    ⟨ab.ok,ab.good.toPre,bc.preT,closedUnion ab.closedP ab.closedQ,bc.closedQ,shortUnion ab.shortP ab.shortQ,bc.shortQ⟩
  have right : Joining sys.log o a.1 (join b.1 c.1 o).1 a.2 (b.2 ∪ c.2) :=
    ⟨ab.ok,ab.preS,bc.good.toPre,ab.closedP,closedUnion bc.closedP bc.closedQ,ab.shortP,shortUnion bc.shortP bc.shortQ⟩
  have good := left.good
  rw [Finset.union_assoc] at good
  exact goodUnique good right.good

/- A state has incorporated exactly the logged writes its version vector covers. -/
theorem coveredPast (history : History o sys) {s past} (pre : Pre sys.log s past) (closed : Closed sys.log past)
    {st e} (logged : sys.log st = some e) (covered : cov s.vv st = true) : st ∈ past := by
  rw [covIff] at covered
  cases held : s.vv.get st.writer with
  | none =>
      rw [held] at covered
      exact absurd (history.started st e logged) (not_lt.mpr covered)
  | some h =>
      rw [held, Option.getD_some] at covered
      obtain ⟨top, member, same, _⟩ := (pre.vv st.writer h).mp held
      rw [hlcAtSome] at same
      subst same
      rcases eq_or_lt_of_le covered with here | below
      · rwa [←here] at member
      · obtain ⟨e', logged', within⟩ := closed.entry _ member
        exact within (history.sequence _ e' st e logged' logged rfl (stampLtHlc below))

theorem equalPasts (history : History o sys) {m n} (heldM : m ∈ sys.pool) (heldN : n ∈ sys.pool)
    (same : m.1.vv = n.1.vv) : m.2 = n.2 := by
  have within {x y} (heldX : x ∈ sys.pool) (heldY : y ∈ sys.pool) (same : x.1.vv = y.1.vv) : x.2 ⊆ y.2 := by
    intro st member
    obtain ⟨e, logged, _⟩ := (history.closed x heldX).entry st member
    refine coveredPast history (history.good y heldY).toPre (history.closed y heldY) logged ?_
    rw [←same]
    exact preCov (history.good x heldX).toPre member
  exact Finset.Subset.antisymm (within heldM heldN same) (within heldN heldM same.symm)

end

namespace Sys

theorem convergence (o : JoinOptions) (actions : List Action) (room : (run o actions).Retained o) :
    (∀ a ∈ (run o actions).states, ∀ b ∈ (run o actions).states, ∀ c ∈ (run o actions).states,
      (join (join a b o).1 c o).1.bare = (join a (join b c o).1 o).1.bare) ∧
    (∀ m ∈ (run o actions).pool, ∀ n ∈ (run o actions).pool, m.2 = n.2 → m.1.bare = n.1.bare) ∧
    ∀ i j, ((run o actions).nodes i).writer.state.vv = ((run o actions).nodes j).writer.state.vv →
      ((run o actions).nodes i).writer.state.bare = ((run o actions).nodes j).writer.state.bare ∧
      ((run o actions).nodes i).writer.state.bare.encode = ((run o actions).nodes j).writer.state.bare.encode := by
  have history := runHistory o actions room
  have determined {m n} (heldM : m ∈ (run o actions).pool) (heldN : n ∈ (run o actions).pool)
      (same : m.2 = n.2) : m.1.bare = n.1.bare :=
    goodUnique (history.good m heldM) (same ▸ history.good n heldN)
  refine ⟨fun a inA b inB c inC => ?_,fun m heldM n heldN => determined heldM heldN,fun i j same => ?_⟩
  · obtain ⟨x, heldX, rfl⟩ := List.mem_map.mp inA
    obtain ⟨y, heldY, rfl⟩ := List.mem_map.mp inB
    obtain ⟨z, heldZ, rfl⟩ := List.mem_map.mp inC
    exact joinAssoc history heldX heldY heldZ
  · have past := equalPasts history (history.general.pooled i) (history.general.pooled j) same
    have equal := determined (history.general.pooled i) (history.general.pooled j) past
    exact ⟨equal,congrArg State.encode equal⟩

/- Two writers set one field and a third deletes the document, each unseen by the others; a
fourth writer hears of them in one order, a fifth in another. -/
abbrev grouped : Sys := run .default
  [.write ⟨1,0⟩ (.insert [("x",.int 0)]) 0, .receive ⟨2,0⟩ 1, .receive ⟨3,0⟩ 1,
    .write ⟨1,0⟩ (.set "x" (.int 1)) 0, .write ⟨2,0⟩ (.set "x" (.int 2)) 0, .write ⟨3,0⟩ .delete 0,
    .receive ⟨4,0⟩ 4, .receive ⟨4,0⟩ 5, .receive ⟨4,0⟩ 6, .receive ⟨5,0⟩ 5, .receive ⟨5,0⟩ 6, .receive ⟨5,0⟩ 4]

theorem convergenceGrouped : grouped.Retained .default ∧
    (grouped.nodes ⟨4,0⟩).writer.state.bare = (grouped.nodes ⟨5,0⟩).writer.state.bare := by
  have room : grouped.Retained .default := by decide +kernel
  exact ⟨room,((convergence _ _ room).2.2 ⟨4,0⟩ ⟨5,0⟩ (by decide +kernel)).1⟩

/- The loss records are not a function of the writes: they depend on how states were grouped. -/
theorem groupingShows : grouped.Retained .default ∧
    (∃ a ∈ grouped.states, ∃ b ∈ grouped.states, ∃ c ∈ grouped.states,
      (join (join a b .default).1 c .default).1 ≠ (join a (join b c .default).1 .default).1) ∧
    ∃ i j, (grouped.nodes i).writer.state.vv = (grouped.nodes j).writer.state.vv ∧
      (grouped.nodes i).writer.state.encode ≠ (grouped.nodes j).writer.state.encode := by
  refine ⟨by decide +kernel,?_,⟨4,0⟩,⟨5,0⟩,by decide +kernel,by decide +kernel⟩
  exact ⟨grouped.states.getD 4 .empty,by decide +kernel,grouped.states.getD 5 .empty,by decide +kernel,
    grouped.states.getD 6 .empty,by decide +kernel,by decide +kernel⟩

end Sys
end Kimmy.Merge
