import Kimmy.Merge.State

/-!
The join of two merge states (`merge_state/join.rs`), stage by stage: both sides are cut at
the joined horizon, united, the superseded first inserts are buried, the records of what was
lost are collected, and what has died is dropped.
-/
namespace Kimmy.Merge

/- Drop deletes and dead lives older than `h`. -/
def prefilter (s : State) (h : Hlc) : State :=
  let gone := s.dead.filter fun l => l.hlc < h
  { s with
    deletes := s.deletes.retain fun d _ => decide (h ≤ d.hlc)
    dead := s.dead \ gone
    lives := s.lives.retain fun l _ => decide (l ∉ gone) }

/- The union. A life is taken unless `s` knows it dead; cells unless either side does. -/
def unite (s t : State) : State :=
  let dead := s.dead ∪ t.dead
  { lives := s.lives.absorb (fun l old v => if l ∈ s.dead || old.isSome then none else some v) t.lives
    deletes := s.deletes.absorb (fun _ old vv => if old.isSome then none else some vv) t.deletes
    dead
    regs := s.regs.absorb (fun k old r =>
      if k.life ∉ dead && old.all fun x => decide (x.stamp < r.stamp) then some r else none) t.regs
    slots := s.slots.absorb (fun k old v =>
      if k.life ∉ dead && old.all fun x => decide (x.stamp < v.stamp) then some v else none) t.slots
    vv := s.vv.absorb (fun _ old h => some (max (old.getD .zero) h)) t.vv
    losses := s.losses }

/- Explicit inserts whose creator had seen no delete. -/
def firstInserts (out : State) : Finset MStamp :=
  ((out.lives.entries.filter fun x => x.2.kind = .insert && x.2.seen = ∅).map Prod.fst).toFinset

/- Of the first inserts the newest wins; the others are superseded. -/
def superseded (out : State) : Finset MStamp :=
  (firstInserts out).filter fun l => (l : WithBot MStamp) ≠ (firstInserts out).max

def bury (out : State) : State := { out with dead := out.dead ∪ superseded out }

def killedBy (out : State) (ret : Fin (2 ^ 64)) (l : MStamp) : Bool :=
  (out.lives.get l).any fun v =>
    out.deletes.entries.any fun d => decide (d.1 ∉ v.seen) && decide (subRet l.hlc ret ≤ d.1.hlc)

/- A first insert that a delete already killed is dead, not lost to a newer insert. -/
def reported (out : State) (ret : Fin (2 ^ 64)) : Finset MStamp :=
  superseded out \ (superseded out).filter fun l => killedBy out ret l

abbrev Record := LossKey × LossValue

def insertsLost (out : State) (reported : Finset MStamp) : List Record :=
  (SortedMap.elements reported).map fun l =>
    (⟨.insertLost,"_",l⟩, .fields (((out.lives.get l).map Life.order).getD []))

/- Same-path register clashes: a register of `s` against a register of `t`, concurrent by the
version vectors. -/
def clashes (s t : State) (al : Finset MStamp) : List Record :=
  let paths := (s.regs.entries.map (·.1.path) ++ t.regs.entries.map (·.1.path)).toFinset
  (SortedMap.elements paths).flatMap fun p =>
    let rs := (s.regs.entries.filter fun x => x.1.path = p && decide (x.1.life ∈ al)).map Prod.snd
    let rt := (t.regs.entries.filter fun x => x.1.path = p && decide (x.1.life ∈ al)).map Prod.snd
    rs.flatMap fun a => rt.filterMap fun b =>
      if a.stamp ≠ b.stamp && !cov t.vv a.stamp && !cov s.vv b.stamp then
        let lo := if a.stamp < b.stamp then a else b
        some (⟨.clash,p,lo.stamp⟩, .value lo.value)
      else none

/- Cells of a dead life that no known delete saw, and writes made into a losing first insert. -/
def deadCells (out : State) (al reported : Finset MStamp) (src : State) : List Record :=
  let seenByDelete (st : MStamp) := out.deletes.values.any fun vv => cov vv st
  (src.regs.entries.filterMap fun x =>
    if x.1.life ∈ reported && x.2.stamp ≠ x.1.life then
      some (⟨.insertLost,x.1.path,x.2.stamp⟩, .value x.2.value)
    else if x.1.life ∉ al && x.1.life ∉ reported && !seenByDelete x.2.stamp then
      some (⟨.deleteWon,x.1.path,x.2.stamp⟩, .value x.2.value)
    else none) ++
  src.slots.entries.filterMap fun x =>
    if x.1.life ∈ reported then some (⟨.insertLost,x.1.path,x.2.stamp⟩, .total x.2.total)
    else if x.1.life ∉ al && x.1.life ∉ reported && !seenByDelete x.2.stamp then
      some (⟨.deleteWon,x.1.path,x.2.stamp⟩, .total x.2.total)
    else none

/- Creation cells of an upsert life dropped for an alive explicit insert. -/
def droppedCells (out : State) (al : Finset MStamp) (src : State) : List Record :=
  if ∃ l ∈ al, out.isKind .insert l = true then
    src.regs.entries.filterMap fun x =>
      if x.2.soi && decide (x.1.life ∈ al) && out.isKind .upsert x.1.life then
        some (⟨.insertLost,x.1.path,x.2.stamp⟩, .value x.2.value)
      else none
  else []

def records (s t out : State) (ret : Fin (2 ^ 64)) (al : Finset MStamp) : List Record :=
  insertsLost out (reported out ret) ++ clashes s t al ++
    (deadCells out al (reported out ret) s ++ deadCells out al (reported out ret) t) ++
    (droppedCells out al s ++ droppedCells out al t)

/- Drop the cells of dead lives, then everything dead and every record behind the horizon. -/
def sweep (out : State) (al : Finset MStamp) (known : List Record) (o : JoinOptions) : State :=
  let dead := out.dead ∪ (out.lives.keys \ al)
  let h := out.horizon o
  { lives := out.lives.retain fun l _ => !(decide (l.hlc < h) && decide (l ∈ dead))
    deletes := out.deletes.retain fun d _ => decide (h ≤ d.hlc)
    dead := dead.filter fun l => h ≤ l.hlc
    regs := out.regs.retain fun k _ => decide (k.life ∈ al)
    slots := out.slots.retain fun k _ => decide (k.life ∈ al)
    vv := out.vv
    losses := .gather (fun k => decide (h ≤ k.stamp.hlc)) known }

/- The horizon of the joined version vectors, applied to both sides before the union. -/
def joinHorizon (s t : State) (o : JoinOptions) : Hlc := subRet (max s.maxVv t.maxVv) o.retention

def met (s t : State) (o : JoinOptions) : State :=
  bury (unite (prefilter s (joinHorizon s t o)) (prefilter t (joinHorizon s t o)))

def metAlive (s t : State) (o : JoinOptions) : Finset MStamp := (met s t o).aliveSet o.retention

/- Join `t` into `s`: the new state and the keys of the records that are new to `s`. -/
def join (s t : State) (o : JoinOptions) : State × Finset LossKey :=
  let out := met s t o
  let al := metAlive s t o
  let new : SortedMap LossKey LossValue := .collect
    (records (prefilter s (joinHorizon s t o)) (prefilter t (joinHorizon s t o)) out o.retention al)
  let joined := sweep out al (s.losses.entries ++ t.losses.entries ++ new.entries) o
  (joined, joined.losses.keys \ s.losses.keys)

/-! Each stage, entry by entry. -/

/- The cell with the higher stamp, the first one on a tie. -/
def newer {ν : Type} (stamp : ν → MStamp) (x y : Option ν) : Option ν :=
  match y with
  | none => x
  | some b => if x.all fun a => decide (stamp a < stamp b) then some b else x

theorem prefilterLives {s h l} : (prefilter s h).lives.get l =
    (s.lives.get l).filter fun _ => decide (l ∈ s.dead → h ≤ l.hlc) := by
  simp only [prefilter, SortedMap.getRetain]
  congr
  funext v
  simp

theorem prefilterDeletes {s h d} : (prefilter s h).deletes.get d =
    (s.deletes.get d).filter fun _ => decide (h ≤ d.hlc) := by
  simp [prefilter]

theorem prefilterDead {s h l} : l ∈ (prefilter s h).dead ↔ l ∈ s.dead ∧ h ≤ l.hlc := by
  simp only [prefilter, Finset.mem_sdiff, Finset.mem_filter, not_and, not_lt]
  exact ⟨fun ⟨dead, kept⟩ => ⟨dead,kept dead⟩,fun ⟨dead, kept⟩ => ⟨dead,fun _ => kept⟩⟩

theorem uniteLives {s t : State} {l} : (unite s t).lives.get l =
    (s.lives.get l).or (if l ∈ s.dead then none else t.lives.get l) := by
  simp only [unite, SortedMap.getAbsorb]
  cases t.lives.get l with
  | none => simp
  | some v =>
      cases s.lives.get l with
      | none => by_cases dead : l ∈ s.dead <;> simp [dead]
      | some x => simp

theorem uniteDeletes {s t : State} {d} :
    (unite s t).deletes.get d = (s.deletes.get d).or (t.deletes.get d) := by
  simp only [unite, SortedMap.getAbsorb]
  cases t.deletes.get d with
  | none => simp
  | some v => cases s.deletes.get d <;> simp

theorem uniteDead {s t : State} {l} : l ∈ (unite s t).dead ↔ l ∈ s.dead ∨ l ∈ t.dead := by
  simp [unite]

theorem uniteRegs {s t : State} {k} (kept : k.life ∉ (unite s t).dead) :
    (unite s t).regs.get k = newer Reg.stamp (s.regs.get k) (t.regs.get k) := by
  replace kept : k.life ∉ s.dead ∪ t.dead := kept
  simp only [unite, SortedMap.getAbsorb, newer]
  cases t.regs.get k with
  | none => rfl
  | some r => by_cases higher : (s.regs.get k).all fun a => decide (a.stamp < r.stamp) <;> simp [kept, higher]

theorem uniteSlots {s t : State} {k} (kept : k.life ∉ (unite s t).dead) :
    (unite s t).slots.get k = newer Slot.stamp (s.slots.get k) (t.slots.get k) := by
  replace kept : k.life ∉ s.dead ∪ t.dead := kept
  simp only [unite, SortedMap.getAbsorb, newer]
  cases t.slots.get k with
  | none => rfl
  | some r => by_cases higher : (s.slots.get k).all fun a => decide (a.stamp < r.stamp) <;> simp [kept, higher]

theorem uniteVv {s t : State} {w} : (unite s t).vv.get w =
    match t.vv.get w with
    | none => s.vv.get w
    | some h => some (max ((s.vv.get w).getD .zero) h) := by
  simp only [unite, SortedMap.getAbsorb]
  cases t.vv.get w <;> simp

theorem uniteCov {s t : State} {w} : ((unite s t).vv.get w).getD .zero =
    max ((s.vv.get w).getD .zero) ((t.vv.get w).getD .zero) := by
  rw [uniteVv]
  cases t.vv.get w with
  | none => simpa using (max_eq_left (hlcZeroLe _)).symm
  | some h => simp

theorem uniteMax {s t : State} : (unite s t).maxVv = max s.maxVv t.maxVv := by
  apply le_antisymm
  · refine State.maxVvLe.mpr fun w h held => ?_
    rw [uniteVv] at held
    cases other : t.vv.get w with
    | none =>
        rw [other] at held
        exact (State.leMaxVv held).trans (le_max_left _ _)
    | some x =>
        rw [other] at held
        cases held
        refine max_le ?_ ((State.leMaxVv other).trans (le_max_right _ _))
        cases own : s.vv.get w with
        | none => exact hlcZeroLe _
        | some y => exact (State.leMaxVv own).trans (le_max_left _ _)
  · refine max_le (State.maxVvLe.mpr fun w h held => ?_) (State.maxVvLe.mpr fun w h held => ?_)
    · cases other : t.vv.get w with
      | none => exact State.leMaxVv (by rw [uniteVv, other]; exact held)
      | some x =>
          have merged : (unite s t).vv.get w = some (max h x) := by rw [uniteVv, other, held]; rfl
          exact (le_max_left _ _).trans (State.leMaxVv merged)
    · have merged : (unite s t).vv.get w = some (max ((s.vv.get w).getD .zero) h) := by
        rw [uniteVv, held]
      exact (le_max_right _ _).trans (State.leMaxVv merged)

/- A first insert of a state: explicit, by a creator that held no delete. -/
def First (out : State) (l : MStamp) : Prop :=
  ∃ v, out.lives.get l = some v ∧ v.kind = .insert ∧ v.seen = ∅

theorem memFirst {out l} : l ∈ firstInserts out ↔ First out l := by
  simp only [firstInserts, List.mem_toFinset, List.mem_map, List.mem_filter, SortedMap.memEntry,
    Bool.and_eq_true, decide_eq_true_eq, Prod.exists, First]
  constructor
  · rintro ⟨_, v, facts, rfl⟩
    exact ⟨v,facts⟩
  · rintro ⟨v, facts⟩
    exact ⟨l,v,facts,rfl⟩

theorem memSuperseded {out l} : l ∈ superseded out ↔ First out l ∧ ∃ n, First out n ∧ l < n := by
  rw [superseded, Finset.mem_filter, memFirst]
  refine and_congr_right fun first => ?_
  constructor
  · intro beaten
    obtain ⟨n, top⟩ := Finset.max_of_mem (memFirst.mpr first)
    have member := Finset.mem_of_max top
    refine ⟨n,memFirst.mp member,lt_of_le_of_ne ?_ fun same => beaten (same ▸ top.symm)⟩
    exact WithBot.coe_le_coe.mp (top ▸ Finset.le_max (memFirst.mpr first))
  · rintro ⟨n, other, above⟩ same
    have bound := Finset.le_max (memFirst.mpr other)
    rw [←same] at bound
    exact absurd (WithBot.coe_le_coe.mp bound) (not_le.mpr above)

/- A delete inside retention that the creator of the life did not hold. -/
def Killed (out : State) (ret : Fin (2 ^ 64)) (l : MStamp) : Prop :=
  ∃ v, out.lives.get l = some v ∧
    ∃ d vv, out.deletes.get d = some vv ∧ d ∉ v.seen ∧ subRet l.hlc ret ≤ d.hlc

theorem killedByIff {out ret l} : killedBy out ret l = true ↔ Killed out ret l := by
  cases held : out.lives.get l with
  | none => simp [killedBy, Killed, held]
  | some v => simp [killedBy, Killed, held, SortedMap.memEntry]

theorem memReported {out ret l} : l ∈ reported out ret ↔ l ∈ superseded out ∧ ¬ Killed out ret l := by
  simp [reported, killedByIff]
  tauto

theorem memAliveIff {out : State} {ret l} : l ∈ out.aliveSet ret ↔
    (∃ v, out.lives.get l = some v) ∧ l ∉ out.dead ∧ ¬ Killed out ret l := by
  rw [State.memAlive]
  constructor
  · rintro ⟨v, held, kept, judged⟩
    refine ⟨⟨v,held⟩,kept,?_⟩
    rintro ⟨x, same, d, vv, delete, unseen, inside⟩
    cases held.symm.trans same
    exact (judged d vv delete).elim (fun old => absurd inside (not_le.mpr old)) unseen
  · rintro ⟨⟨v, held⟩, kept, spared⟩
    refine ⟨v,held,kept,fun d vv delete => ?_⟩
    by_contra both
    obtain ⟨inside, unseen⟩ := not_or.mp both
    exact spared ⟨v,held,d,vv,delete,unseen,not_lt.mp inside⟩

end Kimmy.Merge
