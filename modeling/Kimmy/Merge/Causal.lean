import Kimmy.Merge.Reach

/-!
With a retention longer than the run's clock nothing is cut, and a state without its loss
records is a function of the writes it has incorporated: the lives and deletes among them,
and for each cell of an alive life the newest write. A join takes the function of two sets
of writes to that of their union.
-/
namespace Kimmy.Merge
open State

section
variable (log : Log)

def FirstAt (l : MStamp) : Prop := ∃ v, lifeAt log l = some v ∧ v.kind = .insert ∧ v.seen = ∅

variable (past : Finset MStamp)

/- A first insert with a newer one beside it. -/
def Superseded (l : MStamp) : Prop := FirstAt log l ∧ ∃ n ∈ past, FirstAt log n ∧ l < n

/- A delete the creator of the life had not seen. -/
def Struck (v : Life) : Prop := ∃ d ∈ past, (∃ vv, deleteAt log d = some vv) ∧ d ∉ v.seen

def Alive (l : MStamp) : Prop :=
  l ∈ past ∧ (∃ v, lifeAt log l = some v ∧ ¬ Struck log past v) ∧ ¬ Superseded log past l

end

/- The newest of the writes of `past` to a cell. -/
def Newest {κ ν : Type} (written : MStamp → κ → Option ν) (past : Finset MStamp) (k : κ) (x : ν) : Prop :=
  ∃ st ∈ past, written st k = some x ∧ ∀ y ∈ past, (∃ z, written y k = some z) → y ≤ st

theorem newestUnique {κ ν : Type} {written : MStamp → κ → Option ν} {past k x y}
    (first : Newest written past k x) (second : Newest written past k y) : x = y := by
  obtain ⟨a, inA, wroteA, topA⟩ := first
  obtain ⟨b, inB, wroteB, topB⟩ := second
  have same : a = b := le_antisymm (topB a inA ⟨x,wroteA⟩) (topA b inB ⟨y,wroteB⟩)
  subst same
  rw [wroteA] at wroteB
  exact Option.some.inj wroteB

/- Every written cell has a newest write. -/
theorem newestExists {κ ν : Type} {written : MStamp → κ → Option ν} {past k st x} (member : st ∈ past)
    (wrote : written st k = some x) : ∃ y, Newest written past k y := by
  classical
  have inhabited : (past.filter fun y => ∃ z, written y k = some z).Nonempty :=
    ⟨st,Finset.mem_filter.mpr ⟨member,x,wrote⟩⟩
  obtain ⟨top, found, bound⟩ := Finset.exists_max_image _ id inhabited
  obtain ⟨inside, y, wroteY⟩ := Finset.mem_filter.mp found
  exact ⟨y,top,inside,wroteY,fun z memberZ wroteZ => bound z (Finset.mem_filter.mpr ⟨memberZ,wroteZ⟩)⟩

theorem newestUnion {κ ν : Type} {written : MStamp → κ → Option ν} {stamp : ν → MStamp} {P Q k}
    {x y : Option ν} (stamped : ∀ st v, written st k = some v → stamp v = st)
    (left : ∀ v, x = some v ↔ Newest written P k v) (right : ∀ v, y = some v ↔ Newest written Q k v) (v) :
    newer stamp x y = some v ↔ Newest written (P ∪ Q) k v := by
  have bound {R : Finset MStamp} {z : Option ν} (char : ∀ v, z = some v ↔ Newest written R k v) {st} (member : st ∈ R)
      (wrote : ∃ u, written st k = some u) : ∃ u, z = some u ∧ st ≤ stamp u := by
    obtain ⟨u, found⟩ := wrote
    obtain ⟨top, newest⟩ := newestExists member found
    have ⟨a, _, wroteA, topA⟩ := newest
    refine ⟨top,(char top).mpr newest,?_⟩
    rw [stamped a top wroteA]
    exact topA st member ⟨u,found⟩
  have forward (u) (found : newer stamp x y = some u) : Newest written (P ∪ Q) k u := by
    have top {st} (member : st ∈ P ∪ Q) (wrote : ∃ z, written st k = some z) : st ≤ stamp u := by
      have covers {z} (held : x = some z ∨ y = some z) : stamp z ≤ stamp u := by
        obtain ⟨z', same, le⟩ := newerCovers stamp x held
        rw [found] at same
        cases same
        exact le
      rcases Finset.mem_union.mp member with inP | inQ
      · obtain ⟨z, held, le⟩ := bound left inP wrote
        exact le.trans (covers (Or.inl held))
      · obtain ⟨z, held, le⟩ := bound right inQ wrote
        exact le.trans (covers (Or.inr held))
    rcases newerFrom found with own | other
    · obtain ⟨st, member, wrote, _⟩ := (left u).mp own
      exact ⟨st,Finset.mem_union_left _ member,wrote,fun _ inside written => stamped st u wrote ▸ top inside written⟩
    · obtain ⟨st, member, wrote, _⟩ := (right u).mp other
      exact ⟨st,Finset.mem_union_right _ member,wrote,fun _ inside written => stamped st u wrote ▸ top inside written⟩
  refine ⟨forward v,fun newest => ?_⟩
  have ⟨st, member, wrote, _⟩ := newest
  have some : ∃ z, x = some z ∨ y = some z := by
    rcases Finset.mem_union.mp member with inP | inQ
    · obtain ⟨z, held, _⟩ := bound left inP ⟨v,wrote⟩
      exact ⟨z,Or.inl held⟩
    · obtain ⟨z, held, _⟩ := bound right inQ ⟨v,wrote⟩
      exact ⟨z,Or.inr held⟩
  obtain ⟨z, held⟩ := some
  obtain ⟨u, found, _⟩ := newerCovers stamp x held
  rw [found, newestUnique newest (forward u found)]

/- The version vector, as the newest stamp of each writer. -/
def hlcAt (st : MStamp) (w : WriterId) : Option Hlc := if st.writer = w then some st.hlc else none

theorem hlcAtSome {st w h} : hlcAt st w = some h ↔ st = ⟨h,w⟩ := by
  rcases st with ⟨x, y⟩
  simp only [hlcAt, Option.ite_none_right_eq_some, Option.some.injEq, MStamp.mk.injEq]
  exact and_comm

theorem vvNewer {s t : State} (w) : (unite s t).vv.get w =
    newer (fun h => ⟨h,w⟩) (s.vv.get w) (t.vv.get w) := by
  rw [uniteVv]
  cases t.vv.get w with
  | none => rfl
  | some h =>
      cases s.vv.get w with
      | none => simp [newer, hlcZeroLe]
      | some x =>
          by_cases below : x < h
          · have stamps : (⟨x,w⟩ : MStamp) < ⟨h,w⟩ := stampLtHlc below
            simp [newer, stamps, below.le]
          · have stamps : ¬ (⟨x,w⟩ : MStamp) < ⟨h,w⟩ := fun no => below (hlcLtOfLt no rfl)
            simp [newer, stamps, not_lt.mp below]

/-! States as functions of their past. -/

/- The past is closed: a write comes with its causal past, and so with the life it is in. -/
structure Closed (log : Log) (past : Finset MStamp) : Prop where
  entry : ∀ st ∈ past, ∃ e, log st = some e ∧ e.ctx ⊆ past
  life : ∀ st ∈ past, ∀ e l, log st = some e → e.record.life = some l → l ∈ past

/- The state as it is written, before a join has normalised it. -/
structure Pre (log : Log) (s : State) (past : Finset MStamp) : Prop where
  lives : ∀ l v, s.lives.get l = some v ↔ l ∈ past ∧ lifeAt log l = some v
  deletes : ∀ d vv, s.deletes.get d = some vv ↔ d ∈ past ∧ deleteAt log d = some vv
  deadOnly : ∀ l ∈ s.dead, l ∈ past ∧ (∃ v, lifeAt log l = some v) ∧ ¬ Alive log past l
  regs : ∀ k, Alive log past k.life → ∀ r, s.regs.get k = some r ↔ Newest (regAt log) past k r
  slots : ∀ k, Alive log past k.life → ∀ v, s.slots.get k = some v ↔ Newest (slotAt log) past k v
  regsFrom : ∀ k r, s.regs.get k = some r → r.stamp ∈ past ∧ regAt log r.stamp k = some r
  slotsFrom : ∀ k v, s.slots.get k = some v → v.stamp ∈ past ∧ slotAt log v.stamp k = some v
  vv : ∀ w h, s.vv.get w = some h ↔ Newest hlcAt past w h

structure Good (log : Log) (s : State) (past : Finset MStamp) : Prop extends Pre log s past where
  dead : ∀ l, l ∈ s.dead ↔ l ∈ past ∧ (∃ v, lifeAt log l = some v) ∧ ¬ Alive log past l
  regsAlive : ∀ k r, s.regs.get k = some r → Alive log past k.life
  slotsAlive : ∀ k v, s.slots.get k = some v → Alive log past k.life

/- Every stamp of the past is younger than the retention. -/
def Short (o : JoinOptions) (past : Finset MStamp) : Prop := ∀ st ∈ past, st.hlc.wallMs < o.retention

theorem shortUnion {o P Q} (shortP : Short o P) (shortQ : Short o Q) : Short o (P ∪ Q) := fun st member =>
  (Finset.mem_union.mp member).elim (shortP st) (shortQ st)

theorem aliveMono {log : Log} {P Q : Finset MStamp} {l} (within : P ⊆ Q) (member : l ∈ P)
    (alive : Alive log Q l) : Alive log P l := by
  obtain ⟨_, ⟨v, born, spared⟩, unbeaten⟩ := alive
  refine ⟨member,⟨v,born,?_⟩,?_⟩
  · rintro ⟨d, inside, delete, unseen⟩
    exact spared ⟨d,within inside,delete,unseen⟩
  · rintro ⟨first, n, inside, rest⟩
    exact unbeaten ⟨first,n,within inside,rest⟩

theorem regAtStamp {log : Log} {st k r} (held : regAt log st k = some r) : r.stamp = st :=
  (regAtSome held).elim fun _ facts => facts.2.2

theorem slotAtStamp {log : Log} {st k v} (held : slotAt log st k = some v) : v.stamp = st :=
  (slotAtSome held).elim fun _ facts => facts.2.2

section
variable {log : Log} {past : Finset MStamp} (ok : LogOk log) (closed : Closed log past)
include ok closed

theorem regLife {st k r} (member : st ∈ past) (held : regAt log st k = some r) : k.life ∈ past := by
  obtain ⟨e, entry, made, stamp⟩ := regAtSome held
  exact closed.life st member e k.life entry ((ok st e entry).reg k r made stamp).2.1

theorem slotLife {st k v} (member : st ∈ past) (held : slotAt log st k = some v) : k.life ∈ past := by
  obtain ⟨e, entry, made, stamp⟩ := slotAtSome held
  exact closed.life st member e k.life entry ((ok st e entry).slot k v made stamp).2.1

end

section
variable {log : Log} {o : JoinOptions} {s : State} {past : Finset MStamp}

theorem preMax (pre : Pre log s past) (short : Short o past) : s.maxVv = .zero ∨ s.maxVv.wallMs < o.retention := by
  refine (maxVvCases s).imp id fun attained => ?_
  obtain ⟨w, held⟩ := attained
  obtain ⟨st, member, same, _⟩ := (pre.vv w s.maxVv).mp held
  have stamp := hlcAtSome.mp same
  rw [stamp] at member
  exact short _ member

theorem subRetShort {h : Hlc} {ret} (short : h = .zero ∨ h.wallMs < ret) : subRet h ret = .zero := by
  rcases short with rfl | below
  · exact subRetOfZero ret
  · exact subRetZero below

theorem preHorizon (pre : Pre log s past) (short : Short o past) : s.horizon o = .zero :=
  subRetShort (preMax pre short)

theorem prefilterShort (s : State) : prefilter s .zero = s := by
  have keep (h : Hlc) : ¬ h < .zero := not_lt.mpr (hlcZeroLe h)
  refine State.ext (SortedMap.ext fun l => ?_) (SortedMap.ext fun d => ?_) ?_ rfl rfl rfl rfl
  · rw [prefilterLives]
    cases s.lives.get l <;> simp [hlcZeroLe]
  · rw [prefilterDeletes]
    cases s.deletes.get d <;> simp [hlcZeroLe]
  · ext l
    simp [prefilterDead, hlcZeroLe]

end

/- A covered stamp: the version vector holds the newest stamp of each writer. -/
theorem preCov {log : Log} {s : State} {past} (pre : Pre log s past) {st} (member : st ∈ past) :
    cov s.vv st = true := by
  obtain ⟨h, newest⟩ := newestExists member (hlcAtSome.mpr (rfl : st = ⟨st.hlc,st.writer⟩))
  have ⟨top, _, same, bound⟩ := newest
  have below := bound st member ⟨st.hlc,hlcAtSome.mpr rfl⟩
  rw [hlcAtSome.mp same] at below
  rw [covIff, (pre.vv st.writer h).mpr newest]
  rcases eq_or_lt_of_le below with here | lower
  · exact (congrArg MStamp.hlc here).le
  · exact hlcLeOfLt lower

theorem preBasic {log : Log} {s : State} {past} (pre : Pre log s past) : Basic s where
  deadKnown l dead := by
    obtain ⟨inside, ⟨v, born⟩, _⟩ := pre.deadOnly l dead
    exact ⟨v,(pre.lives l v).mpr ⟨inside,born⟩⟩
  covered k r held := preCov pre (pre.regsFrom k r held).1

/-! The join of two such states. -/

section
variable {log : Log} {o : JoinOptions} {s t : State} {P Q : Finset MStamp}

theorem shortHorizon (preS : Pre log s P) (preT : Pre log t Q) (shortP : Short o P) (shortQ : Short o Q) :
    joinHorizon s t o = .zero := by
  refine subRetShort ?_
  rcases max_choice s.maxVv t.maxVv with same | same
  · rw [same]
    exact preMax preS shortP
  · rw [same]
    exact preMax preT shortQ

end

section
variable {log : Log} {s : State} {P R : Finset MStamp} (ok : LogOk log) (pre : Pre log s P)
  (closed : Closed log P) (within : P ⊆ R)
include ok pre closed within

/- In a life that a larger past finds alive, a cell is the newest of the smaller one. -/
theorem preRegs {k} (living : Alive log R k.life) (r) : s.regs.get k = some r ↔ Newest (regAt log) P k r := by
  by_cases own : k.life ∈ P
  · exact pre.regs k (aliveMono within own living) r
  · constructor
    · intro held
      obtain ⟨member, wrote⟩ := pre.regsFrom k r held
      exact absurd (regLife ok closed member wrote) own
    · rintro ⟨st, member, wrote, _⟩
      exact absurd (regLife ok closed member wrote) own

theorem preSlots {k} (living : Alive log R k.life) (v) : s.slots.get k = some v ↔ Newest (slotAt log) P k v := by
  by_cases own : k.life ∈ P
  · exact pre.slots k (aliveMono within own living) v
  · constructor
    · intro held
      obtain ⟨member, wrote⟩ := pre.slotsFrom k v held
      exact absurd (slotLife ok closed member wrote) own
    · rintro ⟨st, member, wrote, _⟩
      exact absurd (slotLife ok closed member wrote) own

end

/- Where nothing is cut, the stages of a join read the two pasts as one. -/
structure Joining (log : Log) (o : JoinOptions) (s t : State) (P Q : Finset MStamp) : Prop where
  ok : LogOk log
  preS : Pre log s P
  preT : Pre log t Q
  closedP : Closed log P
  closedQ : Closed log Q
  shortP : Short o P
  shortQ : Short o Q

namespace Joining
variable {log : Log} {o : JoinOptions} {s t : State} {P Q : Finset MStamp} (j : Joining log o s t P Q)
include j

theorem horizon : joinHorizon s t o = .zero := shortHorizon j.preS j.preT j.shortP j.shortQ

theorem metShort : met s t o = bury (unite s t) := by
  rw [met, j.horizon, prefilterShort, prefilterShort]

theorem lives (l v) : (met s t o).lives.get l = some v ↔ l ∈ P ∪ Q ∧ lifeAt log l = some v := by
  rw [metLives (preBasic j.preS), j.horizon, prefilterShort, prefilterShort, Option.or_eq_some_iff, j.preS.lives,
    j.preT.lives, Finset.mem_union]
  constructor
  · rintro (⟨inside, born⟩ | ⟨_, inside, born⟩)
    · exact ⟨Or.inl inside,born⟩
    · exact ⟨Or.inr inside,born⟩
  · rintro ⟨inside, born⟩
    by_cases own : l ∈ P
    · exact Or.inl ⟨own,born⟩
    · refine Or.inr ⟨Option.eq_none_iff_forall_ne_some.mpr fun v held => own ((j.preS.lives l v).mp held).1,?_⟩
      exact ⟨inside.resolve_left own,born⟩

theorem deletes (d vv) : (met s t o).deletes.get d = some vv ↔ d ∈ P ∪ Q ∧ deleteAt log d = some vv := by
  rw [j.metShort]
  refine (Eq.congr_left uniteDeletes).trans ?_
  rw [Option.or_eq_some_iff, j.preS.deletes, j.preT.deletes, Finset.mem_union]
  constructor
  · rintro (⟨inside, made⟩ | ⟨_, inside, made⟩)
    · exact ⟨Or.inl inside,made⟩
    · exact ⟨Or.inr inside,made⟩
  · rintro ⟨inside, made⟩
    by_cases own : d ∈ P
    · exact Or.inl ⟨own,made⟩
    · refine Or.inr ⟨Option.eq_none_iff_forall_ne_some.mpr fun v held => own ((j.preS.deletes d v).mp held).1,?_⟩
      exact ⟨inside.resolve_left own,made⟩

theorem first {l} : First (met s t o) l ↔ l ∈ P ∪ Q ∧ FirstAt log l := by
  simp only [First, FirstAt, j.lives]
  constructor
  · rintro ⟨v, ⟨inside, born⟩, facts⟩
    exact ⟨inside,v,born,facts⟩
  · rintro ⟨inside, v, born, facts⟩
    exact ⟨v,⟨inside,born⟩,facts⟩

theorem beaten {l} : l ∈ superseded (met s t o) ↔ l ∈ P ∪ Q ∧ Superseded log (P ∪ Q) l := by
  rw [memSuperseded, j.first, Superseded, and_assoc]
  refine and_congr_right fun _ => and_congr_right fun _ => ?_
  simp only [j.first, and_assoc]

theorem killed {l v} (held : (met s t o).lives.get l = some v) :
    Killed (met s t o) o.retention l ↔ Struck log (P ∪ Q) v := by
  have short := shortUnion j.shortP j.shortQ l ((j.lives l v).mp held).1
  rw [killedIffIn held, KilledIn, subRetZero short]
  simp only [j.deletes, Struck, hlcZeroLe, and_true]
  constructor
  · rintro ⟨d, vv, ⟨inside, made⟩, unseen⟩
    exact ⟨d,inside,⟨vv,made⟩,unseen⟩
  · rintro ⟨d, inside, ⟨vv, made⟩, unseen⟩
    exact ⟨d,vv,⟨inside,made⟩,unseen⟩

theorem dead {l} : l ∈ (met s t o).dead ↔ (l ∈ s.dead ∨ l ∈ t.dead) ∨ l ∈ superseded (met s t o) := by
  rw [metDead, j.horizon]
  simp only [hlcZeroLe, and_true]

theorem alive {l} : l ∈ metAlive s t o ↔ Alive log (P ∪ Q) l := by
  rw [metAliveIff, j.dead, j.beaten]
  constructor
  · rintro ⟨⟨v, held⟩, spare, spared⟩
    obtain ⟨inside, born⟩ := (j.lives l v).mp held
    refine ⟨inside,⟨v,born,fun struck => spared ((j.killed held).mpr struck)⟩,fun lost => spare (Or.inr ⟨inside,lost⟩)⟩
  · intro living
    have ⟨inside, ⟨v, born, spared⟩, unbeaten⟩ := living
    have held := (j.lives l v).mpr ⟨inside,born⟩
    refine ⟨⟨v,held⟩,?_,fun no => spared ((j.killed held).mp no)⟩
    rintro ((dead | dead) | ⟨_, lost⟩)
    · obtain ⟨own, _, gone⟩ := j.preS.deadOnly l dead
      exact gone (aliveMono Finset.subset_union_left own living)
    · obtain ⟨own, _, gone⟩ := j.preT.deadOnly l dead
      exact gone (aliveMono Finset.subset_union_right own living)
    · exact unbeaten lost

theorem regs {k} (living : Alive log (P ∪ Q) k.life) (r) :
    (join s t o).1.regs.get k = some r ↔ Newest (regAt log) (P ∪ Q) k r := by
  have member : k.life ∈ metAlive s t o := j.alive.mpr living
  have kept : (join s t o).1.regs.get k = newer Reg.stamp (s.regs.get k) (t.regs.get k) := by
    rw [joinRegs, metRegs member]
    cases newer Reg.stamp (s.regs.get k) (t.regs.get k) <;> simp [member]
  rw [kept]
  exact newestUnion (fun _ _ => regAtStamp) (preRegs j.ok j.preS j.closedP Finset.subset_union_left living)
    (preRegs j.ok j.preT j.closedQ Finset.subset_union_right living) r

theorem slots {k} (living : Alive log (P ∪ Q) k.life) (v) :
    (join s t o).1.slots.get k = some v ↔ Newest (slotAt log) (P ∪ Q) k v := by
  have member : k.life ∈ metAlive s t o := j.alive.mpr living
  have kept : (join s t o).1.slots.get k = newer Slot.stamp (s.slots.get k) (t.slots.get k) := by
    rw [joinSlots, metSlots member]
    cases newer Slot.stamp (s.slots.get k) (t.slots.get k) <;> simp [member]
  rw [kept]
  exact newestUnion (fun _ _ => slotAtStamp) (preSlots j.ok j.preS j.closedP Finset.subset_union_left living)
    (preSlots j.ok j.preT j.closedQ Finset.subset_union_right living) v

theorem vv (w h) : (join s t o).1.vv.get w = some h ↔ Newest hlcAt (P ∪ Q) w h := by
  rw [joinVv, vvNewer]
  exact newestUnion (fun _ _ same => (hlcAtSome.mp same).symm) (j.preS.vv w) (j.preT.vv w) h

theorem good : Good log (join s t o).1 (P ∪ Q) := by
  have lives (l v) : (join s t o).1.lives.get l = some v ↔ l ∈ P ∪ Q ∧ lifeAt log l = some v := by
    rw [joinedLives, j.lives, j.horizon]
    exact and_iff_left (Or.inl (hlcZeroLe _))
  have dead (l) : l ∈ (join s t o).1.dead ↔ l ∈ P ∪ Q ∧ (∃ v, lifeAt log l = some v) ∧ ¬ Alive log (P ∪ Q) l := by
    rw [joinDead, j.horizon, j.alive]
    constructor
    · rintro ⟨_, dead | ⟨⟨v, held⟩, gone⟩⟩
      · have gone : ¬ Alive log (P ∪ Q) l := fun living =>
          ((metAliveIff s t o).mp (j.alive.mpr living)).2.1 dead
        rcases j.dead.mp dead with (own | own) | lost
        · obtain ⟨inside, born, _⟩ := j.preS.deadOnly l own
          exact ⟨Finset.mem_union_left _ inside,born,gone⟩
        · obtain ⟨inside, born, _⟩ := j.preT.deadOnly l own
          exact ⟨Finset.mem_union_right _ inside,born,gone⟩
        · obtain ⟨inside, ⟨v, born, _⟩, _⟩ := j.beaten.mp lost
          exact ⟨inside,⟨v,born⟩,gone⟩
      · obtain ⟨inside, born⟩ := (j.lives l v).mp held
        exact ⟨inside,⟨v,born⟩,gone⟩
    · rintro ⟨inside, ⟨v, born⟩, gone⟩
      exact ⟨hlcZeroLe _,Or.inr ⟨⟨v,(j.lives l v).mpr ⟨inside,born⟩⟩,gone⟩⟩
  refine {
    lives
    deletes := fun d vv => by rw [joinedDeletes, j.deletes]
    deadOnly := fun l member => (dead l).mp member
    regs := fun k living r => j.regs living r
    slots := fun k living v => j.slots living v
    regsFrom := fun k r held => ?_
    slotsFrom := fun k v held => ?_
    vv := j.vv
    dead
    regsAlive := fun k r held => j.alive.mp (joinedRegs held).1
    slotsAlive := fun k v held => j.alive.mp (joinedSlots held).1 }
  · obtain ⟨_, x, y, side, source⟩ := joinedRegs held
    cases side with
    | left => exact (j.preS.regsFrom k r source).imp (Finset.mem_union_left _) id
    | right => exact (j.preT.regsFrom k r source).imp (Finset.mem_union_right _) id
  · obtain ⟨_, x, y, side, source⟩ := joinedSlots held
    cases side with
    | left => exact (j.preS.slotsFrom k v source).imp (Finset.mem_union_left _) id
    | right => exact (j.preT.slotsFrom k v source).imp (Finset.mem_union_right _) id

end Joining
end Kimmy.Merge
