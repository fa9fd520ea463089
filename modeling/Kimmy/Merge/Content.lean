import Kimmy.Merge.Laws

/-!
Where the stamp of a write determines what it wrote, a join does not depend on the order of
its sides and absorbs either of them. `Content` says what each stamp wrote, and what a
record of it keeps; a state fits it when everything it holds is so written.
-/
namespace Kimmy.Merge
open State

structure Content where
  life : MStamp → Option Life
  delete : MStamp → Option Vv
  reg : MStamp → CellKey → Option Reg
  slot : MStamp → SlotKey → Option Slot
  loss : LossKey → Option LossValue
  soiOwn : ∀ {st k r}, reg st k = some r → r.soi = true → st = k.life
  lossOfLife : ∀ {l v}, life l = some v → v.kind = .insert →
    loss ⟨.insertLost,"_",l⟩ = some (.fields v.order)
  lossOfReg : ∀ {kind st k r}, reg st k = some r →
    (kind = .insertLost → st = k.life → ∃ v, life st = some v ∧ v.kind = .upsert) →
    loss ⟨kind,k.path,st⟩ = some (.value r.value)
  lossOfSlot : ∀ {kind st k v}, slot st k = some v → loss ⟨kind,k.path,st⟩ = some (.total v.total)

structure Fits (c : Content) (s : State) : Prop where
  lives : ∀ {l v}, s.lives.get l = some v → c.life l = some v
  deletes : ∀ {d vv}, s.deletes.get d = some vv → c.delete d = some vv
  regs : ∀ {k r}, s.regs.get k = some r → c.reg r.stamp k = some r
  slots : ∀ {k v}, s.slots.get k = some v → c.slot v.stamp k = some v
  losses : ∀ {k v}, s.losses.get k = some v → c.loss k = some v

theorem emptyFits (c : Content) : Fits c .empty := ⟨nofun,nofun,nofun,nofun,nofun⟩

section
variable {c : Content} {s t : State} {o : JoinOptions}

theorem metFitsLives (fitS : Fits c s) (fitT : Fits c t) {l v}
    (held : (met s t o).lives.get l = some v) : c.life l = some v := by
  replace held := uniteLives.symm.trans held
  rw [Option.or_eq_some_iff, prefilterLives, prefilterLives, Option.filter_eq_some_iff] at held
  rcases held with ⟨own, _⟩ | ⟨_, other⟩
  · exact fitS.lives own
  · split_ifs at other
    exact fitT.lives (Option.filter_eq_some_iff.mp other).1

theorem metFitsDeletes (fitS : Fits c s) (fitT : Fits c t) {d vv}
    (held : (met s t o).deletes.get d = some vv) : c.delete d = some vv := by
  replace held := uniteDeletes.symm.trans held
  rw [Option.or_eq_some_iff, prefilterDeletes, prefilterDeletes, Option.filter_eq_some_iff,
    Option.filter_eq_some_iff] at held
  rcases held with ⟨own, _⟩ | ⟨_, other, _⟩
  · exact fitS.deletes own
  · exact fitT.deletes other

theorem sideFits (fitS : Fits c s) (fitT : Fits c t) {h x y}
    (side : Side (prefilter s h) (prefilter t h) x y) {k r} (held : x.regs.get k = some r) :
    c.reg r.stamp k = some r := by
  cases side with
  | left => exact fitS.regs held
  | right => exact fitT.regs held

theorem sideFitsSlot (fitS : Fits c s) (fitT : Fits c t) {h x y}
    (side : Side (prefilter s h) (prefilter t h) x y) {k r} (held : x.slots.get k = some r) :
    c.slot r.stamp k = some r := by
  cases side with
  | left => exact fitS.slots held
  | right => exact fitT.slots held

/- A record keeps what its key determines. -/
theorem losingFits (fitS : Fits c s) (fitT : Fits c t) {k v} (lost : Losing s t o k v) :
    c.loss k = some v := by
  cases lost with
  | insert lost held =>
      obtain ⟨⟨x, same, kind, _⟩, _⟩ := memSuperseded.mp (memReported.mp lost).1
      cases held.symm.trans same
      exact c.lossOfLife (metFitsLives fitS fitT held) kind
  | clash side lower =>
      exact c.lossOfReg (sideFits fitS fitT side lower) nofun
  | cellOfInsert side held lost later =>
      exact c.lossOfReg (sideFits fitS fitT side held) fun _ same => absurd same later
  | slotOfInsert side held lost => exact c.lossOfSlot (sideFitsSlot fitS fitT side held)
  | deadCell side held => exact c.lossOfReg (sideFits fitS fitT side held) nofun
  | deadSlot side held => exact c.lossOfSlot (sideFitsSlot fitS fitT side held)
  | dropped side held soi alive upsert =>
      refine c.lossOfReg (sideFits fitS fitT side held) fun _ same => ?_
      obtain ⟨v, life, kind⟩ := isKindIff.mp upsert
      exact ⟨v,same ▸ metFitsLives fitS fitT life,kind⟩

theorem newRecordsIff (fitS : Fits c s) (fitT : Fits c t) {k v} :
    (newRecords s t o).get k = some v ↔ Losing s t o k v := by
  refine ⟨newRecordsLost s t o,fun lost => ?_⟩
  obtain ⟨x, found⟩ := lostNewRecords s t o lost
  have same := losingFits fitS fitT (newRecordsLost s t o found)
  rw [losingFits fitS fitT lost] at same
  cases same
  exact found

theorem joinFits (fitS : Fits c s) (fitT : Fits c t) : Fits c (join s t o).1 where
  lives held := metFitsLives fitS fitT (joinedLives.mp held).1
  deletes held := metFitsDeletes fitS fitT ((joinedDeletes _).symm.trans held)
  regs held := by
    obtain ⟨_, x, y, side, source⟩ := joinedRegs held
    cases side with
    | left => exact fitS.regs source
    | right => exact fitT.regs source
  slots held := by
    obtain ⟨_, x, y, side, source⟩ := joinedSlots held
    cases side with
    | left => exact fitS.slots source
    | right => exact fitT.slots source
  losses held := by
    rw [joinLosses] at held
    split_ifs at held
    rw [Option.or_eq_some_iff, Option.or_eq_some_iff] at held
    rcases held with (own | ⟨_, other⟩) | ⟨_, new⟩
    · exact fitS.losses own
    · exact fitT.losses other
    · exact losingFits fitS fitT (newRecordsLost s t o new)

/-! Commutativity. -/

theorem orComm {ν : Type} {x y : Option ν} (agree : ∀ a b, x = some a → y = some b → a = b) :
    x.or y = y.or x := by
  cases x with
  | none => simp
  | some a =>
      cases y with
      | none => rfl
      | some b => simp [agree a b rfl rfl]

theorem newerComm {ν : Type} {stamp : ν → MStamp} {x y : Option ν}
    (agree : ∀ a b, x = some a → y = some b → stamp a = stamp b → a = b) :
    newer stamp x y = newer stamp y x := by
  cases x with
  | none => cases y <;> rfl
  | some a =>
      cases y with
      | none => rfl
      | some b =>
          rcases lt_trichotomy (stamp a) (stamp b) with below | same | above
          · simp [newer, below, below.not_gt]
          · simp [newer, agree a b rfl rfl same]
          · simp [newer, above, above.not_gt]

theorem horizonComm (s t : State) (o) : joinHorizon s t o = joinHorizon t s o := by
  rw [joinHorizon, joinHorizon, max_comm]

theorem metLivesComm (fitS : Fits c s) (fitT : Fits c t) (basicS : Basic s) (basicT : Basic t) :
    (met s t o).lives = (met t s o).lives := by
  refine SortedMap.ext fun l => ?_
  rw [metLives basicS, metLives basicT, horizonComm]
  refine orComm fun a b heldA heldB => ?_
  rw [prefilterLives, Option.filter_eq_some_iff] at heldA heldB
  have same := fitS.lives heldA.1
  rw [fitT.lives heldB.1] at same
  exact (Option.some.inj same).symm

theorem metDeletesComm (fitS : Fits c s) (fitT : Fits c t) :
    (met s t o).deletes = (met t s o).deletes := by
  refine SortedMap.ext fun d => ?_
  refine uniteDeletes.trans (Eq.trans ?_ uniteDeletes.symm)
  rw [horizonComm]
  refine orComm fun a b heldA heldB => ?_
  rw [prefilterDeletes, Option.filter_eq_some_iff] at heldA heldB
  have same := fitS.deletes heldA.1
  rw [fitT.deletes heldB.1] at same
  exact (Option.some.inj same).symm

theorem supersededCongr {x y : State} (lives : x.lives = y.lives) : superseded x = superseded y := by
  ext l
  simp only [memSuperseded, First, lives]

theorem reportedCongr {x y : State} (lives : x.lives = y.lives) (deletes : x.deletes = y.deletes) (ret) :
    reported x ret = reported y ret := by
  ext l
  simp only [memReported, supersededCongr lives, Killed, lives, deletes]

theorem metDeadComm (lives : (met s t o).lives = (met t s o).lives) :
    (met s t o).dead = (met t s o).dead := by
  ext l
  rw [metDead, metDead, supersededCongr lives, horizonComm, or_comm (a := l ∈ s.dead ∧ _)]

theorem aliveCongr {x y : State} (lives : x.lives = y.lives) (deletes : x.deletes = y.deletes)
    (dead : x.dead = y.dead) (ret) : x.aliveSet ret = y.aliveSet ret := by
  ext l
  simp only [memAliveIff, Killed, lives, deletes, dead]

theorem lostCongr {x y : State} {ret al k v} (lives : x.lives = y.lives) (deletes : x.deletes = y.deletes)
    (lost : Lost s t x ret al k v) : Lost s t y ret al k v := by
  have kinds (kind l) : x.isKind kind l = y.isKind kind l := by simp only [isKind, lives]
  have deaths (st) : SeenByDelete x st ↔ SeenByDelete y st := by simp only [SeenByDelete, deletes]
  have same := reportedCongr lives deletes ret
  cases lost with
  | insert lost held => exact .insert (same ▸ lost) (lives ▸ held)
  | clash side lower higher path aliveA aliveB below unseen unseen' =>
      exact .clash side lower higher path aliveA aliveB below unseen unseen'
  | cellOfInsert side held lost later => exact .cellOfInsert side held (same ▸ lost) later
  | slotOfInsert side held lost => exact .slotOfInsert side held (same ▸ lost)
  | deadCell side held gone other unseen =>
      exact .deadCell side held gone (same ▸ other) ((deaths _).not.mp unseen)
  | deadSlot side held gone other unseen =>
      exact .deadSlot side held gone (same ▸ other) ((deaths _).not.mp unseen)
  | dropped side held soi alive upsert member explicit =>
      exact .dropped side held soi alive (kinds _ _ ▸ upsert) member (kinds _ _ ▸ explicit)

theorem aliveComm (fitS : Fits c s) (fitT : Fits c t) (basicS : Basic s) (basicT : Basic t) :
    metAlive s t o = metAlive t s o :=
  have lives := metLivesComm fitS fitT basicS basicT
  aliveCongr lives (metDeletesComm fitS fitT) (metDeadComm lives) _

theorem regsComm (fitS : Fits c s) (fitT : Fits c t) (alive : metAlive s t o = metAlive t s o) :
    (join s t o).1.regs = (join t s o).1.regs := by
  refine SortedMap.ext fun k => ?_
  by_cases living : k.life ∈ metAlive t s o
  · have living' : k.life ∈ metAlive s t o := by rwa [alive]
    rw [joinRegs, joinRegs, alive, metRegs living, metRegs living', newerComm]
    intro a b heldA heldB same
    have found := fitS.regs heldA
    rw [same, fitT.regs heldB] at found
    exact (Option.some.inj found).symm
  · rw [joinRegsDead t s o living, joinRegsDead s t o (by rwa [alive])]

theorem slotsComm (fitS : Fits c s) (fitT : Fits c t) (alive : metAlive s t o = metAlive t s o) :
    (join s t o).1.slots = (join t s o).1.slots := by
  refine SortedMap.ext fun k => ?_
  by_cases living : k.life ∈ metAlive t s o
  · have living' : k.life ∈ metAlive s t o := by rwa [alive]
    rw [joinSlots, joinSlots, alive, metSlots living, metSlots living', newerComm]
    intro a b heldA heldB same
    have found := fitS.slots heldA
    rw [same, fitT.slots heldB] at found
    exact (Option.some.inj found).symm
  · rw [joinSlotsDead t s o living, joinSlotsDead s t o (by rwa [alive])]

theorem vvComm : (join s t o).1.vv = (join t s o).1.vv := by
  refine SortedMap.ext fun w => ?_
  rw [joinVv, joinVv, uniteVv, uniteVv]
  cases s.vv.get w with
  | none =>
      cases t.vv.get w with
      | none => rfl
      | some h => simpa using hlcZeroLe h
  | some h =>
      cases t.vv.get w with
      | none => simpa using (max_eq_right (hlcZeroLe h)).symm
      | some x => simp [max_comm]

theorem lossesComm (fitS : Fits c s) (fitT : Fits c t) (basicS : Basic s) (basicT : Basic t) :
    (join s t o).1.losses = (join t s o).1.losses := by
  have lives : (met s t o).lives = (met t s o).lives := metLivesComm fitS fitT basicS basicT
  have deletes : (met s t o).deletes = (met t s o).deletes := metDeletesComm fitS fitT
  refine SortedMap.ext fun k => ?_
  have new : (newRecords s t o).get k = (newRecords t s o).get k := by
    apply Option.ext
    intro v
    rw [newRecordsIff fitS fitT, newRecordsIff fitT fitS, Losing, Losing, horizonComm,
      aliveComm fitS fitT basicS basicT]
    exact ⟨fun lost => lostCongr lives deletes lost.swap,fun lost => lostCongr lives.symm deletes.symm lost.swap⟩
  have old : (s.losses.get k).or (t.losses.get k) = (t.losses.get k).or (s.losses.get k) := by
    refine orComm fun a b heldA heldB => ?_
    have found := fitS.losses heldA
    rw [fitT.losses heldB] at found
    exact (Option.some.inj found).symm
  rw [joinLosses, joinLosses, horizonComm, new, old]

theorem joinComm (fitS : Fits c s) (fitT : Fits c t) (basicS : Basic s) (basicT : Basic t) :
    (join s t o).1 = (join t s o).1 := by
  have lives : (met s t o).lives = (met t s o).lives := metLivesComm fitS fitT basicS basicT
  have alive : metAlive s t o = metAlive t s o := aliveComm fitS fitT basicS basicT
  refine State.ext ?_ ?_ ?_ (regsComm fitS fitT alive) (slotsComm fitS fitT alive) vvComm
    (lossesComm fitS fitT basicS basicT)
  · refine SortedMap.ext fun l => ?_
    rw [joinLives, joinLives, lives, horizonComm, alive]
  · refine SortedMap.ext fun d => ?_
    rw [joinDeletes, joinDeletes, metDeletesComm fitS fitT, horizonComm]
  · ext l
    rw [joinDead, joinDead, lives, metDeadComm lives, horizonComm, alive]

/-! Absorption. -/

theorem newestFirst {out l} (first : First out l) :
    ∃ n, First out n ∧ l ≤ n ∧ ∀ m, First out m → m ≤ n := by
  obtain ⟨n, top⟩ := Finset.max_of_mem (memFirst.mpr first)
  have bound (m) (other : First out m) : m ≤ n :=
    WithBot.coe_le_coe.mp (top ▸ Finset.le_max (memFirst.mpr other))
  exact ⟨n,memFirst.mp (Finset.mem_of_max top),bound l first,bound⟩

/- A superseded insert stays beaten once the join has swept: the newest first insert is still
there, or a delete killed it and every older one. -/
theorem beatenAgain {l v} (beaten : l ∈ superseded (met s t o)) (held : (met s t o).lives.get l = some v) :
    KilledIn (met s t o) o.retention l v ∨ ∃ n, First (join s t o).1 n ∧ l < n := by
  obtain ⟨⟨x, same, _, none⟩, m, firstM, below⟩ := memSuperseded.mp beaten
  cases held.symm.trans same
  obtain ⟨n, ⟨y, heldN, firstN⟩, above, top⟩ := newestFirst firstM
  by_cases kept : joinHorizon s t o ≤ n.hlc ∨ n ∈ metAlive s t o
  · exact Or.inr ⟨n,⟨y,joinedLives.mpr ⟨heldN,kept⟩,firstN⟩,below.trans_le above⟩
  · obtain ⟨old, gone⟩ := not_or.mp kept
    have killed : Killed (met s t o) o.retention n := by
      by_contra spared
      refine gone ((metAliveIff s t o).mpr ⟨⟨y,heldN⟩,fun dead => ?_,spared⟩)
      rcases metDead.mp dead with (⟨_, inside⟩ | ⟨_, inside⟩) | beatenN
      · exact old inside
      · exact old inside
      · obtain ⟨_, z, firstZ, higher⟩ := memSuperseded.mp beatenN
        exact absurd (top z firstZ) (not_le.mpr higher)
    exact Or.inl (killedOlder ((killedIffIn heldN).mp killed) none (below.trans_le above))

theorem metHolds (fitS : Fits c s) (fitT : Fits c t) (basic : Basic s) {x y l v} (side : Side s t x y)
    (held : x.lives.get l = some v) (kept : l ∈ x.dead → joinHorizon s t o ≤ l.hlc) :
    (met s t o).lives.get l = some v := by
  obtain ⟨z, found⟩ := metKnown basic side held kept
  have known : c.life l = some v := by
    cases side with
    | left => exact fitS.lives held
    | right => exact fitT.lives held
  rw [found, ←known, metFitsLives fitS fitT found]

theorem absorbUnder (fitS : Fits c s) (fitT : Fits c t) (basic : Basic s) : Under o (join s t o).1 t where
  vv w h held := by
    have found : (join s t o).1.vv.get w = some (max ((s.vv.get w).getD .zero) h) := by
      rw [joinVv, uniteVv, held]
    exact ⟨_,found,le_max_right _ _⟩
  deletes d vv held kept := by
    rw [horizonJoin] at kept
    rw [joinedDeletes]
    refine (Option.ne_none_iff_exists'.mp fun absent => ?_)
    replace absent := uniteDeletes.symm.trans absent
    rw [Option.or_eq_none_iff, prefilterDeletes, prefilterDeletes, held] at absent
    simp [kept] at absent
  dead l dead kept := by
    rw [horizonJoin] at kept
    exact (joinDead s t o).mpr ⟨kept,Or.inl (metDead.mpr (Or.inl (Or.inr ⟨dead,kept⟩)))⟩
  lives l v held kept := by
    rw [horizonJoin] at kept ⊢
    have found := metHolds fitS fitT basic .right held kept
    by_cases stays : joinHorizon s t o ≤ l.hlc ∨ l ∈ metAlive s t o
    · exact Or.inl ⟨v,joinedLives.mpr ⟨found,stays⟩⟩
    · obtain ⟨old, gone⟩ := not_or.mp stays
      refine Or.inr ⟨not_le.mp old,?_⟩
      rw [joinedKilledIn]
      by_cases killed : KilledIn (met s t o) o.retention l v
      · exact Or.inl killed
      · have beaten : l ∈ superseded (met s t o) := by
          by_contra unbeaten
          refine gone ((metAliveIff s t o).mpr ⟨⟨v,found⟩,fun dead => ?_,fun no => killed ((killedIffIn found).mp no)⟩)
          rcases metDead.mp dead with (⟨_, inside⟩ | ⟨_, inside⟩) | beaten
          · exact old inside
          · exact old inside
          · exact unbeaten beaten
        obtain ⟨⟨x, same, kind, none⟩, _⟩ := memSuperseded.mp beaten
        cases found.symm.trans same
        exact Or.inr ⟨kind,none,(beatenAgain beaten found).resolve_left killed⟩
  regs k r held alive := by
    rw [joinAlive] at alive
    obtain ⟨z, found, le⟩ := newerCovers Reg.stamp (s.regs.get k) (Or.inr held)
    refine ⟨z,?_,le⟩
    rw [joinRegs, metRegs alive, found]
    simp [alive]
  slots k r held alive := by
    rw [joinAlive] at alive
    obtain ⟨z, found, le⟩ := newerCovers Slot.stamp (s.slots.get k) (Or.inr held)
    refine ⟨z,?_,le⟩
    rw [joinSlots, metSlots alive, found]
    simp [alive]
  losses k v held kept := by
    rw [horizonJoin] at kept
    rw [joinLosses, if_pos kept, held]
    cases s.losses.get k with
    | some x => exact ⟨x,rfl⟩
    | none => exact ⟨v,rfl⟩

/- Joining a side again meets no life that the first join had not met. -/
theorem againLives (fitS : Fits c s) (fitT : Fits c t) (basicS : Basic s) (basicT : Basic t) {l v}
    (held : (met (join s t o).1 t o).lives.get l = some v) : (met s t o).lives.get l = some v := by
  have normal : Normal o (join s t o).1 := joinNormal basicS basicT
  rw [underLives normal (absorbUnder fitS fitT basicS), horizonJoin, Option.or_eq_some_iff] at held
  rcases held with own | ⟨_, other⟩
  · exact (joinedLives.mp own).1
  · rw [prefilterLives, Option.filter_eq_some_iff, decide_eq_true_eq] at other
    exact metHolds fitS fitT basicS .right other.1 other.2

theorem againDeletes (fitS : Fits c s) (fitT : Fits c t) (basicS : Basic s) (basicT : Basic t) (d) :
    (met (join s t o).1 t o).deletes.get d = (met s t o).deletes.get d := by
  rw [underDeletes (joinNormal basicS basicT) (absorbUnder fitS fitT basicS), joinedDeletes]

theorem againAlive (fitS : Fits c s) (fitT : Fits c t) (basicS : Basic s) (basicT : Basic t) :
    metAlive (join s t o).1 t o = metAlive s t o := by
  rw [underAlive (joinNormal basicS basicT) (absorbUnder fitS fitT basicS), joinAlive]

theorem againReported (fitS : Fits c s) (fitT : Fits c t) (basicS : Basic s) (basicT : Basic t) {l}
    (lost : l ∈ reported (met (join s t o).1 t o) o.retention) : l ∈ reported (met s t o) o.retention := by
  have first (n) (again : First (met (join s t o).1 t o) n) : First (met s t o) n := by
    obtain ⟨v, held, facts⟩ := again
    exact ⟨v,againLives fitS fitT basicS basicT held,facts⟩
  obtain ⟨beaten, spared⟩ := memReported.mp lost
  obtain ⟨firstL, n, firstN, below⟩ := memSuperseded.mp beaten
  refine memReported.mpr ⟨memSuperseded.mpr ⟨first l firstL,n,first n firstN,below⟩,?_⟩
  rintro ⟨v, held, d, vv, delete, rest⟩
  obtain ⟨x, heldL, _⟩ := firstL
  cases held.symm.trans (againLives fitS fitT basicS basicT heldL)
  exact spared ⟨v,heldL,d,vv,(againDeletes fitS fitT basicS basicT d).trans delete,rest⟩

theorem reportedAgain (fitS : Fits c s) (fitT : Fits c t) (basicS : Basic s) (basicT : Basic t) {l v}
    (lost : l ∈ reported (met s t o) o.retention) (held : t.lives.get l = some v) (spare : l ∉ t.dead) :
    l ∈ reported (met (join s t o).1 t o) o.retention := by
  have normal : Normal o (join s t o).1 := joinNormal basicS basicT
  have under : Under o (join s t o).1 t := absorbUnder fitS fitT basicS
  have again : (met (join s t o).1 t o).lives.get l = some v :=
    metHolds (joinFits fitS fitT) fitT normal.toBasic .right held fun dead => absurd dead spare
  have found := againLives fitS fitT basicS basicT again
  obtain ⟨beaten, spared⟩ := memReported.mp lost
  obtain ⟨⟨x, same, facts⟩, _⟩ := memSuperseded.mp beaten
  cases found.symm.trans same
  refine memReported.mpr ⟨memSuperseded.mpr ⟨⟨v,again,facts⟩,?_⟩,fun killed => spared ?_⟩
  · rcases beatenAgain beaten found with killed | ⟨n, firstN, below⟩
    · exact absurd ((killedIffIn found).mpr killed) spared
    · exact ⟨n,underFirst normal under firstN,below⟩
  · obtain ⟨d, vv, delete, rest⟩ := (killedIffIn again).mp killed
    exact ⟨v,found,d,vv,(againDeletes fitS fitT basicS basicT d).symm.trans delete,rest⟩

theorem joinAbsorb (fitS : Fits c s) (fitT : Fits c t) (basicS : Basic s) (normalT : Normal o t) :
    join (join s t o).1 t o = ((join s t o).1,∅) := by
  have basicT := normalT.toBasic
  have normal : Normal o (join s t o).1 := joinNormal basicS basicT
  have under : Under o (join s t o).1 t := absorbUnder fitS fitT basicS
  have horizon : joinHorizon (join s t o).1 t o = joinHorizon s t o := by
    rw [underHorizon under, horizonJoin]
  have cut : prefilter (join s t o).1 (joinHorizon s t o) = (join s t o).1 := by
    rw [←horizonJoin, prefilterNormal normal]
  have second := Side.right (s := prefilter s (joinHorizon s t o)) (t := prefilter t (joinHorizon s t o))
  refine joinUnder normal under fun k v lost kept => ?_
  rw [horizonJoin] at kept
  rw [Losing, horizon, cut, againAlive fitS fitT basicS basicT] at lost
  have mine {l} (alive : l ∈ (join s t o).1.alive o) :
      l ∉ reported (met (join s t o).1 t o) o.retention ∧ l ∈ metAlive s t o := by
    rw [←joinAlive]
    exact ⟨(underOwnCell normal under alive).1,alive⟩
  have seen {st} : SeenByDelete (met (join s t o).1 t o) st ↔ SeenByDelete (met s t o) st := by
    simp only [SeenByDelete, againDeletes fitS fitT basicS basicT]
  have brought {l} (alive : l ∈ t.alive o) (other : l ∉ reported (met (join s t o).1 t o) o.retention) :
      l ∉ reported (met s t o) o.retention := by
    obtain ⟨⟨x, held⟩, spare, _⟩ := memAliveIff.mp alive
    exact fun lost => other (reportedAgain fitS fitT basicS basicT lost held spare)
  cases lost with
  | insert lost held =>
      exact joinRecorded (.insert (againReported fitS fitT basicS basicT lost)
        (againLives fitS fitT basicS basicT held)) kept
  | clash side lower higher path aliveA aliveB below unseen unseen' =>
      exfalso
      cases side with
      | left =>
          rw [joinCov .right (basicT.covered _ _ higher)] at unseen'
          cases unseen'
      | right =>
          rw [joinCov .right (basicT.covered _ _ lower)] at unseen
          cases unseen
  | cellOfInsert side held lost later =>
      cases side with
      | left => exact absurd lost (mine (normal.regsAlive _ _ held)).1
      | right => exact joinRecorded (.cellOfInsert second held (againReported fitS fitT basicS basicT lost) later) kept
  | slotOfInsert side held lost =>
      cases side with
      | left => exact absurd lost (mine (normal.slotsAlive _ _ held)).1
      | right => exact joinRecorded (.slotOfInsert second held (againReported fitS fitT basicS basicT lost)) kept
  | deadCell side held gone other unseen =>
      cases side with
      | left => exact absurd (mine (normal.regsAlive _ _ held)).2 gone
      | right =>
          exact joinRecorded (.deadCell second held gone (brought (normalT.regsAlive _ _ held) other)
            (seen.not.mp unseen)) kept
  | deadSlot side held gone other unseen =>
      cases side with
      | left => exact absurd (mine (normal.slotsAlive _ _ held)).2 gone
      | right =>
          exact joinRecorded (.deadSlot second held gone (brought (normalT.slotsAlive _ _ held) other)
            (seen.not.mp unseen)) kept
  | @dropped x y a r i side held soi alive upsert member explicit =>
      have kinds {kind l} (is : (met (join s t o).1 t o).isKind kind l = true) :
          (met s t o).isKind kind l = true := by
        obtain ⟨z, life, same⟩ := isKindIff.mp is
        exact isKindIff.mpr ⟨z,againLives fitS fitT basicS basicT life,same⟩
      cases side with
      | left =>
          rw [←joinAlive] at alive member
          rw [underKind normal under alive] at upsert
          rw [underKind normal under member] at explicit
          refine normal.droppedReported a r held soi upsert ⟨i,member,explicit⟩ ?_
          rwa [horizonJoin]
      | right =>
          exact joinRecorded (.dropped second held soi alive (kinds upsert) member (kinds explicit)) kept

end
end Kimmy.Merge
