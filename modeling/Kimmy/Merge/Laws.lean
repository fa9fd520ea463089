import Kimmy.Merge.Records

/-!
The laws of the join. They hold of normalised states: what a join has made of its sides,
with the dead listed, the superseded buried and nothing kept behind the horizon. A state
that is already contained in a normalised one leaves it as it is; idempotence, the empty
state and absorption are three cases of that. Commutativity needs more: that the stamp of
a write determines what it wrote.
-/
namespace Kimmy.Merge
open State

/- What a join needs of its sides: a dead life is a known life, a register is covered. -/
structure Basic (s : State) : Prop where
  deadKnown : ∀ l ∈ s.dead, ∃ v, s.lives.get l = some v
  covered : ∀ k r, s.regs.get k = some r → cov s.vv r.stamp = true

structure Normal (o : JoinOptions) (s : State) : Prop extends Basic s where
  deletesKept : ∀ d vv, s.deletes.get d = some vv → s.horizon o ≤ d.hlc
  deadKept : ∀ l ∈ s.dead, s.horizon o ≤ l.hlc
  lossesKept : ∀ k v, s.losses.get k = some v → s.horizon o ≤ k.stamp.hlc
  listed : ∀ l v, s.lives.get l = some v → l ∉ s.alive o → l ∈ s.dead
  buried : ∀ l ∈ superseded s, l ∈ s.dead
  regsAlive : ∀ k r, s.regs.get k = some r → k.life ∈ s.alive o
  slotsAlive : ∀ k v, s.slots.get k = some v → k.life ∈ s.alive o
  insertsReported : ∀ l ∈ reported s o.retention, ∃ v, s.losses.get ⟨.insertLost,"_",l⟩ = some v
  droppedReported : ∀ k r, s.regs.get k = some r → r.soi = true → s.isKind .upsert k.life = true →
    (∃ i ∈ s.alive o, s.isKind .insert i = true) → s.horizon o ≤ r.stamp.hlc →
    ∃ v, s.losses.get ⟨.insertLost,k.path,r.stamp⟩ = some v

theorem emptyBasic : Basic .empty := ⟨fun _ member => by simp [State.empty] at member,fun _ _ held => by cases held⟩

/- A delete of `c` that the creator of the life did not hold, inside its retention. -/
def KilledIn (c : State) (ret : Fin (2 ^ 64)) (l : MStamp) (v : Life) : Prop :=
  ∃ d vv, c.deletes.get d = some vv ∧ d ∉ v.seen ∧ subRet l.hlc ret ≤ d.hlc

theorem killedIffIn {c : State} {ret l v} (held : c.lives.get l = some v) :
    Killed c ret l ↔ KilledIn c ret l v := by
  constructor
  · rintro ⟨x, same, killer⟩
    cases held.symm.trans same
    exact killer
  · exact fun killer => ⟨v,held,killer⟩

/- A delete that kills a first insert kills every older first insert. -/
theorem killedOlder {c : State} {ret l n v x} (killed : KilledIn c ret n x) (none : v.seen = ∅)
    (below : l < n) : KilledIn c ret l v := by
  obtain ⟨d, vv, delete, _, inside⟩ := killed
  exact ⟨d,vv,delete,by simp [none],(subRetMono (hlcLeOfLt below) ret).trans inside⟩

/- `t`, cut at the horizon of `c`, brings nothing to `c` but lives that die again at once. -/
structure Under (o : JoinOptions) (c t : State) : Prop where
  vv : ∀ w h, t.vv.get w = some h → ∃ x, c.vv.get w = some x ∧ h ≤ x
  deletes : ∀ d vv, t.deletes.get d = some vv → c.horizon o ≤ d.hlc → ∃ x, c.deletes.get d = some x
  dead : ∀ l ∈ t.dead, c.horizon o ≤ l.hlc → l ∈ c.dead
  lives : ∀ l v, t.lives.get l = some v → (l ∈ t.dead → c.horizon o ≤ l.hlc) →
    (∃ x, c.lives.get l = some x) ∨ l.hlc < c.horizon o ∧
      (KilledIn c o.retention l v ∨ v.kind = .insert ∧ v.seen = ∅ ∧ ∃ n, First c n ∧ l < n)
  regs : ∀ k r, t.regs.get k = some r → k.life ∈ c.alive o → ∃ x, c.regs.get k = some x ∧ r.stamp ≤ x.stamp
  slots : ∀ k v, t.slots.get k = some v → k.life ∈ c.alive o → ∃ x, c.slots.get k = some x ∧ v.stamp ≤ x.stamp
  losses : ∀ k v, t.losses.get k = some v → c.horizon o ≤ k.stamp.hlc → ∃ x, c.losses.get k = some x

theorem prefilterNormal {o c} (normal : Normal o c) : prefilter c (c.horizon o) = c := by
  have lives : (prefilter c (c.horizon o)).lives = c.lives := by
    refine SortedMap.ext fun l => ?_
    rw [prefilterLives]
    cases c.lives.get l with
    | none => rfl
    | some v => simpa [imp_iff_not_or] using normal.deadKept l
  have deletes : (prefilter c (c.horizon o)).deletes = c.deletes := by
    refine SortedMap.ext fun d => ?_
    rw [prefilterDeletes]
    cases held : c.deletes.get d with
    | none => rfl
    | some vv => simpa using normal.deletesKept d vv held
  have dead : (prefilter c (c.horizon o)).dead = c.dead := by
    ext l
    rw [prefilterDead]
    exact ⟨fun found => found.1,fun found => ⟨found,normal.deadKept l found⟩⟩
  exact State.ext lives deletes dead rfl rfl rfl rfl

section
variable {o : JoinOptions} {c t : State}

theorem underHorizon (under : Under o c t) : joinHorizon c t o = c.horizon o := by
  have below : t.maxVv ≤ c.maxVv := maxVvLe.mpr fun w h held => by
    obtain ⟨x, found, le⟩ := under.vv w h held
    exact le.trans (leMaxVv found)
  rw [joinHorizon, max_eq_left below]
  rfl

theorem underMet (normal : Normal o c) (under : Under o c t) :
    met c t o = bury (unite c (prefilter t (c.horizon o))) := by
  rw [met, underHorizon under, prefilterNormal normal]

theorem underLives (normal : Normal o c) (under : Under o c t) (l) : (met c t o).lives.get l =
    (c.lives.get l).or ((prefilter t (c.horizon o)).lives.get l) := by
  rw [underMet normal under]
  refine uniteLives.trans ?_
  by_cases dead : l ∈ c.dead
  · obtain ⟨v, held⟩ := normal.deadKnown l dead
    simp [held]
  · simp [dead]

theorem underHeld (normal : Normal o c) (under : Under o c t) {l v} (held : c.lives.get l = some v) :
    (met c t o).lives.get l = some v := by
  rw [underLives normal under, held]
  rfl

/- A life that only `t` brings. -/
theorem underBrought (normal : Normal o c) (under : Under o c t) {l v}
    (held : (met c t o).lives.get l = some v) (absent : c.lives.get l = none) :
    l.hlc < c.horizon o ∧ (KilledIn c o.retention l v ∨
      v.kind = .insert ∧ v.seen = ∅ ∧ ∃ n, First c n ∧ l < n) := by
  rw [underLives normal under, absent, Option.none_or, prefilterLives, Option.filter_eq_some_iff,
    decide_eq_true_eq] at held
  rcases under.lives l v held.1 held.2 with ⟨x, found⟩ | fate
  · rw [absent] at found
    cases found
  · exact fate

theorem underDeletes (normal : Normal o c) (under : Under o c t) (d) :
    (met c t o).deletes.get d = c.deletes.get d := by
  rw [underMet normal under]
  refine uniteDeletes.trans ?_
  cases held : c.deletes.get d with
  | some vv => rfl
  | none =>
      rw [Option.none_or, prefilterDeletes, Option.filter_eq_none_iff]
      intro vv found
      simp only [decide_eq_true_eq]
      intro kept
      obtain ⟨x, other⟩ := under.deletes d vv found kept
      rw [held] at other
      cases other

theorem underUniteDead (under : Under o c t) {l} :
    l ∈ (unite c (prefilter t (c.horizon o))).dead ↔ l ∈ c.dead := by
  rw [uniteDead, prefilterDead]
  exact ⟨fun found => found.elim id fun other => under.dead l other.1 other.2,Or.inl⟩

theorem underKilled (normal : Normal o c) (under : Under o c t) {l v}
    (held : (met c t o).lives.get l = some v) :
    Killed (met c t o) o.retention l ↔ KilledIn c o.retention l v := by
  rw [killedIffIn held]
  simp only [KilledIn, underDeletes normal under]

theorem underFirst (normal : Normal o c) (under : Under o c t) {l} (first : First c l) :
    First (met c t o) l := by
  obtain ⟨v, held, facts⟩ := first
  exact ⟨v,underHeld normal under held,facts⟩

theorem underBuried (normal : Normal o c) (under : Under o c t) {l} :
    l ∈ (met c t o).dead ↔ l ∈ c.dead ∨ l ∈ superseded (met c t o) := by
  have sameLives : superseded (met c t o) = superseded (unite c (prefilter t (c.horizon o))) := by
    rw [underMet normal under]
    rfl
  rw [sameLives, underMet normal under]
  exact Finset.mem_union.trans (or_congr_left (underUniteDead under))

/- The lives `t` brings change nothing for those of `c`: a newer first insert among them is
killed, and with it the one it would supersede, or is superseded by one of `c`. -/
theorem underAlive (normal : Normal o c) (under : Under o c t) : metAlive c t o = c.alive o := by
  ext l
  rw [metAliveIff, underBuried normal under, State.alive, memAliveIff, not_or]
  constructor
  · rintro ⟨⟨v, held⟩, ⟨notDead, notBuried⟩, spared⟩
    rw [underKilled normal under held] at spared
    cases own : c.lives.get l with
    | some x =>
        cases held.symm.trans (underHeld normal under own)
        exact ⟨⟨v,rfl⟩,notDead,fun killed => spared ((killedIffIn own).mp killed)⟩
    | none =>
        obtain ⟨_, killed | ⟨kind, none, n, first, below⟩⟩ := underBrought normal under held own
        · exact absurd killed spared
        · exact absurd (memSuperseded.mpr ⟨⟨v,held,kind,none⟩,n,underFirst normal under first,below⟩) notBuried
  · rintro ⟨⟨v, held⟩, notDead, spared⟩
    have same := underHeld normal under held
    rw [killedIffIn held] at spared
    refine ⟨⟨v,same⟩,⟨notDead,fun beaten => ?_⟩,(underKilled normal under same).not.mpr spared⟩
    obtain ⟨⟨x, other, kind, none⟩, n, ⟨y, heldN, firstN⟩, below⟩ := memSuperseded.mp beaten
    cases same.symm.trans other
    have firstL : First c l := ⟨v,held,kind,none⟩
    cases own : c.lives.get n with
    | some z =>
        cases heldN.symm.trans (underHeld normal under own)
        exact notDead (normal.buried l (memSuperseded.mpr ⟨firstL,n,⟨y,own,firstN⟩,below⟩))
    | none =>
        obtain ⟨_, killed | ⟨_, _, m, firstM, above⟩⟩ := underBrought normal under heldN own
        · exact spared (killedOlder killed none below)
        · exact notDead (normal.buried l (memSuperseded.mpr ⟨firstL,m,firstM,below.trans above⟩))

theorem newerKeep {ν : Type} {stamp : ν → MStamp} {x y : Option ν}
    (covers : ∀ b, y = some b → ∃ a, x = some a ∧ stamp b ≤ stamp a) : newer stamp x y = x := by
  cases y with
  | none => rfl
  | some b =>
      obtain ⟨a, rfl, le⟩ := covers b rfl
      simp [newer, not_lt.mpr le]

theorem joinUnderLives (normal : Normal o c) (under : Under o c t) : (join c t o).1.lives = c.lives := by
  refine SortedMap.ext fun l => ?_
  rw [joinLives, underHorizon under, underAlive normal under]
  cases own : c.lives.get l with
  | some v =>
      rw [underHeld normal under own]
      by_cases living : l ∈ c.alive o
      · simp [living]
      · simp [normal.deadKept l (normal.listed l v own living)]
  | none =>
      rw [Option.filter_eq_none_iff]
      intro v held
      obtain ⟨old, _⟩ := underBrought normal under held own
      have absent : l ∉ c.alive o := fun living => by
        obtain ⟨x, found⟩ := aliveHeld living
        rw [own] at found
        cases found
      simpa [absent] using old

theorem joinUnderDeletes (normal : Normal o c) (under : Under o c t) :
    (join c t o).1.deletes = c.deletes := by
  refine SortedMap.ext fun d => ?_
  rw [joinDeletes, underHorizon under, underDeletes normal under]
  cases held : c.deletes.get d with
  | none => rfl
  | some vv => simpa using normal.deletesKept d vv held

theorem joinUnderDead (normal : Normal o c) (under : Under o c t) : (join c t o).1.dead = c.dead := by
  have alive := underAlive normal under
  ext l
  rw [joinDead, underHorizon under, alive, underBuried normal under]
  constructor
  · rintro ⟨kept, fate⟩
    have dies : (∃ v, (met c t o).lives.get l = some v) ∧ l ∉ c.alive o → l ∈ c.dead := by
      rintro ⟨⟨v, held⟩, gone⟩
      cases own : c.lives.get l with
      | some x => exact normal.listed l x own gone
      | none => exact absurd kept (not_le.mpr (underBrought normal under held own).1)
    rcases fate with (dead | beaten) | gone
    · exact dead
    · obtain ⟨⟨v, held, _⟩, _⟩ := memSuperseded.mp beaten
      refine dies ⟨⟨v,held⟩,fun living => ?_⟩
      rw [←alive, metAliveIff, underBuried normal under] at living
      exact living.2.1 (Or.inr beaten)
    · exact dies gone
  · exact fun dead => ⟨normal.deadKept l dead,Or.inl (Or.inl dead)⟩

theorem underKeeps (under : Under o c t) {l} (living : l ∈ c.alive o) :
    l ∉ (unite c (prefilter t (c.horizon o))).dead := by
  rw [underUniteDead under]
  exact (memAliveIff.mp living).2.1

theorem joinUnderRegs (normal : Normal o c) (under : Under o c t) : (join c t o).1.regs = c.regs := by
  refine SortedMap.ext fun k => ?_
  rw [joinRegs, underAlive normal under]
  by_cases living : k.life ∈ c.alive o
  · have found : (met c t o).regs.get k = newer Reg.stamp (c.regs.get k) (t.regs.get k) := by
      rw [underMet normal under]
      exact uniteRegs (underKeeps under living)
    rw [found, newerKeep fun r held => under.regs k r held living]
    cases c.regs.get k <;> simp [living]
  · cases held : c.regs.get k with
    | none => simp [living]
    | some r => exact absurd (normal.regsAlive k r held) living

theorem joinUnderSlots (normal : Normal o c) (under : Under o c t) : (join c t o).1.slots = c.slots := by
  refine SortedMap.ext fun k => ?_
  rw [joinSlots, underAlive normal under]
  by_cases living : k.life ∈ c.alive o
  · have found : (met c t o).slots.get k = newer Slot.stamp (c.slots.get k) (t.slots.get k) := by
      rw [underMet normal under]
      exact uniteSlots (underKeeps under living)
    rw [found, newerKeep fun r held => under.slots k r held living]
    cases c.slots.get k <;> simp [living]
  · cases held : c.slots.get k with
    | none => simp [living]
    | some r => exact absurd (normal.slotsAlive k r held) living

theorem joinUnderVv (under : Under o c t) : (join c t o).1.vv = c.vv := by
  refine SortedMap.ext fun w => ?_
  rw [joinVv, uniteVv]
  cases held : t.vv.get w with
  | none => rfl
  | some h =>
      obtain ⟨x, found, le⟩ := under.vv w h held
      simp [found, le]

/- A state under a normalised one, whose records it holds, leaves it as it is. -/
theorem joinUnder (normal : Normal o c) (under : Under o c t)
    (recorded : ∀ k v, Losing c t o k v → c.horizon o ≤ k.stamp.hlc → ∃ x, c.losses.get k = some x) :
    join c t o = (c,∅) := by
  have losses : (join c t o).1.losses = c.losses := by
    refine SortedMap.ext fun k => ?_
    rw [joinLosses, underHorizon under]
    cases own : c.losses.get k with
    | some v => simp [normal.lossesKept k v own]
    | none =>
        split_ifs with kept
        · have absent : t.losses.get k = none := Option.eq_none_iff_forall_ne_some.mpr fun v held => by
            obtain ⟨x, found⟩ := under.losses k v held kept
            rw [own] at found
            cases found
          have silent : (newRecords c t o).get k = none := Option.eq_none_iff_forall_ne_some.mpr fun v held => by
            obtain ⟨x, found⟩ := recorded k v (newRecordsLost c t o held) kept
            rw [own] at found
            cases found
          simp [absent, silent]
        · rfl
  have state : (join c t o).1 = c :=
    State.ext (joinUnderLives normal under) (joinUnderDeletes normal under) (joinUnderDead normal under)
      (joinUnderRegs normal under) (joinUnderSlots normal under) (joinUnderVv under) losses
  refine Prod.ext state (Finset.eq_empty_of_forall_notMem fun k fresh => ?_)
  obtain ⟨⟨v, held⟩, absent⟩ := (joinFresh c t o).mp fresh
  rw [state, absent] at held
  cases held

end

/-! A join normalises. -/

section
variable {o : JoinOptions} {s t : State}

theorem metDeletes {d vv} (held : (met s t o).deletes.get d = some vv) : joinHorizon s t o ≤ d.hlc := by
  replace held := uniteDeletes.symm.trans held
  rw [prefilterDeletes, prefilterDeletes, Option.or_eq_some_iff, Option.filter_eq_some_iff,
    Option.filter_eq_some_iff] at held
  rcases held with ⟨_, kept⟩ | ⟨_, _, kept⟩ <;> simpa using kept

theorem joinedDeletes (d) : (join s t o).1.deletes.get d = (met s t o).deletes.get d := by
  rw [joinDeletes]
  cases held : (met s t o).deletes.get d with
  | none => rfl
  | some vv => simpa using metDeletes held

theorem joinedKilledIn {l v} :
    KilledIn (join s t o).1 o.retention l v ↔ KilledIn (met s t o) o.retention l v := by
  simp only [KilledIn, joinedDeletes]

theorem joinedLives {l v} : (join s t o).1.lives.get l = some v ↔
    (met s t o).lives.get l = some v ∧ (joinHorizon s t o ≤ l.hlc ∨ l ∈ metAlive s t o) := by
  rw [joinLives, Option.filter_eq_some_iff, decide_eq_true_eq]

theorem joinAlive : (join s t o).1.alive o = metAlive s t o := by
  ext l
  rw [State.alive, memAliveIff]
  constructor
  · rintro ⟨⟨v, held⟩, notDead, _⟩
    obtain ⟨known, kept | alive⟩ := joinedLives.mp held
    · by_contra gone
      exact notDead ((joinDead s t o).mpr ⟨kept,Or.inr ⟨⟨v,known⟩,gone⟩⟩)
    · exact alive
  · intro alive
    obtain ⟨⟨v, held⟩, notDead, spared⟩ := (metAliveIff s t o).mp alive
    have known : (join s t o).1.lives.get l = some v := joinedLives.mpr ⟨held,Or.inr alive⟩
    refine ⟨⟨v,known⟩,fun dead => ?_,?_⟩
    · rcases ((joinDead s t o).mp dead).2 with buried | ⟨_, gone⟩
      · exact notDead buried
      · exact gone alive
    · rw [killedIffIn known, joinedKilledIn, ←killedIffIn held]
      exact spared

theorem joinedFirst {l} (first : First (join s t o).1 l) : First (met s t o) l := by
  obtain ⟨v, held, facts⟩ := first
  exact ⟨v,(joinedLives.mp held).1,facts⟩

theorem metDead {l} : l ∈ (met s t o).dead ↔ (l ∈ s.dead ∧ joinHorizon s t o ≤ l.hlc ∨
    l ∈ t.dead ∧ joinHorizon s t o ≤ l.hlc) ∨ l ∈ superseded (met s t o) := by
  refine Finset.mem_union.trans (or_congr ?_ Iff.rfl)
  rw [uniteDead, prefilterDead, prefilterDead]

theorem metLives {l} (basic : Basic s) : (met s t o).lives.get l =
    ((prefilter s (joinHorizon s t o)).lives.get l).or ((prefilter t (joinHorizon s t o)).lives.get l) := by
  refine uniteLives.trans ?_
  by_cases dead : l ∈ (prefilter s (joinHorizon s t o)).dead
  · obtain ⟨inside, kept⟩ := prefilterDead.mp dead
    obtain ⟨v, held⟩ := basic.deadKnown l inside
    have found : (prefilter s (joinHorizon s t o)).lives.get l = some v := by
      rw [prefilterLives, held]
      simp [kept]
    simp [found]
  · simp [dead]

theorem metKnown (basic : Basic s) {x y l v} (side : Side s t x y) (held : x.lives.get l = some v)
    (kept : l ∈ x.dead → joinHorizon s t o ≤ l.hlc) : ∃ z, (met s t o).lives.get l = some z := by
  rw [metLives basic]
  have found : (prefilter x (joinHorizon s t o)).lives.get l = some v := by
    rw [prefilterLives, held]
    simpa [imp_iff_not_or] using kept
  cases side with
  | left =>
      rw [found]
      exact ⟨v,rfl⟩
  | right =>
      rw [found]
      cases (prefilter s (joinHorizon s t o)).lives.get l with
      | none => exact ⟨v,rfl⟩
      | some z => exact ⟨z,rfl⟩

theorem metRegs {k} (alive : k.life ∈ metAlive s t o) :
    (met s t o).regs.get k = newer Reg.stamp (s.regs.get k) (t.regs.get k) := by
  have kept := ((metAliveIff s t o).mp alive).2.1
  exact uniteRegs fun dead => kept (Finset.mem_union_left _ dead)

theorem metSlots {k} (alive : k.life ∈ metAlive s t o) :
    (met s t o).slots.get k = newer Slot.stamp (s.slots.get k) (t.slots.get k) := by
  have kept := ((metAliveIff s t o).mp alive).2.1
  exact uniteSlots fun dead => kept (Finset.mem_union_left _ dead)

theorem newerFrom {ν : Type} {stamp : ν → MStamp} {x y : Option ν} {v} (held : newer stamp x y = some v) :
    x = some v ∨ y = some v := by
  cases y with
  | none => exact Or.inl held
  | some b =>
      simp only [newer] at held
      split_ifs at held
      · exact Or.inr held
      · exact Or.inl held

theorem newerCovers {ν : Type} (stamp : ν → MStamp) (x : Option ν) {y : Option ν} {v} (held : x = some v ∨ y = some v) :
    ∃ z, newer stamp x y = some z ∧ stamp v ≤ stamp z := by
  cases y with
  | none => exact ⟨v,by simpa [newer] using held,le_rfl⟩
  | some b =>
      cases x with
      | none => exact ⟨b,rfl,by simp_all⟩
      | some a =>
          by_cases below : stamp a < stamp b
          · refine ⟨b,by simp [newer, below],?_⟩
            rcases held with same | same <;> cases same
            · exact below.le
            · exact le_rfl
          · refine ⟨a,by simp [newer, below],?_⟩
            rcases held with same | same <;> cases same
            · exact le_rfl
            · exact not_lt.mp below

theorem joinedRegs {k r} (held : (join s t o).1.regs.get k = some r) :
    k.life ∈ metAlive s t o ∧ ∃ x y, Side s t x y ∧ x.regs.get k = some r := by
  rw [joinRegs, Option.filter_eq_some_iff, decide_eq_true_eq] at held
  refine ⟨held.2,?_⟩
  rw [metRegs held.2] at held
  rcases newerFrom held.1 with own | other
  · exact ⟨s,t,.left,own⟩
  · exact ⟨t,s,.right,other⟩

theorem joinedSlots {k v} (held : (join s t o).1.slots.get k = some v) :
    k.life ∈ metAlive s t o ∧ ∃ x y, Side s t x y ∧ x.slots.get k = some v := by
  rw [joinSlots, Option.filter_eq_some_iff, decide_eq_true_eq] at held
  refine ⟨held.2,?_⟩
  rw [metSlots held.2] at held
  rcases newerFrom held.1 with own | other
  · exact ⟨s,t,.left,own⟩
  · exact ⟨t,s,.right,other⟩

theorem joinCov {x y st} (side : Side s t x y) (seen : cov x.vv st = true) :
    cov (join s t o).1.vv st = true := by
  rw [covIff] at seen ⊢
  rw [joinVv, uniteCov]
  cases side with
  | left => exact seen.trans (le_max_left _ _)
  | right => exact seen.trans (le_max_right _ _)

theorem joinRecorded {k v} (lost : Losing s t o k v) (kept : joinHorizon s t o ≤ k.stamp.hlc) :
    ∃ x, (join s t o).1.losses.get k = some x := by
  obtain ⟨x, found⟩ := lostNewRecords s t o lost
  rw [joinLosses, if_pos kept, found]
  cases s.losses.get k with
  | some y => exact ⟨y,rfl⟩
  | none =>
      cases t.losses.get k with
      | some y => exact ⟨y,rfl⟩
      | none => exact ⟨x,rfl⟩

theorem joinBasic (basicS : Basic s) (basicT : Basic t) : Basic (join s t o).1 where
  deadKnown l dead := by
    obtain ⟨kept, fate⟩ := (joinDead s t o).mp dead
    have known : ∃ v, (met s t o).lives.get l = some v := by
      rcases fate with inside | ⟨known, _⟩
      · rcases metDead.mp inside with (⟨own, _⟩ | ⟨other, _⟩) | beaten
        · obtain ⟨v, held⟩ := basicS.deadKnown l own
          exact metKnown basicS .left held fun _ => kept
        · obtain ⟨v, held⟩ := basicT.deadKnown l other
          exact metKnown basicS .right held fun _ => kept
        · obtain ⟨⟨v, held, _⟩, _⟩ := memSuperseded.mp beaten
          exact ⟨v,held⟩
      · exact known
    obtain ⟨v, held⟩ := known
    exact ⟨v,joinedLives.mpr ⟨held,Or.inl kept⟩⟩
  covered k r held := by
    obtain ⟨_, x, y, side, source⟩ := joinedRegs held
    refine joinCov side ?_
    cases side with
    | left => exact basicS.covered k r source
    | right => exact basicT.covered k r source

theorem joinedSuperseded {l} (beaten : l ∈ superseded (join s t o).1) :
    l ∈ superseded (met s t o) ∧ joinHorizon s t o ≤ l.hlc := by
  obtain ⟨first, n, firstN, below⟩ := memSuperseded.mp beaten
  have inMet := memSuperseded.mpr ⟨joinedFirst first,n,joinedFirst firstN,below⟩
  obtain ⟨v, held, _⟩ := first
  refine ⟨inMet,(joinedLives.mp held).2.resolve_right fun alive => ?_⟩
  exact ((metAliveIff s t o).mp alive).2.1 (metDead.mpr (Or.inr inMet))

theorem joinedReported {l} (lost : l ∈ reported (join s t o).1 o.retention) :
    l ∈ reported (met s t o) o.retention ∧ joinHorizon s t o ≤ l.hlc := by
  obtain ⟨beaten, spared⟩ := memReported.mp lost
  obtain ⟨inMet, kept⟩ := joinedSuperseded beaten
  obtain ⟨⟨v, held, _⟩, _⟩ := memSuperseded.mp beaten
  refine ⟨memReported.mpr ⟨inMet,fun killed => spared ?_⟩,kept⟩
  rw [killedIffIn held, joinedKilledIn]
  exact (killedIffIn (joinedLives.mp held).1).mp killed

theorem joinedKind {kind l} (is : (join s t o).1.isKind kind l = true) : (met s t o).isKind kind l = true := by
  obtain ⟨v, held, same⟩ := isKindIff.mp is
  exact isKindIff.mpr ⟨v,(joinedLives.mp held).1,same⟩

theorem joinNormal (basicS : Basic s) (basicT : Basic t) : Normal o (join s t o).1 where
  toBasic := joinBasic basicS basicT
  deletesKept d vv held := by
    rw [horizonJoin]
    exact metDeletes ((joinedDeletes d).symm.trans held)
  deadKept l dead := by
    rw [horizonJoin]
    exact ((joinDead s t o).mp dead).1
  lossesKept k v held := by
    rw [horizonJoin]
    rw [joinLosses] at held
    by_contra old
    simp [old] at held
  listed l v held gone := by
    rw [joinAlive] at gone
    obtain ⟨known, kept⟩ := joinedLives.mp held
    exact (joinDead s t o).mpr ⟨kept.resolve_right gone,Or.inr ⟨⟨v,known⟩,gone⟩⟩
  buried l beaten := by
    obtain ⟨inMet, kept⟩ := joinedSuperseded beaten
    exact (joinDead s t o).mpr ⟨kept,Or.inl (metDead.mpr (Or.inr inMet))⟩
  regsAlive k r held := by
    rw [joinAlive]
    exact (joinedRegs held).1
  slotsAlive k v held := by
    rw [joinAlive]
    exact (joinedSlots held).1
  insertsReported l lost := by
    obtain ⟨inMet, kept⟩ := joinedReported lost
    obtain ⟨⟨v, held, _⟩, _⟩ := memSuperseded.mp (memReported.mp inMet).1
    exact joinRecorded (.insert inMet held) kept
  droppedReported k r held soi upsert explicit kept := by
    obtain ⟨i, member, insert⟩ := explicit
    rw [joinAlive] at member
    rw [horizonJoin] at kept
    obtain ⟨alive, x, y, side, source⟩ := joinedRegs held
    have cut : Side (prefilter s (joinHorizon s t o)) (prefilter t (joinHorizon s t o))
        (prefilter x (joinHorizon s t o)) (prefilter y (joinHorizon s t o)) := by
      cases side with
      | left => exact .left
      | right => exact .right
    exact joinRecorded (.dropped (k := k) cut source soi alive (joinedKind upsert) member (joinedKind insert)) kept

end

/-! States contained in a normalised one. -/

section
variable {o : JoinOptions} {c t : State}

theorem underReportedDead (normal : Normal o c) (under : Under o c t) {l}
    (lost : l ∈ reported (met c t o) o.retention) : l ∉ c.alive o := by
  rw [←underAlive normal under, metAliveIff]
  exact fun alive => alive.2.1 (metDead.mpr (Or.inr (memReported.mp lost).1))

/- A cell of `c` itself is never reported by a join that adds nothing. -/
theorem underOwnCell (normal : Normal o c) (under : Under o c t) {l} (alive : l ∈ c.alive o) :
    l ∉ reported (met c t o) o.retention ∧ l ∈ metAlive c t o :=
  ⟨fun lost => underReportedDead normal under lost alive,by rwa [underAlive normal under]⟩

theorem underKind (normal : Normal o c) (under : Under o c t) {kind l} (alive : l ∈ c.alive o) :
    (met c t o).isKind kind l = c.isKind kind l := by
  obtain ⟨v, held⟩ := aliveHeld alive
  rw [isKind, isKind, underHeld normal under held, held]

/- The lives and cells of `t` are all in `c`. -/
theorem joinWithin (normal : Normal o c) (under : Under o c t)
    (lives : ∀ l v, t.lives.get l = some v → ∃ x, c.lives.get l = some x)
    (regs : ∀ k r, t.regs.get k = some r → c.regs.get k = some r)
    (slots : ∀ k v, t.slots.get k = some v → c.slots.get k = some v) : join c t o = (c,∅) := by
  have own (l) : (met c t o).lives.get l = c.lives.get l := by
    rw [underLives normal under]
    cases held : c.lives.get l with
    | some v => rfl
    | none =>
        rw [Option.none_or, prefilterLives, Option.filter_eq_none_iff]
        intro v found
        obtain ⟨x, other⟩ := lives l v found
        rw [held] at other
        cases other
  have first (l) : First (met c t o) l ↔ First c l := by simp only [First, own]
  have cut : prefilter c (joinHorizon c t o) = c := by rw [underHorizon under, prefilterNormal normal]
  refine joinUnder normal under fun k v lost kept => ?_
  rw [Losing, cut] at lost
  have cell {x y a r} (side : Side c (prefilter t (joinHorizon c t o)) x y) (held : x.regs.get a = some r) :
      c.regs.get a = some r := by
    cases side with
    | left => exact held
    | right => exact regs a r held
  have slot {x y a r} (side : Side c (prefilter t (joinHorizon c t o)) x y) (held : x.slots.get a = some r) :
      c.slots.get a = some r := by
    cases side with
    | left => exact held
    | right => exact slots a r held
  cases lost with
  | insert lost held =>
      refine normal.insertsReported _ (memReported.mpr ⟨?_,fun killed => ?_⟩)
      · simpa only [memSuperseded, first] using (memReported.mp lost).1
      · refine (memReported.mp lost).2 ((killedIffIn held).mpr ?_)
        rw [own] at held
        obtain ⟨d, vv, delete, rest⟩ := (killedIffIn held).mp killed
        exact ⟨d,vv,(underDeletes normal under d).trans delete,rest⟩
  | clash side lower higher path aliveA aliveB below unseen unseen' =>
      exfalso
      cases side with
      | left =>
          rw [normal.covered _ _ (regs _ _ higher)] at unseen'
          cases unseen'
      | right =>
          rw [normal.covered _ _ (regs _ _ lower)] at unseen
          cases unseen
  | cellOfInsert side held lost later =>
      exact absurd lost (underOwnCell normal under (normal.regsAlive _ _ (cell side held))).1
  | slotOfInsert side held lost =>
      exact absurd lost (underOwnCell normal under (normal.slotsAlive _ _ (slot side held))).1
  | deadCell side held gone other unseen =>
      exact absurd (underOwnCell normal under (normal.regsAlive _ _ (cell side held))).2 gone
  | deadSlot side held gone other unseen =>
      exact absurd (underOwnCell normal under (normal.slotsAlive _ _ (slot side held))).2 gone
  | dropped side held soi alive upsert member explicit =>
      rw [underAlive normal under] at alive member
      rw [underKind normal under alive] at upsert
      rw [underKind normal under member] at explicit
      exact normal.droppedReported _ _ (cell side held) soi upsert ⟨_,member,explicit⟩ kept

theorem joinSelf (normal : Normal o c) : join c c o = (c,∅) := by
  refine joinWithin normal ?_ (fun _ v held => ⟨v,held⟩) (fun _ _ held => held) fun _ _ held => held
  exact {
    vv := fun _ h held => ⟨h,held,le_rfl⟩
    deletes := fun _ vv held _ => ⟨vv,held⟩
    dead := fun _ dead _ => dead
    lives := fun _ v held _ => Or.inl ⟨v,held⟩
    regs := fun _ r held _ => ⟨r,held,le_rfl⟩
    slots := fun _ v held _ => ⟨v,held,le_rfl⟩
    losses := fun _ v held _ => ⟨v,held⟩ }

theorem joinEmpty (normal : Normal o c) : join c .empty o = (c,∅) := by
  refine joinWithin normal ⟨?_,?_,fun _ dead => by simp [State.empty] at dead,?_,?_,?_,?_⟩ ?_ ?_ ?_
  all_goals
    intro _ _ held
    cases held

end
end Kimmy.Merge
