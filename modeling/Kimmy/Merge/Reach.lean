import Kimmy.Merge.Content
import Kimmy.Merge.Drafts

/-!
The states a run can reach, for any retention. As long as no clock saturates, every stamp
is used once, so the log says what each stamp wrote; every state of the pool is normalised
and holds only what the log says.
-/
namespace Kimmy.Merge
open State

/-! What the log says of a stamp. -/

def lifeAt (log : Log) (st : MStamp) : Option Life := (log st).bind fun e => e.made.lives.get st

def deleteAt (log : Log) (st : MStamp) : Option Vv := (log st).bind fun e => e.made.deletes.get st

def regAt (log : Log) (st : MStamp) (k : CellKey) : Option Reg :=
  (log st).bind fun e => (e.made.regs.get k).filter fun r => decide (r.stamp = st)

def slotAt (log : Log) (st : MStamp) (k : SlotKey) : Option Slot :=
  (log st).bind fun e => (e.made.slots.get k).filter fun v => decide (v.stamp = st)

def lossAt (log : Log) (k : LossKey) : Option LossValue :=
  match (lifeAt log k.stamp).filter fun v => k.kind = .insertLost && k.path = "_" && v.kind = .insert with
  | some v => some (.fields v.order)
  | none => do
      let e ← log k.stamp
      let l ← e.record.life
      match regAt log k.stamp ⟨l,k.path⟩ with
      | some r => some (.value r.value)
      | none => (slotAt log k.stamp ⟨l,k.path,k.stamp.writer,e.record.generation⟩).map fun v => .total v.total

/- A write creates a life only under its own stamp, and makes either registers or one slot, in
the life it logs. -/
structure EntryOk (st : MStamp) (e : Entry) : Prop where
  life : ∀ v, e.made.lives.get st = some v → e.record.life = some st ∧ (v.kind = .insert → e.record.kind = .insert)
  reg : ∀ k r, e.made.regs.get k = some r → r.stamp = st →
    e.record.kind ≠ .inc ∧ e.record.life = some k.life ∧ (r.soi = true → st = k.life)
  slot : ∀ k v, e.made.slots.get k = some v → v.stamp = st →
    e.record.kind = .inc ∧ e.record.life = some k.life ∧ k.writer = st.writer ∧ k.generation = e.record.generation

abbrev LogOk (log : Log) : Prop := ∀ st e, log st = some e → EntryOk st e

theorem lifeAtSome {log : Log} {st v} (held : lifeAt log st = some v) :
    ∃ e, log st = some e ∧ e.made.lives.get st = some v := Option.bind_eq_some_iff.mp held

theorem regAtSome {log : Log} {st k r} (held : regAt log st k = some r) :
    ∃ e, log st = some e ∧ e.made.regs.get k = some r ∧ r.stamp = st := by
  obtain ⟨e, entry, found⟩ := Option.bind_eq_some_iff.mp held
  rw [Option.filter_eq_some_iff, decide_eq_true_eq] at found
  exact ⟨e,entry,found⟩

theorem slotAtSome {log : Log} {st k v} (held : slotAt log st k = some v) :
    ∃ e, log st = some e ∧ e.made.slots.get k = some v ∧ v.stamp = st := by
  obtain ⟨e, entry, found⟩ := Option.bind_eq_some_iff.mp held
  rw [Option.filter_eq_some_iff, decide_eq_true_eq] at found
  exact ⟨e,entry,found⟩

theorem lossAtReg {log : Log} (ok : LogOk log) {kind st k r} (held : regAt log st k = some r)
    (spare : kind = .insertLost → st = k.life → ∃ v, lifeAt log st = some v ∧ v.kind = .upsert) :
    lossAt log ⟨kind,k.path,st⟩ = some (.value r.value) := by
  obtain ⟨e, entry, made, stamp⟩ := regAtSome held
  obtain ⟨_, life, _⟩ := (ok st e entry).reg k r made stamp
  have other : ((lifeAt log st).filter fun v => kind = .insertLost && k.path = "_" && v.kind = .insert) = none := by
    rw [Option.filter_eq_none_iff]
    intro v born
    simp only [Bool.and_eq_true, decide_eq_true_eq]
    rintro ⟨⟨lost, _⟩, explicit⟩
    obtain ⟨e', entry', created⟩ := lifeAtSome born
    cases entry.symm.trans entry'
    have own := ((ok st e entry).life v created).1
    rw [life] at own
    obtain ⟨x, known, upsert⟩ := spare lost (Option.some.inj own).symm
    rw [born] at known
    cases known
    rw [explicit] at upsert
    cases upsert
  simp [lossAt, other, entry, life, held]

theorem lossAtSlot {log : Log} (ok : LogOk log) {kind st k v} (held : slotAt log st k = some v) :
    lossAt log ⟨kind,k.path,st⟩ = some (.total v.total) := by
  obtain ⟨e, entry, made, stamp⟩ := slotAtSome held
  obtain ⟨inc, life, writer, generation⟩ := (ok st e entry).slot k v made stamp
  have other : ((lifeAt log st).filter fun v => kind = .insertLost && k.path = "_" && v.kind = .insert) = none := by
    rw [Option.filter_eq_none_iff]
    intro x born
    simp only [Bool.and_eq_true, decide_eq_true_eq]
    rintro ⟨_, explicit⟩
    obtain ⟨e', entry', created⟩ := lifeAtSome born
    cases entry.symm.trans entry'
    have kind := ((ok st e entry).life x created).2 explicit
    rw [inc] at kind
    cases kind
  have noReg : regAt log st ⟨k.life,k.path⟩ = none := Option.eq_none_iff_forall_ne_some.mpr fun r found => by
    obtain ⟨e', entry', cell, stamp'⟩ := regAtSome found
    cases entry.symm.trans entry'
    exact ((ok st e entry).reg _ r cell stamp').1 inc
  rcases k with ⟨l, p, w, g⟩
  cases writer
  cases generation
  simp [lossAt, other, entry, life, noReg, held]

def contentOf (log : Log) (ok : LogOk log) : Content where
  life := lifeAt log
  delete := deleteAt log
  reg := regAt log
  slot := slotAt log
  loss := lossAt log
  soiOwn held soi := by
    obtain ⟨e, entry, made, stamp⟩ := regAtSome held
    exact ((ok _ e entry).reg _ _ made stamp).2.2 soi
  lossOfLife held kind := by simp [lossAt, held, kind, Option.filter]
  lossOfReg held spare := lossAtReg ok held spare
  lossOfSlot held := lossAtSlot ok held

/-! A longer log says the same of the stamps it already had. -/

section
variable {log log' : Log} (longer : ∀ st e, log st = some e → log' st = some e)
include longer

theorem lifeAtLonger {st v} (held : lifeAt log st = some v) : lifeAt log' st = some v := by
  obtain ⟨e, entry, found⟩ := Option.bind_eq_some_iff.mp held
  exact Option.bind_eq_some_iff.mpr ⟨e,longer st e entry,found⟩

theorem deleteAtLonger {st v} (held : deleteAt log st = some v) : deleteAt log' st = some v := by
  obtain ⟨e, entry, found⟩ := Option.bind_eq_some_iff.mp held
  exact Option.bind_eq_some_iff.mpr ⟨e,longer st e entry,found⟩

theorem regAtLonger {st k v} (held : regAt log st k = some v) : regAt log' st k = some v := by
  obtain ⟨e, entry, found⟩ := Option.bind_eq_some_iff.mp held
  exact Option.bind_eq_some_iff.mpr ⟨e,longer st e entry,found⟩

theorem slotAtLonger {st k v} (held : slotAt log st k = some v) : slotAt log' st k = some v := by
  obtain ⟨e, entry, found⟩ := Option.bind_eq_some_iff.mp held
  exact Option.bind_eq_some_iff.mpr ⟨e,longer st e entry,found⟩

theorem lossAtLonger {k v} (held : lossAt log k = some v) : lossAt log' k = some v := by
  have same : log' k.stamp = log k.stamp := by
    cases entry : log k.stamp with
    | some e => exact longer k.stamp e entry
    | none => simp [lossAt, lifeAt, entry] at held
  simpa only [lossAt, lifeAt, regAt, slotAt, same] using held

theorem fitsLonger {ok : LogOk log} {ok' : LogOk log'} {s} (fits : Fits (contentOf log ok) s) :
    Fits (contentOf log' ok') s where
  lives held := lifeAtLonger longer (fits.lives held)
  deletes held := deleteAtLonger longer (fits.deletes held)
  regs held := regAtLonger longer (fits.regs held)
  slots held := slotAtLonger longer (fits.slots held)
  losses held := lossAtLonger longer (fits.losses held)

end

/-! Clocks. -/

theorem tickAbove {w : Writer} {skew} (room : (w.tick skew).wallMs.val < 2 ^ 64 - 1) :
    w.state.maxVv < w.tick skew ∧ w.clock < w.tick skew := by
  have above : (max w.state.maxVv w.clock).wallMs < (w.tick skew).wallMs := by
    rw [Fin.lt_def]
    simp only [Writer.tick] at room ⊢
    omega
  have top : max w.state.maxVv w.clock < w.tick skew := Prod.Lex.toLex_lt_toLex.mpr (Or.inl above)
  exact ⟨(le_max_left _ _).trans_lt top,(le_max_right _ _).trans_lt top⟩

theorem wallMono {x y : Hlc} (le : x ≤ y) : x.wallMs ≤ y.wallMs := by
  rcases Prod.Lex.toLex_le_toLex.mp le with below | ⟨same, _⟩
  · exact below.le
  · exact same.le

theorem unsaturatedOf {sys sys' : Sys} (later : sys.clock ≤ sys'.clock) (room : sys'.Unsaturated) :
    sys.Unsaturated :=
  (Fin.le_def.mp (wallMono later)).trans_lt room

theorem retainedOf {sys sys' : Sys} {o} (later : sys.clock ≤ sys'.clock) (room : sys'.Retained o) :
    sys.Retained o :=
  (wallMono later).trans_lt room

theorem retainedUnsaturated {sys : Sys} {o} (retained : sys.Retained o) : sys.Unsaturated := by
  have below : sys.clock.wallMs.val < o.retention.val := retained
  have bound := o.retention.isLt
  unfold Sys.Unsaturated
  omega

/-! The invariant of a run. -/

structure General (o : JoinOptions) (sys : Sys) : Prop where
  ids : ∀ id, (sys.nodes id).writer.id = id
  clocks : ∀ id, (sys.nodes id).writer.clock ≤ sys.clock
  logged : ∀ st e, sys.log st = some e → st.hlc ≤ (sys.nodes st.writer).writer.clock
  pooled : ∀ id, ((sys.nodes id).writer.state,(sys.nodes id).past) ∈ sys.pool
  ok : LogOk sys.log
  fits : ∀ m ∈ sys.pool, Fits (contentOf sys.log ok) m.1
  normal : ∀ m ∈ sys.pool, Normal o m.1

theorem emptyNormal (o : JoinOptions) : Normal o .empty := by
  refine ⟨emptyBasic,?_,fun _ dead => absurd dead (Finset.notMem_empty _),?_,?_,fun _ beaten => ?_,?_,?_,fun _ lost => ?_,?_⟩
  case refine_4 => cases (memSuperseded.mp beaten).1 with | intro v facts => cases facts.1
  case refine_7 => cases (memSuperseded.mp (memReported.mp lost).1).1 with | intro v facts => cases facts.1
  all_goals
    intro _ _ held
    cases held

theorem startGeneral (o : JoinOptions) : General o .init where
  ids _ := rfl
  clocks _ := le_rfl
  logged _ _ := nofun
  pooled _ := List.mem_singleton.mpr rfl
  ok _ _ := nofun
  fits m member := by
    cases List.mem_singleton.mp member
    exact emptyFits _
  normal m member := by
    cases List.mem_singleton.mp member
    exact emptyNormal o

section
variable {o : JoinOptions} {sys : Sys} {id : WriterId} {d : Draft}

theorem nodeFits (general : General o sys) (id) : Fits (contentOf sys.log general.ok) (sys.nodes id).writer.state :=
  general.fits _ (general.pooled id)

theorem nodeNormal (general : General o sys) (id) : Normal o (sys.nodes id).writer.state :=
  general.normal _ (general.pooled id)

theorem framedWriter (general : General o sys) (framed : Framed (sys.nodes id).writer d) : d.stamp.writer = id := by
  obtain ⟨skew, stamp⟩ := framed.stamped
  rw [stamp]
  exact general.ids id

theorem commitClock (framed : Framed (sys.nodes id).writer d) :
    (sys.commit o id d).clock = max sys.clock d.stamp.hlc := by
  rw [←framed.clock]
  rfl

theorem commitAbove (framed : Framed (sys.nodes id).writer d) (room : (sys.commit o id d).Unsaturated) :
    (sys.nodes id).writer.state.maxVv < d.stamp.hlc ∧ (sys.nodes id).writer.clock < d.stamp.hlc := by
  obtain ⟨skew, stamp⟩ := framed.stamped
  have top : d.stamp.hlc ≤ (sys.commit o id d).clock := by
    rw [commitClock framed]
    exact le_max_right _ _
  have inside : d.stamp.hlc.wallMs.val < 2 ^ 64 - 1 := (Fin.le_def.mp (wallMono top)).trans_lt room
  rw [stamp] at inside ⊢
  exact tickAbove inside

/- A new stamp is in no log entry. -/
theorem commitFresh (general : General o sys) (framed : Framed (sys.nodes id).writer d)
    (room : (sys.commit o id d).Unsaturated) : sys.log d.stamp = none :=
  Option.eq_none_iff_forall_ne_some.mpr fun e entry => by
    have old := general.logged d.stamp e entry
    rw [framedWriter general framed] at old
    exact absurd old (not_le.mpr (commitAbove framed room).2)

theorem commitLonger (fresh : sys.log d.stamp = none) :
    ∀ st e, sys.log st = some e → (sys.commit o id d).log st = some e := by
  intro st e entry
  have other : st ≠ d.stamp := fun same => by simp [same, fresh] at entry
  exact (Function.update_of_ne other _ _).trans entry

theorem commitEntry : (sys.commit o id d).log d.stamp =
    some ⟨(sys.nodes id).past,d.record,d.cells,d.writer.state⟩ :=
  Function.update_self _ _ _

/- Nothing a state holds carries a stamp that is not in the log. -/
theorem freshLife {s : State} {log : Log} {ok : LogOk log} (fits : Fits (contentOf log ok) s) {st}
    (fresh : log st = none) : s.lives.get st = none :=
  Option.eq_none_iff_forall_ne_some.mpr fun v held => by
    obtain ⟨e, entry, _⟩ := lifeAtSome (fits.lives held)
    rw [fresh] at entry
    cases entry

theorem freshReg {s : State} {log : Log} {ok : LogOk log} (fits : Fits (contentOf log ok) s) {st k r}
    (fresh : log st = none) (held : s.regs.get k = some r) : r.stamp ≠ st := fun same => by
  obtain ⟨e, entry, _⟩ := regAtSome (fits.regs held)
  rw [same, fresh] at entry
  cases entry

theorem freshSlot {s : State} {log : Log} {ok : LogOk log} (fits : Fits (contentOf log ok) s) {st k v}
    (fresh : log st = none) (held : s.slots.get k = some v) : v.stamp ≠ st := fun same => by
  obtain ⟨e, entry, _⟩ := slotAtSome (fits.slots held)
  rw [same, fresh] at entry
  cases entry

theorem commitOk (general : General o sys) (framed : Framed (sys.nodes id).writer d)
    (fresh : sys.log d.stamp = none) : LogOk (sys.commit o id d).log := by
  intro st e entry
  by_cases here : st = d.stamp
  · subst here
    cases commitEntry.symm.trans entry
    have fits := nodeFits general id
    refine ⟨fun v held => ?_,fun k r held stamp => ?_,fun k v held stamp => ?_⟩
    · rcases framed.lives d.stamp with same | ⟨_, life, x, found, kind⟩
      · rw [same, freshLife fits fresh] at held
        cases held
      · cases held.symm.trans found
        exact ⟨life,kind⟩
    · rcases framed.regs k with same | ⟨kind, life, x, found, _, soi⟩
      · exact absurd stamp (freshReg fits fresh (same.symm.trans held))
      · cases held.symm.trans found
        exact ⟨kind,life,soi⟩
    · rcases framed.slots k with same | ⟨kind, life, writer, generation, _⟩
      · exact absurd stamp (freshSlot fits fresh (same.symm.trans held))
      · exact ⟨kind,life,writer,generation⟩
  · exact general.ok st e ((Function.update_of_ne here _ _).symm.trans entry)

/- The state of a write before it is normalised. -/
abbrev rawState (d : Draft) : State := Writer.covered d.writer.state d.stamp

theorem commitRawFits (general : General o sys) (framed : Framed (sys.nodes id).writer d)
    (fresh : sys.log d.stamp = none) :
    Fits (contentOf (sys.commit o id d).log (commitOk general framed fresh)) (rawState d) := by
  have fits : Fits (contentOf (sys.commit o id d).log (commitOk general framed fresh)) (sys.nodes id).writer.state :=
    fitsLonger (commitLonger fresh) (nodeFits general id)
  refine ⟨fun {l v} held => ?_,fun {x v} held => ?_,fun {k r} held => ?_,fun {k v} held => ?_,fun {k v} held => ?_⟩
  · rcases framed.lives l with same | ⟨rfl, _⟩
    · exact fits.lives (same.symm.trans held)
    · exact Option.bind_eq_some_iff.mpr ⟨_,commitEntry,held⟩
  · rcases framed.deletes x with same | rfl
    · exact fits.deletes (same.symm.trans held)
    · exact Option.bind_eq_some_iff.mpr ⟨_,commitEntry,held⟩
  · rcases framed.regs k with same | ⟨_, _, x, found, stamp, _⟩
    · exact fits.regs (same.symm.trans held)
    · cases found.symm.trans held
      refine Option.bind_eq_some_iff.mpr ⟨_,stamp ▸ commitEntry,?_⟩
      exact Option.filter_eq_some_iff.mpr ⟨held,by simp⟩
  · rcases framed.slots k with same | ⟨_, _, _, _, x, found, stamp⟩
    · exact fits.slots (same.symm.trans held)
    · cases found.symm.trans held
      refine Option.bind_eq_some_iff.mpr ⟨_,stamp ▸ commitEntry,?_⟩
      exact Option.filter_eq_some_iff.mpr ⟨held,by simp⟩
  · exact fits.losses (by rw [←held, ←framed.losses]; rfl)

theorem rawVv (framed : Framed (sys.nodes id).writer d) (w) : (rawState d).vv.get w =
    if w = d.stamp.writer then some d.stamp.hlc else (sys.nodes id).writer.state.vv.get w := by
  rw [framed.vv, SortedMap.getInsert]

theorem rawCov (framed : Framed (sys.nodes id).writer d)
    (above : (sys.nodes id).writer.state.maxVv < d.stamp.hlc) {st}
    (seen : cov (sys.nodes id).writer.state.vv st = true) : cov (rawState d).vv st = true := by
  rw [covIff] at seen ⊢
  rw [rawVv framed]
  split_ifs with own
  · refine seen.trans (le_trans ?_ above.le)
    cases held : (sys.nodes id).writer.state.vv.get st.writer with
    | none => exact hlcZeroLe _
    | some h => exact leMaxVv held
  · exact seen

theorem commitRawBasic (general : General o sys) (framed : Framed (sys.nodes id).writer d)
    (fresh : sys.log d.stamp = none) (above : (sys.nodes id).writer.state.maxVv < d.stamp.hlc) :
    Basic (rawState d) where
  deadKnown l dead := by
    have dead' : l ∈ (sys.nodes id).writer.state.dead := framed.dead ▸ dead
    obtain ⟨v, held⟩ := (nodeNormal general id).deadKnown l dead'
    rcases framed.lives l with same | ⟨rfl, _⟩
    · exact ⟨v,same.trans held⟩
    · rw [freshLife (nodeFits general id) fresh] at held
      cases held
  covered k r held := by
    rcases framed.regs k with same | ⟨_, _, x, found, stamp, _⟩
    · exact rawCov framed above ((nodeNormal general id).covered k r (same.symm.trans held))
    · cases found.symm.trans held
      rw [covIff, rawVv framed, stamp, if_pos rfl]
      exact le_rfl

theorem commitGeneral (general : General o sys) (framed : Framed (sys.nodes id).writer d)
    (room : (sys.commit o id d).Unsaturated) : General o (sys.commit o id d) := by
  have fresh := commitFresh general framed room
  obtain ⟨aboveVv, aboveClock⟩ := commitAbove framed room
  have writer := framedWriter general framed
  have own : (sys.commit o id d).nodes id = ⟨d.finish o,insert d.stamp (sys.nodes id).past,(sys.nodes id).reported⟩ :=
    Function.update_self _ _ _
  have others {x} (other : x ≠ id) : (sys.commit o id d).nodes x = sys.nodes x := Function.update_of_ne other _ _
  refine ⟨fun x => ?_,fun x => ?_,fun st e entry => ?_,fun x => ?_,commitOk general framed fresh,?_,?_⟩
  · by_cases here : x = id
    · rw [here, own]
      exact framed.id.trans (general.ids id)
    · rw [others here]
      exact general.ids x
  · rw [commitClock framed]
    by_cases here : x = id
    · rw [here, own]
      exact framed.clock.le.trans (le_max_right _ _)
    · rw [others here]
      exact (general.clocks x).trans (le_max_left _ _)
  · have moved : (d.finish o).clock = d.stamp.hlc := framed.clock
    by_cases here : st = d.stamp
    · rw [here, writer, own, moved]
    · have old := general.logged st e ((Function.update_of_ne here _ _).symm.trans entry)
      by_cases mine : st.writer = id
      · rw [mine] at old ⊢
        rw [own, moved]
        exact old.trans aboveClock.le
      · rwa [others mine]
  · by_cases here : x = id
    · rw [here, own]
      exact List.mem_append_right _ (List.mem_singleton.mpr rfl)
    · rw [others here]
      exact List.mem_append_left _ (general.pooled x)
  · intro m member
    rcases List.mem_append.mp member with old | new
    · exact fitsLonger (commitLonger fresh) (general.fits m old)
    · cases List.mem_singleton.mp new
      exact joinFits (commitRawFits general framed fresh) (emptyFits _)
  · intro m member
    rcases List.mem_append.mp member with old | new
    · exact general.normal m old
    · cases List.mem_singleton.mp new
      exact joinNormal (commitRawBasic general framed fresh aboveVv) emptyBasic

/- A node that takes a new state under its own identity, with no new write. -/
theorem holdGeneral (general : General o sys) {node : Node} (same : node.writer.id = id)
    (clock : (sys.nodes id).writer.clock ≤ node.writer.clock)
    (fits : Fits (contentOf sys.log general.ok) node.writer.state) (normal : Normal o node.writer.state) :
    General o (sys.hold id node) := by
  have own : (sys.hold id node).nodes id = node := Function.update_self _ _ _
  have others {x} (other : x ≠ id) : (sys.hold id node).nodes x = sys.nodes x := Function.update_of_ne other _ _
  refine ⟨fun x => ?_,fun x => ?_,fun st e entry => ?_,fun x => ?_,general.ok,fun m member => ?_,fun m member => ?_⟩
  · by_cases here : x = id
    · rw [here, own, same]
    · rw [others here]
      exact general.ids x
  · by_cases here : x = id
    · rw [here, own]
      exact le_max_right _ _
    · rw [others here]
      exact (general.clocks x).trans (le_max_left _ _)
  · have old := general.logged st e entry
    by_cases mine : st.writer = id
    · rw [mine] at old ⊢
      rw [own]
      exact old.trans clock
    · rwa [others mine]
  · by_cases here : x = id
    · rw [here, own]
      exact List.mem_append_right _ (List.mem_singleton.mpr rfl)
    · rw [others here]
      exact List.mem_append_left _ (general.pooled x)
  · rcases List.mem_append.mp member with old | new
    · exact general.fits m old
    · cases List.mem_singleton.mp new
      exact fits
  · rcases List.mem_append.mp member with old | new
    · exact general.normal m old
    · cases List.mem_singleton.mp new
      exact normal

theorem receivedGeneral (general : General o sys) {m} (member : m ∈ sys.pool) :
    General o (sys.received o id m) :=
  holdGeneral general (general.ids id) (le_max_right _ _)
    (joinFits (nodeFits general id) (general.fits m member))
    (joinNormal (nodeNormal general id).toBasic (general.normal m member).toBasic)

theorem lossTaken {w w' : Writer} {key val} (taken : w.receiveLoss o key val = some w') :
    w' = { w with state := { w.state with losses := w.state.losses.insert key val } } ∧
      w.state.horizon o ≤ key.stamp.hlc ∧ w.state.losses.get key = none := by
  unfold Writer.receiveLoss at taken
  split_ifs at taken with refused
  obtain ⟨kept, unknown⟩ := not_or.mp refused
  refine ⟨?_,not_lt.mp kept,by simpa using unknown⟩
  split at taken
  · split_ifs at taken
    exact (Option.some.inj taken).symm
  · exact (Option.some.inj taken).symm

theorem recordNormal {s : State} {key val} (normal : Normal o s) (kept : s.horizon o ≤ key.stamp.hlc) :
    Normal o { s with losses := s.losses.insert key val } := by
  have more {k} (known : ∃ v, s.losses.get k = some v) : ∃ v, (s.losses.insert key val).get k = some v := by
    rw [SortedMap.getInsert]
    split_ifs
    · exact ⟨val,rfl⟩
    · exact known
  refine ⟨⟨normal.deadKnown,normal.covered⟩,normal.deletesKept,normal.deadKept,fun k v held => ?_,normal.listed,
    normal.buried,normal.regsAlive,normal.slotsAlive,fun l lost => more (normal.insertsReported l lost),
    fun k r held soi upsert explicit old => more (normal.droppedReported k r held soi upsert explicit old)⟩
  replace held := (SortedMap.getInsert _ _ _ _).symm.trans held
  split_ifs at held with here
  · exact here ▸ kept
  · exact normal.lossesKept k v held

theorem recordFits {c : Content} {s : State} {key val} (fits : Fits c s) (known : c.loss key = some val) :
    Fits c { s with losses := s.losses.insert key val } := by
  refine ⟨fits.lives,fits.deletes,fits.regs,fits.slots,fun {k v} held => ?_⟩
  replace held := (SortedMap.getInsert _ _ _ _).symm.trans held
  split_ifs at held with here
  · cases held
    rw [here]
    exact known
  · exact fits.losses held

theorem recordedGeneral (general : General o sys) {m key val w} (member : m ∈ sys.pool)
    (held : m.1.losses.get key = some val)
    (taken : (sys.nodes id).writer.receiveLoss o key val = some w) : General o (sys.recorded id w key) := by
  obtain ⟨rfl, kept, _⟩ := lossTaken taken
  exact holdGeneral general (general.ids id) le_rfl
    (recordFits (nodeFits general id) ((general.fits m member).losses held))
    (recordNormal (nodeNormal general id) kept)

end

theorem holdClock {sys : Sys} {id node} : sys.clock ≤ (sys.hold id node).clock := le_max_left _ _

theorem commitLater {sys : Sys} {o id d} : sys.clock ≤ (sys.commit o id d).clock := le_max_left _ _

theorem runGeneral (o : JoinOptions) (actions : List Action) (room : (Sys.run o actions).Unsaturated) :
    General o (Sys.run o actions) := by
  have step {sys : Sys} {id d} (holds : sys.Unsaturated → General o sys)
      (framed : Framed (sys.nodes id).writer d) (room : (sys.commit o id d).Unsaturated) :
      General o (sys.commit o id d) :=
    commitGeneral (holds (unsaturatedOf commitLater room)) framed room
  refine Sys.runRule (P := fun sys => sys.Unsaturated → General o sys) (fun _ => startGeneral o) ?_ ?_ ?_ ?_ ?_
    actions room
  · exact fun _ _ _ _ _ holds accepted => step holds (draftedFramed (draftShape accepted))
  · exact fun _ _ _ _ _ _ _ holds accepted => step holds (upsertSoiCreateFramed accepted)
  · exact fun _ _ _ _ _ _ _ _ _ _ _ created accepted => step created (upsertIncOnFramed accepted)
  · exact fun _ _ _ holds member room => receivedGeneral (holds (unsaturatedOf holdClock room)) member
  · exact fun _ _ _ _ _ _ holds member held taken room =>
      recordedGeneral (holds (unsaturatedOf holdClock room)) member held taken

/-! The laws of the join on reachable states. -/

namespace Sys

/- Every state any writer has held. -/
def states (sys : Sys) : List State := sys.pool.map Prod.fst

theorem joinLaws (o : JoinOptions) (actions : List Action) (room : (run o actions).Unsaturated) {a b : State}
    (heldA : a ∈ (run o actions).states) (heldB : b ∈ (run o actions).states) :
    (join a b o).1 = (join b a o).1 ∧
    (∀ k, k ∈ (join a b o).2 ↔ (∃ v, (join a b o).1.losses.get k = some v) ∧ a.losses.get k = none) ∧
    join a a o = (a,∅) ∧ join a .empty o = (a,∅) ∧ (join .empty a o).1 = a ∧
    join (join a b o).1 b o = ((join a b o).1,∅) := by
  have general := runGeneral o actions room
  obtain ⟨m, memberA, rfl⟩ := List.mem_map.mp heldA
  obtain ⟨n, memberB, rfl⟩ := List.mem_map.mp heldB
  have fitA := general.fits m memberA
  have fitB := general.fits n memberB
  have normalA := general.normal m memberA
  have normalB := general.normal n memberB
  refine ⟨joinComm fitA fitB normalA.toBasic normalB.toBasic,fun _ => joinFresh m.1 n.1 o,joinSelf normalA,
    joinEmpty normalA,?_,joinAbsorb fitA fitB normalA.toBasic normalB⟩
  rw [joinComm (emptyFits _) fitA emptyBasic normalA.toBasic, joinEmpty normalA]

/- Two writers set one field, neither having seen the other; then each hears of it. -/
def clashRun (a b : WriterId) : List Action :=
  [.write a (.insert [("x",.int 1)]) 0, .receive b 1, .write a (.set "x" (.int 2)) 0,
    .write b (.set "x" (.int 3)) 0, .receive b 3]

def saturatedRun (a : WriterId) : List Action :=
  [.write a (.insert [("x",.int 1)]) 0xFFFFFFFFFFFFFFFF, .write a (.set "x" (.int 2)) 0]

theorem joinLawsClash : (run .default (clashRun ⟨1,0⟩ ⟨2,0⟩)).Unsaturated ∧
    ∃ a ∈ (run .default (clashRun ⟨1,0⟩ ⟨2,0⟩)).states, ∃ b ∈ (run .default (clashRun ⟨1,0⟩ ⟨2,0⟩)).states,
      (join a b .default).1 ≠ a ∧ (join a b .default).1 = (join b a .default).1 := by
  have room : (run .default (clashRun ⟨1,0⟩ ⟨2,0⟩)).Unsaturated := by decide +kernel
  have third : ((run .default (clashRun ⟨1,0⟩ ⟨2,0⟩)).states.getD 3 .empty) ∈
      (run .default (clashRun ⟨1,0⟩ ⟨2,0⟩)).states := by decide +kernel
  have fourth : ((run .default (clashRun ⟨1,0⟩ ⟨2,0⟩)).states.getD 4 .empty) ∈
      (run .default (clashRun ⟨1,0⟩ ⟨2,0⟩)).states := by decide +kernel
  exact ⟨room,_,third,_,fourth,by decide +kernel,(joinLaws _ _ room third fourth).1⟩

/- What a join reports is relative to its first side, and a clock at its end reuses its stamp. -/
theorem joinOrderMatters :
    (∃ a ∈ (run .default (clashRun ⟨1,0⟩ ⟨2,0⟩)).states, ∃ b ∈ (run .default (clashRun ⟨1,0⟩ ⟨2,0⟩)).states,
      (join a b .default).2 ≠ (join b a .default).2) ∧
    ∃ a ∈ (run .default (saturatedRun ⟨1,0⟩)).states, ∃ b ∈ (run .default (saturatedRun ⟨1,0⟩)).states,
      (join a b .default).1 ≠ (join b a .default).1 := by
  decide +kernel

end Sys
end Kimmy.Merge
