import Kimmy.Merge.Losses

/-!
Every loss record has its evidence in the log: the write it names, and a rival that had not
seen it and that it had not seen. So a run without concurrency has no records.
-/
namespace Kimmy.Merge
open State

def Concurrent (log : Log) (x y : MStamp) : Prop := x ≠ y ∧ x ∉ log.ctx y ∧ y ∉ log.ctx x

/- What a record of each kind rests on; `y` is the rival. -/
inductive Evidence (log : Log) : LossKey → MStamp → Prop where
  | clash {p x y} (wrote : log.writes p x = true) (rival : log.writes p y = true) (below : x < y) :
      Evidence log ⟨.clash,p,x⟩ y
  | document {x y} (first : log.first x = true) (rival : log.first y = true) (below : x < y) :
      Evidence log ⟨.insertLost,"_",x⟩ y
  | inserted {p x l y} (wrote : log.writes p x = true ∨ log.increments p x = true) (life : log.life x = some l)
      (first : log.first l = true) (rival : log.first y = true) (below : l < y) :
      Evidence log ⟨.insertLost,p,x⟩ y
  | soi {p x y} (wrote : log.writes p x = true) (soi : log.does (fun r => decide (p ∈ r.soi)) x = true)
      (rival : log.does WriteRecord.explicit y = true) : Evidence log ⟨.insertLost,p,x⟩ y
  | deleted {p x l y} (wrote : log.writes p x = true ∨ log.increments p x = true) (life : log.life x = some l)
      (rival : log.isDelete y = true) (unseen : y ∉ log.ctx l) : Evidence log ⟨.deleteWon,p,x⟩ y

def Sound (log : Log) (k : LossKey) : Prop := ∃ y, Evidence log k y ∧ Concurrent log k.stamp y

theorem firstCreates {log : Log} {l} (first : log.first l = true) : log.does WriteRecord.creates l = true := by
  simp only [Log.first, Bool.and_eq_true] at first
  obtain ⟨e, logged, explicit⟩ := doesLogged first.1
  rw [doesOf logged]
  exact explicitCreates explicit

/-! What the log of a run says of lives and the writes in them. -/

section
variable {o : JoinOptions} {sys : Sys} (history : History o sys)
include history

theorem slotAtMeant {st k v} (wrote : slotAt sys.log st k = some v) : ∃ e s n, sys.log st = some e ∧
    Good sys.log s e.ctx ∧ e.record.kind = .inc ∧ SlotMeant o s st e.record e.made k.life k.path n ∧
    k = ⟨k.life,k.path,st.writer,e.record.generation⟩ := by
  obtain ⟨e, logged, made, stamp⟩ := slotAtSome wrote
  obtain ⟨s, good, meant⟩ := history.meant st e logged
  have older (held : s.slots.get k = some v) : False := by
    have inside := (good.slotsFrom k v held).1
    rw [stamp] at inside
    exact outsideCtx history logged inside
  by_cases inc : e.record.kind = .inc
  · obtain ⟨l, p, n, slot⟩ := meant.counted inc
    rw [slot.slots] at made
    split_ifs at made with here
    · subst here
      exact ⟨e,s,n,logged,good,inc,slot,rfl⟩
    · exact (older made).elim
  · rw [meant.uncounted inc] at made
    exact (older made).elim

theorem slotAtWrote {st k v} (wrote : slotAt sys.log st k = some v) :
    sys.log.increments k.path st = true ∧ sys.log.life st = some k.life := by
  obtain ⟨e, _, _, logged, _, inc, slot, _⟩ := slotAtMeant history wrote
  rw [Log.increments, doesOf logged, lifeOf logged]
  exact ⟨by simp [inc, slot.paths],slot.life⟩

/- A write is in a life its writer found alive, or in the one it creates. -/
theorem inLife {st l} (life : sys.log.life st = some l) :
    l = st ∨ sys.log.does WriteRecord.creates st = false ∧ Alive sys.log (sys.log.ctx st) l := by
  cases logged : sys.log st with
  | none => simp [Log.life, logged] at life
  | some e =>
      obtain ⟨s, good, meant⟩ := history.meant st e logged
      rw [lifeOf logged] at life
      rw [doesOf logged, ctxOf logged]
      rcases meant.target l life with own | living
      · exact Or.inl own.1
      · exact Or.inr ⟨living.2,(goodAlive good).mp living.1⟩

/- A life is created where none is alive. -/
theorem createdAmongDead {st} (creates : sys.log.does WriteRecord.creates st = true) (l) :
    ¬ Alive sys.log (sys.log.ctx st) l := by
  obtain ⟨e, logged, creates⟩ := doesLogged creates
  obtain ⟨s, good, meant⟩ := history.meant st e logged
  rw [ctxOf logged]
  intro living
  have member := (goodAlive (o := o) good).mpr living
  rw [(meant.born creates).1] at member
  exact absurd member (Finset.notMem_empty _)

/- The creator of a first insert had seen no life at all. -/
theorem firstSawNothing {n l} (first : sys.log.first n = true)
    (creates : sys.log.does WriteRecord.creates l = true) : l ∉ sys.log.ctx n := by
  intro member
  have dead := createdAmongDead history (firstCreates first)
  have none : sys.log.deletes (sys.log.ctx n) = ∅ := by
    simp only [Log.first, Bool.and_eq_true, decide_eq_true_eq] at first
    exact first.2
  have alive {x} (inside : x ∈ sys.log.ctx n) (creates : sys.log.does WriteRecord.creates x = true)
      (top : x ∉ sys.log.superseded (sys.log.ctx n)) : False := by
    refine dead x ((aliveIff history).mpr ?_)
    simp only [Log.alive, Finset.mem_filter, Bool.and_eq_true, decide_eq_true_eq]
    exact ⟨inside,⟨creates,top⟩,none ▸ Finset.empty_subset _⟩
  by_cases beaten : l ∈ sys.log.superseded (sys.log.ctx n)
  · simp only [Log.superseded, Finset.mem_filter, Bool.and_eq_true, decide_eq_true_eq] at beaten
    obtain ⟨_, _, x, inside, firstX, _⟩ := beaten
    -- the newest of the first inserts there is not superseded
    obtain ⟨top, found, bound⟩ := Finset.exists_max_image ((sys.log.ctx n).filter fun y => sys.log.first y) id
      ⟨x,Finset.mem_filter.mpr ⟨inside,firstX⟩⟩
    obtain ⟨insideTop, firstTop⟩ := Finset.mem_filter.mp found
    refine alive insideTop (firstCreates firstTop) fun lost => ?_
    simp only [Log.superseded, Finset.mem_filter, Bool.and_eq_true, decide_eq_true_eq] at lost
    obtain ⟨_, _, y, insideY, firstY, above⟩ := lost
    exact (bound y (Finset.mem_filter.mpr ⟨insideY,firstY⟩)).not_gt above
  · exact alive member creates beaten

theorem supersededConcurrent {x l n} (life : sys.log.life x = some l) (first : sys.log.first l = true)
    (rival : sys.log.first n = true) (below : l < n) : Concurrent sys.log x n := by
  have creates := firstCreates rival
  obtain ⟨e, logged, _⟩ := doesLogged creates
  refine ⟨?_,fun seen => ?_,fun seen => ?_⟩
  · rintro rfl
    rcases inLife history life with same | ⟨plain, _⟩
    · exact below.ne same
    · rw [creates] at plain
      cases plain
  · rw [ctxOf logged] at seen
    cases entry : sys.log x with
    | none => simp [Log.life, entry] at life
    | some e' =>
        rw [lifeOf entry] at life
        have inside := (history.ctxClosed n e logged).life x seen e' l entry life
        refine firstSawNothing history rival (firstCreates first) ?_
        rwa [ctxOf logged]
  · rcases inLife history life with rfl | ⟨_, living⟩
    · obtain ⟨e', logged', _⟩ := doesLogged (firstCreates first)
      rw [ctxOf logged'] at seen
      exact below.not_gt (history.before l e' logged' n seen)
    · exact living.2.2 ⟨(firstAtIff history).mpr first,n,seen,(firstAtIff history).mpr rival,below⟩

theorem killedConcurrent {x l d} (life : sys.log.life x = some l) (deleted : sys.log.isDelete d = true)
    (unseen : d ∉ sys.log.ctx l) (missed : x ∉ sys.log.ctx d) (other : x ≠ d) : Concurrent sys.log x d := by
  refine ⟨other,missed,fun seen => ?_⟩
  rcases inLife history life with rfl | ⟨_, living⟩
  · exact unseen seen
  · obtain ⟨_, ⟨v, born, spared⟩, _⟩ := living
    refine spared ((struckIff history born).mpr ⟨d,?_,unseen⟩)
    exact Finset.mem_filter.mpr ⟨seen,deleted⟩

theorem livesConcurrent {P l i} (closed : Closed sys.log P) (livingL : Alive sys.log P l) (livingI : Alive sys.log P i)
    (createsL : sys.log.does WriteRecord.creates l = true) (createsI : sys.log.does WriteRecord.creates i = true)
    (other : l ≠ i) : Concurrent sys.log l i := by
  have unseen {x y} (livingX : Alive sys.log P x) (livingY : Alive sys.log P y)
      (creates : sys.log.does WriteRecord.creates y = true) : x ∉ sys.log.ctx y := by
    intro seen
    obtain ⟨e, logged, within⟩ := closed.entry y livingY.1
    rw [←ctxOf logged] at within
    exact createdAmongDead history creates x (aliveMono within seen livingX)
  exact ⟨other,unseen livingL livingI createsI,unseen livingI livingL createsL⟩

/-! The records of a join. -/

variable {s t : State} {P Q : Finset MStamp} (j : Joining sys.log o s t P Q)
include j

/- A life that is gone, and not as a reported first insert, was struck by a delete. -/
theorem goneStruck {l} (inside : l ∈ P ∪ Q) (creates : sys.log.does WriteRecord.creates l = true)
    (gone : l ∉ metAlive s t o) (other : l ∉ reported (met s t o) o.retention) :
    ∃ d ∈ P ∪ Q, sys.log.isDelete d = true ∧ d ∉ sys.log.ctx l := by
  obtain ⟨v, born⟩ := createsLifeAt history creates
  have held := (j.lives l v).mpr ⟨inside,born⟩
  have struck : Struck sys.log (P ∪ Q) v := by
    by_contra spared
    refine gone (j.alive.mpr ⟨inside,⟨v,born,spared⟩,fun beaten => other (memReported.mpr ⟨?_,?_⟩)⟩)
    · exact j.beaten.mpr ⟨inside,beaten⟩
    · exact fun killed => spared ((j.killed held).mp killed)
  obtain ⟨d, found, unseen⟩ := (struckIff history born).mp struck
  obtain ⟨member, deleted⟩ := Finset.mem_filter.mp found
  exact ⟨d,member,deleted,unseen⟩

/- A write in a dead life that no delete of the join had seen. -/
theorem deleteWonSound {p x l} (wrote : sys.log.writes p x = true ∨ sys.log.increments p x = true)
    (life : sys.log.life x = some l) (inside : l ∈ P ∪ Q) (gone : l ∉ metAlive s t o)
    (other : l ∉ reported (met s t o) o.retention) (unseen : ¬ SeenByDelete (met s t o) x) :
    Sound sys.log ⟨.deleteWon,p,x⟩ := by
  have creates : sys.log.does WriteRecord.creates l = true := by
    rcases inLife history life with rfl | ⟨_, living⟩
    · cases logged : sys.log l with
      | none => simp [Log.life, logged] at life
      | some e =>
          obtain ⟨s, good, meant⟩ := history.meant l e logged
          rw [lifeOf logged] at life
          rw [doesOf logged]
          rcases meant.target l life with own | ⟨living, _⟩
          · exact own.2
          · exact absurd ((goodAlive good).mp living).1 (outsideCtx history logged)
    · obtain ⟨_, ⟨v, born, _⟩, _⟩ := living
      exact (lifeAtCreates history born).1
  obtain ⟨d, member, deleted, missed⟩ := goneStruck history j inside creates gone other
  obtain ⟨vv, made⟩ := (deleteAtIff history).mpr deleted
  have held := (j.deletes d vv).mpr ⟨member,made⟩
  have notDelete : x ≠ d := by
    rintro rfl
    obtain ⟨e, logged, kind⟩ := doesLogged deleted
    simp only [decide_eq_true_eq] at kind
    rcases wrote with wrote | wrote <;>
      simp [Log.writes, Log.increments, doesOf logged, WriteRecord.isReg, kind] at wrote
  obtain ⟨e, logged⟩ : ∃ e, sys.log x = some e := by
    cases logged : sys.log x with
    | none => simp [Log.life, logged] at life
    | some e => exact ⟨e,rfl⟩
  have out : x ∉ sys.log.ctx d := fun seen => unseen ⟨d,vv,held,(deleteSaw history made logged notDelete).mpr seen⟩
  exact ⟨d,.deleted wrote life deleted missed,killedConcurrent history life deleted missed out notDelete⟩

theorem insertLostSound {p x l} (wrote : sys.log.writes p x = true ∨ sys.log.increments p x = true)
    (life : sys.log.life x = some l) (lost : l ∈ reported (met s t o) o.retention) :
    Sound sys.log ⟨.insertLost,p,x⟩ := by
  obtain ⟨_, first, n, _, rival, below⟩ := j.beaten.mp (memReported.mp lost).1
  rw [firstAtIff history] at first rival
  exact ⟨n,.inserted wrote life first rival below,supersededConcurrent history life first rival below⟩

theorem lostSound {k v} (lost : Lost s t (met s t o) o.retention (metAlive s t o) k v) : Sound sys.log k := by
  have half {x y} (side : Side s t x y) : ∃ A B, Half sys.log o s t P Q x y A B := by
    cases side with
    | left => exact ⟨P,Q,.left j⟩
    | right => exact ⟨Q,P,.right j⟩
  cases lost with
  | @insert l v lost held =>
      obtain ⟨_, first, n, _, rival, below⟩ := j.beaten.mp (memReported.mp lost).1
      rw [firstAtIff history] at first rival
      obtain ⟨e, logged, creates⟩ := doesLogged (firstCreates first)
      obtain ⟨s, good, meant⟩ := history.meant l e logged
      have life : sys.log.life l = some l := by
        obtain ⟨_, v, made, _⟩ := meant.born creates
        rw [lifeOf logged]
        exact ((j.ok l e logged).life v made).1
      exact ⟨n,.document first rival below,supersededConcurrent history life first rival below⟩
  | @clash x y a b ra rb side lower higher path aliveA aliveB below unseen unseen' =>
      obtain ⟨A, B, h⟩ := half side
      obtain ⟨inA, wroteA⟩ := h.joining.preS.regsFrom a ra lower
      obtain ⟨inB, wroteB⟩ := h.joining.preT.regsFrom b rb higher
      have outB : ra.stamp ∉ B := fun member => by
        rw [preCov h.joining.preT member] at unseen
        cases unseen
      have outA : rb.stamp ∉ A := fun member => by
        rw [preCov h.joining.preS member] at unseen'
        cases unseen'
      have writesA := ((regAtIff history).mp ⟨ra,wroteA⟩).1
      have writesB := ((regAtIff history).mp ⟨rb,wroteB⟩).1
      rw [←path] at writesB
      refine ⟨rb.stamp,.clash writesA writesB below,below.ne,fun seen => ?_,fun seen => ?_⟩
      · obtain ⟨e, logged, within⟩ := h.joining.closedQ.entry _ inB
        rw [ctxOf logged] at seen
        exact outB (within seen)
      · obtain ⟨e, logged, within⟩ := h.joining.closedP.entry _ inA
        rw [ctxOf logged] at seen
        exact outA (within seen)
  | @cellOfInsert x y c r side held lost later =>
      obtain ⟨A, B, h⟩ := half side
      obtain ⟨writes, life⟩ := (regAtIff history).mp ⟨r,(h.joining.preS.regsFrom c r held).2⟩
      exact insertLostSound history j (Or.inl writes) life lost
  | @slotOfInsert x y c v side held lost =>
      obtain ⟨A, B, h⟩ := half side
      obtain ⟨increments, life⟩ := slotAtWrote history (h.joining.preS.slotsFrom c v held).2
      exact insertLostSound history j (Or.inr increments) life lost
  | @deadCell x y c r side held gone other unseen =>
      obtain ⟨A, B, h⟩ := half side
      obtain ⟨inA, wrote⟩ := h.joining.preS.regsFrom c r held
      obtain ⟨writes, life⟩ := (regAtIff history).mp ⟨r,wrote⟩
      have inside := h.within (regLife h.joining.ok h.joining.closedP inA wrote)
      exact deleteWonSound history j (Or.inl writes) life inside gone other unseen
  | @deadSlot x y c v side held gone other unseen =>
      obtain ⟨A, B, h⟩ := half side
      obtain ⟨inA, wrote⟩ := h.joining.preS.slotsFrom c v held
      obtain ⟨increments, life⟩ := slotAtWrote history wrote
      have inside := h.within (slotLife h.joining.ok h.joining.closedP inA wrote)
      exact deleteWonSound history j (Or.inr increments) life inside gone other unseen
  | @dropped x y c r i side held soi alive upsert member explicit =>
      obtain ⟨A, B, h⟩ := half side
      have wrote := (h.joining.preS.regsFrom c r held).2
      have writes := ((regAtIff history).mp ⟨r,wrote⟩).1
      obtain ⟨e, _, logged, _, _, _, _, cell⟩ := regAtMeant history wrote
      have tagged : sys.log.does (fun w => decide (c.path ∈ w.soi)) r.stamp = true := by
        rw [doesOf logged]
        exact decide_eq_true (cell.soi.mp soi)
      have own : r.stamp = c.life := by
        obtain ⟨e', logged', made, stamp⟩ := regAtSome wrote
        exact ((j.ok _ e' logged').reg c r made stamp).2.2 soi
      obtain ⟨v, heldL, kindL⟩ := isKindIff.mp upsert
      obtain ⟨u, heldI, kindI⟩ := isKindIff.mp explicit
      have bornL := lifeAtCreates history ((j.lives _ v).mp heldL).2
      have bornI := lifeAtCreates history ((j.lives _ u).mp heldI).2
      have different : c.life ≠ i := by
        rintro rfl
        cases heldL.symm.trans heldI
        rw [kindL] at kindI
        cases kindI
      refine ⟨i,.soi writes tagged (bornI.2.1.mp kindI),?_⟩
      have apart := livesConcurrent history (closedUnion j.closedP j.closedQ) (j.alive.mp alive) (j.alive.mp member)
        bornL.1 bornI.1 different
      rwa [←own] at apart

end

/-! A longer log keeps the evidence. -/

section
variable {o : JoinOptions} {sys : Sys} (history : History o sys) {log : Log}
  (longer : ∀ st e, sys.log st = some e → log st = some e)
include longer

omit history in
theorem doesLonger {test st} (found : sys.log.does test st = true) : log.does test st = true := by
  obtain ⟨e, logged, facts⟩ := doesLogged found
  rw [doesOf (longer st e logged), facts]

omit history in
theorem lifeLonger {st l} (life : sys.log.life st = some l) : log.life st = some l := by
  obtain ⟨e, logged, found⟩ := Option.bind_eq_some_iff.mp life
  rw [lifeOf (longer st e logged), found]

omit history in
theorem ctxLonger {st e} (logged : sys.log st = some e) : log.ctx st = sys.log.ctx st := by
  rw [ctxOf logged, ctxOf (longer st e logged)]

include history

theorem firstLonger {l} (first : sys.log.first l = true) : log.first l = true := by
  simp only [Log.first, Bool.and_eq_true, decide_eq_true_eq] at first ⊢
  obtain ⟨e, logged, _⟩ := doesLogged first.1
  refine ⟨doesLonger longer first.1,?_⟩
  rw [ctxLonger longer logged, Finset.eq_empty_iff_forall_notMem]
  intro d member
  obtain ⟨inside, deleted⟩ := Finset.mem_filter.mp member
  have known := inside
  rw [ctxOf logged] at known
  obtain ⟨e', logged', _⟩ := (history.ctxClosed l e logged).entry d known
  have old : sys.log.isDelete d = true := by
    rw [Log.isDelete, doesOf (longer d e' logged')] at deleted
    rwa [Log.isDelete, doesOf logged']
  have found : d ∈ sys.log.deletes (sys.log.ctx l) := Finset.mem_filter.mpr ⟨inside,old⟩
  rw [first.2] at found
  exact absurd found (Finset.notMem_empty _)

omit longer in
theorem lifeLogged {x l} (life : sys.log.life x = some l) : ∃ e, sys.log l = some e := by
  obtain ⟨e, logged, found⟩ := Option.bind_eq_some_iff.mp life
  have closed := nodeClosed history x.writer
  have inside := closed.life x (history.own x e logged) e l logged found
  exact (closed.entry l inside).imp fun _ facts => facts.1

theorem soundLonger {k} (sound : Sound sys.log k) : Sound log k := by
  obtain ⟨y, evidence, other, missed, unseen⟩ := sound
  have apart {x e e'} (logged : sys.log x = some e) (logged' : sys.log y = some e') (same : k.stamp = x) :
      Concurrent log k.stamp y := by
    refine ⟨other,?_,?_⟩
    · rwa [ctxLonger longer logged']
    · rw [same] at unseen ⊢
      rwa [ctxLonger longer logged]
  have touched {p x} (wrote : sys.log.writes p x = true ∨ sys.log.increments p x = true) :
      log.writes p x = true ∨ log.increments p x = true :=
    wrote.imp (doesLonger longer) (doesLonger longer)
  cases evidence with
  | clash wrote rival below =>
      obtain ⟨e, logged, _⟩ := doesLogged wrote
      obtain ⟨e', logged', _⟩ := doesLogged rival
      exact ⟨y,.clash (doesLonger longer wrote) (doesLonger longer rival) below,apart logged logged' rfl⟩
  | document first rival below =>
      obtain ⟨e, logged, _⟩ := doesLogged (firstCreates first)
      obtain ⟨e', logged', _⟩ := doesLogged (firstCreates rival)
      exact ⟨y,.document (firstLonger history longer first) (firstLonger history longer rival) below,
        apart logged logged' rfl⟩
  | inserted wrote life first rival below =>
      obtain ⟨e, logged, _⟩ := Option.bind_eq_some_iff.mp life
      obtain ⟨e', logged', _⟩ := doesLogged (firstCreates rival)
      exact ⟨y,.inserted (touched wrote) (lifeLonger longer life) (firstLonger history longer first)
        (firstLonger history longer rival) below,apart logged logged' rfl⟩
  | soi wrote soi rival =>
      obtain ⟨e, logged, _⟩ := doesLogged wrote
      obtain ⟨e', logged', _⟩ := doesLogged rival
      exact ⟨y,.soi (doesLonger longer wrote) (doesLonger longer soi) (doesLonger longer rival),
        apart logged logged' rfl⟩
  | @deleted p x l y wrote life rival outside =>
      obtain ⟨e, logged, _⟩ := Option.bind_eq_some_iff.mp life
      obtain ⟨e', logged', _⟩ := doesLogged rival
      obtain ⟨e'', logged''⟩ := lifeLogged history life
      refine ⟨y,.deleted (touched wrote) (lifeLonger longer life) (doesLonger longer rival) ?_,
        apart logged logged' rfl⟩
      rwa [ctxLonger longer logged'']

end

theorem runSound (o : JoinOptions) (actions : List Action) (room : (Sys.run o actions).Retained o) :
    History o (Sys.run o actions) ∧ ∀ m ∈ (Sys.run o actions).pool, ∀ k v, m.1.losses.get k = some v →
      Sound (Sys.run o actions).log k := by
  have joined {sys : Sys} {s t P Q} (history : History o sys) (j : Joining sys.log o s t P Q)
      (left : ∀ k v, s.losses.get k = some v → Sound sys.log k)
      (right : ∀ k v, t.losses.get k = some v → Sound sys.log k) (k v)
      (held : (join s t o).1.losses.get k = some v) : Sound sys.log k := by
    rcases (j.lossKnown k).mp ⟨v,held⟩ with ⟨u, found⟩ | ⟨u, found⟩ | ⟨u, lost⟩
    · exact left k u found
    · exact right k u found
    · exact lostSound history j lost
  refine historyRule (P := fun sys => ∀ m ∈ sys.pool, ∀ k v, m.1.losses.get k = some v → Sound sys.log k)
    ?_ ?_ ?_ ?_ actions room
  · intro m member
    cases List.mem_singleton.mp member
    exact nofun
  · intro sys id d history holds framed room meant
    have longer : ∀ st e, sys.log st = some e → (sys.commit o id d).log st = some e :=
      commitLonger (commitRoom history framed room).1
    refine poolRule (P := fun log losses _ => ∀ k v, losses.get k = some v → Sound log k) holds
      (fun m member sound k v held => soundLonger history longer (sound k v held)) ?_
    refine joined (commitHistory history framed room meant) (commitJoining history framed room meant)
      (fun k v held => ?_) nofun
    have losses : (rawState d).losses = (sys.nodes id).writer.state.losses := framed.losses
    rw [losses] at held
    exact soundLonger history longer (holds _ (history.general.pooled id) k v held)
  · intro sys id m history holds member
    refine poolRule (P := fun log losses _ => ∀ k v, losses.get k = some v → Sound log k) holds
      (fun _ _ sound => sound) ?_
    have sound := joined history (poolJoining history (history.general.pooled id) member)
      (holds _ (history.general.pooled id)) (holds m member)
    exact sound
  · intro sys id m key val w history holds member held taken
    obtain ⟨rfl, _, _⟩ := lossTaken taken
    refine poolRule (P := fun log losses _ => ∀ k v, losses.get k = some v → Sound log k) holds
      (fun _ _ sound => sound) fun k v found => ?_
    replace found := (SortedMap.getInsert _ _ _ _).symm.trans found
    split_ifs at found with here
    · rw [here]
      exact holds m member key val held
    · exact holds _ (history.general.pooled id) k v found

namespace Sys

/- Every two writes of the run are ordered: the author of the later had received the earlier. -/
def Sequential (sys : Sys) : Prop := ∀ x y, (∃ e, sys.log x = some e) → (∃ e, sys.log y = some e) →
  x = y ∨ x ∈ sys.log.ctx y ∨ y ∈ sys.log.ctx x

theorem noFalseLoss (o : JoinOptions) (actions : List Action) (room : (run o actions).Retained o) :
    (∀ s ∈ (run o actions).states, ∀ k v, s.losses.get k = some v →
      ∃ y, Evidence (run o actions).log k y ∧ Concurrent (run o actions).log k.stamp y) ∧
    ((run o actions).Sequential → ∀ s ∈ (run o actions).states, s.losses = .empty) := by
  obtain ⟨history, sound⟩ := runSound o actions room
  have evidence (s) (held : s ∈ (run o actions).states) (k v) (found : s.losses.get k = some v) :
      Sound (run o actions).log k := by
    obtain ⟨m, member, rfl⟩ := List.mem_map.mp held
    exact sound m member k v found
  refine ⟨evidence,fun sequential s held => SortedMap.ext fun k => ?_⟩
  refine Option.eq_none_iff_forall_ne_some.mpr fun v found => ?_
  obtain ⟨y, evidence, other, missed, unseen⟩ := evidence s held k v found
  have logged : (∃ e, (run o actions).log k.stamp = some e) ∧ ∃ e, (run o actions).log y = some e := by
    have known {test st} (does : (run o actions).log.does test st = true) : ∃ e, (run o actions).log st = some e :=
      (doesLogged does).imp fun _ facts => facts.1
    cases evidence with
    | clash wrote rival => exact ⟨known wrote,known rival⟩
    | document first rival => exact ⟨known (firstCreates first),known (firstCreates rival)⟩
    | inserted wrote _ _ rival => exact ⟨wrote.elim known known,known (firstCreates rival)⟩
    | soi wrote _ rival => exact ⟨known wrote,known rival⟩
    | deleted wrote _ rival => exact ⟨wrote.elim known known,known rival⟩
  rcases sequential _ _ logged.1 logged.2 with same | seen | seen
  · exact other same
  · exact missed seen
  · exact unseen seen

theorem noFalseLossClash : (run .default (clashRun ⟨1,0⟩ ⟨2,0⟩)).Retained .default ∧
    ∃ s ∈ (run .default (clashRun ⟨1,0⟩ ⟨2,0⟩)).states, s.losses ≠ .empty ∧ ∃ y,
      Evidence (run .default (clashRun ⟨1,0⟩ ⟨2,0⟩)).log ⟨.clash,"x",⟨⟨2,0⟩,⟨1,0⟩⟩⟩ y ∧
      Concurrent (run .default (clashRun ⟨1,0⟩ ⟨2,0⟩)).log ⟨⟨2,0⟩,⟨1,0⟩⟩ y := by
  have room : (run .default (clashRun ⟨1,0⟩ ⟨2,0⟩)).Retained .default := by decide +kernel
  have held : (run .default (clashRun ⟨1,0⟩ ⟨2,0⟩)).states.getD 5 .empty ∈
      (run .default (clashRun ⟨1,0⟩ ⟨2,0⟩)).states := by decide +kernel
  exact ⟨room,_,held,by decide +kernel,
    (noFalseLoss _ _ room).1 _ held ⟨.clash,"x",⟨⟨2,0⟩,⟨1,0⟩⟩⟩ (.value (.int 2)) (by decide +kernel)⟩

/- An insert, and an upsert that sets the same field on insert and has the higher stamp: the
upsert's cell is dropped, and the insert's is both shown and on record as the lower one. -/
theorem recordNamesWinner : ∃ actions, (run .default actions).Retained .default ∧
    ∃ s ∈ (run .default actions).states, ∃ k v, s.losses.get k = some v ∧
      (s.winner k.path .default).map Reg.stamp = some k.stamp ∧ (s.value k.path .default).map .value = some v :=
  ⟨[.write ⟨1,0⟩ (.insert [("y",.int 7)]) 0, .upsertSoi ⟨2,0⟩ [("y",.int 8)] "n" 1 [] 4, .receive ⟨2,0⟩ 1],
    by decide +kernel,_,List.mem_of_getElem? (i := 4) rfl,⟨.clash,"y",⟨⟨1,0⟩,⟨1,0⟩⟩⟩,.value (.int 7),
    by decide +kernel,by decide +kernel,by decide +kernel⟩

end Sys
end Kimmy.Merge
