import Kimmy.Merge.Losses

/-!
A writer reports each loss record once. With any retention, and even past the end of the
clock, a record it has reported is still in its state or behind its horizon; with a retention
longer than the run's clock it has reported exactly the records it holds.
-/
namespace Kimmy.Merge
open State

/-! At most once. -/

/- Every version-vector entry has the counter of a `tick`. -/
def Plain (s : State) : Prop := ∀ w h, s.vv.get w = some h → h.counter = 0

structure Once (o : JoinOptions) (sys : Sys) : Prop where
  plain : ∀ id, Plain (sys.nodes id).writer.state
  pooled : ∀ m ∈ sys.pool, Plain m.1
  nodup : ∀ id, (sys.nodes id).reported.Nodup
  settled : ∀ id, ∀ k ∈ (sys.nodes id).reported, (∃ v, (sys.nodes id).writer.state.losses.get k = some v) ∨
    k.stamp.hlc < (sys.nodes id).writer.state.horizon o

theorem maxPlain {s : State} (plain : Plain s) : s.maxVv.counter = 0 := by
  rcases maxVvCases s with zero | ⟨w, held⟩
  · rw [zero]
    rfl
  · exact plain w _ held

theorem tickReaches {w : Writer} {skew} (plain : Plain w.state) : w.state.maxVv ≤ w.tick skew := by
  have top := wallMono (le_max_left w.state.maxVv w.clock)
  refine Prod.Lex.toLex_le_toLex.mpr ?_
  have reached : w.state.maxVv.wallMs ≤ (w.tick skew).wallMs := by
    rw [Fin.le_def] at top ⊢
    have bound := w.state.maxVv.wallMs.isLt
    simp only [Writer.tick]
    omega
  rcases eq_or_lt_of_le reached with same | below
  · exact Or.inr ⟨same,by rw [maxPlain plain]; exact Fin.zero_le _⟩
  · exact Or.inl below

theorem joinPlain {s t : State} {o} (left : Plain s) (right : Plain t) : Plain (join s t o).1 := by
  intro w h held
  rw [joinVv, uniteVv] at held
  cases other : t.vv.get w with
  | none =>
      rw [other] at held
      exact left w h held
  | some x =>
      rw [other] at held
      cases held
      rcases max_choice ((s.vv.get w).getD .zero) x with same | same
      · rw [same]
        cases own : s.vv.get w with
        | none => rfl
        | some y => exact left w y own
      · rw [same]
        exact right w x other

theorem lossSettled {s t : State} {o k} (known : (∃ v, s.losses.get k = some v) ∨ k.stamp.hlc < s.horizon o) :
    (∃ v, (join s t o).1.losses.get k = some v) ∨ k.stamp.hlc < (join s t o).1.horizon o := by
  rw [horizonJoin, joinLosses]
  rcases known with ⟨v, held⟩ | behind
  · by_cases kept : joinHorizon s t o ≤ k.stamp.hlc
    · exact Or.inl ⟨v,by rw [if_pos kept, held]; rfl⟩
    · exact Or.inr (not_le.mp kept)
  · exact Or.inr (behind.trans_le (subRetMono (le_max_left _ _) _))

/- A node that takes a new state with what it had reported and some new records. -/
theorem holdOnce {o : JoinOptions} {sys : Sys} {id : WriterId} {node : Node} (once : Once o sys)
    (plain : Plain node.writer.state) (nodup : node.reported.Nodup)
    (settled : ∀ k ∈ node.reported, (∃ v, node.writer.state.losses.get k = some v) ∨
      k.stamp.hlc < node.writer.state.horizon o) : Once o (sys.hold id node) := by
  have own : (sys.hold id node).nodes id = node := Function.update_self _ _ _
  have others {x} (other : x ≠ id) : (sys.hold id node).nodes x = sys.nodes x := Function.update_of_ne other _ _
  refine ⟨fun x => ?_,fun m member => ?_,fun x => ?_,fun x => ?_⟩
  · by_cases here : x = id
    · rwa [here, own]
    · rw [others here]
      exact once.plain x
  · rcases List.mem_append.mp member with old | new
    · exact once.pooled m old
    · cases List.mem_singleton.mp new
      exact plain
  · by_cases here : x = id
    · rwa [here, own]
    · rw [others here]
      exact once.nodup x
  · by_cases here : x = id
    · rwa [here, own]
    · rw [others here]
      exact once.settled x

theorem emptyPlain : Plain .empty := nofun

theorem commitOnce {o : JoinOptions} {sys : Sys} {id d} (once : Once o sys) (framed : Framed (sys.nodes id).writer d) :
    Once o (sys.commit o id d) := by
  obtain ⟨skew, stamp⟩ := framed.stamped
  have reached : (sys.nodes id).writer.state.maxVv ≤ d.stamp.hlc := by
    rw [stamp]
    exact tickReaches (once.plain id)
  have raw : Plain (rawState d) := by
    intro w h held
    rw [rawVv framed] at held
    split_ifs at held
    · cases held
      rw [stamp]
      rfl
    · exact once.plain id w h held
  have above : (sys.nodes id).writer.state.horizon o ≤ (rawState d).horizon o :=
    subRetMono (reached.trans (leMaxVv ((rawVv framed _).trans (if_pos rfl)))) _
  have losses : (rawState d).losses = (sys.nodes id).writer.state.losses := framed.losses
  have held : Once o (sys.hold id ⟨d.finish o,insert d.stamp (sys.nodes id).past,(sys.nodes id).reported⟩) := by
    refine holdOnce once (joinPlain raw emptyPlain) (once.nodup id) fun k member => lossSettled ?_
    rw [losses]
    exact (once.settled id k member).imp_right fun behind => behind.trans_le above
  exact ⟨held.plain,held.pooled,held.nodup,held.settled⟩

theorem receivedOnce {o : JoinOptions} {sys : Sys} {id m} (once : Once o sys) (member : m ∈ sys.pool) :
    Once o (sys.received o id m) := by
  refine holdOnce once (joinPlain (once.plain id) (once.pooled m member)) ?_ fun k reported => ?_
  · refine List.nodup_append'.mpr ⟨once.nodup id,SortedMap.elementsNodup _,?_⟩
    intro k old new
    obtain ⟨⟨v, held⟩, unknown⟩ := (joinFresh _ _ o).mp (SortedMap.memElements.mp new)
    rcases once.settled id k old with ⟨u, known⟩ | behind
    · rw [unknown] at known
      cases known
    · rw [joinLosses] at held
      have cut : ¬ joinHorizon (sys.nodes id).writer.state m.1 o ≤ k.stamp.hlc :=
        not_le.mpr (behind.trans_le (subRetMono (le_max_left _ _) _))
      rw [if_neg cut] at held
      cases held
  · rcases List.mem_append.mp reported with old | new
    · exact lossSettled (once.settled id k old)
    · exact Or.inl ((joinFresh _ _ o).mp (SortedMap.memElements.mp new)).1

theorem recordedOnce {o : JoinOptions} {sys : Sys} {id key val w} (once : Once o sys)
    (taken : (sys.nodes id).writer.receiveLoss o key val = some w) : Once o (sys.recorded id w key) := by
  obtain ⟨rfl, kept, unknown⟩ := lossTaken taken
  have plain : Plain { (sys.nodes id).writer.state with
      losses := (sys.nodes id).writer.state.losses.insert key val } := once.plain id
  refine holdOnce once plain ?_ fun k reported => ?_
  · refine List.nodup_append'.mpr ⟨once.nodup id,List.nodup_singleton _,?_⟩
    intro k old new
    cases List.mem_singleton.mp new
    rcases once.settled id key old with ⟨u, known⟩ | behind
    · rw [unknown] at known
      cases known
    · exact behind.not_ge kept
  · have get : ((sys.nodes id).writer.state.losses.insert key val).get k =
        if k = key then some val else (sys.nodes id).writer.state.losses.get k := SortedMap.getInsert _ _ _ _
    rcases List.mem_append.mp reported with old | new
    · refine (once.settled id k old).imp_left fun known => ?_
      obtain ⟨u, held⟩ := known
      by_cases here : k = key
      · exact ⟨val,get.trans (if_pos here)⟩
      · exact ⟨u,(get.trans (if_neg here)).trans held⟩
    · exact Or.inl ⟨val,get.trans (if_pos (List.mem_singleton.mp new))⟩

theorem runOnce (o : JoinOptions) (actions : List Action) : Once o (Sys.run o actions) := by
  refine Sys.runRule (P := Once o) ?_ ?_ ?_ ?_ ?_ ?_ actions
  · refine ⟨fun _ => emptyPlain,fun m member => ?_,fun _ => List.nodup_nil,fun _ _ => nofun⟩
    cases List.mem_singleton.mp member
    exact emptyPlain
  · exact fun _ _ _ _ _ once accepted => commitOnce once (draftedFramed (draftShape accepted))
  · exact fun _ _ _ _ _ _ _ once accepted => commitOnce once (upsertSoiCreateFramed accepted)
  · exact fun _ _ _ _ _ _ _ _ _ _ _ created accepted => commitOnce created (upsertIncOnFramed accepted)
  · exact fun _ _ _ once member => receivedOnce once member
  · exact fun _ _ _ _ _ _ once _ _ taken => recordedOnce once taken

/-! A local write adds no record. -/

section
variable {log : Log} {o : JoinOptions} {s : State} {past : Finset MStamp}

theorem goodFirst (good : Good log s past) {l} : First s l ↔ l ∈ past ∧ FirstAt log l := by
  simp only [First, FirstAt, good.lives]
  constructor
  · rintro ⟨v, ⟨inside, born⟩, facts⟩
    exact ⟨inside,v,born,facts⟩
  · rintro ⟨inside, v, born, facts⟩
    exact ⟨v,⟨inside,born⟩,facts⟩

/- A superseded life that no delete has struck is one the state reports. -/
theorem goodReported (good : Good log s past) {l v} (inside : l ∈ past) (born : lifeAt log l = some v)
    (beaten : Superseded log past l) (spared : ¬ Struck log past v) : l ∈ reported s o.retention := by
  obtain ⟨first, n, member, rival, below⟩ := beaten
  refine memReported.mpr ⟨memSuperseded.mpr ⟨(goodFirst good).mpr ⟨inside,first⟩,n,
    (goodFirst good).mpr ⟨member,rival⟩,below⟩,?_⟩
  rintro ⟨u, held, d, vv, made, unseen, _⟩
  obtain ⟨_, same⟩ := (good.lives l u).mp held
  cases same.symm.trans born
  obtain ⟨inD, deleted⟩ := (good.deletes d vv).mp made
  exact spared ⟨d,inD,⟨vv,deleted⟩,unseen⟩

end

section
variable {o : JoinOptions} {sys : Sys} {id : WriterId} {d : Draft} (history : History o sys)
  (framed : Framed (sys.nodes id).writer d) (room : (sys.commit o id d).Retained o)
  (meant : Meant o (sys.nodes id).writer.state d.stamp d.record d.cells d.writer.state)
include history framed room meant

/- A cell of the new state is in a life that is still alive, or the write is a delete that had
seen it. -/
theorem commitCell {l st} (source : d.record.life = some l ∧ d.record.kind ≠ .delete ∨
      st ∈ (sys.nodes id).past ∧ l ∈ (sys.nodes id).writer.state.alive o) :
    Alive (sys.commit o id d).log (insert d.stamp (sys.nodes id).past) l ∨
      d.record.kind = .delete ∧ st ∈ (sys.nodes id).past ∧ l ∈ (sys.nodes id).past := by
  rcases source with ⟨life, spared⟩ | ⟨old, living⟩
  · exact Or.inl (commitAlive history framed room meant life spared)
  · have agrees := commitAgrees history framed room (nodeClosed history id)
    have alive := (goodAlive (goodCongr agrees (nodeGood history id))).mp living
    by_cases gone : Alive (sys.commit o id d).log (insert d.stamp (sys.nodes id).past) l
    · exact Or.inl gone
    · exact Or.inr ⟨commitBuries history framed room meant alive.1 alive gone,old,alive.1⟩

theorem commitCells {k r} (held : (rawState d).regs.get k = some r) :
    Alive (sys.commit o id d).log (insert d.stamp (sys.nodes id).past) k.life ∨
      d.record.kind = .delete ∧ r.stamp ∈ (sys.nodes id).past ∧ k.life ∈ (sys.nodes id).past := by
  refine commitCell history framed room meant ?_
  rcases framed.regs k with same | ⟨kind, life, x, found, stamp, _⟩
  · have old : (sys.nodes id).writer.state.regs.get k = some r := same.symm.trans held
    exact Or.inr ⟨((nodeGood history id).regsFrom k r old).1,(nodeNormal history.general id).regsAlive k r old⟩
  · refine Or.inl ⟨life,fun deleted => ?_⟩
    have undeleted := meant.unwrote k fun wrote => by simp [WriteRecord.isReg, deleted] at wrote
    have old : (sys.nodes id).writer.state.regs.get k = some x := undeleted.symm.trans found
    have fresh := (commitRoom history framed room).1
    exact freshReg (nodeFits history.general id) fresh old stamp

theorem commitSlots {k v} (held : (rawState d).slots.get k = some v) :
    Alive (sys.commit o id d).log (insert d.stamp (sys.nodes id).past) k.life ∨
      d.record.kind = .delete ∧ v.stamp ∈ (sys.nodes id).past ∧ k.life ∈ (sys.nodes id).past := by
  refine commitCell history framed room meant ?_
  rcases framed.slots k with same | ⟨kind, life, _⟩
  · have old : (sys.nodes id).writer.state.slots.get k = some v := same.symm.trans held
    exact Or.inr ⟨((nodeGood history id).slotsFrom k v old).1,(nodeNormal history.general id).slotsAlive k v old⟩
  · exact Or.inl ⟨life,by rw [kind]; exact nofun⟩

/- After a delete every older write has been seen by it, and every older life is struck. -/
theorem commitDeleted (deleted : d.record.kind = .delete) {st l} (old : st ∈ (sys.nodes id).past)
    (life : l ∈ (sys.nodes id).past) :
    SeenByDelete (met (rawState d) .empty o) st ∧ l ∉ reported (met (rawState d) .empty o) o.retention := by
  have j := commitJoining history framed room meant
  have later := commitHistory history framed room meant
  have logged : (sys.commit o id d).log d.stamp =
      some ⟨(sys.nodes id).past,d.record,d.cells,d.writer.state⟩ := commitEntry
  obtain ⟨vv, made⟩ := (deleteAtIff later).mpr (by rw [Log.isDelete, doesOf logged]; exact decide_eq_true deleted)
  have member : d.stamp ∈ insert d.stamp (sys.nodes id).past ∪ ∅ := by simp
  have held := (j.deletes d.stamp vv).mpr ⟨member,made⟩
  have agrees := commitAgrees history framed room (nodeClosed history id)
  have closed := closedCongr agrees (nodeClosed history id)
  refine ⟨⟨d.stamp,vv,held,?_⟩,fun lost => ?_⟩
  · obtain ⟨e, entry, _⟩ := closed.entry st old
    have other : st ≠ d.stamp := (commitNewest history framed room old).ne
    refine (deleteSaw later made entry other).mpr ?_
    rwa [ctxOf logged]
  · obtain ⟨beaten, spared⟩ := memReported.mp lost
    obtain ⟨inside, ⟨v, born, _⟩, _⟩ := j.beaten.mp beaten
    refine spared ((j.killed ((j.lives l v).mpr ⟨inside,born⟩)).mpr ⟨d.stamp,member,⟨vv,made⟩,fun seen => ?_⟩)
    rw [(lifeAtCreates later born).2.2] at seen
    obtain ⟨e, entry, _⟩ := closed.entry l life
    have early := (Finset.mem_filter.mp seen).1
    rw [ctxOf entry] at early
    have below := later.before l e entry _ early
    exact below.not_gt (commitNewest history framed room life)

theorem commitKnown {k v} (lost : Lost (rawState d) .empty (met (rawState d) .empty o) o.retention
    (metAlive (rawState d) .empty o) k v) : ∃ u, (sys.nodes id).writer.state.losses.get k = some u := by
  have j := commitJoining history framed room meant
  have later := commitHistory history framed room meant
  have agrees := commitAgrees history framed room (nodeClosed history id)
  have good := goodCongr agrees (nodeGood history id)
  have normal := nodeNormal history.general id
  have whole : insert d.stamp (sys.nodes id).past ∪ ∅ = insert d.stamp (sys.nodes id).past := Finset.union_empty _
  have logged : (sys.commit o id d).log d.stamp =
      some ⟨(sys.nodes id).past,d.record,d.cells,d.writer.state⟩ := commitEntry
  -- a reported life is not an alive one, and a delete leaves none to report
  have unlost {l} (living : Alive (sys.commit o id d).log (insert d.stamp (sys.nodes id).past) l) :
      l ∉ reported (met (rawState d) .empty o) o.retention := fun lost =>
    living.2.2 (whole ▸ (j.beaten.mp (memReported.mp lost).1).2)
  have found {l} (living : Alive (sys.commit o id d).log (insert d.stamp (sys.nodes id).past) l) :
      l ∈ metAlive (rawState d) .empty o := j.alive.mpr (by rwa [whole])
  cases lost with
  | @insert l v lost held =>
      obtain ⟨beaten, spared⟩ := memReported.mp lost
      obtain ⟨inside, born⟩ := (j.lives l v).mp held
      have unstruck : ¬ Struck (sys.commit o id d).log (sys.nodes id).past v := by
        rintro ⟨x, member, made, unseen⟩
        refine spared ((j.killed held).mpr ⟨x,?_,made,unseen⟩)
        exact Finset.mem_union_left _ (Finset.mem_insert_of_mem member)
      obtain ⟨_, first, n, member, rival, below⟩ := j.beaten.mp beaten
      rw [whole] at inside member
      have old : l ∈ (sys.nodes id).past := by
        refine (Finset.mem_insert.mp inside).resolve_left ?_
        rintro rfl
        rcases Finset.mem_insert.mp member with rfl | early
        · exact lt_irrefl _ below
        · exact below.not_gt (commitNewest history framed room early)
      have lostBefore : Superseded (sys.commit o id d).log (sys.nodes id).past l := by
        rcases Finset.mem_insert.mp member with rfl | early
        · obtain ⟨u, bornN, _⟩ := rival
          have creates := (lifeAtCreates later bornN).1
          rw [doesOf logged] at creates
          by_contra unbeaten
          have living := (goodAlive (o := o) good).mpr ⟨old,⟨v,born,unstruck⟩,unbeaten⟩
          rw [(meant.born creates).1] at living
          exact absurd living (Finset.notMem_empty _)
        · exact ⟨first,n,early,rival,below⟩
      exact normal.insertsReported l (goodReported good old born lostBefore unstruck)
  | clash side lower higher =>
      cases side with
      | left => cases higher
      | right => cases lower
  | @cellOfInsert x y c r side held lost later =>
      cases side with
      | right => cases held
      | left =>
          rcases commitCells history framed room meant held with living | ⟨deleted, old, life⟩
          · exact absurd lost (unlost living)
          · exact absurd lost (commitDeleted history framed room meant deleted old life).2
  | @slotOfInsert x y c v side held lost =>
      cases side with
      | right => cases held
      | left =>
          rcases commitSlots history framed room meant held with living | ⟨deleted, old, life⟩
          · exact absurd lost (unlost living)
          · exact absurd lost (commitDeleted history framed room meant deleted old life).2
  | @deadCell x y c r side held gone other unseen =>
      cases side with
      | right => cases held
      | left =>
          rcases commitCells history framed room meant held with living | ⟨deleted, old, life⟩
          · exact absurd (found living) gone
          · exact absurd (commitDeleted history framed room meant deleted old life).1 unseen
  | @deadSlot x y c v side held gone other unseen =>
      cases side with
      | right => cases held
      | left =>
          rcases commitSlots history framed room meant held with living | ⟨deleted, old, life⟩
          · exact absurd (found living) gone
          · exact absurd (commitDeleted history framed room meant deleted old life).1 unseen
  | @dropped x y c r i side held soi alive upsert member explicit =>
      cases side with
      | right => cases held
      | left =>
          obtain ⟨u, heldI, kindI⟩ := isKindIff.mp explicit
          obtain ⟨w, heldL, kindL⟩ := isKindIff.mp upsert
          obtain ⟨insideI, bornI⟩ := (j.lives i u).mp heldI
          obtain ⟨insideL, bornL⟩ := (j.lives _ w).mp heldL
          have livingI := j.alive.mp member
          have livingL := j.alive.mp alive
          rw [whole] at insideI insideL livingI livingL
          -- a creation finds no life alive, so neither life is the new one
          have oldAlive {l} (early : l ∈ (sys.nodes id).past)
              (living : Alive (sys.commit o id d).log (insert d.stamp (sys.nodes id).past) l) :
              l ∈ (sys.nodes id).writer.state.alive o :=
            (goodAlive good).mpr (aliveMono (Finset.subset_insert _ _) early living)
          have uncreated {l} (early : l ∈ (sys.nodes id).past)
              (living : Alive (sys.commit o id d).log (insert d.stamp (sys.nodes id).past) l) :
              d.record.creates = false := by
            refine Bool.eq_false_of_not_eq_true fun creates => ?_
            have alive := oldAlive early living
            rw [(meant.born creates).1] at alive
            exact absurd alive (Finset.notMem_empty _)
          have createdHere {l v} (born : lifeAt (sys.commit o id d).log l = some v) (here : l = d.stamp) :
              d.record.creates = true := by
            subst here
            have creates := (lifeAtCreates later born).1
            rwa [doesOf logged] at creates
          have early : i ∈ (sys.nodes id).past ∧ c.life ∈ (sys.nodes id).past := by
            rcases Finset.mem_insert.mp insideI with newI | oldI
            · rcases Finset.mem_insert.mp insideL with newL | oldL
              · rw [newI, ←newL] at bornI
                cases bornI.symm.trans bornL
                rw [kindI] at kindL
                cases kindL
              · have creates := createdHere bornI newI
                rw [uncreated oldL livingL] at creates
                cases creates
            · rcases Finset.mem_insert.mp insideL with newL | oldL
              · have creates := createdHere bornL newL
                rw [uncreated oldI livingI] at creates
                cases creates
              · exact ⟨oldI,oldL⟩
          have cell : (sys.nodes id).writer.state.regs.get c = some r := by
            rcases framed.regs c with same | ⟨_, _, z, foundZ, stamp, own⟩
            · exact same.symm.trans held
            · cases foundZ.symm.trans held
              have here := own soi
              have member := early.2
              rw [←here] at member
              exact absurd (commitNewest history framed room member) (lt_irrefl _)
          refine normal.droppedReported c r cell soi
            (isKindIff.mpr ⟨w,(good.lives _ w).mpr ⟨early.2,bornL⟩,kindL⟩)
            ⟨i,oldAlive early.1 livingI,isKindIff.mpr ⟨u,(good.lives i u).mpr ⟨early.1,bornI⟩,kindI⟩⟩ ?_
          rw [preHorizon good.toPre (closedShort history (nodeClosed history id))]
          exact hlcZeroLe _

end

/-! Exactly the records held. -/

def Exact (sys : Sys) : Prop := ∀ id k,
  k ∈ (sys.nodes id).reported ↔ ∃ v, (sys.nodes id).writer.state.losses.get k = some v

theorem holdExact {sys : Sys} {id : WriterId} {node : Node} (exactly : Exact sys)
    (own : ∀ k, k ∈ node.reported ↔ ∃ v, node.writer.state.losses.get k = some v) : Exact (sys.hold id node) := by
  intro x k
  by_cases here : x = id
  · have mine : (sys.hold id node).nodes id = node := Function.update_self _ _ _
    rw [here, mine]
    exact own k
  · have other : (sys.hold id node).nodes x = sys.nodes x := Function.update_of_ne here _ _
    rw [other]
    exact exactly x k

theorem runExact (o : JoinOptions) (actions : List Action) (room : (Sys.run o actions).Retained o) :
    Exact (Sys.run o actions) := by
  refine (historyRule (P := Exact) ?_ ?_ ?_ ?_ actions room).2
  · exact fun _ _ => ⟨nofun,fun held => by cases held with | intro v found => cases found⟩
  · intro sys id d history exactly framed room meant
    have losses : (rawState d).losses = (sys.nodes id).writer.state.losses := framed.losses
    suffices held : Exact (sys.hold id ⟨d.finish o,insert d.stamp (sys.nodes id).past,(sys.nodes id).reported⟩) from held
    refine holdExact exactly fun k => (exactly id k).trans ?_
    have known := (commitJoining history framed room meant).lossKnown k
    rw [losses] at known
    refine ⟨fun held => known.mpr (Or.inl held),fun held => ?_⟩
    rcases known.mp held with old | ⟨u, impossible⟩ | ⟨u, lost⟩
    · exact old
    · cases impossible
    · exact commitKnown history framed room meant lost
  · intro sys id m history exactly member
    have j := poolJoining history (history.general.pooled id) member
    refine holdExact exactly fun k => ?_
    rw [List.mem_append, SortedMap.memElements, exactly id k]
    refine ⟨fun found => ?_,fun held => ?_⟩
    · rcases found with old | fresh
      · exact (j.lossKnown k).mpr (Or.inl old)
      · exact ((joinFresh _ _ o).mp fresh).1
    · cases old : (sys.nodes id).writer.state.losses.get k with
      | none => exact Or.inr ((joinFresh _ _ o).mpr ⟨held,old⟩)
      | some v => exact Or.inl ⟨v,rfl⟩
  · intro sys id m key val w history exactly member held taken
    obtain ⟨rfl, _, _⟩ := lossTaken taken
    refine holdExact exactly fun k => ?_
    have get : ((sys.nodes id).writer.state.losses.insert key val).get k =
        if k = key then some val else (sys.nodes id).writer.state.losses.get k := SortedMap.getInsert _ _ _ _
    rw [List.mem_append, List.mem_singleton, exactly id k]
    refine Iff.trans ?_ (exists_congr fun v => Eq.congr_left get.symm)
    by_cases here : k = key
    · simp [here]
    · simp [here]

namespace Sys

theorem reportsOnce (o : JoinOptions) (actions : List Action) :
    (∀ id, ((run o actions).nodes id).reported.Nodup) ∧
    ((run o actions).Retained o → ∀ id k, k ∈ ((run o actions).nodes id).reported ↔
      ∃ v, ((run o actions).nodes id).writer.state.losses.get k = some v) :=
  ⟨(runOnce o actions).nodup,runExact o actions⟩

theorem reportsOnceClash : ((run .default (clashRun ⟨1,0⟩ ⟨2,0⟩)).nodes ⟨2,0⟩).reported ≠ [] ∧
    ∀ k, k ∈ ((run .default (clashRun ⟨1,0⟩ ⟨2,0⟩)).nodes ⟨2,0⟩).reported ↔
      ∃ v, ((run .default (clashRun ⟨1,0⟩ ⟨2,0⟩)).nodes ⟨2,0⟩).writer.state.losses.get k = some v :=
  ⟨by decide +kernel,(reportsOnce .default (clashRun ⟨1,0⟩ ⟨2,0⟩)).2 (by decide +kernel) ⟨2,0⟩⟩

end Sys
end Kimmy.Merge
