import Kimmy.Merge.Oracle
import Kimmy.Merge.Convergence

/-!
Which losses a state has on record, as a property of its records and its past. A write that
no later write has seen, and that is not the one shown, has been reported by some join on the
way here.
-/
namespace Kimmy.Merge
open State

def Recorded (losses : SortedMap LossKey LossValue) (p : String) (st : MStamp) : Prop :=
  ∃ kind v, losses.get ⟨kind,p,st⟩ = some v

section
variable (log : Log) (losses : SortedMap LossKey LossValue) (past : Finset MStamp)

/- No register write of the past to the path had seen the write. -/
def Head (p : String) (x : MStamp) : Prop :=
  ∀ y ∈ past, (∃ l r, regAt log y ⟨l,p⟩ = some r) → x ∉ log.ctx y

/- A head below another write of its path in an alive life is on record, and so is a head of a
life that died unseen by every delete. -/
structure Noted : Prop where
  overtaken : ∀ {p x y l n r u}, x ∈ past → y ∈ past → regAt log x ⟨l,p⟩ = some r → regAt log y ⟨n,p⟩ = some u →
    Alive log past l → Alive log past n → Head log past p x → x < y → Recorded losses p x
  buried : ∀ {p x l r}, x ∈ past → regAt log x ⟨l,p⟩ = some r → ¬ Alive log past l →
    (∀ d ∈ past, (∃ vv, deleteAt log d = some vv) → l ∉ log.ctx d) → ¬ (x = l ∧ Superseded log past l) →
    Head log past p x → Recorded losses p x

/- The heads among the suppressed cells are on record. -/
def DroppedNoted : Prop := ∀ ⦃p x l r v i u⦄, x ∈ past → regAt log x ⟨l,p⟩ = some r → r.soi = true →
  Alive log past l → lifeAt log l = some v → v.kind = .upsert → Alive log past i → lifeAt log i = some u →
  u.kind = .insert → Head log past p x → Recorded losses p x

end

theorem headMono {log : Log} {P R : Finset MStamp} {p x} (within : P ⊆ R) (head : Head log R p x) :
    Head log P p x :=
  fun y member => head y (within member)

section
variable {log log' : Log} {losses : SortedMap LossKey LossValue} {past : Finset MStamp}
  (same : ∀ st ∈ past, log' st = log st)
include same

theorem headCongr {p x} (head : Head log' past p x) : Head log past p x := by
  rintro y member ⟨l, r, wrote⟩
  have unseen := head y member ⟨l,r,(regAtCongr same member _).trans wrote⟩
  rwa [Log.ctx, same y member] at unseen

theorem notedCongr (noted : Noted log losses past) : Noted log' losses past where
  overtaken {p x y l n r u} inX inY wroteX wroteY livingX livingY head below := by
    rw [regAtCongr same inX] at wroteX
    rw [regAtCongr same inY] at wroteY
    exact noted.overtaken inX inY wroteX wroteY ((aliveAtCongr same).mp livingX) ((aliveAtCongr same).mp livingY)
      (headCongr same head) below
  buried {p x l r} inX wrote gone unseen own head := by
    rw [regAtCongr same inX] at wrote
    refine noted.buried inX wrote (fun living => gone ((aliveAtCongr same).mpr living)) (fun d member made => ?_)
      (fun found => own ⟨found.1,?_⟩) (headCongr same head)
    · rw [←deleteAtCongr same member] at made
      have outside := unseen d member made
      rwa [Log.ctx, same d member] at outside
    · exact (supersededAtCongr same (found.1 ▸ inX)).mpr found.2

theorem droppedCongr (noted : DroppedNoted log losses past) : DroppedNoted log' losses past := by
  intro p x l r v i u inX wrote soi living born upsert livingI bornI explicit head
  rw [regAtCongr same inX] at wrote
  rw [lifeAtCongr same living.1] at born
  rw [lifeAtCongr same livingI.1] at bornI
  exact noted inX wrote soi ((aliveAtCongr same).mp living) born upsert ((aliveAtCongr same).mp livingI) bornI explicit
    (headCongr same head)

end

/-! What a join records. -/

theorem recordedMore {losses losses' : SortedMap LossKey LossValue} {p st}
    (more : ∀ k v, losses.get k = some v → ∃ u, losses'.get k = some u) (recorded : Recorded losses p st) :
    Recorded losses' p st := by
  obtain ⟨kind, v, held⟩ := recorded
  obtain ⟨u, kept⟩ := more _ v held
  exact ⟨kind,u,kept⟩

theorem notedMore {log : Log} {losses losses' : SortedMap LossKey LossValue} {past}
    (more : ∀ k v, losses.get k = some v → ∃ u, losses'.get k = some u) (noted : Noted log losses past) :
    Noted log losses' past where
  overtaken inX inY wroteX wroteY livingX livingY head below :=
    recordedMore more (noted.overtaken inX inY wroteX wroteY livingX livingY head below)
  buried inX wrote gone unseen own head := recordedMore more (noted.buried inX wrote gone unseen own head)

namespace Joining
variable {log : Log} {o : JoinOptions} {s t : State} {P Q : Finset MStamp} (j : Joining log o s t P Q)
include j

theorem swap : Joining log o t s Q P :=
  ⟨j.ok,j.preT,j.preS,j.closedQ,j.closedP,j.shortQ,j.shortP⟩

theorem lossKnown (k) : (∃ v, (join s t o).1.losses.get k = some v) ↔
    (∃ v, s.losses.get k = some v) ∨ (∃ v, t.losses.get k = some v) ∨
      ∃ v, Lost s t (met s t o) o.retention (metAlive s t o) k v := by
  have losing (v) : Losing s t o k v ↔ Lost s t (met s t o) o.retention (metAlive s t o) k v := by
    rw [Losing, j.horizon, prefilterShort, prefilterShort]
  have new : (∃ v, (newRecords s t o).get k = some v) ↔
      ∃ v, Lost s t (met s t o) o.retention (metAlive s t o) k v := by
    constructor
    · rintro ⟨v, held⟩
      exact ⟨v,(losing v).mp (newRecordsLost s t o held)⟩
    · rintro ⟨v, lost⟩
      exact lostNewRecords s t o ((losing v).mpr lost)
  rw [joinLosses, j.horizon, if_pos (hlcZeroLe _), ←new]
  cases s.losses.get k <;> cases t.losses.get k <;> simp

end Joining

/- One of the two sides of a join, with its past. -/
structure Half (log : Log) (o : JoinOptions) (s t : State) (P Q : Finset MStamp) (a b : State)
    (A B : Finset MStamp) : Prop where
  side : Side s t a b
  joining : Joining log o a b A B
  whole : A ∪ B = P ∪ Q

namespace Half
variable {log : Log} {o : JoinOptions} {s t a b : State} {P Q A B : Finset MStamp}

theorem left (j : Joining log o s t P Q) : Half log o s t P Q s t P Q := ⟨.left,j,rfl⟩

theorem right (j : Joining log o s t P Q) : Half log o s t P Q t s Q P := ⟨.right,j.swap,Finset.union_comm _ _⟩

variable (j : Joining log o s t P Q) (h : Half log o s t P Q a b A B)
include h

theorem within : A ⊆ P ∪ Q := h.whole ▸ Finset.subset_union_left

theorem otherWithin : B ⊆ P ∪ Q := h.whole ▸ Finset.subset_union_right

include j

theorem kept {p x} (recorded : Recorded a.losses p x) : Recorded (join s t o).1.losses p x := by
  refine recordedMore (fun k v held => (j.lossKnown k).mpr ?_) recorded
  cases h.side with
  | left => exact Or.inl ⟨v,held⟩
  | right => exact Or.inr (Or.inl ⟨v,held⟩)

omit h in
theorem lost {kind p x v} (new : Lost s t (met s t o) o.retention (metAlive s t o) ⟨kind,p,x⟩ v) :
    Recorded (join s t o).1.losses p x :=
  ((j.lossKnown _).mpr (Or.inr (Or.inr ⟨v,new⟩))).elim fun u held => ⟨kind,u,held⟩

end Half

/- The cell a state holds for an alive life, at or above a given write to it. -/
theorem heldIn {log : Log} {s : State} {past} (pre : Pre log s past) {p x l r} (member : x ∈ past)
    (wrote : regAt log x ⟨l,p⟩ = some r) (living : Alive log past l) :
    ∃ z u, z ∈ past ∧ regAt log z ⟨l,p⟩ = some u ∧ s.regs.get ⟨l,p⟩ = some u ∧ x ≤ z := by
  obtain ⟨u, newest⟩ := newestExists member wrote
  have ⟨z, inside, wroteZ, top⟩ := newest
  exact ⟨z,u,inside,wroteZ,(pre.regs _ living u).mpr newest,top x member ⟨r,wrote⟩⟩

section
variable {o : JoinOptions} {sys : Sys} (history : History o sys)
include history

theorem uncovered {s past x k r} (pre : Pre sys.log s past) (closed : Closed sys.log past)
    (wrote : regAt sys.log x k = some r) (outside : x ∉ past) : cov s.vv x = false := by
  obtain ⟨e, logged, _⟩ := regAtSome wrote
  exact Bool.eq_false_of_not_eq_true fun covered => outside (coveredPast history pre closed logged covered)

/- The version vector of a delete covers the writes its author had seen. -/
theorem deleteSaw {d vv x e} (made : deleteAt sys.log d = some vv) (logged : sys.log x = some e) (other : x ≠ d) :
    cov vv x = true ↔ x ∈ sys.log.ctx d := by
  have deleted := (deleteAtIff history).mp ⟨vv,made⟩
  obtain ⟨e', logged', kind⟩ := doesLogged deleted
  obtain ⟨s, good, meant⟩ := history.meant d e' logged'
  have same : vv = s.vv.insert d.writer d.hlc := by
    have held := meant.died (of_decide_eq_true kind)
    simp only [deleteAt, logged', Option.bind_some, held, Option.some.injEq] at made
    exact made.symm
  rw [ctxOf logged', covIff, same, SortedMap.getInsert]
  split_ifs with own
  · constructor
    · intro below
      refine history.sequence d e' x e logged' logged own ?_
      rcases eq_or_lt_of_le below with here | lower
      · exact absurd (by cases x; cases d; cases here; cases own; rfl) other
      · exact stampLtHlc lower
    · exact fun member => hlcLeOfLt (history.before d e' logged' x member)
  · rw [←covIff]
    exact ⟨coveredPast history good.toPre (history.ctxClosed d e' logged') logged,preCov good.toPre⟩

variable {s t a b : State} {P Q A B : Finset MStamp} (j : Joining sys.log o s t P Q)
include j

/- Two writes that first meet in this join. -/
theorem clashed (h : Half sys.log o s t P Q a b A B) (noted : Noted sys.log a.losses A) {p x y l n r u}
    (inA : x ∈ A) (inB : y ∈ B) (outB : x ∉ B) (wroteX : regAt sys.log x ⟨l,p⟩ = some r)
    (wroteY : regAt sys.log y ⟨n,p⟩ = some u) (livingX : Alive sys.log (P ∪ Q) l)
    (livingY : Alive sys.log (P ∪ Q) n) (head : Head sys.log (P ∪ Q) p x) (below : x < y) :
    Recorded (join s t o).1.losses p x := by
  have k := h.joining
  have livingA : Alive sys.log A l := aliveMono h.within (regLife k.ok k.closedP inA wroteX) livingX
  have livingB : Alive sys.log B n := aliveMono h.otherWithin (regLife k.ok k.closedQ inB wroteY) livingY
  have headA : Head sys.log A p x := headMono h.within head
  obtain ⟨z, rz, inZ, wroteZ, heldZ, leZ⟩ := heldIn k.preS inA wroteX livingA
  obtain ⟨w, rw', inW, wroteW, heldW, leW⟩ := heldIn k.preT inB wroteY livingB
  rcases eq_or_lt_of_le leZ with rfl | aboveZ
  · by_cases known : w ∈ A
    · have livingW : Alive sys.log A n := aliveMono h.within (regLife k.ok k.closedP known wroteW) livingY
      exact h.kept j (noted.overtaken inA known wroteX wroteW livingA livingW headA (below.trans_le leW))
    · have stampX := regAtStamp wroteZ
      have stampW := regAtStamp wroteW
      have new : Lost s t (met s t o) o.retention (metAlive s t o) ⟨.clash,p,rz.stamp⟩ (.value rz.value) := by
        refine .clash (a := ⟨l,p⟩) (b := ⟨n,p⟩) h.side heldZ heldW rfl (j.alive.mpr livingX) (j.alive.mpr livingY)
          ?_ ?_ ?_
        · rw [stampX, stampW]
          exact below.trans_le leW
        · rw [stampX]
          exact uncovered history k.preT k.closedQ wroteX outB
        · rw [stampW]
          exact uncovered history k.preS k.closedP wroteW known
      rw [stampX] at new
      exact Half.lost j new
  · exact h.kept j (noted.overtaken inA inZ wroteX wroteZ livingA livingA headA aboveZ)

/- A cell of a life that this join buries. -/
theorem buriedNow (h : Half sys.log o s t P Q a b A B) (noted : Noted sys.log a.losses A) {p x l r} (inA : x ∈ A)
    (wrote : regAt sys.log x ⟨l,p⟩ = some r) (gone : ¬ Alive sys.log (P ∪ Q) l)
    (unseen : ∀ d ∈ P ∪ Q, (∃ vv, deleteAt sys.log d = some vv) → l ∉ sys.log.ctx d)
    (own : ¬ (x = l ∧ Superseded sys.log (P ∪ Q) l)) (head : Head sys.log (P ∪ Q) p x) :
    Recorded (join s t o).1.losses p x := by
  have k := h.joining
  have headA : Head sys.log A p x := headMono h.within head
  by_cases livingA : Alive sys.log A l
  · obtain ⟨z, rz, inZ, wroteZ, heldZ, leZ⟩ := heldIn k.preS inA wrote livingA
    rcases eq_or_lt_of_le leZ with rfl | aboveZ
    · have stamp := regAtStamp wroteZ
      by_cases lost : l ∈ reported (met s t o) o.retention
      · have later : x ≠ l := fun same => own ⟨same,(j.beaten.mp (memReported.mp lost).1).2⟩
        have new : Lost s t (met s t o) o.retention (metAlive s t o) ⟨.insertLost,p,rz.stamp⟩ (.value rz.value) :=
          .cellOfInsert (k := ⟨l,p⟩) h.side heldZ lost (stamp ▸ later)
        rw [stamp] at new
        exact Half.lost j new
      · have spared : ¬ SeenByDelete (met s t o) rz.stamp := by
          rintro ⟨d, vv, held, covers⟩
          obtain ⟨inside, made⟩ := (j.deletes d vv).mp held
          obtain ⟨e, logged, _⟩ := regAtSome wrote
          obtain ⟨e', logged', kind⟩ := doesLogged ((deleteAtIff history).mp ⟨vv,made⟩)
          have other : x ≠ d := by
            rintro rfl
            obtain ⟨e'', _, logged'', _, register, _⟩ := regAtMeant history wrote
            cases logged'.symm.trans logged''
            simp [of_decide_eq_true kind, WriteRecord.isReg] at register
          rw [stamp, deleteSaw history made logged other, ctxOf logged'] at covers
          refine unseen d inside ⟨vv,made⟩ ?_
          rw [ctxOf logged']
          exact regLife j.ok (history.ctxClosed d e' logged') covers wrote
        have new : Lost s t (met s t o) o.retention (metAlive s t o) ⟨.deleteWon,p,rz.stamp⟩ (.value rz.value) :=
          .deadCell (k := ⟨l,p⟩) h.side heldZ (fun member => gone (j.alive.mp member)) lost spared
        rw [stamp] at new
        exact Half.lost j new
    · exact h.kept j (noted.overtaken inA inZ wrote wroteZ livingA livingA headA aboveZ)
  · refine h.kept j (noted.buried inA wrote livingA (fun d member => unseen d (h.within member)) ?_ headA)
    rintro ⟨same, first, n, inside, rest⟩
    exact own ⟨same,first,n,h.within inside,rest⟩

theorem joinNoted (left : Noted sys.log s.losses P) (right : Noted sys.log t.losses Q) :
    Noted sys.log (join s t o).1.losses (P ∪ Q) where
  overtaken {p x y l n r u} inX inY wroteX wroteY livingX livingY head below := by
    have within {a b A B} (h : Half sys.log o s t P Q a b A B) (noted : Noted sys.log a.losses A) (inX : x ∈ A)
        (inY : y ∈ A) : Recorded (join s t o).1.losses p x := by
      have k := h.joining
      exact h.kept j (noted.overtaken inX inY wroteX wroteY
        (aliveMono h.within (regLife k.ok k.closedP inX wroteX) livingX)
        (aliveMono h.within (regLife k.ok k.closedP inY wroteY) livingY) (headMono h.within head) below)
    -- the two writes are together on one side, or each is on a side that lacks the other
    rcases Finset.mem_union.mp inX with xP | xQ
    · rcases Finset.mem_union.mp inY with yP | yQ
      · exact within (.left j) left xP yP
      · by_cases xQ : x ∈ Q
        · exact within (.right j) right xQ yQ
        · exact clashed history j (.left j) left xP yQ xQ wroteX wroteY livingX livingY head below
    · rcases Finset.mem_union.mp inY with yP | yQ
      · by_cases xP : x ∈ P
        · exact within (.left j) left xP yP
        · exact clashed history j (.right j) right xQ yP xP wroteX wroteY livingX livingY head below
      · exact within (.right j) right xQ yQ
  buried inX wrote gone unseen own head := by
    rcases Finset.mem_union.mp inX with xP | xQ
    · exact buriedNow history j (.left j) left xP wrote gone unseen own head
    · exact buriedNow history j (.right j) right xQ wrote gone unseen own head

omit history in
theorem joinDropped (left : Noted sys.log s.losses P) (right : Noted sys.log t.losses Q) :
    DroppedNoted sys.log (join s t o).1.losses (P ∪ Q) := by
  intro p x l r v i u inX wrote soi living born upsert livingI bornI explicit head
  have dropped {a b A B} (h : Half sys.log o s t P Q a b A B) (noted : Noted sys.log a.losses A) (inA : x ∈ A) :
      Recorded (join s t o).1.losses p x := by
    have k := h.joining
    have livingA : Alive sys.log A l := aliveMono h.within (regLife k.ok k.closedP inA wrote) living
    obtain ⟨z, rz, inZ, wroteZ, heldZ, leZ⟩ := heldIn k.preS inA wrote livingA
    rcases eq_or_lt_of_le leZ with rfl | aboveZ
    · cases wroteZ.symm.trans wrote
      have kind : (met s t o).isKind .upsert l = true := isKindIff.mpr ⟨v,(j.lives l v).mpr ⟨living.1,born⟩,upsert⟩
      have kindI : (met s t o).isKind .insert i = true :=
        isKindIff.mpr ⟨u,(j.lives i u).mpr ⟨livingI.1,bornI⟩,explicit⟩
      have new : Lost s t (met s t o) o.retention (metAlive s t o) ⟨.insertLost,p,r.stamp⟩ (.value r.value) :=
        .dropped (k := ⟨l,p⟩) h.side heldZ soi (j.alive.mpr living) kind (j.alive.mpr livingI) kindI
      rw [regAtStamp wrote] at new
      exact Half.lost j new
    · exact h.kept j (noted.overtaken inA inZ wrote wroteZ livingA livingA (headMono h.within head) aboveZ)
  rcases Finset.mem_union.mp inX with xP | xQ
  · exact dropped (.left j) left xP
  · exact dropped (.right j) right xQ

end

/-! A local write leaves nothing new to record. -/

section
variable {o : JoinOptions} {sys : Sys} {id : WriterId} {d : Draft} (history : History o sys)
  (framed : Framed (sys.nodes id).writer d) (room : (sys.commit o id d).Retained o)
  (meant : Meant o (sys.nodes id).writer.state d.stamp d.record d.cells d.writer.state)
include history framed room meant

/- A new write is in a life that stays alive. -/
theorem commitAlive {l} (life : d.record.life = some l) (spared : d.record.kind ≠ .delete) :
    Alive (sys.commit o id d).log (insert d.stamp (sys.nodes id).past) l := by
  have later := commitHistory history framed room meant
  have logged : (sys.commit o id d).log d.stamp =
      some ⟨(sys.nodes id).past,d.record,d.cells,d.writer.state⟩ := commitEntry
  have undeleted : deleteAt (sys.commit o id d).log d.stamp = none := by
    refine Option.eq_none_iff_forall_ne_some.mpr fun vv made => spared ?_
    have deleted := (deleteAtIff later).mp ⟨vv,made⟩
    rw [Log.isDelete, doesOf logged] at deleted
    exact of_decide_eq_true deleted
  have agrees := commitAgrees history framed room (nodeClosed history id)
  have older := goodCongr agrees (nodeGood history id)
  rcases meant.target l life with ⟨own, creates⟩ | ⟨living, plain⟩
  · obtain ⟨_, v, born, seen, _⟩ := meant.born creates
    have bornAt : lifeAt (sys.commit o id d).log d.stamp = some v := by simpa [lifeAt, logged] using born
    rw [own]
    refine ⟨Finset.mem_insert_self _ _,⟨v,bornAt,?_⟩,?_⟩
    · rintro ⟨x, member, ⟨vv, made⟩, unseen⟩
      rcases Finset.mem_insert.mp member with rfl | inside
      · rw [undeleted] at made
        cases made
      · exact unseen (seen ▸ SortedMap.memKeys.mpr ⟨vv,(older.deletes x vv).mpr ⟨inside,made⟩⟩)
    · rintro ⟨_, n, member, _, above⟩
      rcases Finset.mem_insert.mp member with rfl | inside
      · exact lt_irrefl _ above
      · exact (commitNewest history framed room inside).not_gt above
  · have unborn : lifeAt (sys.commit o id d).log d.stamp = none := by
      refine Option.eq_none_iff_forall_ne_some.mpr fun v born => ?_
      have creates := (lifeAtCreates later born).1
      rw [doesOf logged, plain] at creates
      cases creates
    obtain ⟨inside, ⟨v, born, spare⟩, unbeaten⟩ := (goodAlive older).mp living
    refine ⟨Finset.mem_insert_of_mem inside,⟨v,born,?_⟩,?_⟩
    · rintro ⟨x, member, ⟨vv, made⟩, unseen⟩
      rcases Finset.mem_insert.mp member with rfl | old
      · rw [undeleted] at made
        cases made
      · exact spare ⟨x,old,⟨vv,made⟩,unseen⟩
    · rintro ⟨first, n, member, ⟨u, bornN, rest⟩, above⟩
      rcases Finset.mem_insert.mp member with rfl | old
      · rw [unborn] at bornN
        cases bornN
      · exact unbeaten ⟨first,n,old,⟨u,bornN,rest⟩,above⟩

/- A life that a new write buries: by its delete, which has seen the life. -/
theorem commitBuries {l} (inside : l ∈ (sys.nodes id).past)
    (living : Alive (sys.commit o id d).log (sys.nodes id).past l)
    (gone : ¬ Alive (sys.commit o id d).log (insert d.stamp (sys.nodes id).past) l) : d.record.kind = .delete := by
  have later := commitHistory history framed room meant
  have agrees := commitAgrees history framed room (nodeClosed history id)
  have older := goodCongr agrees (nodeGood history id)
  have logged : (sys.commit o id d).log d.stamp =
      some ⟨(sys.nodes id).past,d.record,d.cells,d.writer.state⟩ := commitEntry
  by_contra other
  have ⟨_, ⟨v, born, spare⟩, unbeaten⟩ := living
  refine gone ⟨Finset.mem_insert_of_mem inside,⟨v,born,?_⟩,?_⟩
  · rintro ⟨x, member, made, unseen⟩
    rcases Finset.mem_insert.mp member with rfl | old
    · have deleted := (deleteAtIff later).mp made
      rw [Log.isDelete, doesOf logged] at deleted
      exact other (of_decide_eq_true deleted)
    · exact spare ⟨x,old,made,unseen⟩
  · rintro ⟨first, n, member, firstN, above⟩
    rcases Finset.mem_insert.mp member with rfl | old
    · obtain ⟨u, bornN, _⟩ := firstN
      have creates := (lifeAtCreates later bornN).1
      rw [doesOf logged] at creates
      have none := (meant.born creates).1
      have alive := (goodAlive (o := o) older).mpr living
      rw [none] at alive
      exact absurd alive (Finset.notMem_empty _)
    · exact unbeaten ⟨first,n,old,firstN,above⟩

theorem commitNoted (noted : Noted sys.log (sys.nodes id).writer.state.losses (sys.nodes id).past) :
    Noted (sys.commit o id d).log (rawState d).losses (insert d.stamp (sys.nodes id).past) := by
  have agrees := commitAgrees history framed room (nodeClosed history id)
  have closed := closedCongr agrees (nodeClosed history id)
  have ok := commitOk history.general framed (commitRoom history framed room).1
  have within : (sys.nodes id).past ⊆ insert d.stamp (sys.nodes id).past := Finset.subset_insert _ _
  have logged : (sys.commit o id d).log d.stamp =
      some ⟨(sys.nodes id).past,d.record,d.cells,d.writer.state⟩ := commitEntry
  have losses : (rawState d).losses = (sys.nodes id).writer.state.losses := framed.losses
  replace noted := notedCongr agrees noted
  rw [losses]
  refine ⟨fun {p x y l n r u} inX inY wroteX wroteY livingX livingY head below => ?_,
    fun {p x l r} inX wrote gone unseen own head => ?_⟩
  · rcases Finset.mem_insert.mp inY with rfl | oldY
    · have seen : x ∈ (sys.nodes id).past := (Finset.mem_insert.mp inX).resolve_left below.ne
      refine absurd ?_ (head _ inY ⟨n,u,wroteY⟩)
      rwa [ctxOf logged]
    · have oldX : x ∈ (sys.nodes id).past := by
        refine (Finset.mem_insert.mp inX).resolve_left ?_
        rintro rfl
        exact below.not_gt (commitNewest history framed room oldY)
      exact noted.overtaken oldX oldY wroteX wroteY (aliveMono within (regLife ok closed oldX wroteX) livingX)
        (aliveMono within (regLife ok closed oldY wroteY) livingY) (headMono within head) below
  · rcases Finset.mem_insert.mp inX with rfl | oldX
    · obtain ⟨e, _, logged', _, register, life, _⟩ := regAtMeant (commitHistory history framed room meant) wrote
      cases logged.symm.trans logged'
      refine absurd (commitAlive history framed room meant life fun kind => ?_) gone
      simp [WriteRecord.isReg, kind] at register
    · have oldL := regLife ok closed oldX wrote
      by_cases living : Alive (sys.commit o id d).log (sys.nodes id).past l
      · have kind := commitBuries history framed room meant oldL living gone
        refine absurd ?_ (unseen d.stamp (Finset.mem_insert_self _ _) ?_)
        · rwa [ctxOf logged]
        · exact ⟨_,by simpa [deleteAt, logged] using meant.died kind⟩
      · refine noted.buried oldX wrote living (fun x member => unseen x (within member)) ?_ (headMono within head)
        rintro ⟨same, first, n, inside, rest⟩
        exact own ⟨same,first,n,within inside,rest⟩

end

/-! Every state of a run. -/

theorem emptyNoted (log : Log) : Noted log .empty ∅ :=
  ⟨fun member => absurd member (Finset.notMem_empty _),fun member => absurd member (Finset.notMem_empty _)⟩

theorem emptyDropped (log : Log) : DroppedNoted log .empty ∅ :=
  fun _ _ _ _ _ _ _ member => absurd member (Finset.notMem_empty _)

/- What holds of every pooled state holds of a longer log's, and of the one it adds. -/
theorem poolRule {P : Log → SortedMap LossKey LossValue → Finset MStamp → Prop} {sys : Sys} {log : Log} {last}
    (holds : ∀ m ∈ sys.pool, P sys.log m.1.losses m.2)
    (kept : ∀ m ∈ sys.pool, P sys.log m.1.losses m.2 → P log m.1.losses m.2) (new : P log last.1.losses last.2) :
    ∀ m ∈ sys.pool ++ [last], P log m.1.losses m.2 := by
  intro m member
  rcases List.mem_append.mp member with old | added
  · exact kept m old (holds m old)
  · cases List.mem_singleton.mp added
    exact new

theorem runNoted (o : JoinOptions) (actions : List Action) (room : (Sys.run o actions).Retained o) :
    History o (Sys.run o actions) ∧ ∀ m ∈ (Sys.run o actions).pool,
      Noted (Sys.run o actions).log m.1.losses m.2 ∧ DroppedNoted (Sys.run o actions).log m.1.losses m.2 := by
  refine historyRule (P := fun sys => ∀ m ∈ sys.pool, Noted sys.log m.1.losses m.2 ∧ DroppedNoted sys.log m.1.losses m.2)
    ?_ ?_ ?_ ?_ actions room
  · intro m member
    cases List.mem_singleton.mp member
    exact ⟨emptyNoted _,emptyDropped _⟩
  · intro sys id d history holds framed room meant
    refine poolRule (P := fun log losses past => Noted log losses past ∧ DroppedNoted log losses past) holds
      (fun m member noted => ?_) ?_
    · have agrees := commitAgrees history framed room (history.closed m member)
      exact ⟨notedCongr agrees noted.1,droppedCongr agrees noted.2⟩
    · have later := commitHistory history framed room meant
      have raw := commitNoted history framed room meant (holds _ (history.general.pooled id)).1
      have j := commitJoining history framed room meant
      have joined := joinNoted later j raw (emptyNoted _)
      have dropped := joinDropped j raw (emptyNoted _)
      rw [Finset.union_empty] at joined dropped
      exact ⟨joined,dropped⟩
  · intro sys id m history holds member
    have j := poolJoining history (history.general.pooled id) member
    have own := (holds _ (history.general.pooled id)).1
    refine poolRule (P := fun log losses past => Noted log losses past ∧ DroppedNoted log losses past) holds
      (fun _ _ noted => noted) ?_
    exact ⟨joinNoted history j own (holds m member).1,joinDropped j own (holds m member).1⟩
  · intro sys id m key val w history holds member held taken
    obtain ⟨rfl, _, _⟩ := lossTaken taken
    have own := holds _ (history.general.pooled id)
    have more (k v) (found : (sys.nodes id).writer.state.losses.get k = some v) :
        ∃ u, ((sys.nodes id).writer.state.losses.insert key val).get k = some u := by
      rw [SortedMap.getInsert]
      split_ifs
      · exact ⟨val,rfl⟩
      · exact ⟨v,found⟩
    refine poolRule (P := fun log losses past => Noted log losses past ∧ DroppedNoted log losses past) holds
      (fun _ _ noted => noted) ⟨notedMore more own.1,?_⟩
    intro p x l r v i u inX wrote soi living born upsert livingI bornI explicit head
    exact recordedMore more (own.2 inX wrote soi living born upsert livingI bornI explicit head)

namespace Sys

/- The writes of a run that a state covers. -/
def covers (sys : Sys) (s : State) (st : MStamp) : Prop := (∃ e, sys.log st = some e) ∧ cov s.vv st = true

theorem coversIff {o sys m} (history : History o sys) (held : m ∈ sys.pool) {y} : sys.covers m.1 y ↔ y ∈ m.2 := by
  have good := history.good m held
  have closed := history.closed m held
  constructor
  · rintro ⟨⟨e, logged⟩, covers⟩
    exact coveredPast history good.toPre closed logged covers
  · intro member
    exact ⟨(closed.entry y member).imp fun e facts => facts.1,preCov good.toPre member⟩

theorem noSilentLoss (o : JoinOptions) (actions : List Action) (room : (run o actions).Retained o)
    {m} (held : m ∈ (run o actions).pool) {x p l} (covered : (run o actions).covers m.1 x)
    (register : (run o actions).log.writes p x = true) (life : (run o actions).log.life x = some l)
    (lost : (m.1.winner p o).map Reg.stamp ≠ some x)
    (head : ¬ ∃ y, (run o actions).covers m.1 y ∧ (run o actions).log.writes p y = true ∧
      x ∈ (run o actions).log.ctx y)
    (spared : ¬ ∃ d, (run o actions).covers m.1 d ∧ (run o actions).log.isDelete d = true ∧
      l ∈ (run o actions).log.ctx d)
    (kept : ¬ (x = l ∧ (run o actions).log.first l = true ∧
      ∃ n, (run o actions).covers m.1 n ∧ (run o actions).log.first n = true ∧ l < n)) :
    ∃ kind v, m.1.losses.get ⟨kind,p,x⟩ = some v := by
  obtain ⟨history, holds⟩ := runNoted o actions room
  obtain ⟨noted, dropped⟩ := holds m held
  have good := history.good m held
  have known {y} : (run o actions).covers m.1 y ↔ y ∈ m.2 := coversIff history held
  have inX := known.mp covered
  obtain ⟨r, wrote⟩ := (regAtIff history (k := ⟨l,p⟩)).mpr ⟨register,life⟩
  have isHead : Head (run o actions).log m.2 p x := by
    rintro y member ⟨n, u, wroteY⟩ seen
    exact head ⟨y,known.mpr member,((regAtIff history).mp ⟨u,wroteY⟩).1,seen⟩
  by_cases living : Alive (run o actions).log m.2 l
  · obtain ⟨z, u, inZ, wroteZ, heldZ, le⟩ := heldIn good.toPre inX wrote living
    rcases eq_or_lt_of_le le with rfl | above
    · cases wroteZ.symm.trans wrote
      cases hidden : m.1.suppressed l r (m.1.alive o) with
      | true =>
          obtain ⟨kind, soi, i, aliveI, kindI⟩ := suppressedIff.mp hidden
          obtain ⟨v, heldL, upsert⟩ := isKindIff.mp kind
          obtain ⟨w, heldI, explicit⟩ := isKindIff.mp kindI
          exact dropped inX wrote soi living ((good.lives l v).mp heldL).2 upsert ((goodAlive good).mp aliveI)
            ((good.lives i w).mp heldI).2 explicit isHead
      | false =>
          have runs : m.1.candidate p (m.1.alive o) ⟨l,p⟩ r = true :=
            candidateIff.mpr ⟨rfl,(goodAlive good).mpr living,hidden⟩
          cases won : m.1.winnerIn p (m.1.alive o) with
          | none =>
              rw [winnerNone.mp won ⟨l,p⟩ r heldZ] at runs
              cases runs
          | some w =>
              obtain ⟨⟨⟨n, q⟩, heldW, fits⟩, top⟩ := winnerSome won
              have path : q = p := (candidateIff.mp fits).1
              subst path
              have above := top _ r heldZ runs
              rw [regAtStamp wrote] at above
              obtain ⟨inW, wroteW⟩ := good.regsFrom _ w heldW
              refine noted.overtaken inX inW wrote wroteW living (good.regsAlive _ w heldW) isHead
                (lt_of_le_of_ne above fun same => lost ?_)
              rw [winner, won, Option.map_some, ←same]
    · exact noted.overtaken inX inZ wrote wroteZ living living isHead above
  · refine noted.buried inX wrote living (fun d member made seen => spared ?_) (fun found => kept ?_) isHead
    · exact ⟨d,known.mpr member,(deleteAtIff history).mp made,seen⟩
    · obtain ⟨same, first, n, inside, firstN, above⟩ := found
      exact ⟨same,(firstAtIff history).mp first,n,known.mpr inside,(firstAtIff history).mp firstN,above⟩

/- The older of two clashing writes, in the state of the writer that heard of both. -/
theorem noSilentLossClash : (run .default (clashRun ⟨1,0⟩ ⟨2,0⟩)).Retained .default ∧
    ∃ kind v, ((run .default (clashRun ⟨1,0⟩ ⟨2,0⟩)).pool.getD 5 (.empty,∅)).1.losses.get
      ⟨kind,"x",⟨⟨2,0⟩,⟨1,0⟩⟩⟩ = some v := by
  have room : (run .default (clashRun ⟨1,0⟩ ⟨2,0⟩)).Retained .default := by decide +kernel
  have held : (run .default (clashRun ⟨1,0⟩ ⟨2,0⟩)).pool.getD 5 (.empty,∅) ∈
      (run .default (clashRun ⟨1,0⟩ ⟨2,0⟩)).pool := by decide +kernel
  have known {y} := coversIff (y := y) (runHistory _ _ room) held
  refine ⟨room,noSilentLoss .default _ room held (l := ⟨⟨1,0⟩,⟨1,0⟩⟩) (known.mpr ?_) ?_ ?_ ?_ ?_ ?_ ?_⟩
  · decide +kernel
  · decide +kernel
  · decide +kernel
  · decide +kernel
  · rintro ⟨y, covered, wrote, seen⟩
    have none : ∀ y ∈ ((run .default (clashRun ⟨1,0⟩ ⟨2,0⟩)).pool.getD 5 (.empty,∅)).2,
        (run .default (clashRun ⟨1,0⟩ ⟨2,0⟩)).log.writes "x" y = true →
        (⟨⟨2,0⟩,⟨1,0⟩⟩ : MStamp) ∉ (run .default (clashRun ⟨1,0⟩ ⟨2,0⟩)).log.ctx y := by decide +kernel
    exact none y (known.mp covered) wrote seen
  · rintro ⟨d, covered, deleted, _⟩
    have none : ∀ d ∈ ((run .default (clashRun ⟨1,0⟩ ⟨2,0⟩)).pool.getD 5 (.empty,∅)).2,
        (run .default (clashRun ⟨1,0⟩ ⟨2,0⟩)).log.isDelete d = false := by decide +kernel
    rw [none d (known.mp covered)] at deleted
    cases deleted
  · rintro ⟨same, _⟩
    exact absurd same (by decide)

end Sys
end Kimmy.Merge
