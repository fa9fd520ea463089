import Kimmy.Merge.History

/-!
The causal log read by itself: the causal past and the record of each write, nothing of the
state it was made in. Along a run below its retention the lives, deletes, registers and slots
a state was built from are the ones the records of its past name.
-/
namespace Kimmy.Merge
open State

namespace Log
variable (log : Log)

/- The causal past of a write; what its record says; the life it is in. -/
def ctx (st : MStamp) : Finset MStamp := ((log st).map Entry.ctx).getD ∅

def does (test : WriteRecord → Bool) (st : MStamp) : Bool := (log st).any fun e => test e.record

def life (st : MStamp) : Option MStamp := (log st).bind fun e => e.record.life

def isDelete (st : MStamp) : Bool := log.does (fun r => r.kind = .delete) st

def deletes (past : Finset MStamp) : Finset MStamp := past.filter fun d => log.isDelete d

/- A first insert: explicit, by a creator that had seen no delete. -/
def first (st : MStamp) : Bool := log.does WriteRecord.explicit st && decide (log.deletes (log.ctx st) = ∅)

/- Of the first inserts, all but the newest. -/
def superseded (past : Finset MStamp) : Finset MStamp :=
  past.filter fun l => log.first l && decide (∃ n ∈ past, log.first n = true ∧ l < n)

/- The lives of a past: their creators had seen every delete of it. -/
def alive (past : Finset MStamp) : Finset MStamp :=
  past.filter fun l => log.does WriteRecord.creates l && decide (l ∉ log.superseded past) &&
    decide (log.deletes past ⊆ log.ctx l)

/- A register write to a path, and an increment of it. -/
def writes (p : String) (st : MStamp) : Bool := log.does (fun r => r.isReg && decide (p ∈ r.paths)) st

def increments (p : String) (st : MStamp) : Bool :=
  log.does (fun r => decide (r.kind = .inc) && decide (p ∈ r.paths)) st

end Log

section
variable {log : Log} {st : MStamp} {e : Entry} (logged : log st = some e)
include logged

theorem ctxOf : log.ctx st = e.ctx := by simp [Log.ctx, logged]

theorem doesOf (test : WriteRecord → Bool) : log.does test st = test e.record := by simp [Log.does, logged]

theorem lifeOf : log.life st = e.record.life := by simp [Log.life, logged]

end

theorem doesLogged {log : Log} {test st} (found : log.does test st = true) :
    ∃ e, log st = some e ∧ test e.record = true := by
  simpa [Log.does, Option.any_eq_true] using found

theorem explicitCreates {r : WriteRecord} (explicit : r.explicit = true) : r.creates = true := by
  simp only [WriteRecord.explicit, WriteRecord.creates, Bool.and_eq_true, Bool.or_eq_true] at explicit ⊢
  exact Or.inl explicit.1

section
variable {o : JoinOptions} {sys : Sys} (history : History o sys)
include history

/- A state of the causal past holds nothing with the write's own stamp. -/
theorem outsideCtx {st e} (logged : sys.log st = some e) : st ∉ e.ctx :=
  fun member => lt_irrefl st (history.before st e logged st member)

theorem deleteAtIff {d} : (∃ vv, deleteAt sys.log d = some vv) ↔ sys.log.isDelete d = true := by
  cases logged : sys.log d with
  | none => simp [deleteAt, Log.isDelete, Log.does, logged]
  | some e =>
      obtain ⟨s, good, meant⟩ := history.meant d e logged
      rw [Log.isDelete, doesOf logged, decide_eq_true_eq]
      constructor
      · rintro ⟨vv, made⟩
        by_contra other
        have held : e.made.deletes.get d = some vv := by simpa [deleteAt, logged] using made
        rw [meant.undied other] at held
        exact outsideCtx history logged ((good.deletes d vv).mp held).1
      · exact fun kind => ⟨_,by simpa [deleteAt, logged] using meant.died kind⟩

theorem lifeAtCreates {l v} (born : lifeAt sys.log l = some v) : sys.log.does WriteRecord.creates l = true ∧
    (v.kind = .insert ↔ sys.log.does WriteRecord.explicit l = true) ∧ v.seen = sys.log.deletes (sys.log.ctx l) := by
  obtain ⟨e, logged, made⟩ := lifeAtSome born
  obtain ⟨s, good, meant⟩ := history.meant l e logged
  have creates : e.record.creates = true := by
    by_contra other
    rw [meant.unborn (Bool.eq_false_of_not_eq_true other)] at made
    exact outsideCtx history logged ((good.lives l v).mp made).1
  obtain ⟨_, x, held, seen, kind⟩ := meant.born creates
  cases held.symm.trans made
  rw [doesOf logged, doesOf logged, ctxOf logged]
  refine ⟨creates,kind,?_⟩
  ext d
  rw [seen, SortedMap.memKeys, Log.deletes, Finset.mem_filter, ←deleteAtIff history]
  simp only [good.deletes, exists_and_left]

theorem createsLifeAt {l} (creates : sys.log.does WriteRecord.creates l = true) : ∃ v, lifeAt sys.log l = some v := by
  obtain ⟨e, logged, creates⟩ := doesLogged creates
  obtain ⟨s, good, meant⟩ := history.meant l e logged
  obtain ⟨_, v, held, _⟩ := meant.born creates
  exact ⟨v,by simpa [lifeAt, logged] using held⟩

theorem firstAtIff {l} : FirstAt sys.log l ↔ sys.log.first l = true := by
  rw [Log.first, Bool.and_eq_true, decide_eq_true_eq]
  constructor
  · rintro ⟨v, born, kind, seen⟩
    obtain ⟨_, explicit, deletes⟩ := lifeAtCreates history born
    exact ⟨explicit.mp kind,deletes ▸ seen⟩
  · rintro ⟨explicit, empty⟩
    obtain ⟨e, logged, facts⟩ := doesLogged explicit
    obtain ⟨v, born⟩ := createsLifeAt history ((doesOf logged _).trans (explicitCreates facts))
    obtain ⟨_, kind, deletes⟩ := lifeAtCreates history born
    exact ⟨v,born,kind.mpr explicit,deletes.trans empty⟩

theorem supersededIff {past l} : l ∈ past ∧ Superseded sys.log past l ↔ l ∈ sys.log.superseded past := by
  simp only [Superseded, Log.superseded, Finset.mem_filter, Bool.and_eq_true, decide_eq_true_eq, firstAtIff history]

theorem struckIff {past l v} (born : lifeAt sys.log l = some v) :
    Struck sys.log past v ↔ ∃ d ∈ sys.log.deletes past, d ∉ sys.log.ctx l := by
  have seen := (lifeAtCreates history born).2.2
  simp only [Struck, seen, Log.deletes, Finset.mem_filter, deleteAtIff history, not_and]
  constructor
  · rintro ⟨d, member, deleted, unseen⟩
    exact ⟨d,⟨member,deleted⟩,fun inside => unseen inside deleted⟩
  · rintro ⟨d, ⟨member, deleted⟩, unseen⟩
    exact ⟨d,member,deleted,fun inside => absurd inside unseen⟩

theorem aliveIff {past l} : Alive sys.log past l ↔ l ∈ sys.log.alive past := by
  simp only [Alive, Log.alive, Finset.mem_filter, Bool.and_eq_true, decide_eq_true_eq, ←supersededIff history]
  have subset {v} (born : lifeAt sys.log l = some v) :
      ¬ Struck sys.log past v ↔ sys.log.deletes past ⊆ sys.log.ctx l := by
    rw [struckIff history born]
    simp only [not_exists, not_and, not_not]
    rfl
  constructor
  · rintro ⟨member, ⟨v, born, spared⟩, unbeaten⟩
    exact ⟨member,⟨(lifeAtCreates history born).1,fun beaten => unbeaten beaten.2⟩,(subset born).mp spared⟩
  · rintro ⟨member, ⟨creates, unbeaten⟩, seen⟩
    obtain ⟨v, born⟩ := createsLifeAt history creates
    exact ⟨member,⟨v,born,(subset born).mpr seen⟩,fun beaten => unbeaten ⟨member,beaten⟩⟩

/- The cell a register write makes, as the state of its causal past had it. -/
theorem regAtMeant {st k r} (wrote : regAt sys.log st k = some r) : ∃ e s, sys.log st = some e ∧
    Good sys.log s e.ctx ∧ e.record.isReg = true ∧ e.record.life = some k.life ∧ k.path ∈ e.record.paths ∧
    CellMeant o s st e.record e.cells k.path r := by
  obtain ⟨e, logged, made, stamp⟩ := regAtSome wrote
  obtain ⟨s, good, meant⟩ := history.meant st e logged
  by_cases facts : e.record.isReg = true ∧ e.record.life = some k.life ∧ k.path ∈ e.record.paths
  · obtain ⟨x, held, cell⟩ := meant.wrote facts.1 k facts.2.1 facts.2.2
    cases held.symm.trans made
    exact ⟨e,s,logged,good,facts.1,facts.2.1,facts.2.2,cell⟩
  · rw [meant.unwrote k facts] at made
    have inside := (good.regsFrom k r made).1
    rw [stamp] at inside
    exact absurd inside (outsideCtx history logged)

theorem regAtIff {st} {k : CellKey} : (∃ r, regAt sys.log st k = some r) ↔
    sys.log.writes k.path st = true ∧ sys.log.life st = some k.life := by
  constructor
  · rintro ⟨r, wrote⟩
    obtain ⟨e, _, logged, _, register, life, path, _⟩ := regAtMeant history wrote
    rw [Log.writes, doesOf logged, lifeOf logged]
    exact ⟨by simp [register, path],life⟩
  · rintro ⟨writes, life⟩
    obtain ⟨e, logged, facts⟩ := doesLogged writes
    simp only [Bool.and_eq_true, decide_eq_true_eq] at facts
    rw [lifeOf logged] at life
    obtain ⟨s, _, meant⟩ := history.meant st e logged
    obtain ⟨r, held, cell⟩ := meant.wrote facts.1 k life facts.2
    exact ⟨r,by simp [regAt, logged, held, cell.stamp, Option.filter]⟩

end
end Kimmy.Merge
