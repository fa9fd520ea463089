import Kimmy.Store.Windows

/-!
Replication leaves no hole. A superseded entry is neither stored nor served again, so what a
vector covers need not be in the log; but the highest write of a document is. Every vector,
wherever it is kept or sent, covers such a write only where the log holds it.
-/
namespace Kimmy.Store
open Merge

/-! The invariant. -/

/- What an engine keeps of its own data. -/
structure Core (e : Engine) : Prop where
  stamped : ∀ s x, e.db.oplog.get s = some x → x.stamp = s
  formed : ∀ s x, e.db.oplog.get s = some x → x.WellFormed
  known : ∀ s x, e.db.oplog.get s = some x → s.hlc ≤ e.clock.last
  settled : ∀ a, Settles e.db.oplog a (e.db.docs.get a)

namespace Cluster

def Bounded (s : Cluster) (v : VersionVector) : Prop := ∀ o, v.get o ≤ (s.engines o).clock.last

/- What a vector that a member advertised covers, its log can serve. -/
structure Backs (s : Cluster) (node : NodeId) (v : VersionVector) : Prop where
  bounded : s.Bounded v
  logged : ∀ a x, s.Highest a x → v.Covers x.stamp → (s.engines node).db.oplog.get x.stamp = some x

structure Asks (s : Cluster) (ask : AskEntries) : Prop where
  mine : ∀ o, ask.mine.get o ≤ (s.engines ask.requester).db.witnessed.get o
  theirs : s.Backs ask.peer ask.theirs
  first : entriesThreshold ask.mine ask.theirs ask.marked = some ask.first

/- The highest write of a document is in the window that reached it, unless the requester had
processed it. -/
structure Answers (s : Cluster) (ask : AskEntries) (window : OplogWindow) : Prop where
  mine : ∀ o, ask.mine.get o ≤ (s.engines ask.requester).db.witnessed.get o
  bounded : s.Bounded ask.theirs
  written : ∀ x ∈ window.entries, s.Written x
  sorted : window.entries.Pairwise fun x y => x.stamp < y.stamp
  reached : ∀ x ∈ window.entries, (windowEnd window ask.askedPartial none).Reaches x.stamp
  complete : ∀ a x, s.Highest a x → ask.theirs.Covers x.stamp → ¬ ask.mine.Covers x.stamp →
    (windowEnd window ask.askedPartial none).Reaches x.stamp → x ∈ window.entries

structure Steady (s : Cluster) : Prop where
  node : ∀ n, (s.engines n).node = n
  core : ∀ n, Core (s.engines n)
  origin : ∀ n u x, (s.engines n).db.oplog.get u = some x → s.Written x
  positive : ∀ n u x, (s.engines n).db.oplog.get u = some x → .zero < u.hlc
  ordered : ∀ n o, (s.engines n).db.versions.get o ≤ (s.engines n).db.witnessed.get o
  backs : ∀ n, s.Backs n (s.engines n).db.witnessed
  noted : ∀ x ∈ s.noted, ∀ o, x.2.get o ≤ (s.engines x.1).db.witnessed.get o
  advertised : ∀ x ∈ s.advertised, s.Backs x.1 x.2
  asked : ∀ ask ∈ s.asked, s.Asks ask
  answered : ∀ x ∈ s.answered, s.Answers x.1 x.2

theorem openedSteady (physicalNowMs : NodeId → Nat → Fin (2 ^ 64))
    (collections : NodeId → SortedMap CollectionId CollectionMeta) : (opened physicalNowMs collections).Steady := by
  have empty : ∀ n u x, ((opened physicalNowMs collections).engines n).db.oplog.get u ≠ some x := by
    intro n u x held
    cases held
  refine ⟨fun _ => rfl,fun n => ⟨fun u x held => absurd held (empty n u x),fun u x held => absurd held (empty n u x),
    fun u x held => absurd held (empty n u x),fun _ u x held => absurd held (empty n u x)⟩,
    fun n u x held => absurd held (empty n u x),fun n u x held => absurd held (empty n u x),fun _ _ => le_refl _,
    fun n => ⟨fun _ => VersionVector.zeroLe _,fun _ _ highest => ?_⟩,?_,?_,?_,?_⟩
  · exact absurd highest.written (empty _ _ _)
  all_goals
    intro x member
    cases member

/-! The store grows. -/

/- No log loses an entry, no vector and no clock goes back, and every new write of a document is
above the clock of its origin. -/
structure Grows (s t : Cluster) : Prop where
  log : ∀ n u x, (s.engines n).db.oplog.get u = some x → (t.engines n).db.oplog.get u = some x
  clock : ∀ n, (s.engines n).clock.last ≤ (t.engines n).clock.last
  witnessed : ∀ n o, (s.engines n).db.witnessed.get o ≤ (t.engines n).db.witnessed.get o
  fresh : ∀ x, t.Written x → s.Written x ∨ (s.engines x.stamp.node).clock.last < x.stamp.hlc

section
variable {s t : Cluster}

theorem Grows.highest (grows : Grows s t) {a : Address} {x : OplogEntry} (highest : t.Highest a x)
    (old : x.stamp.hlc ≤ (s.engines x.stamp.node).clock.last) : s.Highest a x := by
  refine ⟨?_,highest.there,fun y written there => highest.highest y (grows.log _ _ _ written) there⟩
  rcases grows.fresh x highest.written with written | above
  · exact written
  · exact absurd old (not_le.mpr above)

theorem Grows.backs (grows : Grows s t) {n : NodeId} {v : VersionVector} (backs : s.Backs n v) : t.Backs n v :=
  ⟨fun o => (backs.bounded o).trans (grows.clock o),fun a x highest covers =>
    grows.log _ _ _ (backs.logged a x (grows.highest highest (covers.trans (backs.bounded _))) covers)⟩

theorem Grows.asks (grows : Grows s t) {ask : AskEntries} (asks : s.Asks ask) : t.Asks ask :=
  ⟨fun o => (asks.mine o).trans (grows.witnessed _ o),grows.backs asks.theirs,asks.first⟩

theorem Grows.answers (grows : Grows s t) {ask : AskEntries} {window : OplogWindow} (answers : s.Answers ask window) :
    t.Answers ask window :=
  ⟨fun o => (answers.mine o).trans (grows.witnessed _ o),fun o => (answers.bounded o).trans (grows.clock o),
    fun x member => grows.log _ _ _ (answers.written x member),answers.sorted,answers.reached,
    fun a x highest covers => answers.complete a x (grows.highest highest (covers.trans (answers.bounded _))) covers⟩

end

/- One member moves on. -/
structure Advances (s : Cluster) (n : NodeId) (e : Engine) : Prop where
  node : e.node = n
  core : Core e
  clock : (s.engines n).clock.last ≤ e.clock.last
  kept : ∀ u x, (s.engines n).db.oplog.get u = some x → e.db.oplog.get u = some x
  adds : Adds s.Written (s.engines n) e
  grows : ∀ o, (s.engines n).db.witnessed.get o ≤ e.db.witnessed.get o
  ordered : ∀ o, e.db.versions.get o ≤ e.db.witnessed.get o
  own : e.db.witnessed.get n ≤ e.clock.last
  bounded : ∀ o, o ≠ n → e.db.witnessed.get o ≤ (s.engines o).clock.last
  logged : ∀ a x, s.Highest a x → x.stamp.node ≠ n → e.db.witnessed.Covers x.stamp →
    e.db.oplog.get x.stamp = some x

section
variable {s : Cluster} {n : NodeId} {e : Engine}

theorem putEngines (m : NodeId) : (s.put n e).engines m = if m = n then e else s.engines m := by
  unfold put
  simp only [Function.update_apply]

theorem Advances.put (advances : s.Advances n e) (steady : s.Steady) : Grows s (s.put n e) := by
  have log : ∀ m u x, (s.engines m).db.oplog.get u = some x → ((s.put n e).engines m).db.oplog.get u = some x := by
    intro m u x found
    rw [putEngines]
    split_ifs with here
    · exact advances.kept u x (here ▸ found)
    · exact found
  refine ⟨log,fun m => ?_,fun m o => ?_,fun x written => ?_⟩
  · rw [putEngines]
    split_ifs with here
    · exact here ▸ advances.clock
    · exact le_refl _
  · rw [putEngines]
    split_ifs with here
    · exact here ▸ advances.grows o
    · exact le_refl _
  · unfold Written at written
    rw [putEngines] at written
    split_ifs at written with here
    · rcases advances.adds _ _ written with held | ⟨_, above⟩ | known
      · exact Or.inl (steady.origin n _ x held)
      · exact Or.inr (here ▸ above)
      · exact Or.inl known
    · exact Or.inl written

theorem Steady.put (steady : s.Steady) (advances : s.Advances n e) : (s.put n e).Steady := by
  have grows := advances.put steady
  have node : ∀ m, ((s.put n e).engines m).node = m := fun m => by
    rw [putEngines]
    split_ifs with here
    · exact advances.node.trans here.symm
    · exact steady.node m
  refine ⟨node,fun m => ?_,fun m u x found => ?_,fun m u x found => ?_,fun m o => ?_,fun m => ?_,fun x member o => ?_,
    fun x member => grows.backs (steady.advertised x member),fun ask member => grows.asks (steady.asked ask member),
    fun x member => grows.answers (steady.answered x member)⟩
  · rw [putEngines]
    split_ifs
    · exact advances.core
    · exact steady.core m
  · rw [putEngines] at found
    split_ifs at found with here
    · rcases advances.adds u x found with held | ⟨own, _⟩ | written
      · exact grows.log _ _ _ (steady.origin n u x held)
      · have stamped := advances.core.stamped u x found
        unfold Written
        rw [putEngines, if_pos (by rw [stamped, own, steady.node]), stamped]
        exact found
      · exact grows.log _ _ _ written
    · exact grows.log _ _ _ (steady.origin m u x found)
  · rw [putEngines] at found
    split_ifs at found with here
    · rcases advances.adds u x found with held | ⟨_, above⟩ | written
      · exact steady.positive n u x held
      · exact (VersionVector.zeroLe _).trans_lt above
      · rw [←advances.core.stamped u x found]
        exact steady.positive _ _ x written
    · exact steady.positive m u x found
  · rw [putEngines]
    split_ifs
    · exact advances.ordered o
    · exact steady.ordered m o
  · rw [putEngines]
    split_ifs with here
    · subst here
      refine ⟨fun o => ?_,fun a x highest covers => ?_⟩
      · rw [putEngines]
        split_ifs with own
        · exact own ▸ advances.own
        · exact advances.bounded o own
      · rw [putEngines, if_pos rfl]
        by_cases own : x.stamp.node = m
        · have written := highest.written
          unfold Written at written
          rwa [putEngines, if_pos own] at written
        · refine advances.logged a x (grows.highest highest ?_) own covers
          exact covers.trans (advances.bounded _ own)
    · exact grows.backs (steady.backs m)
  · exact (steady.noted x member o).trans (grows.witnessed _ o)

end

/-! Writes. -/

/- The entry behind a stamp, and a placeholder where there is none. -/
noncomputable def behindStamp (s : Cluster) (u : Stamp) : OplogEntry :=
  open Classical in
  match (s.engines u.node).db.oplog.get u with
  | some x => if x.stamp = u ∧ x.WellFormed then x else ⟨u,.collection,0,none,none⟩
  | none => ⟨u,.collection,0,none,none⟩

noncomputable def feed (s : Cluster) : Feed where
  write := s.behindStamp
  stamped u := by
    unfold behindStamp
    split
    · split_ifs with formed
      · exact formed.1
      · rfl
    · rfl
  formed u := by
    have placeholder : OplogEntry.WellFormed ⟨u,.collection,0,none,none⟩ := ⟨rfl,nofun⟩
    unfold behindStamp
    split
    · split_ifs with formed
      · exact formed.2
      · exact placeholder
    · exact placeholder

section
variable {s : Cluster} {n : NodeId} {e : Engine}

theorem Steady.fed (steady : s.Steady) {x : OplogEntry} (written : s.Written x) : s.feed.write x.stamp = x := by
  show s.behindStamp x.stamp = x
  unfold behindStamp
  rw [show (s.engines x.stamp.node).db.oplog.get x.stamp = some x from written]
  exact if_pos ⟨rfl,(steady.core _).formed _ x written⟩

theorem Steady.brings (steady : s.Steady) {x : OplogEntry} (written : s.Written x) :
    s.feed.Brings (s.engines n).node (s.engines n).db.oplog x := by
  unfold Feed.Brings
  split_ifs with own
  · rw [steady.node] at own
    exact own ▸ written
  · exact (steady.fed written).symm

theorem Steady.agreed (steady : s.Steady) (n : NodeId) : Agreed s.feed (s.engines n) := by
  obtain ⟨stamped, formed, known, settled⟩ := steady.core n
  refine ⟨stamped,formed,fun u x found _ => ?_,known,settled⟩
  rw [←stamped u x found]
  exact (steady.fed (steady.origin n u x found)).symm

/- What holds of a member while it moves, its vectors apart. -/
theorem Steady.within (steady : s.Steady) (moves : Moves s.Written (s.engines n) e) (room : e.Room) :
    Within s.feed (s.engines n) e := by
  exact Within.moves ⟨steady.agreed n,rfl,fun _ _ found => found⟩ (moves.widen fun _ => steady.brings) room

theorem Steady.moved (steady : s.Steady) (moves : Moves s.Written (s.engines n) e) (room : e.Room)
    (logged : ∀ a x, s.Highest a x → x.stamp.node ≠ n → e.db.witnessed.Covers x.stamp →
      e.db.oplog.get x.stamp = some x) : s.Advances n e := by
  obtain ⟨⟨stamped, formed, _, known, settled⟩, node, kept⟩ := steady.within moves room
  have raises := raisesMoves moves room
  have clock := (roomBefore (Moves.same moves) room).2
  have source : ∀ o h, h ≤ e.db.witnessed.get o → h ≤ (s.engines o).clock.last ∨ (o = n ∧ h ≤ e.clock.last) := by
    intro o h le
    rcases raises.raised o h le with before | ⟨own, now⟩ | ⟨z, written, rfl, below⟩
    · exact Or.inl (before.trans ((steady.backs n).bounded o))
    · exact Or.inr ⟨own.trans (steady.node n),now⟩
    · exact Or.inl (below.trans ((steady.core _).known _ z written))
  refine ⟨node.trans (steady.node n),⟨stamped,formed,known,settled⟩,clock,kept,addsMoves moves room,raises.grows,
    raises.ordered (steady.ordered n),?_,fun o other => ?_,logged⟩
  · rcases source n _ (le_refl _) with before | ⟨_, now⟩
    · exact before.trans clock
    · exact now
  · rcases source o _ (le_refl _) with before | ⟨own, _⟩
    · exact before
    · exact absurd own other

/- Nothing is brought: other origins stay where they were. -/
theorem Steady.alone (steady : s.Steady) (moves : Moves (fun _ => False) (s.engines n) e) (room : e.Room) :
    (s.put n e).Steady := by
  have wide : Moves s.Written (s.engines n) e := moves.widen fun _ => False.elim
  refine steady.put (steady.moved wide room fun a x highest other covers => ?_)
  rcases (raisesMoves moves room).raised _ _ covers with before | ⟨own, _⟩ | ⟨_, nothing, _⟩
  · exact (steady.within wide room).kept _ _ ((steady.backs n).logged a x highest before)
  · exact absurd (own.trans (steady.node n)) other
  · exact nothing.elim

end

/-! Applying a window. -/

/- An entry that can be applied is applied whole, or skipped by design. -/
theorem appliedOne {x : Engine} {entry : OplogEntry} {y : Engine} {reports} (applied : x.applyOne entry = some (y,reports)) :
    (y = x ∧ entry.kind.isDocument = false) ∨ y = (x.applyRemoteInTxn entry .inWindow).1 := by
  unfold Engine.applyOne at applied
  split_ifs at applied with skipped unknown
  · refine Or.inl ⟨(Prod.mk.inj (Option.some.inj applied)).1.symm,?_⟩
    rcases Bool.or_eq_true_iff.mp skipped with own | other
    · cases kind : entry.kind <;> first | rfl | (rw [kind] at own; cases own)
    · simpa using other
  · exact Or.inr (Prod.mk.inj (Option.some.inj applied)).1.symm

theorem movesOne {given : OplogEntry → Prop} {x : Engine} {entry : OplogEntry} {y : Engine} {reports} (got : given entry)
    (applied : x.applyOne entry = some (y,reports)) : Moves given x y := by
  rcases appliedOne applied with ⟨rfl, _⟩ | rfl
  · exact .refl
  · exact Moves.ofRemote got

theorem movesEntries {given : OplogEntry → Prop} (theirs : VersionVector) : ∀ {entries : List OplogEntry}
    (taken : Engine.Taken), (∀ x ∈ entries, given x) →
    Moves given taken.engine (Engine.applyEntries theirs taken entries).engine
  | [], _, _ => .refl
  | entry :: rest, taken, all => by
      have later : ∀ x ∈ rest, given x := fun x member => all x (List.mem_cons_of_mem _ member)
      unfold Engine.applyEntries
      split_ifs
      · exact movesEntries theirs taken later
      · cases applied : taken.engine.applyOne entry with
        | none => exact .refl
        | some result =>
            obtain ⟨y, reports⟩ := result
            exact (movesOne (all entry List.mem_cons_self) applied).trans (movesEntries theirs ⟨y,_,_,_⟩ later)

/- The part of a window that has been gone through. -/
structure Taking (s : Cluster) (n : NodeId) (theirs : VersionVector) (seen : List OplogEntry) (taken : Engine.Taken) :
    Prop where
  moves : Moves s.Written (s.engines n) taken.engine
  sourced : ∀ a r, taken.engine.db.docs.get a = some r → ∃ z, s.Written z ∧ z.address = some a ∧ r.stamp = z.stamp
  logged : ∀ a x, s.Highest a x → x ∈ seen → theirs.Covers x.stamp → taken.engine.db.oplog.get x.stamp = some x
  raised : ∀ o h, o ≠ n → h ≤ taken.engine.db.witnessed.get o → h ≤ (s.engines n).db.witnessed.get o ∨
    ∃ z ∈ seen, theirs.Covers z.stamp ∧ z.stamp.node = o ∧ h ≤ z.stamp.hlc
  observed : ∀ o h, .zero < h → h ≤ taken.witnessed.get o →
    ∃ z ∈ seen, theirs.Covers z.stamp ∧ z.stamp.node = o ∧ h ≤ z.stamp.hlc

section
variable {s : Cluster} {n : NodeId} {theirs : VersionVector} {seen : List OplogEntry} {taken : Engine.Taken}
  {entry : OplogEntry}

theorem takingStart (steady : s.Steady) : Taking s n theirs [] ⟨s.engines n,[],.new,none⟩ := by
  refine ⟨.refl,fun a r found => ?_,fun _ _ _ member => absurd member List.not_mem_nil,fun o h _ le => Or.inl le,
    fun o h positive le => ?_⟩
  · have settled := (steady.core n).settled a
    rw [found] at settled
    obtain ⟨⟨x, logged, there, rfl⟩, _⟩ := settled
    exact ⟨x,steady.origin n _ x logged,there,incomingStamp x⟩
  · exact absurd le (not_le.mpr positive)

/- Left for the next window. -/
theorem Taking.deferred (taking : Taking s n theirs seen taken) (above : ¬ theirs.Covers entry.stamp) :
    Taking s n theirs (seen ++ [entry]) taken := by
  refine ⟨taking.moves,taking.sourced,fun a x highest member covers => ?_,fun o h other le => ?_,
    fun o h positive le => ?_⟩
  · rcases List.mem_append.mp member with inside | here
    · exact taking.logged a x highest inside covers
    · exact absurd (List.mem_singleton.mp here ▸ covers) above
  · refine (taking.raised o h other le).imp_right ?_
    rintro ⟨z, inside, rest⟩
    exact ⟨z,List.mem_append_left _ inside,rest⟩
  · obtain ⟨z, inside, rest⟩ := taking.observed o h positive le
    exact ⟨z,List.mem_append_left _ inside,rest⟩

/- The stored record of a document is a write, so none is above the highest. -/
theorem Taking.highestLogged (taking : Taking s n theirs seen taken) (steady : s.Steady) {a : Address}
    (highest : s.Highest a entry) (room : (taken.engine.applyRemoteInTxn entry .inWindow).1.Room) :
    (taken.engine.applyRemoteInTxn entry .inWindow).1.db.oplog.get entry.stamp = some entry := by
  have moves : Moves s.Written (s.engines n) (taken.engine.applyRemoteInTxn entry .inWindow).1 :=
    taking.moves.trans (Moves.ofRemote highest.written)
  have docs := remoteDocs taken.engine entry .inWindow a
  rw [if_pos highest.there] at docs
  obtain ⟨r, held, stamped⟩ : ∃ r, (taken.engine.applyRemoteInTxn entry .inWindow).1.db.docs.get a = some r ∧
      r.stamp = entry.stamp := by
    rw [docs]
    cases found : taken.engine.db.docs.get a with
    | none => exact ⟨entry.incoming,rfl,incomingStamp entry⟩
    | some current =>
        obtain ⟨z, written, there, same⟩ := taking.sourced a current found
        have below : current.stamp ≤ entry.stamp := same ▸ highest.highest z written there
        unfold LastWriter.keep
        simp only [incomingStamp]
        split_ifs with wins
        · exact ⟨entry.incoming,rfl,incomingStamp entry⟩
        · exact ⟨current,rfl,le_antisymm below (not_lt.mp wins)⟩
  have settled := (steady.within moves room).agreed.settled a
  rw [held] at settled
  obtain ⟨⟨x, logged, _⟩, _⟩ := settled
  rw [stamped] at logged
  rw [logged]
  have single {y : OplogEntry} (written : s.Written y) (same : y.stamp = entry.stamp) : some y = some entry := by
    rw [←show (s.engines y.stamp.node).db.oplog.get y.stamp = some y from written, same]
    exact highest.written
  rcases addsMoves moves room _ x logged with old | ⟨own, above⟩ | written
  · exact single (steady.origin n _ x old) ((steady.core n).stamped _ x old)
  · -- an own entry above the clock is not one that was written before
    rw [steady.node] at own
    have known := (steady.core _).known _ _ highest.written
    rw [own] at known
    exact absurd known (not_le.mpr above)
  · exact single written ((steady.within moves room).agreed.stamped _ x logged)

theorem Taking.applied (taking : Taking s n theirs seen taken) (steady : s.Steady) (written : s.Written entry)
    (covered : theirs.Covers entry.stamp) {y : Engine} {reports : List Engine.Report} (room : y.Room)
    (applied : taken.engine.applyOne entry = some (y,reports)) :
    Taking s n theirs (seen ++ [entry]) ⟨y,taken.pending ++ reports,taken.witnessed.observe entry.stamp,none⟩ := by
  have step : Moves (· = entry) taken.engine y := movesOne rfl applied
  have moves : Moves s.Written (s.engines n) y := taking.moves.trans (movesOne written applied)
  have node := (Moves.same taking.moves).node.trans (steady.node n)
  have here : entry ∈ seen ++ [entry] := List.mem_append_right _ (List.mem_singleton.mpr rfl)
  have before : taken.engine.Room := (roomBefore (Moves.same step) room).1
  refine ⟨moves,fun a r found => ?_,fun a x highest member covers => ?_,fun o h other le => ?_,fun o h positive le => ?_⟩
  · rcases appliedOne applied with ⟨rfl, _⟩ | rfl
    · exact taking.sourced a r found
    · have docs := remoteDocs taken.engine entry .inWindow a
      rw [found] at docs
      split_ifs at docs with there
      · unfold LastWriter.keep at docs
        split at docs
        · exact ⟨entry,written,there,Option.some.inj docs ▸ incomingStamp entry⟩
        next current held =>
          split_ifs at docs
          · exact ⟨entry,written,there,Option.some.inj docs ▸ incomingStamp entry⟩
          · exact taking.sourced a r (held.trans docs.symm)
      · exact taking.sourced a r docs.symm
  · rcases List.mem_append.mp member with inside | last
    · have within := steady.within taking.moves before
      have brings : s.feed.Brings taken.engine.node taken.engine.db.oplog entry := by
        unfold Feed.Brings
        split_ifs with own
        · have home : entry.stamp.node = n := own.trans node
          exact within.kept _ _ (home ▸ written)
        · exact (steady.fed written).symm
      have kept := (Within.moves ⟨within.agreed,rfl,fun _ _ found => found⟩
        (step.widen fun z same => same ▸ brings) room).kept
      exact kept _ _ (taking.logged a x highest inside covers)
    · obtain rfl := List.mem_singleton.mp last
      rcases appliedOne applied with ⟨_, other⟩ | rfl
      · have formed := ((steady.core _).formed _ _ highest.written).named
        have named := highest.there
        unfold OplogEntry.address at named
        cases key : x.docId with
        | none => simp [key] at named
        | some key' =>
            rw [key, other] at formed
            cases formed
      · exact taking.highestLogged steady highest room
  · rcases (raisesMoves step room).raised o h le with old | ⟨own, _⟩ | ⟨z, rfl, same, below⟩
    · refine (taking.raised o h other old).imp_right ?_
      rintro ⟨z, inside, rest⟩
      exact ⟨z,List.mem_append_left _ inside,rest⟩
    · exact absurd (own.trans node) other
    · exact Or.inr ⟨z,here,covered,same,below⟩
  · simp only [VersionVector.getObserve] at le
    split_ifs at le with own
    · rcases le_max_iff.mp le with old | now
      · obtain ⟨z, inside, rest⟩ := taking.observed o h positive old
        exact ⟨z,List.mem_append_left _ inside,rest⟩
      · exact ⟨entry,here,covered,own.symm,now⟩
    · obtain ⟨z, inside, rest⟩ := taking.observed o h positive le
      exact ⟨z,List.mem_append_left _ inside,rest⟩

/- The whole window, or up to the entry it stopped at. -/
theorem takingAll (steady : s.Steady) : ∀ (entries seen : List OplogEntry) (taken : Engine.Taken),
    Taking s n theirs seen taken → taken.stoppedAt = none → (∀ x ∈ entries, s.Written x) →
    (Engine.applyEntries theirs taken entries).engine.Room →
    ∃ through, Taking s n theirs through (Engine.applyEntries theirs taken entries) ∧
      (((Engine.applyEntries theirs taken entries).stoppedAt = none ∧ through = seen ++ entries) ∨
        ∃ x rest, seen ++ entries = through ++ x :: rest ∧
          (Engine.applyEntries theirs taken entries).stoppedAt = some x.stamp)
  | [], seen, taken, taking, going, _, _ => ⟨seen,taking,Or.inl ⟨going,(List.append_nil _).symm⟩⟩
  | entry :: rest, seen, taken, taking, going, written, room => by
      have later : ∀ x ∈ rest, s.Written x := fun x member => written x (List.mem_cons_of_mem _ member)
      have shift : seen ++ entry :: rest = (seen ++ [entry]) ++ rest := by simp
      rw [shift]
      unfold Engine.applyEntries at room ⊢
      split_ifs at room ⊢ with above
      · exact takingAll steady rest (seen ++ [entry]) taken (taking.deferred (not_le.mpr above)) going later room
      · cases applied : taken.engine.applyOne entry with
        | none =>
            refine ⟨seen,⟨taking.moves,taking.sourced,taking.logged,taking.raised,taking.observed⟩,Or.inr ⟨entry,rest,?_,rfl⟩⟩
            simp
        | some result =>
            obtain ⟨y, reports⟩ := result
            rw [applied] at room
            have before : y.Room :=
              (roomBefore (Moves.same (movesEntries theirs ⟨y,_,_,_⟩ later)) room).1
            exact takingAll steady rest (seen ++ [entry]) _
              (taking.applied steady (written entry List.mem_cons_self) (not_lt.mp above) before applied) rfl later room

/- The highest write of a document that the window reached was gone through, or had been
processed when the window was asked for. -/
theorem Taking.covered {ask : AskEntries} (taking : Taking s ask.requester ask.theirs seen taken) (steady : s.Steady)
    {window : OplogWindow} (answers : s.Answers ask window)
    {x : OplogEntry} {a : Address} (highest : s.Highest a x) (covers : ask.theirs.Covers x.stamp)
    (through : x ∈ window.entries → x ∈ seen) (inside : (windowEnd window ask.askedPartial none).Reaches x.stamp)
    (room : taken.engine.Room) : taken.engine.db.oplog.get x.stamp = some x := by
  by_cases mine : ask.mine.Covers x.stamp
  · have processed : (s.engines ask.requester).db.witnessed.Covers x.stamp := mine.trans (answers.mine _)
    exact (steady.within taking.moves room).kept _ _ ((steady.backs _).logged a x highest processed)
  · exact taking.logged a x highest (through (answers.complete a x highest covers mine inside)) covers

end

/- A window is applied, its coverage with it. -/
theorem Steady.absorbed {s : Cluster} (steady : s.Steady) {ask : AskEntries} {window : OplogWindow}
    (answers : s.Answers ask window) {taken : Engine.Taken}
    (done : Engine.applyEntries ask.theirs ⟨s.engines ask.requester,[],.new,none⟩ window.entries = taken)
    (room : taken.engine.Room) :
    s.Advances ask.requester (taken.engine.absorbWitnessed
      (taken.witnessed.merge (coverageUpTo ask.theirs (windowEnd window ask.askedPartial taken.stoppedAt)))) := by
  obtain ⟨seen, taking, ended⟩ := takingAll (n := ask.requester) steady window.entries [] _ (takingStart steady) rfl
    answers.written (done ▸ room)
  rw [done] at taking ended
  obtain ⟨rest, split, stops⟩ : ∃ rest, window.entries = seen ++ rest ∧
      (taken.stoppedAt = none ∧ rest = [] ∨ ∃ x more, rest = x :: more ∧ taken.stoppedAt = some x.stamp) := by
    rcases ended with ⟨going, all⟩ | ⟨x, more, shape, stopped⟩
    · exact ⟨[],by rw [all]; simp,Or.inl ⟨going,rfl⟩⟩
    · exact ⟨x :: more,shape,Or.inr ⟨x,more,rfl,stopped⟩⟩
  have sorted := answers.sorted
  rw [split] at sorted
  have before : ∀ z ∈ seen, ∀ y ∈ window.entries, y.stamp ≤ z.stamp → y ∈ seen := by
    intro z inside y member le
    rw [split] at member
    rcases List.mem_append.mp member with here | later
    · exact here
    · exact absurd le (not_le.mpr ((List.pairwise_append.mp sorted).2.2 z inside y later))
  have listed : ∀ z ∈ seen, z ∈ window.entries := fun z inside => split ▸ List.mem_append_left _ inside
  -- an entry of the same origin that was gone through, at or above the write
  have passed : ∀ a x z, s.Highest a x → z ∈ seen → ask.theirs.Covers z.stamp → z.stamp.node = x.stamp.node →
      x.stamp.hlc ≤ z.stamp.hlc → taken.engine.db.oplog.get x.stamp = some x := by
    intro a x z highest inside covers same le
    have below : x.stamp ≤ z.stamp := by
      rcases lt_or_eq_of_le le with less | equal
      · exact (stampLtIff.mpr (Or.inl less)).le
      · rw [←not_lt, stampLtIff]
        rintro (above | ⟨_, above⟩)
        · exact absurd above (not_lt.mpr le)
        · exact absurd above (not_lt.mpr same.ge)
    refine taking.covered steady answers highest ?_ (fun member => before z inside x member below)
      (reachesBelow (answers.reached z (listed z inside)) below) room
    have theirs : z.stamp.hlc ≤ ask.theirs.get z.stamp.node := covers
    rw [same] at theirs
    exact le.trans theirs
  have advances : s.Advances ask.requester taken.engine := by
    refine steady.moved taking.moves room fun a x highest other covers => ?_
    rcases taking.raised _ _ other covers with old | ⟨z, inside, theirs, same, le⟩
    · exact (steady.within taking.moves room).kept _ _ ((steady.backs _).logged a x highest old)
    · exact passed a x z highest inside theirs same le
  have proved : ∀ o, (taken.witnessed.merge
      (coverageUpTo ask.theirs (windowEnd window ask.askedPartial taken.stoppedAt))).get o ≤ (s.engines o).clock.last := by
    intro o
    rw [VersionVector.getMerge]
    refine max_le ?_ ((coverageLe _ _ o).trans (answers.bounded o))
    by_cases zero : taken.witnessed.get o = .zero
    · rw [zero]
      exact VersionVector.zeroLe _
    · obtain ⟨z, inside, _, rfl, le⟩ := taking.observed o _ (lt_of_le_of_ne (VersionVector.zeroLe _) (Ne.symm zero)) (le_refl _)
      exact le.trans ((steady.core _).known _ z (answers.written z (listed z inside)))
  obtain ⟨stamped, formed, known, settled⟩ := advances.core
  refine ⟨advances.node,⟨stamped,formed,known,settled⟩,advances.clock,advances.kept,advances.adds,fun o => ?_,fun o => ?_,?_,
    fun o other => ?_,fun a x highest other covers => ?_⟩
  · exact (advances.grows o).trans ((VersionVector.getMerge _ _ _).symm ▸ le_max_left _ _)
  · exact (advances.ordered o).trans ((VersionVector.getMerge _ _ _).symm ▸ le_max_left _ _)
  · exact (VersionVector.getMerge _ _ _).symm ▸ max_le advances.own ((proved _).trans advances.clock)
  · exact (VersionVector.getMerge _ _ _).symm ▸ max_le (advances.bounded o other) (proved o)
  · have positive := steady.positive _ _ _ highest.written
    unfold Engine.absorbWitnessed at covers
    simp only [VersionVector.Covers, VersionVector.getMerge, le_max_iff] at covers
    rcases covers with old | observed | coverage
    · exact advances.logged a x highest other old
    · obtain ⟨z, inside, theirs, same, le⟩ := taking.observed _ _ positive observed
      exact passed a x z highest inside theirs same le
    · obtain ⟨theirs, reached⟩ := coverageSound positive coverage
      rcases stops with ⟨going, rfl⟩ | ⟨y, more, rfl, stopped⟩
      · rw [going] at reached
        exact taking.covered steady answers highest theirs (fun member => by simpa [split] using member) reached room
      · rw [stopped] at reached
        have below : x.stamp < y.stamp := reached
        have there : y ∈ window.entries := split ▸ List.mem_append_right _ List.mem_cons_self
        refine taking.covered steady answers highest theirs (fun member => ?_)
          (reachesBelow (answers.reached y there) below.le) room
        rw [split] at member
        rcases List.mem_append.mp member with here | later
        · exact here
        · rcases List.mem_cons.mp later with rfl | behind
          · exact absurd below (lt_irrefl _)
          · have above := (List.pairwise_cons.mp (List.pairwise_append.mp sorted).2.1).1 x behind
            exact absurd below (not_lt.mpr above.le)

/-! Runs. -/

theorem putPut (s : Cluster) (n : NodeId) (x y : Engine) : (s.put n x).put n y = s.put n y := by
  unfold put
  simp only [Function.update_idem]

theorem Steady.applied {s : Cluster} (steady : s.Steady) {ask : AskEntries} {window : OplogWindow}
    (answers : s.Answers ask window) (commits : Bool)
    (room : ((s.engines ask.requester).applyBatchRun ask.theirs ask.askedPartial window commits).Room) :
    (s.put ask.requester
      ((s.engines ask.requester).applyBatchRun ask.theirs ask.askedPartial window commits)).Steady := by
  unfold Engine.applyBatchRun at room ⊢
  generalize done : Engine.applyEntries ask.theirs ⟨s.engines ask.requester,[],.new,none⟩ window.entries = taken at room ⊢
  simp only at room ⊢
  split_ifs at room ⊢
  · generalize tried : taken.engine.absorbWitnessed _ = x at room ⊢
    have moves : Moves (fun _ => False) x (x.report taken.pending) := Moves.ofReport
    have before : x.Room := (roomBefore (Moves.same moves) room).1
    have room' : taken.engine.Room := by
      rw [←tried] at before
      exact before
    have advances := steady.absorbed answers done room'
    rw [tried] at advances
    rw [←putPut s ask.requester x]
    refine (steady.put advances).alone ?_ room
    rw [putEngines, if_pos rfl]
    exact moves
  · -- only the clock moved
    have moves := movesEntries ask.theirs ⟨s.engines ask.requester,[],.new,none⟩ answers.written
    rw [done] at moves
    obtain ⟨more, only⟩ := Moves.abortCalled (Moves.same moves)
    rw [show (s.engines ask.requester).abort (taken.engine.absorbWitnessed _) =
      (s.engines ask.requester).abort taken.engine from rfl, only] at room ⊢
    exact steady.alone (.single (.called _ more)) room

/- Messages are sent, and no member changes. -/
theorem Steady.told {s t : Cluster} (steady : s.Steady) (same : t.engines = s.engines)
    (noted : ∀ x ∈ t.noted, ∀ o, x.2.get o ≤ (s.engines x.1).db.witnessed.get o)
    (advertised : ∀ x ∈ t.advertised, s.Backs x.1 x.2) (asked : ∀ ask ∈ t.asked, s.Asks ask)
    (answered : ∀ x ∈ t.answered, s.Answers x.1 x.2) : t.Steady := by
  have written : ∀ x, t.Written x ↔ s.Written x := fun x => by
    unfold Written
    rw [same]
  have grows : Grows s t := by
    refine ⟨fun n u x found => ?_,fun n => ?_,fun n o => ?_,fun x found => Or.inl ((written x).mp found)⟩
    · rwa [same]
    · rw [same]
    · rw [same]
  refine ⟨?_,?_,fun n u x found => ?_,?_,?_,fun n => ?_,?_,fun x member => grows.backs (advertised x member),
    fun ask member => grows.asks (asked ask member),fun x member => grows.answers (answered x member)⟩
  · rw [same]
    exact steady.node
  · rw [same]
    exact steady.core
  · rw [same] at found
    exact (written x).mpr (steady.origin n u x found)
  · rw [same]
    exact steady.positive
  · rw [same]
    exact steady.ordered
  · rw [same]
    exact grows.backs (steady.backs n)
  · rw [same]
    exact noted

/- A window cut from a log that has nothing but what the peer's has, and the highest writes that
the requester lacks. -/
theorem Steady.answersFrom {s : Cluster} (steady : s.Steady) {ask : AskEntries} (asks : s.Asks ask) {t : Tables}
    (inside : ∀ u x, t.oplog.get u = some x → (s.engines ask.peer).db.oplog.get u = some x)
    (has : ∀ a x, s.Highest a x → ask.theirs.Covers x.stamp → ¬ ask.mine.Covers x.stamp → t.oplog.get x.stamp = some x)
    {spent : Option (Nat → Bool)} {window : OplogWindow}
    (cut : t.entriesForPeer ask.first ask.limit (some ask.mine) ask.marked spent = window)
    (sent : (!ask.askedPartial && window.passedThrough.isSome) = false) : s.Answers ask window := by
  subst cut
  obtain ⟨logged, sorted, reached, complete⟩ :=
    served (fun u x found => (steady.core ask.peer).stamped u x (inside u x found)) sent
  refine ⟨asks.mine,asks.theirs.bounded,fun x member => ?_,sorted,reached,fun a x highest covers uncovered ended => ?_⟩
  · exact steady.origin _ _ x (inside _ x (logged x member))
  · have trails : ask.mine.get x.stamp.node < ask.theirs.get x.stamp.node :=
      (not_le.mp uncovered).trans_le covers
    have first : ask.first ≤ x.stamp.hlc := by
      have threshold := asks.first
      unfold entriesThreshold at threshold
      cases behind : ask.mine.behind ask.theirs with
      | none =>
          exact absurd behind (VersionVector.behindSome trails)
      | some low =>
          rw [behind] at threshold
          obtain rfl := Option.some.inj threshold
          exact (VersionVector.behindLe behind trails).trans (not_le.mp uncovered).le
    refine complete _ x (has a x highest covers uncovered) first uncovered ?_ ended
    have document := ((steady.core _).formed _ x highest.written).named
    have named := highest.there
    unfold OplogEntry.address at named
    cases key : x.docId with
    | none => simp [key] at named
    | some k =>
        rw [key] at document
        cases kind : x.kind <;> first | rfl | (rw [kind] at document; cases document)

/- What a member serves, as it was asked for. -/
theorem Steady.answers {s : Cluster} (steady : s.Steady) {ask : AskEntries} (asks : s.Asks ask)
    {spent : Option (Nat → Bool)} {window : OplogWindow}
    (cut : (s.engines ask.peer).db.entriesForPeer ask.first ask.limit (some ask.mine) ask.marked spent = window)
    (sent : (!ask.askedPartial && window.passedThrough.isSome) = false) : s.Answers ask window :=
  steady.answersFrom asks (fun _ _ found => found) (fun a x highest covers _ => asks.theirs.logged a x highest covers)
    cut sent

theorem Steady.wrote {s : Cluster} (steady : s.Steady) {node : NodeId} {op : Op} (alone : op.received = [])
    (room : ∀ n, ((s.put node ((s.engines node).step op)).engines n).Room) :
    (s.put node ((s.engines node).step op)).Steady := by
  have own := room node
  rw [putEngines, if_pos rfl] at own
  refine steady.alone (Moves.ofStep fun entry member => ?_) own
  rw [alone] at member
  exact absurd member List.not_mem_nil

theorem Steady.step {s : Cluster} (steady : s.Steady) (step : ClusterStep)
    (room : ∀ n, ((s.step step).engines n).Room) : (s.step step).Steady := by
  cases step with
  | write node op =>
      cases op with
      | write w => exact steady.wrote rfl room
      | insertMany coll drafts => exact steady.wrote rfl room
      | batch writes closed => exact steady.wrote rfl room
      | replicated position entries commits => exact steady
  | note node =>
      refine steady.told rfl (fun x member o => ?_) steady.advertised steady.asked steady.answered
      rcases List.mem_append.mp member with old | new
      · exact steady.noted x old o
      · rw [List.mem_singleton.mp new]
  | advertise node =>
      refine steady.told rfl steady.noted (fun x member => ?_) steady.asked steady.answered
      rcases List.mem_append.mp member with old | new
      · exact steady.advertised x old
      · rw [List.mem_singleton.mp new]
        have le := steady.ordered node
        exact ⟨fun o => (le o).trans ((steady.backs node).bounded o),fun a x highest covers =>
          (steady.backs node).logged a x highest (covers.trans (le _))⟩
  | ask i j limit marked askedPartial =>
      unfold Cluster.step
      simp only
      split
      next requester mine peer theirs first second =>
        split
        next low threshold =>
          refine steady.told rfl steady.noted steady.advertised (fun ask member => ?_) steady.answered
          rcases List.mem_append.mp member with old | new
          · exact steady.asked ask old
          · rw [List.mem_singleton.mp new]
            exact ⟨steady.noted _ (List.mem_of_getElem? first),steady.advertised _ (List.mem_of_getElem? second),threshold⟩
        · exact steady
      · exact steady
  | serve i spent =>
      unfold Cluster.step
      simp only
      split
      next ask found =>
        split_ifs with cut
        · exact steady
        · refine steady.told rfl steady.noted steady.advertised steady.asked fun x member => ?_
          rcases List.mem_append.mp member with old | new
          · exact steady.answered x old
          · rw [List.mem_singleton.mp new]
            exact steady.answers (steady.asked ask (List.mem_of_getElem? found)) rfl (by simpa using cut)
      · exact steady
  | apply i commits =>
      unfold Cluster.step at room ⊢
      simp only at room ⊢
      cases found : s.answered[i]? with
      | none => exact steady
      | some x =>
          obtain ⟨ask, window⟩ := x
          simp only [found] at room ⊢
          have own := room ask.requester
          rw [putEngines, if_pos rfl] at own
          exact steady.applied (steady.answered _ (List.mem_of_getElem? found)) commits own

theorem sameBatch (e : Engine) (theirs : VersionVector) (askedPartial : Bool) (window : OplogWindow) (commits : Bool) :
    Moves.SameMember e (e.applyBatchRun theirs askedPartial window commits) := by
  have moves : Moves (fun _ => True) e (Engine.applyEntries theirs ⟨e,[],.new,none⟩ window.entries).engine :=
    movesEntries theirs ⟨e,[],.new,none⟩ fun _ _ => trivial
  unfold Engine.applyBatchRun
  generalize Engine.applyEntries theirs ⟨e,[],.new,none⟩ window.entries = taken at moves ⊢
  obtain ⟨node, physical, resumed, calls⟩ := Moves.same moves
  simp only
  split_ifs
  · generalize tried : taken.engine.absorbWitnessed _ = x
    have reported : Moves (fun _ => True) x (x.report taken.pending) := Moves.ofReport
    refine Moves.sameTrans ?_ (Moves.same reported)
    rw [←tried]
    exact ⟨node,physical,resumed,calls⟩
  · exact ⟨node,physical,resumed,calls⟩

/- No step sets a clock back, or changes a member otherwise than by running it. -/
theorem sameStep (s : Cluster) (step : ClusterStep) (n : NodeId) :
    Moves.SameMember (s.engines n) ((s.step step).engines n) := by
  have put {node : NodeId} {e : Engine} (same : Moves.SameMember (s.engines node) e) :
      Moves.SameMember (s.engines n) ((s.put node e).engines n) := by
    rw [putEngines]
    split_ifs with here
    · exact here ▸ same
    · exact Moves.sameRefl _
  have wrote {node : NodeId} (op : Op) : Moves.SameMember (s.engines node) ((s.engines node).step op) := by
    have moves : Moves (fun _ => True) (s.engines node) ((s.engines node).step op) := Moves.ofStep fun _ _ => trivial
    exact Moves.same moves
  cases step with
  | write node op =>
      cases op with
      | write w => exact put (wrote _)
      | insertMany coll drafts => exact put (wrote _)
      | batch writes closed => exact put (wrote _)
      | replicated position entries commits => exact Moves.sameRefl _
  | note node => exact Moves.sameRefl _
  | advertise node => exact Moves.sameRefl _
  | ask i j limit marked askedPartial =>
      unfold Cluster.step
      simp only
      split
      · split <;> exact Moves.sameRefl _
      · exact Moves.sameRefl _
  | serve i spent =>
      unfold Cluster.step
      simp only
      split
      · split_ifs <;> exact Moves.sameRefl _
      · exact Moves.sameRefl _
  | apply i commits =>
      unfold Cluster.step
      simp only
      split
      next ask window found =>
        exact put (sameBatch _ _ _ _ _)
      · exact Moves.sameRefl _

theorem sameRuns (s : Cluster) (steps : List ClusterStep) (n : NodeId) :
    Moves.SameMember (s.engines n) ((s.run steps).engines n) := by
  induction steps generalizing s with
  | nil => exact Moves.sameRefl _
  | cons step rest ih => exact Moves.sameTrans (sameStep s step n) (ih _)

theorem Steady.run {s : Cluster} (steady : s.Steady) {steps : List ClusterStep}
    (room : ∀ n, ((s.run steps).engines n).Room) : (s.run steps).Steady := by
  induction steps generalizing s with
  | nil => exact steady
  | cons step rest ih =>
      exact ih (steady.step step fun n => (roomBefore (sameRuns (s.step step) rest n) (room n)).1) room

/- The highest write, where the log holds it, is what the document table holds. -/
theorem Steady.record {s : Cluster} (steady : s.Steady) {n : NodeId} {a : Address} {x : OplogEntry}
    (highest : s.Highest a x) (logged : (s.engines n).db.oplog.get x.stamp = some x) :
    (s.engines n).db.docs.get a = some x.outcome := by
  have settled := (steady.core n).settled a
  cases held : (s.engines n).db.docs.get a with
  | none =>
      rw [held] at settled
      exact absurd highest.there (settled _ x logged)
  | some r =>
      rw [held] at settled
      obtain ⟨⟨y, found, there, rfl⟩, all⟩ := settled
      rw [incomingStamp] at found all
      have same : y.stamp = x.stamp :=
        le_antisymm (highest.highest y (steady.origin n _ y found) there) (all _ x logged highest.there)
      rw [same, logged] at found
      obtain rfl := Option.some.inj found
      rw [outcomeIncoming ((steady.core n).formed _ x logged) there]

instance : Finite Stamp :=
  Finite.of_injective (fun s : Stamp => (s.hlc.wallMs,s.hlc.counter,s.node)) fun x y same => by
    obtain ⟨⟨_, _⟩, _⟩ := x
    obtain ⟨⟨_, _⟩, _⟩ := y
    simp only [Prod.mk.injEq] at same
    obtain ⟨rfl, rfl, rfl⟩ := same
    rfl

def names (n : NodeId) : ClusterStep → Prop
  | .write node _ | .note node => node = n
  | _ => False

/- It is as it was. -/
structure Aside (start : Engine) (n : NodeId) (s : Cluster) : Prop where
  same : s.engines n = start
  noted : ∀ x ∈ s.noted, x.1 ≠ n
  asked : ∀ ask ∈ s.asked, ask.requester ≠ n
  answered : ∀ x ∈ s.answered, x.1.requester ≠ n

theorem Aside.put {start : Engine} {n node : NodeId} {s : Cluster} {e : Engine} (aside : Aside start n s)
    (other : node ≠ n) : Aside start n (s.put node e) :=
  ⟨by rw [putEngines, if_neg other.symm, aside.same],aside.noted,aside.asked,aside.answered⟩

theorem Aside.step {start : Engine} {n : NodeId} {s : Cluster} (aside : Aside start n s) {step : ClusterStep}
    (unnamed : ¬ names n step) : Aside start n (s.step step) := by
  cases step with
  | write node op =>
      cases op with
      | write w => exact aside.put unnamed
      | insertMany coll drafts => exact aside.put unnamed
      | batch writes closed => exact aside.put unnamed
      | replicated position entries commits => exact aside
  | note node =>
      refine ⟨aside.same,fun x member => ?_,aside.asked,aside.answered⟩
      rcases List.mem_append.mp member with old | new
      · exact aside.noted x old
      · rw [List.mem_singleton.mp new]
        exact unnamed
  | advertise node => exact ⟨aside.same,aside.noted,aside.asked,aside.answered⟩
  | ask i j limit marked askedPartial =>
      unfold Cluster.step
      simp only
      split
      next requester mine peer theirs first second =>
        split
        · refine ⟨aside.same,aside.noted,fun ask member => ?_,aside.answered⟩
          rcases List.mem_append.mp member with old | new
          · exact aside.asked ask old
          · rw [List.mem_singleton.mp new]
            exact aside.noted _ (List.mem_of_getElem? first)
        · exact aside
      · exact aside
  | serve i spent =>
      unfold Cluster.step
      simp only
      split
      next ask found =>
        split_ifs
        · exact aside
        · refine ⟨aside.same,aside.noted,aside.asked,fun x member => ?_⟩
          rcases List.mem_append.mp member with old | new
          · exact aside.answered x old
          · rw [List.mem_singleton.mp new]
            exact aside.asked ask (List.mem_of_getElem? found)
      · exact aside
  | apply i commits =>
      unfold Cluster.step
      simp only
      split
      next ask window found => exact aside.put (aside.answered _ (List.mem_of_getElem? found))
      · exact aside

theorem Aside.run {start : Engine} {n : NodeId} {s : Cluster} (aside : Aside start n s) {steps : List ClusterStep}
    (unnamed : ∀ step ∈ steps, ¬ names n step) : Aside start n (s.run steps) := by
  induction steps generalizing s with
  | nil => exact aside
  | cons step rest ih =>
      exact ih (aside.step (unnamed step List.mem_cons_self)) fun x member => unnamed x (List.mem_cons_of_mem _ member)

theorem openedAside (physicalNowMs : NodeId → Nat → Fin (2 ^ 64))
    (collections : NodeId → SortedMap CollectionId CollectionMeta) (n : NodeId) :
    Aside (.opened n (physicalNowMs n) (collections n)) n (opened physicalNowMs collections) :=
  ⟨rfl,fun _ member => absurd member List.not_mem_nil,fun _ member => absurd member List.not_mem_nil,
    fun _ member => absurd member List.not_mem_nil⟩

/-! The end of the timestamps. -/

/- The document is replaced by one it is not. -/
def flip : Op := .write (.replace 0
  ⟨[1],fun previous => if previous = some [("a",.int32 1)] then [("a",.int32 2)] else [("a",.int32 1)],true,none,
    fun _ _ => true⟩)

theorem flipped {e : Engine} (plain : e.db.collections = .empty) :
    ∃ kind body, e.step flip = e.write 0 [1] kind (some body) := by
  have indexless : e.db.currentIndexes 0 = [] := by
    rw [Tables.currentIndexes, plain]
    rfl
  have maintained : ∀ old new, e.db.maintain 0 old (some new) [1] = .ok e.db := by
    intro old new
    unfold Tables.maintain
    rw [indexless]
    simp only [maintainLocal, Option.bind_some, List.findSome?_nil, Except.map, Tables.settle, plain,
      SortedMap.getEmpty]
    rw [←plain]
    rfl
  have changed : (e.db.docs.get ⟨0,[1]⟩).any (fun record => record.isLive && decide (record.body =
      if (e.db.docs.get ⟨0,[1]⟩).bind DocRecord.document = some [("a",.int32 1)] then [("a",.int32 2)]
        else [("a",.int32 1)])) = false := by
    cases e.db.docs.get ⟨0,[1]⟩ with
    | none => rfl
    | some record =>
        obtain ⟨stamp, deleted, body⟩ := record
        cases deleted with
        | true => rfl
        | false =>
            simp only [Option.any_some, DocRecord.isLive, DocRecord.document, Option.bind_some, Bool.not_false,
              Bool.true_and, Bool.false_eq_true, if_false, Option.some.injEq, decide_eq_false_iff_not]
            split_ifs with first
            · rw [first]
              decide
            · exact first
  refine ⟨if ((e.db.docs.get ⟨0,[1]⟩).bind DocRecord.document).isSome then .replace else .insert,
    if (e.db.docs.get ⟨0,[1]⟩).bind DocRecord.document = some [("a",.int32 1)] then [("a",.int32 2)]
      else [("a",.int32 1)],?_⟩
  simp only [flip, Engine.step, Engine.writeInTxn, Engine.replaceInTxn, Option.isSome_none, Bool.false_and,
    Bool.false_eq_true, if_false, Bool.not_true, Bool.and_false, changed, maintained]
  rfl

/- An appended entry is covered, if all that were there are. -/
theorem appendCovers {t : Tables} (covered : ∀ s x, t.oplog.get s = some x → t.witnessed.Covers s) (entry : OplogEntry) :
    ∀ s x, (t.appendOplog entry).oplog.get s = some x → (t.appendOplog entry).witnessed.Covers s := by
  intro s x found
  have grows : ∀ o, t.witnessed.get o ≤ (t.appendOplog entry).witnessed.get o := by
    intro o
    rcases Tables.appendRaised t entry .raise with ⟨_, same⟩ | ⟨_, raised⟩
    · exact same ▸ le_refl _
    · exact (VersionVector.raiseLe _ entry.stamp _).trans (raised ▸ le_refl _)
  unfold Tables.appendOplog at found
  rw [Tables.appendLog, SortedMap.getInsert] at found
  split_ifs at found with same
  · subst same
    cases held : t.oplog.get entry.stamp with
    | some y => exact (covered _ y held).trans (grows _)
    | none =>
        have raised : (t.appendOplog entry).witnessed = t.witnessed.raise entry.stamp := by
          simp [Tables.appendOplog, Tables.appendOplogAt, held, Tables.raiseVersions]
        rw [VersionVector.Covers, raised, VersionVector.getRaise, if_pos rfl]
        exact le_max_right _ _
  · exact (covered s x found).trans (grows _)

/- Standing at a timestamp of the last millisecond, which was written. -/
structure AtTheEnd (e : Engine) (count : Nat) : Prop where
  node : e.node = 0
  physical : e.physicalNowMs = fun _ => Hlc.max.wallMs
  plain : e.db.collections = .empty
  wall : e.clock.last.wallMs = Hlc.max.wallMs
  counter : e.clock.last.counter.val = count
  logged : ∃ x, e.db.oplog.get ⟨e.clock.last,0⟩ = some x ∧ x.stamp = ⟨e.clock.last,0⟩ ∧ x.address = some ⟨0,[1]⟩
  covered : ∀ s x, e.db.oplog.get s = some x → e.db.witnessed.Covers s

theorem flipTo {e : Engine} {h : Hlc} (node : e.node = 0) (physical : e.physicalNowMs = fun _ => Hlc.max.wallMs)
    (plain : e.db.collections = .empty) (covered : ∀ s x, e.db.oplog.get s = some x → e.db.witnessed.Covers s)
    (next : e.nextStamp = ⟨h,0⟩) (wall : h.wallMs = Hlc.max.wallMs) : AtTheEnd (e.step flip) h.counter.val := by
  obtain ⟨kind, body, same⟩ := flipped plain
  rw [same]
  have last : (e.write 0 [1] kind (some body)).clock.last = h := by
    have ticked := calledClock e
    rw [next] at ticked
    exact ticked
  have log : (e.write 0 [1] kind (some body)).db.oplog =
      e.db.oplog.insert e.nextStamp ⟨e.nextStamp,kind,0,some [1],some body⟩ := Tables.appendLog _ _ _
  refine ⟨node,physical,(Tables.appendData _ _ _).collections.trans plain,?_,?_,?_,?_⟩
  · rw [last, wall]
  · rw [last]
  · refine ⟨⟨e.nextStamp,kind,0,some [1],some body⟩,?_,?_,rfl⟩
    · rw [log, last, next, SortedMap.getInsert, if_pos rfl]
    · rw [last, next]
  · exact appendCovers (t := e.db.putRecord ⟨0,[1]⟩ (OplogEntry.incoming ⟨e.nextStamp,kind,0,some [1],some body⟩)) covered _

/- One write after another, each a count above the last. -/
theorem flips : ∀ count : Nat, count < 2 ^ 16 →
    AtTheEnd ((Engine.opened 0 (fun _ => Hlc.max.wallMs) .empty).run (List.replicate (count + 1) flip)) count
  | 0, _ => flipTo (e := Engine.opened 0 (fun _ => Hlc.max.wallMs) .empty) (h := ⟨Hlc.max.wallMs,0⟩) rfl rfl rfl
      (fun _ _ found => nomatch found) (by decide +kernel) rfl
  | count + 1, room => by
      have here := flips count (by omega)
      have split : List.replicate (count + 1 + 1) flip = List.replicate (count + 1) flip ++ [flip] :=
        List.replicate_succ'
      rw [split, Engine.run, List.foldl_append]
      change AtTheEnd (Engine.step (Engine.run _ _) flip) (count + 1)
      generalize (Engine.opened 0 (fun _ => Hlc.max.wallMs) .empty).run (List.replicate (count + 1) flip) = e at here ⊢
      have next : e.nextStamp = ⟨e.clock.last.successor,0⟩ := by
        unfold Engine.nextStamp HlcClock.tick HlcClock.above
        rw [here.physical, here.node, if_neg (by rw [here.wall]; exact lt_irrefl _)]
      have counts : e.clock.last.successor = ⟨Hlc.max.wallMs,⟨count + 1,room⟩⟩ := by
        unfold Hlc.successor
        rw [dif_pos (by rw [here.counter]; exact room)]
        simp only [here.wall, here.counter]
      rw [counts] at next
      exact flipTo here.node here.physical here.plain here.covered next rfl

def books : SortedMap CollectionId CollectionMeta := SortedMap.empty.insert 0 ⟨[],CollectionMeta.unindexed⟩

/- A replaces one document and writes another; B takes them in two windows, of which the first
comes again after the second. -/
def exchange : List ClusterStep :=
  [.write 0 flip,.write 0 flip,.write 0 (.write (.insert 0 ⟨[2],[("b",.int32 1)],true⟩)),
    .note 1,.advertise 0,.ask 0 0 1 [] true,.serve 0 none,.apply 0 true,
    .note 1,.advertise 0,.ask 1 1 8 [] true,.serve 1 none,.apply 1 true,.apply 0 true]

end Cluster

end Kimmy.Store
