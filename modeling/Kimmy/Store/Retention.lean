import Kimmy.Store.Pull

/-!
Oplog retention (`gc.rs`) and the verdict on a pull (`snapshot.rs`, `transport.rs`). A pass
scans the expired keys and removes them in a later transaction, and a peer judges a request
before it walks its oplog: each of these is a step of its own.
-/
namespace Kimmy.Store
open Merge

/-! Removing entries. -/

/- An entry goes with its arrival position and its mark. -/
def Tables.removeEntry (t : Tables) (key : Stamp) : Tables :=
  { t with
    oplog := t.oplog.remove key
    arrival := match t.arrivalSeq.get key with
      | some seq => t.arrival.remove seq
      | none => t.arrival
    arrivalSeq := t.arrivalSeq.remove key
    held := t.held.remove key }

structure Removal where
  tables : Tables
  highest : Option Hlc
  perOrigin : VersionVector

/- A key that is gone already is passed over. -/
def Removal.take (removal : Removal) (key : Stamp) : Removal :=
  if (removal.tables.oplog.get key).isNone then removal
  else ⟨removal.tables.removeEntry key,some (removal.highest.elim key.hlc (max key.hlc)),removal.perOrigin.observe key⟩

def Tables.removing (t : Tables) (keys : List Stamp) : Removal := keys.foldl Removal.take ⟨t,none,.new⟩

/- What was removed of each origin is marked in the same transaction. -/
def Tables.removeOplogEntries (t : Tables) (keys : List Stamp) : Tables :=
  let removal := t.removing keys
  { removal.tables with collected := removal.tables.collected.merge removal.perOrigin }

def Tables.oplogTail (t : Tables) : Option Stamp := (t.oplog.entries.getLast?).map Prod.fst

/- The expired entries, the newest apart: the clock resumes from it. -/
def Tables.expired (t : Tables) (cutoff : Hlc) (newest : Stamp) (chunk : Nat) : List Stamp :=
  (((t.oplog.entries.map Prod.fst).takeWhile fun stamp => stamp.hlc < cutoff).filter (· ≠ newest)).take chunk

/-! What a removal leaves. -/

namespace Removal

theorem takeSame (removal : Removal) (key : Stamp) :
    (removal.take key).tables.docs = removal.tables.docs ∧ (removal.take key).tables.versions = removal.tables.versions ∧
    (removal.take key).tables.witnessed = removal.tables.witnessed ∧
    (removal.take key).tables.collected = removal.tables.collected ∧
    (removal.take key).tables.collections = removal.tables.collections ∧
    (removal.take key).tables.entries = removal.tables.entries := by
  unfold take
  split_ifs
  · exact ⟨rfl,rfl,rfl,rfl,rfl,rfl⟩
  · exact ⟨rfl,rfl,rfl,rfl,rfl,rfl⟩

theorem takeLog (removal : Removal) (key s : Stamp) :
    (removal.take key).tables.oplog.get s = if s = key then none else removal.tables.oplog.get s := by
  unfold take
  split_ifs with absent same same
  · rw [same]
    exact Option.isNone_iff_eq_none.mp absent
  · rfl
  · exact (SortedMap.getRemove _ _ _).trans (if_pos same)
  · exact (SortedMap.getRemove _ _ _).trans (if_neg same)

theorem takeHeld (removal : Removal) (key : Stamp) (unheld : removal.tables.held = .empty) :
    (removal.take key).tables.held = .empty := by
  unfold take
  split_ifs
  · exact unheld
  · refine SortedMap.ext fun s => ?_
    refine (SortedMap.getRemove _ _ _).trans ?_
    rw [unheld]
    split_ifs
    · rfl
    · rfl

theorem takeMarks (removal : Removal) (key : Stamp) (o : NodeId) :
    removal.perOrigin.get o ≤ (removal.take key).perOrigin.get o := by
  unfold take
  split_ifs
  · exact le_refl _
  · rw [VersionVector.getObserve]
    split_ifs
    · exact le_max_left _ _
    · exact le_refl _

/- A mark that moved is the timestamp of the key. -/
theorem takeSourced (removal : Removal) (key : Stamp) (o : NodeId) :
    (removal.take key).perOrigin.get o = removal.perOrigin.get o ∨
      (⟨(removal.take key).perOrigin.get o,o⟩ : Stamp) = key ∧ (removal.tables.oplog.get key).isSome = true := by
  unfold take
  split_ifs with absent
  · exact Or.inl rfl
  · rw [VersionVector.getObserve]
    split_ifs with own
    · rcases max_choice (removal.perOrigin.get o) key.hlc with old | new
      · exact Or.inl old
      · refine Or.inr ⟨?_,Option.isSome_iff_ne_none.mpr (by simpa using absent)⟩
        rw [new, own]
    · exact Or.inl rfl

theorem takeTopped (removal : Removal) (key : Stamp) (top : ∀ o, removal.perOrigin.get o ≤ removal.highest.getD .zero)
    (o : NodeId) : (removal.take key).perOrigin.get o ≤ (removal.take key).highest.getD .zero := by
  unfold take
  split_ifs
  · exact top o
  · have above : removal.highest.getD .zero ≤ removal.highest.elim key.hlc (max key.hlc) ∧
        key.hlc ≤ removal.highest.elim key.hlc (max key.hlc) := by
      cases removal.highest with
      | none => exact ⟨VersionVector.zeroLe _,le_refl _⟩
      | some hlc => exact ⟨le_max_right _ _,le_max_left _ _⟩
    rw [VersionVector.getObserve]
    split_ifs
    · exact max_le ((top o).trans above.1) above.2
    · exact (top o).trans above.1

/- After any number of keys. -/
structure After (keys : List Stamp) (start done : Removal) : Prop where
  docs : done.tables.docs = start.tables.docs
  versions : done.tables.versions = start.tables.versions
  witnessed : done.tables.witnessed = start.tables.witnessed
  collected : done.tables.collected = start.tables.collected
  collections : done.tables.collections = start.tables.collections
  entries : done.tables.entries = start.tables.entries
  unheld : start.tables.held = .empty → done.tables.held = .empty
  log : ∀ s, done.tables.oplog.get s = if s ∈ keys then none else start.tables.oplog.get s
  grows : ∀ o, start.perOrigin.get o ≤ done.perOrigin.get o
  marked : ∀ s ∈ keys, (start.tables.oplog.get s).isSome = true → s.hlc ≤ done.perOrigin.get s.node
  sourced : ∀ o, done.perOrigin.get o = start.perOrigin.get o ∨
    (⟨done.perOrigin.get o,o⟩ : Stamp) ∈ keys ∧ (start.tables.oplog.get ⟨done.perOrigin.get o,o⟩).isSome = true
  topped : (∀ o, start.perOrigin.get o ≤ start.highest.getD .zero) → ∀ o, done.perOrigin.get o ≤ done.highest.getD .zero

theorem after : ∀ (keys : List Stamp) (start : Removal), After keys start (keys.foldl take start)
  | [], start => ⟨rfl,rfl,rfl,rfl,rfl,rfl,id,fun s => rfl,fun o => le_refl _,nofun,fun _ => Or.inl rfl,id⟩
  | key :: rest, start => by
      obtain ⟨docs, versions, witnessed, collected, collections, entries, unheld, log, grows, marked, sourced, topped⟩ :=
        after rest (start.take key)
      obtain ⟨docs', versions', witnessed', collected', collections', entries'⟩ := takeSame start key
      refine ⟨docs.trans docs',versions.trans versions',witnessed.trans witnessed',collected.trans collected',
        collections.trans collections',entries.trans entries',fun none' => unheld (takeHeld start key none'),fun s => ?_,
        fun o => (takeMarks start key o).trans (grows o),fun s member there => ?_,fun o => ?_,
        fun top => topped (takeTopped start key top)⟩
      · rw [List.foldl_cons, log, takeLog]
        simp only [List.mem_cons]
        split_ifs <;> simp_all
      · by_cases later : s ∈ rest ∧ s ≠ key
        · refine marked s later.1 ?_
          rw [takeLog, if_neg later.2]
          exact there
        · have here : s = key := by
            rcases List.mem_cons.mp member with same | inside
            · exact same
            · by_contra other
              exact later ⟨inside,other⟩
          subst here
          refine le_trans ?_ (grows _)
          unfold take
          rw [if_neg (by simpa using Option.ne_none_iff_isSome.mpr there), VersionVector.getObserve, if_pos rfl]
          exact le_max_right _ _
      · rw [List.foldl_cons]
        rcases sourced o with before | ⟨inside, there⟩
        · rw [before]
          rcases takeSourced start key o with same | ⟨here, there⟩
          · exact Or.inl same
          · rw [here]
            exact Or.inr ⟨List.mem_cons_self,there⟩
        · refine Or.inr ⟨List.mem_cons_of_mem _ inside,?_⟩
          rw [takeLog] at there
          split_ifs at there
          · cases there
          · exact there

end Removal

/-! The verdict. -/

inductive ServeVerdict where
  | serve | collected | stateHeld
  deriving DecidableEq

/- Whether a peer lacks a removed entry of an origin that this member is ahead of it on. -/
def lacksCollected (held mine collected : VersionVector) : Bool :=
  mine.positions.entries.any fun x => held.get x.1 < x.2 && held.get x.1 < collected.get x.1

/- `stateHeld` is what a whole-database snapshot gave without its entries. -/
def Tables.serveVerdict (t : Tables) (stateHeld held : VersionVector) : ServeVerdict :=
  if lacksCollected held t.versions t.collected then .collected
  else if lacksCollected held t.versions stateHeld then .stateHeld
  else .serve

/-! Members that write, pull and collect. -/

/- A retention pass, with the keys of its last scan. -/
structure CollectPass where
  node : NodeId
  cutoff : Hlc
  newest : Stamp
  keys : List Stamp

/- `served` are the requests that were judged and are still to be walked for, `refused` those
answered with `BeyondHorizon`. -/
structure Serving where
  cluster : Cluster
  served : List AskEntries
  refused : List AskEntries
  passes : List CollectPass

inductive ServingStep where
  | plain (step : ClusterStep)
  | judge (asked : Nat)
  | walk (served : Nat) (spent : Option (Nat → Bool))
  | collect (node : NodeId) (cutoff : Hlc)
  | scan (pass chunk : Nat)
  | remove (pass : Nat)

namespace Serving

def opened (physicalNowMs : NodeId → Nat → Fin (2 ^ 64))
    (collections : NodeId → SortedMap CollectionId CollectionMeta) : Serving :=
  ⟨.opened physicalNowMs collections,[],[],[]⟩

def tables (s : Serving) (node : NodeId) : Tables := (s.cluster.engines node).db

/- No snapshot has been taken, so no member holds anything as state. -/
def verdict (s : Serving) (ask : AskEntries) : ServeVerdict := (s.tables ask.peer).serveVerdict .new ask.mine

def step (s : Serving) : ServingStep → Serving
  | .plain step => match step with
      -- a window is served in the two steps below
      | .serve _ _ => s
      | step => { s with cluster := s.cluster.step step }
  | .judge i => match s.cluster.asked[i]? with
      | some ask =>
          if s.verdict ask = .serve then { s with served := s.served ++ [ask] }
          else { s with refused := s.refused ++ [ask] }
      | none => s
  | .walk i spent => match s.served[i]? with
      | some ask =>
          let window := (s.tables ask.peer).entriesForPeer ask.first ask.limit (some ask.mine) ask.marked spent
          if !ask.askedPartial && window.passedThrough.isSome then s
          else { s with cluster := { s.cluster with answered := s.cluster.answered ++ [(ask,window)] } }
      | none => s
  | .collect node cutoff => match (s.tables node).oplogTail with
      | some newest => { s with passes := s.passes ++ [⟨node,cutoff,newest,[]⟩] }
      | none => s
  | .scan i chunk => match s.passes[i]? with
      | some pass =>
          let keys := (s.tables pass.node).expired pass.cutoff pass.newest chunk
          { s with passes := s.passes.set i ⟨pass.node,pass.cutoff,pass.newest,keys⟩ }
      | none => s
  | .remove i => match s.passes[i]? with
      | some pass =>
          let e := s.cluster.engines pass.node
          { s with cluster := s.cluster.put pass.node { e with db := e.db.removeOplogEntries pass.keys } }
      | none => s

def run (s : Serving) (steps : List ServingStep) : Serving := steps.foldl step s

/-! What a run has seen. -/

/- An entry was in a member's log at some point of the run. -/
def EverHeld (s : Serving) (steps : List ServingStep) (node : NodeId) (x : OplogEntry) : Prop :=
  ∃ k, ((s.run (steps.take k)).tables node).oplog.get x.stamp = some x

/- A write ever made, whether or not a log still has it. -/
def Made (s : Serving) (steps : List ServingStep) (x : OplogEntry) : Prop := s.EverHeld steps x.stamp.node x

/- The globally highest write ever made to a document. -/
structure HighestMade (s : Serving) (steps : List ServingStep) (a : Address) (x : OplogEntry) : Prop where
  made : s.Made steps x
  there : x.address = some a
  highest : ∀ y, s.Made steps y → y.address = some a → y.stamp ≤ x.stamp

/- An entry that retention has taken from a member. -/
structure Lost (s : Serving) (steps : List ServingStep) (node : NodeId) (x : OplogEntry) : Prop where
  held : s.EverHeld steps node x
  gone : ((s.run steps).tables node).oplog.get x.stamp = none

/- When a peer walks, it could still serve the request: nothing that the requester lacks has
been collected since the verdict. -/
def Undisturbed (s : Serving) : ServingStep → Prop
  | .walk i _ => ∀ ask, s.served[i]? = some ask → s.verdict ask = .serve
  | _ => True

def UndisturbedRun (s : Serving) : List ServingStep → Prop
  | [] => True
  | step :: rest => s.Undisturbed step ∧ (s.step step).UndisturbedRun rest

end Serving

end Kimmy.Store
