import Kimmy.Vector.Turns

/-!
The worker's attempts and its stream, and from them every run: what is owed is marked, and a mark goes
only where nothing is owed.
-/
namespace Kimmy.Vector
open Merge Store

section
variable {c : Config} {s t : State} {promise : Promise} {known : State → Prop}

/-! Attempts. -/

/- What a collection's attempt leaves. -/
def Attempted (c : Config) (promise : Promise) (known : State → Prop) (stopped : Bool) (s : State) : Prop :=
  if stopped then Lasting c s else Holds c promise known s

theorem safeScanCollection {k : CollectionId} {how : Unscanned} (holds : Holds c (both promise (ofScan k)) known s)
    (frame : Frame c known) : (scanCollection c k how).Safe (Lasting c) Beside (Attempted c promise known) s := by
  refine safeRead holds frame.wrote fun t held => ?_
  have listed : Holds c (both (both promise (ofIds k (t.ids k))) (ofJobs k [])) known t := by
    refine held.weaken fun a rec covered promised => Or.inr (Or.inl (promised.imp_right fun same => ⟨same,?_⟩))
    unfold State.ids
    refine List.mem_map.mpr ⟨(a,rec),List.mem_filter.mpr ⟨SortedMap.memEntries.mpr covered.1,?_⟩,rfl⟩
    have inside : a.collection = k := same
    simp [inside, covered.2.1]
  refine Prog.safeThen (@safeScanDocs _ _ _ _ frame _ ⟨k,[]⟩ _ rfl listed fun other member => absurd member List.not_mem_nil)
    fun ended u ends => ?_
  cases ended with
  | none => exact ends
  | some ended =>
      cases ended with
      | stopped => exact ends
      | held => exact Prog.safeThen (safeNoteRescan ends frame) fun _ v done => done

/- What an entry of a collection has left to do. -/
def ofEntry (k : CollectionId) (b : Backoff) : Promise := fun a hlc => a.collection = k ∧ b.promise a hlc

theorem safeRetryCollection {k : CollectionId} {b : Backoff} (holds : Holds c (both promise (ofEntry k b)) known s)
    (genuine : ∀ batch, b.held = some batch → batch.collection = k ∧ AllGenuine c s k batch.jobs) (frame : Frame c known) :
    (retryCollection c k b.held b.rescan).Safe (Lasting c) Beside (Attempted c promise known) s := by
  unfold retryCollection
  split_ifs with embeds
  · refine ⟨holds.1.weaken fun a rec wanted _ promised => Or.inr (Or.inl ?_),holds.2⟩
    rcases promised with first | ⟨same, _⟩
    · exact first
    · rw [same] at wanted
      simp [wanted] at embeds
  · -- what is left once the held batch is sent
    have scans {t : State} (left : Holds c (both promise fun a _ => a.collection = k ∧ b.rescan.isSome = true) known t) :
        (b.rescan = none → Holds c promise known t) ∧ Holds c (both promise (ofScan k)) known t := by
      refine ⟨fun rescan => ?_,Holds.weaken left fun a rec _ promised => Or.inr (promised.imp_right And.left)⟩
      rw [rescan] at left
      refine Holds.weaken left fun a rec _ promised => Or.inr (promised.resolve_right fun wrong => ?_)
      cases wrong.2
    have sent : (b.held.elim (pure .new) fun batch => embedBatch batch .new : Work Checkpoint).Safe (Lasting c) Beside
        (fun checkpoint t => if checkpoint.stopped then Lasting c t
          else Holds c (both promise fun a _ => a.collection = k ∧ b.rescan.isSome = true) known t) s := by
      cases held : b.held with
      | none =>
          refine holds.weaken fun a rec _ promised => Or.inr (promised.imp_right fun here => ⟨here.1,?_⟩)
          rcases here.2 with rescan | ⟨batch, is, _⟩
          · exact rescan
          · rw [held] at is
            cases is
      | some batch =>
          obtain ⟨rfl, jobs⟩ := genuine batch held
          have split : Holds c (both (both promise fun a _ => a.collection = batch.collection ∧ b.rescan.isSome = true)
              (ofJobs batch.collection batch.jobs)) known s := by
            refine holds.weaken fun a rec _ promised => Or.inr ?_
            rcases promised with first | ⟨same, rescan | ⟨other, is, job⟩⟩
            · exact Or.inl (Or.inl first)
            · exact Or.inl (Or.inr ⟨same,rescan⟩)
            · cases Option.some.inj (held.symm.trans is)
              exact Or.inr (same ▸ job)
          refine Prog.safeMono (fun checkpoint t ends => ?_)
            (safeEmbedBatch rfl split jobs frame (fun n is => by cases is) fun is => by cases is)
          unfold Ends at ends
          split_ifs at ends ⊢
          · exact ends.2
          · exact ends.1
    rcases held : b.held with _ | batch
    all_goals
      rw [held] at sent
      refine Prog.safeThen sent fun checkpoint t ends => ?_
      beta_reduce
      by_cases stopped : checkpoint.stopped = true
      · rw [if_pos stopped] at ends ⊢
        exact ends
      · rw [if_neg stopped] at ends ⊢
        cases rescan : b.rescan with
        | none => exact (scans ends).1 rescan
        | some how =>
            simp only
            split_ifs
            · exact Prog.safeThen (safeNoteRescan (scans ends).2 frame) fun _ u done => done
            · exact safeScanCollection (scans ends).2 frame

/-! A collection's entry. -/

def nothing : Promise := fun _ _ => False

/- Every turn of the loop begins and ends so. -/
abbrev Idle (c : Config) : State → Prop := Holds c nothing fun _ => True

theorem Holds.idle (holds : Holds c nothing known s) : Idle c s := ⟨holds.1,trivial⟩

def HeldGenuine (c : Config) (k : CollectionId) (b : Backoff) (s : State) : Prop :=
  ∀ batch, b.held = some batch → batch.collection = k ∧ AllGenuine c s k batch.jobs

theorem frameHeld (k : CollectionId) (b : Backoff) : Frame c (HeldGenuine c k b) :=
  ⟨fun _ _ _ _ wrote _ _ all batch is => (all batch is).imp_right wrote.allGenuine,
    fun s t log docs read pending position all batch is =>
      (all batch is).imp_right ((frameGenuine k batch.jobs).same s t log docs read pending position)⟩

/- The entry is emptied, and what it had is in flight. -/
theorem Working.taken (working : Working c nothing none s) {k : CollectionId} {b : Backoff} (found : s.backoff.get k = some b) :
    Holds c (both nothing (ofEntry k b)) (HeldGenuine c k b)
      { s with backoff := s.backoff.insert k { b with held := none, rescan := none } } := by
  have replaced : Working c (both nothing (ofEntry k b)) (some k)
      { s with backoff := s.backoff.insert k { b with held := none, rescan := none } } := by
    refine working.replaced k (by rw [found]; rfl) (fun batch is => by cases is) (fun a hlc promised => promised.elim)
      fun old a hlc there same promised => ?_
    cases Option.some.inj (found.symm.trans there)
    exact Or.inl (Or.inr ⟨same,promised⟩)
  refine ⟨?_,fun batch is => ?_⟩
  · obtain ⟨lasting, behind, within, token, waiting, ahead, held, owed, marked, debt⟩ := replaced
    refine ⟨lasting,behind,within,token,waiting,ahead,held,owed,marked,fun j x _ there owing => ?_⟩
    by_cases same : j = k
    · simp only [SortedMap.getInsert, if_pos same] at there
      cases Option.some.inj there
      rcases owing with wrong | wrong <;> cases wrong
    · exact debt j x (fun wrong => same (Option.some.inj wrong)) there owing
  · exact working.held k b batch found is

theorem safeMarkAgain {k : CollectionId} {unwritten : Option Unscanned} (holds : Holds c promise known s)
    (frame : Frame c known) : (markAgain k unwritten).Safe (Lasting c) Beside (fun _ => Holds c promise known) s := by
  cases unwritten with
  | none => exact holds
  | some how =>
      refine safeClock fun written => safeAct holds frame.wrote fun t held => ?_
      have marked := (held.1.skipping k).mark how written
      exact ⟨marked.lasting,marked,frame.mark held.2⟩

/- The entry goes. -/
theorem Working.settled (working : Working c promise none s) {k : CollectionId} {b : Backoff}
    (found : s.backoff.get k = some b) (empty : b.held.isNone = true ∧ b.rescan.isNone = true) :
    Working c promise none { s with backoff := s.backoff.remove k } := by
  obtain ⟨lasting, behind, within, token, waiting, ahead, held, owed, marked, debt⟩ := working
  have others {j : CollectionId} {x : Backoff} (there : (s.backoff.remove k).get j = some x) :
      s.backoff.get j = some x := by
    rw [SortedMap.getRemove] at there
    split_ifs at there
    exact there
  refine ⟨⟨lasting.reached,lasting.logged,lasting.sorted,lasting.vectors,lasting.refused,lasting.owes⟩,behind,within,token,
    waiting,ahead,fun j x batch there => held j x batch (others there),fun a rec embeds covered => ?_,
    fun j x there => marked j x (others there),fun j x any there => debt j x any (others there)⟩
  rcases owed a rec embeds covered with settled | promised | waits | ⟨x, there, promised⟩
  · exact Or.inl settled
  · exact Or.inr (Or.inl promised)
  · exact Or.inr (Or.inr (Or.inl waits))
  · refine Or.inr (Or.inr (Or.inr ⟨x,?_,promised⟩))
    rw [SortedMap.getRemove, if_neg]
    · exact there
    · intro same
      cases Option.some.inj (found.symm.trans (same ▸ there))
      rcases promised with rescan | ⟨batch, is, _⟩
      · rw [Option.isNone_iff_eq_none.mp empty.2] at rescan
        cases rescan
      · rw [Option.isNone_iff_eq_none.mp empty.1] at is
        cases is

/- No entry is left: what the position covers of the collection is settled. -/
theorem Working.cleared (working : Working c nothing none s) {k : CollectionId} (gone : s.backoff.get k = none) :
    Working c nothing none { s with marks := s.marks.remove k } := by
  obtain ⟨lasting, behind, within, token, waiting, ahead, held, owed, marked, debt⟩ := working
  refine ⟨⟨lasting.reached,lasting.logged,lasting.sorted,lasting.vectors,lasting.refused,fun a rec embeds covered => ?_⟩,
    behind,within,token,waiting,ahead,held,owed,fun j x there is => ?_,debt⟩
  · by_cases same : a.collection = k
    · rcases owed a rec embeds (coveredLonger behind covered) with settled | promised | waits | ⟨x, there, _⟩
      · exact Or.inl settled
      · exact promised.elim
      · exact absurd covered (ahead a rec waits)
      · rw [same, gone] at there
        cases there
    · refine (lasting.owes a rec embeds covered).imp_right fun is => ?_
      rw [SortedMap.getRemove, if_neg same]
      exact is
  · rw [SortedMap.getRemove, if_neg]
    · exact marked j x there is
    · intro same
      rw [same, gone] at there
      cases there

theorem safeSettle {k : CollectionId} (idle : Idle c s) : (settle k).Safe (Lasting c) Beside (fun _ => Idle c) s := by
  have after (settled : Bool) (t : State) (idle : Idle c t) (gone : settled = true → t.backoff.get k = none) :
      (do
        let cleared ← clock
        if settled && cleared then Prog.update fun s => { s with marks := s.marks.remove k }
        else return () : Work Unit).Safe (Lasting c) Beside (fun _ => Idle c) t := by
    refine safeClock fun cleared => ?_
    split_ifs with both
    · have none' : Holds c nothing (fun s => s.backoff.get k = none) t := ⟨idle.1,gone (Bool.and_eq_true_iff.mp both).1⟩
      refine safeAct none' (fun u v e a wrote _ _ before => ?_) fun u held => ?_
      · show v.backoff.get k = none
        rw [wrote.kept.2.2.2.2.2.2]
        exact before
      · have cleared := held.1.cleared held.2
        exact ⟨cleared.lasting,cleared,trivial⟩
    · exact idle
  refine safeStep idle frameTrue.wrote fun t held => ?_
  cases found : t.backoff.get k with
  | none => exact ⟨held.1.lasting,after false t held fun wrong => by cases wrong⟩
  | some b =>
      simp only
      split_ifs with empty
      · have settled := held.1.settled found (Bool.and_eq_true_iff.mp empty)
        refine ⟨settled.lasting,after true _ ⟨settled,trivial⟩ fun _ => ?_⟩
        show (t.backoff.remove k).get k = none
        rw [SortedMap.getRemove, if_pos rfl]
      · exact ⟨held.1.lasting,after false t held fun wrong => by cases wrong⟩

theorem safeRetryOneCollection {k : CollectionId} (idle : Idle c s) :
    (retryOneCollection c k).Safe (Lasting c) Beside (Attempted c nothing fun _ => True) s := by
  refine safeStep idle frameTrue.wrote fun t held => ?_
  cases found : t.backoff.get k with
  | none => exact ⟨held.1.lasting,held⟩
  | some b =>
      have taken := held.1.taken found
      refine ⟨taken.1.lasting,Prog.safeThen (safeMarkAgain taken (frameHeld k b)) fun _ u marked => ?_⟩
      refine Prog.safeThen (safeRetryCollection ⟨marked.1,trivial⟩ marked.2 frameTrue) fun stopped v attempted => ?_
      cases stopped with
      | true => exact attempted
      | false => exact Prog.safeThen (safeSettle attempted) fun _ w done => done

/-! The stream. -/

def ofAddress (entry : OplogEntry) : Promise := fun a _ => entry.address = some a

/- The entry that the stream has come to is the last one read. -/
structure Reading (entry : OplogEntry) (k : Nat) (s : State) : Prop where
  found : s.log[k]? = some entry
  read : s.read = k + 1

theorem deepReading (entry : OplogEntry) (k : Nat) : Deep c (Reading entry k) := by
  refine ⟨fun s t e a wrote _ _ reading => ⟨?_,wrote.kept.2.2.2.2.1.trans reading.read⟩,
    fun s t log docs read reading => ⟨log ▸ reading.found,read.trans reading.read⟩⟩
  rw [wrote.same]
  have inside := (List.getElem?_eq_some_iff.mp reading.found).1
  simp only [List.getElem?_append_left inside]
  exact reading.found

/- A version written before the entry is not the current one. -/
theorem Lasting.replaced (lasting : Lasting c s) {entry : OplogEntry} {k : Nat} (found : s.log[k]? = some entry)
    {a : Address} (address : entry.address = some a) (rec : DocRecord) : ¬ Covered s k a rec := by
  rintro ⟨current, _, i, below, e, there, same, stamp⟩
  obtain ⟨now, held, le, _⟩ := lasting.logged k entry a found address
  cases current.symm.trans held
  have less := lasting.sorted i k e entry a below there found same address
  rw [stamp] at less
  exact absurd le (not_le.mpr less)

theorem Working.next (working : Working c nothing none s) {entry : OplogEntry} (found : s.log[s.read]? = some entry) :
    Working c (ofAddress entry) none { s with read := s.read + 1 } := by
  obtain ⟨lasting, behind, within, token, waiting, ahead, held, owed, marked, debt⟩ := working
  refine ⟨⟨lasting.reached,lasting.logged,lasting.sorted,lasting.vectors,lasting.refused,lasting.owes⟩,
    behind.trans (Nat.le_succ _),(List.getElem?_eq_some_iff.mp found).1,fun n is => (token n is).trans (Nat.le_succ _),waiting,
    ahead,held,fun a rec embeds covered => ?_,marked,debt⟩
  obtain ⟨current, live, i, below, e, there, same, stamp⟩ := covered
  rcases Nat.lt_succ_iff_lt_or_eq.mp below with before | rfl
  · rcases owed a rec embeds ⟨current,live,i,before,e,there,same,stamp⟩ with settled | promised | rest
    · exact Or.inl settled
    · exact promised.elim
    · exact Or.inr (Or.inr rest)
  · cases Option.some.inj (found.symm.trans there)
    exact Or.inr (Or.inl same)

/- The positions that are recorded or about to be are before the entry. -/
structure Before (entry : OplogEntry) (k : Nat) (s : State) : Prop extends Reading entry k s where
  tokens : ∀ n, s.pending.token = some n → n ≤ k
  position : s.position ≤ k

theorem frameBefore (entry : OplogEntry) (k : Nat) : Frame c (Before entry k) := by
  refine ⟨fun s t e a wrote lasting within before => ⟨(deepReading entry k).wrote s t e a wrote lasting within before.toReading,
    ?_,?_⟩,fun s t log docs read pending position before =>
      ⟨(deepReading (c := c) entry k).same s t log docs read before.toReading,?_,?_⟩⟩
  · rw [wrote.kept.2.2.2.2.2.1]
    exact before.tokens
  · rw [wrote.kept.2.1]
    exact before.position
  · rw [pending]
    exact before.tokens
  · rw [position]
    exact before.position

/- What is to embed of an entry, with its address. -/
def Gathered (c : Config) (entry : OplogEntry) (k : Nat) (prepared : Option Job) (s : State) : Prop :=
  match prepared with
  | none => Holds c nothing (Before entry k) s
  | some job => Holds c (ofJobs entry.collection [job]) (Before entry k) s ∧
      entry.address = some ⟨entry.collection,job.source⟩ ∧ Current c ⟨entry.collection,job.source⟩ job.hlc job.chunks s

theorem Holds.prepareEntry {entry : OplogEntry} {k : Nat} (holds : Holds c (ofAddress entry) (Before entry k) s) :
    Lasting c (s.prepareEntry c entry).1 ∧ Gathered c entry k (s.prepareEntry c entry).2 (s.prepareEntry c entry).1 := by
  unfold State.prepareEntry
  cases address : entry.address with
  | none =>
      refine ⟨holds.1.lasting,holds.weaken fun a rec _ promised => ?_⟩
      cases address.symm.trans promised
  | some a =>
      have collection : a.collection = entry.collection := by
        unfold OplogEntry.address at address
        obtain ⟨key, _, rfl⟩ := Option.map_eq_some_iff.mp address
        rfl
      have last (rec : DocRecord) (covered : Covered s s.read a rec) : rec = entry.incoming := by
        rw [holds.2.read] at covered
        exact holds.1.lasting.last holds.2.found address covered
      have one : Holds c (both nothing (ofOne a)) (Before entry k) s := holds.weaken fun b rec _ promised => by
        refine Or.inr (Or.inr ?_)
        exact Option.some.inj (Eq.trans (Eq.symm promised) address)
      obtain ⟨now, held, le, equal, deletes⟩ := holds.1.lasting.logged k entry a holds.2.found address
      simp only
      by_cases embeds : c.embeds a.collection = true
      · rw [if_neg (by simp [embeds])]
        by_cases delete : entry.kind = .delete
        · rw [if_pos delete]
          have done : Holds c nothing (Before entry k) (s.deleteVectors a) := by
            refine one.deleteVectors (fun rec covered => ?_) (frameBefore entry k)
            have alive := covered.2.1
            rw [last rec covered, deletes delete] at alive
            cases alive
          exact ⟨done.1.lasting,done⟩
        · rw [if_neg delete]
          cases body : entry.body with
          | none =>
              refine ⟨holds.1.lasting,one.weaken fun b rec covered promised => ?_⟩
              rcases promised with wrong | rfl
              · exact wrong.elim
              · have alive := covered.2.1
                rw [last rec covered] at alive
                unfold OplogEntry.incoming at alive
                rw [body] at alive
                cases alive
          | some document =>
              simp only
              by_cases stale : s.vectorsAreStale a entry.stamp.hlc = true
              · rw [if_pos stale]
                have current : Current c a entry.stamp.hlc (c.chunks a.collection document) s := by
                  refine ⟨⟨⟨now,held,le⟩,fun rec current _ same => ?_⟩,fun rec covered => ?_⟩
                  · cases held.symm.trans current
                    rw [equal same.symm]
                    unfold OplogEntry.incoming
                    rw [body]
                    rfl
                  · rw [last rec covered, incomingStamp]
                obtain ⟨lasting, prepared⟩ := one.prepare current (frameBefore entry k)
                refine ⟨lasting,?_⟩
                cases result : (s.prepare c a entry.stamp.hlc document).2 with
                | none =>
                    rw [result] at prepared
                    exact prepared
                | some job =>
                    rw [result] at prepared
                    obtain ⟨done, source, current⟩ := prepared
                    have same : a = ⟨entry.collection,job.source⟩ := by rw [source, ←collection]
                    refine ⟨done.weaken fun b rec _ promised => Or.inr ?_,?_,?_⟩
                    · rw [←collection]
                      exact promised.resolve_left id
                    · rw [address, ←same]
                    · rw [←same]
                      exact current
              · rw [if_neg stale]
                refine ⟨holds.1.lasting,one.weaken fun b rec covered promised => ?_⟩
                rcases promised with wrong | rfl
                · exact wrong.elim
                · refine Or.inl (holds.1.lasting.fresh covered.1 covered.2.1 ?_)
                  rw [last rec covered, incomingStamp]
                  exact Bool.not_eq_true _ ▸ stale
      · rw [if_pos (by simp [embeds])]
        refine ⟨holds.1.lasting,holds.1.weaken fun b rec wanted _ promised => ?_,holds.2⟩
        rw [Option.some.inj (Eq.trans (Eq.symm promised) address)] at wanted
        exact absurd wanted embeds

theorem ofPushInto {k : CollectionId} {job : Job} (current : Current c ⟨k,job.source⟩ job.hlc job.chunks s) {a : Address}
    {rec : DocRecord} (covered : Covered s s.read a rec) : ∀ {batches : List Batch},
    ofBatches batches a rec.stamp.hlc ∨ ofJobs k [job] a rec.stamp.hlc →
      ofBatches (pushInto k job batches) a rec.stamp.hlc := by
  intro batches
  induction batches with
  | nil =>
      rintro (wrong | own)
      · exact (notOfBatchesNil wrong).elim
      · exact ⟨⟨k,[job]⟩,List.mem_singleton_self _,own⟩
  | cons b rest ih =>
      intro promised
      unfold pushInto
      split_ifs with same
      · subst same
        have split : (ofJobs b.collection b.jobs a rec.stamp.hlc ∨ ofJobs b.collection [job] a rec.stamp.hlc) ∨
            ofBatches rest a rec.stamp.hlc := by
          rcases promised with batches | own
          · exact (ofBatchesCons batches).imp_left Or.inl
          · exact Or.inl (Or.inr own)
        rcases split with own | ⟨other, member, jobs⟩
        · exact ⟨b.push job,List.mem_cons_self,ofPush current covered own⟩
        · exact ⟨other,List.mem_cons_of_mem _ member,jobs⟩
      · have split : ofJobs b.collection b.jobs a rec.stamp.hlc ∨ ofBatches rest a rec.stamp.hlc ∨
            ofJobs k [job] a rec.stamp.hlc := by
          rcases promised with batches | own
          · exact (ofBatchesCons batches).imp_right Or.inl
          · exact Or.inr (Or.inr own)
        rcases split with own | others
        · exact ⟨b,List.mem_cons_self,own⟩
        · obtain ⟨other, member, jobs⟩ := ih others
          exact ⟨other,List.mem_cons_of_mem _ member,jobs⟩

/- A batch after the push has what it had, and the job. -/
theorem pushIntoFrom {k : CollectionId} {job : Job} : ∀ {batches : List Batch}, ∀ b ∈ pushInto k job batches, ∀ j ∈ b.jobs,
    (∃ old ∈ batches, old.collection = b.collection ∧ j ∈ old.jobs) ∨ (b.collection = k ∧ j = job) := by
  intro batches
  induction batches with
  | nil =>
      intro b member j inside
      rw [pushInto, List.mem_singleton] at member
      subst member
      exact Or.inr ⟨rfl,List.mem_singleton.mp inside⟩
  | cons first rest ih =>
      intro b member j inside
      unfold pushInto at member
      split_ifs at member with same
      · rcases List.mem_cons.mp member with rfl | later
        · rcases List.mem_append.mp inside with old | new
          · exact Or.inl ⟨first,List.mem_cons_self,rfl,(List.mem_filter.mp old).1⟩
          · exact Or.inr ⟨same,List.mem_singleton.mp new⟩
        · exact Or.inl ⟨b,List.mem_cons_of_mem _ later,rfl,inside⟩
      · rcases List.mem_cons.mp member with rfl | later
        · exact Or.inl ⟨b,List.mem_cons_self,rfl,inside⟩
        · rcases ih b later j inside with ⟨old, there, is⟩ | own
          · exact Or.inl ⟨old,List.mem_cons_of_mem _ there,is⟩
          · exact Or.inr own

theorem Working.push {k : CollectionId} {job : Job} (working : Working c (ofJobs k [job]) none s)
    (current : Current c ⟨k,job.source⟩ job.hlc job.chunks s)
    (beyond : ∀ rec, ¬ Covered s s.position ⟨k,job.source⟩ rec) :
    Working c nothing none { s with pending := s.pending.push k job } := by
  obtain ⟨lasting, behind, within, token, waiting, ahead, held, owed, marked, debt⟩ := working
  refine ⟨⟨lasting.reached,lasting.logged,lasting.sorted,lasting.vectors,lasting.refused,lasting.owes⟩,behind,within,token,
    fun b member j inside => ?_,fun a rec waits => ?_,held,fun a rec embeds covered => ?_,marked,debt⟩
  · rcases pushIntoFrom b member j inside with ⟨old, there, same, is⟩ | ⟨same, rfl⟩
    · rw [←same]
      exact waiting old there j is
    · rw [same]
      exact current.1
  · obtain ⟨b, member, here, j, inside, source, time⟩ := waits
    rcases pushIntoFrom b member j inside with ⟨old, there, same, is⟩ | ⟨same, rfl⟩
    · exact ahead a rec ⟨old,there,here.trans same.symm,j,is,source,time⟩
    · have address : a = ⟨k,j.source⟩ := by
        cases a
        simp only at here source
        rw [here, same, source]
      rw [address]
      exact beyond rec
  · rcases owed a rec embeds covered with settled | promised | waits | backoff
    · exact Or.inl settled
    · exact Or.inr (Or.inr (Or.inl (ofPushInto current covered (Or.inr promised))))
    · exact Or.inr (Or.inr (Or.inl (ofPushInto current covered (Or.inl waits))))
    · exact Or.inr (Or.inr (Or.inr backoff))

/- A flush with nothing in flight. -/
theorem safeFlushIdle (idle : Idle c s) : flush.Safe (Lasting c) Beside (Attempted c nothing fun _ => True) s := by
  have ready : Holds c nothing (Flushable nothing (fun _ => True) s.read) s :=
    ⟨idle.1,idle.1.token,idle.1.behind,le_refl _,fun _ _ _ => id,trivial⟩
  refine Prog.safeMono (fun stopped t ends => ?_) (safeFlush deepTrue ready)
  cases stopped with
  | true => exact ends
  | false => exact Holds.idle ends

/- The job joins its batch, and the entry's position is the one to record. -/
theorem Working.joins {entry : OplogEntry} {k : Nat} {job : Job} (working : Working c (ofJobs entry.collection [job]) none s)
    (before : Before entry k s) (address : entry.address = some ⟨entry.collection,job.source⟩)
    (current : Current c ⟨entry.collection,job.source⟩ job.hlc job.chunks s) :
    Idle c { s with pending := { s.pending.push entry.collection job with token := some (k + 1) } } := by
  have pushed := working.push current fun rec covered =>
    working.lasting.replaced before.found address rec (coveredLonger before.position covered)
  refine ⟨pushed.tokens fun n is => ?_,trivial⟩
  cases Option.some.inj is
  exact before.read.ge

theorem safeGather {entry : OplogEntry} {k : Nat} (holds : Holds c (ofAddress entry) (Before entry k) s) :
    (gather c entry (k + 1)).Safe (Lasting c) Beside (Attempted c nothing fun _ => True) s := by
  refine safeStep holds (frameBefore entry k).wrote fun t held => ?_
  obtain ⟨lasting, gathered⟩ := held.prepareEntry
  refine ⟨lasting,?_⟩
  generalize t.prepareEntry c entry = result at gathered
  obtain ⟨u, prepared⟩ := result
  cases prepared with
  | none =>
      refine safeUpdate gathered (frameBefore entry k).wrote fun v last => ?_
      have working : Working c nothing none { v with pending := { v.pending with token := some (k + 1) } } := by
        refine last.1.tokens fun n is => ?_
        cases Option.some.inj is
        exact last.2.read.ge
      exact ⟨working.lasting,working,trivial⟩
  | some job =>
      obtain ⟨ready, address, current⟩ := gathered
      have joins (v : State) (held : Holds c (ofJobs entry.collection [job]) (fun s => Before entry k s ∧
          Current c ⟨entry.collection,job.source⟩ job.hlc job.chunks s) v) :
          (do
            let full ← Prog.step fun s =>
              let pending := s.pending.push entry.collection job
              ({ s with pending := { pending with token := some (k + 1) } },pending.full c entry.collection)
            if full then flush else return false : Work Bool).Safe (Lasting c) Beside (Attempted c nothing fun _ => True) v := by
        refine safeStep held ((frameBefore entry k).wrote.and (deepCurrent _ _ _).wrote) fun w last => ?_
        have idle := last.1.joins last.2.1 address last.2.2
        refine ⟨idle.1.lasting,?_⟩
        split_ifs
        · exact safeFlushIdle idle
        · exact idle
      have waits : Holds c (ofJobs entry.collection [job]) (fun s => Before entry k s ∧
          Current c ⟨entry.collection,job.source⟩ job.hlc job.chunks s) u := ⟨ready.1,ready.2,current⟩
      refine safeRead waits ((frameBefore entry k).wrote.and (deepCurrent _ _ _).wrote) fun v held => ?_
      simp only
      split_ifs with fits
      · exact joins v held
      · have flushes : Holds c (ofJobs entry.collection [job]) (Flushable (ofJobs entry.collection [job]) (fun s =>
            Reading entry k s ∧ Current c ⟨entry.collection,job.source⟩ job.hlc job.chunks s) k) v := by
          refine ⟨held.1,held.2.1.tokens,held.2.1.position,?_,fun a rec covered promised => ?_,held.2.1.toReading,held.2.2⟩
          · rw [held.2.1.read]
            exact Nat.le_succ k
          · obtain ⟨same, other, member, source, _⟩ := promised
            rw [List.mem_singleton.mp member] at source
            refine held.1.lasting.replaced held.2.1.found ?_ rec covered
            rw [address, source, ←same]
        refine Prog.safeThen (safeFlush ((deepReading entry k).and (deepCurrent _ _ _)) flushes) fun stopped w ends => ?_
        cases stopped with
        | true => exact ends
        | false =>
            obtain ⟨working, bounded⟩ := ends
            exact joins w ⟨working,⟨bounded.also.1,bounded.tokens,bounded.position⟩,bounded.also.2⟩

theorem safeTurn (idle : Idle c s) : (turn c).Safe (Lasting c) Beside (Attempted c nothing fun _ => True) s := by
  -- the flush where its deadline has come
  have deadline (t : State) (idle : Idle c t) : (do
      let deadline ← clock
      if deadline then flush else return false : Work Bool).Safe (Lasting c) Beside (Attempted c nothing fun _ => True) t := by
    refine safeClock fun come => ?_
    split_ifs
    · exact safeFlushIdle idle
    · exact idle
  -- the entry the stream has come to
  have taken {u : State} (held : Idle c u) {entry : OplogEntry} (found : u.log[u.read]? = some entry) :
      (gather c entry (u.read + 1)).Safe (Lasting c) Beside (Attempted c nothing fun _ => True) { u with read := u.read + 1 } :=
    safeGather ⟨held.1.next found,⟨⟨found,rfl⟩,held.1.token,held.1.behind⟩⟩
  refine safeAnswer fun answer => ?_
  obtain ⟨_, _, due⟩ := answer
  rcases due with _ | k
  case' some =>
    refine Prog.safeThen (safeRetryOneCollection idle) fun stopped t idle => ?_
    rcases stopped with _ | _
    case' true => exact idle
  all_goals
    refine safeStep (show Idle c _ from idle) frameTrue.wrote fun u held => ?_
    cases found : u.log[u.read]? with
    | none => exact ⟨held.1.lasting,deadline u held⟩
    | some entry =>
        refine ⟨(held.1.next found).lasting,Prog.safeThen (taken held found) fun stopped v ends => ?_⟩
        cases stopped with
        | true => exact ends
        | false => exact deadline v ends

/-! Runs. -/

theorem Lasting.lost (lasting : Lasting c s) : Lasting c s.lost :=
  ⟨lasting.reached,lasting.logged,lasting.sorted,lasting.vectors,lasting.refused,lasting.owes⟩

/- What a crash has left, until the marks are read. -/
structure Fresh (c : Config) (s : State) : Prop where
  lasting : Lasting c s
  read : s.read = s.position
  pending : s.pending = ⟨[],none⟩

theorem Fresh.loadMarks (fresh : Fresh c s) : Idle c s.loadMarks := by
  obtain ⟨lasting, read, pending⟩ := fresh
  have marks (k : CollectionId) : s.loadMarks.backoff.get k =
      (s.marks.get k).map fun how => ⟨none,some how,some how,none⟩ := SortedMap.getMapValues _ _ k
  have entry {k : CollectionId} {b : Backoff} (found : s.loadMarks.backoff.get k = some b) :
      b.held = none ∧ b.marked.isSome = true ∧ (s.marks.get k).isSome = true := by
    rw [marks] at found
    obtain ⟨how, is, rfl⟩ := Option.map_eq_some_iff.mp found
    exact ⟨rfl,rfl,by rw [is]; rfl⟩
  have noBatch {b : Batch} (member : b ∈ s.pending.batches) : False := by
    rw [pending] at member
    exact absurd member List.not_mem_nil
  refine ⟨⟨⟨lasting.reached,lasting.logged,lasting.sorted,lasting.vectors,lasting.refused,lasting.owes⟩,read.ge,
    read.trans_le lasting.reached,fun n is => ?_,fun b member => (noBatch member).elim,
    fun a rec waits => (noBatch waits.choose_spec.1).elim,fun k b batch found is => ?_,fun a rec embeds covered => ?_,
    fun k b found _ => (entry found).2.2,fun k b _ found _ => Or.inl (entry found).2.1⟩,trivial⟩
  · have token : s.pending.token = some n := is
    rw [pending] at token
    cases token
  · rw [(entry found).1] at is
    cases is
  · have before : Covered s s.position a rec := read ▸ covered
    rcases lasting.owes a rec embeds before with settled | marked
    · exact Or.inl settled
    · obtain ⟨how, is⟩ := Option.isSome_iff_exists.mp marked
      refine Or.inr (Or.inr (Or.inr ⟨⟨none,some how,some how,none⟩,?_,Or.inl rfl⟩))
      rw [marks, is]
      rfl

theorem Fresh.beside (fresh : Fresh c s) (beside : Beside s t) : Fresh c t := by
  refine beside.keeps (fun u v e a wrote before => ⟨before.lasting.wrote wrote,?_,?_⟩) fresh
  · rw [wrote.kept.2.2.2.2.1, wrote.kept.2.1]
    exact before.read
  · rw [wrote.kept.2.2.2.2.2.1]
    exact before.pending

theorem kept (c : Config) : (worker c).Kept Untied (Lasting c) Beside (Attempted c nothing fun _ => True) where
  refl _ := .refl
  trans _ _ _ := .trans
  move s entry untied := .single ⟨entry,untied,rfl⟩
  steady _ _ beside lasting := lasting.beside beside
  stable stopped s t beside ends := by
    cases stopped with
    | true => exact Lasting.beside ends beside
    | false =>
        have idle : Idle c s := ends
        exact idle.beside frameTrue.wrote beside
  lost _ := Lasting.lost
  start s lasting := by
    have fresh : Fresh c s.lost := ⟨lasting.lost,rfl,rfl⟩
    refine fun t beside => ?_
    have idle := (fresh.beside beside).loadMarks
    exact ⟨idle.1.lasting,idle⟩
  again stopped s ends := by
    cases stopped with
    | true => exact ends
    | false => exact safeTurn ends

end

/- A worker from the first on, beside writers that give every version of a document a timestamp of its
own, after any events: what the position covers is settled or marked, and an event that clears a mark
leaves nothing of its collection owed. -/
theorem neverForgets (c : Config) (events : List (Occurrence Answer OplogEntry))
    (untied : (worker c).Allowed Untied (.opened,(worker c).start) events) :
    (∀ n, Owes c ((worker c).run (.opened,(worker c).start) (events.take n)).1) ∧
      ∀ n k, (((worker c).run (.opened,(worker c).start) (events.take n)).1.marks.get k).isSome = true →
        ((worker c).run (.opened,(worker c).start) (events.take (n + 1))).1.marks.get k = none →
        ∀ a rec, a.collection = k → c.embeds k = true →
          Covered ((worker c).run (.opened,(worker c).start) (events.take (n + 1))).1
            ((worker c).run (.opened,(worker c).start) (events.take (n + 1))).1.position a rec →
          Settled c ((worker c).run (.opened,(worker c).start) (events.take (n + 1))).1 a rec := by
  have opened : Lasting c .opened := by
    refine ⟨le_refl _,fun i e a found => ?_,fun i j e f a _ found => ?_,fun a r found => ?_,fun x member => ?_,
      fun a rec _ covered => ?_⟩
    · cases found
    · cases found
    · cases found
    · cases member
    · cases covered.1
  have owes (n : Nat) : Owes c ((worker c).run (.opened,(worker c).start) (events.take n)).1 :=
    ((kept c).run ⟨opened,(kept c).start _ opened⟩ (Process.allowedTake untied n)).1.owes
  refine ⟨owes,fun n k _ cleared a rec same embeds covered => ?_⟩
  rcases owes (n + 1) a rec (same ▸ embeds) covered with settled | marked
  · exact settled
  · rw [same, cleared] at marked
    cases marked

/-! A tie. -/

/- The texts of a document are the names of its fields. -/
def named : Config := ⟨fun _ => true,fun _ document => document.map Prod.fst,fun _ texts => texts.length,8,8⟩

def firstVersion : OplogEntry := ⟨⟨⟨0,1⟩,0⟩,.insert,0,some [1],some [("a",.int32 1)]⟩

/- Another member's write of the document, at the same time. -/
def secondVersion : OplogEntry := ⟨⟨⟨0,1⟩,1⟩,.insert,0,some [1],some [("b",.int32 1)]⟩

def goesOn (n : Nat) : List (Occurrence Answer OplogEntry) := List.replicate n (.goes ⟨.answered,true,none⟩)

theorem goesOnAllowed : ∀ (n : Nat) (now : State × Work Bool), (worker named).Allowed Untied now (goesOn n)
  | 0, _ => trivial
  | n + 1, _ => ⟨trivial,goesOnAllowed n _⟩

def once : List (Occurrence Answer OplogEntry) := .moves firstVersion :: goesOn 40

theorem onceAllowed : (worker named).Allowed Untied (.opened,(worker named).start) once := by
  refine ⟨fun a rec _ found => ?_,goesOnAllowed 40 _⟩
  cases found

theorem onceRemembered : ((worker named).run (.opened,(worker named).start) once).1.position = 1 ∧
    ∀ n, Owes named ((worker named).run (.opened,(worker named).start) (once.take n)).1 :=
  ⟨by decide +kernel,(neverForgets named once onceAllowed).1⟩

def tied : List (Occurrence Answer OplogEntry) := [.moves firstVersion,.moves secondVersion] ++ goesOn 40

theorem forgotten : ¬ Owes named ((worker named).run (.opened,(worker named).start) tied).1 := by
  intro owes
  have covered : Covered ((worker named).run (.opened,(worker named).start) tied).1
      ((worker named).run (.opened,(worker named).start) tied).1.position ⟨0,[1]⟩ secondVersion.incoming :=
    ⟨by decide +kernel,rfl,1,by decide +kernel,secondVersion,by decide +kernel,rfl,rfl⟩
  rcases owes ⟨0,[1]⟩ secondVersion.incoming rfl covered with (stored | wrong | ⟨job, refused, _⟩) | marked
  · exact absurd stored (by decide +kernel)
  · exact absurd wrong (by decide)
  · have none' : ((worker named).run (.opened,(worker named).start) tied).1.refused = [] := by decide +kernel
    rw [none'] at refused
    cases refused
  · exact absurd marked (by decide +kernel)

end Kimmy.Vector
