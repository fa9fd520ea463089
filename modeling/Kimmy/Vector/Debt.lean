import Kimmy.Vector.Worker

/-!
The embedding worker never forgets a document. What the durable position covers is stored, refused
for good or without text, or its collection is marked; what the stream has come past is besides in
an open batch, in a held one, or noted for a scan, and the position moves only where the batches are
gone and every mark is written.
-/
namespace Kimmy.Vector
open Merge Store

/-! What is owed. -/

/- The write of a live document's current version is among the first entries. -/
def Covered (s : State) (n : Nat) (a : Address) (rec : DocRecord) : Prop :=
  s.docs.get a = some rec ∧ rec.isLive = true ∧
    ∃ i < n, ∃ e : OplogEntry, s.log[i]? = some e ∧ e.address = some a ∧ e.stamp = rec.stamp

/- The version's vectors are stored, or it has no text, or the provider has refused it for good. -/
def Settled (c : Config) (s : State) (a : Address) (rec : DocRecord) : Prop :=
  s.vectors.get a = some ⟨rec.stamp.hlc,c.chunks a.collection rec.body⟩ ∨ c.chunks a.collection rec.body = [] ∨
    ∃ job, (a.collection,job) ∈ s.refused ∧ job.source = a.key ∧ job.hlc = rec.stamp.hlc ∧
      job.chunks = c.chunks a.collection rec.body

/- Nothing that the durable position covers is owed without a mark. -/
def Owes (c : Config) (s : State) : Prop := ∀ a rec, c.embeds a.collection = true → Covered s s.position a rec →
  Settled c s a rec ∨ (s.marks.get a.collection).isSome = true

/- Two versions of a document never share a timestamp. -/
def Untied (s : State) (entry : OplogEntry) : Prop :=
  ∀ a rec, entry.address = some a → s.docs.get a = some rec → rec.stamp.hlc ≠ entry.stamp.hlc

/-! The log. -/

/- The texts belong to the version with this timestamp, as long as it is the current one. -/
def Genuine (c : Config) (s : State) (a : Address) (hlc : Hlc) (text : List String) : Prop :=
  (∃ rec, s.docs.get a = some rec ∧ hlc ≤ rec.stamp.hlc) ∧
    ∀ rec, s.docs.get a = some rec → rec.isLive = true → rec.stamp.hlc = hlc → text = c.chunks a.collection rec.body

/- What survives a crash. -/
structure Lasting (c : Config) (s : State) : Prop where
  reached : s.position ≤ s.log.length
  logged : ∀ (i : Nat) (e : OplogEntry) a, s.log[i]? = some e → e.address = some a → ∃ rec, s.docs.get a = some rec ∧
    e.stamp.hlc ≤ rec.stamp.hlc ∧ (e.stamp.hlc = rec.stamp.hlc → rec = e.incoming) ∧
    (e.kind = .delete → e.incoming.isLive = false)
  sorted : ∀ (i j : Nat) (e f : OplogEntry) a, i < j → s.log[i]? = some e → s.log[j]? = some f → e.address = some a →
    f.address = some a → e.stamp.hlc < f.stamp.hlc
  vectors : ∀ a r, s.vectors.get a = some r → Genuine c s a r.sourceHlc r.text
  refused : ∀ x ∈ s.refused, Genuine c s ⟨x.1,x.2.source⟩ x.2.hlc x.2.chunks
  owes : Owes c s

/- One write of another writer. -/
structure Wrote (s t : State) (entry : OplogEntry) (a : Address) : Prop where
  address : entry.address = some a
  above : ∀ rec, s.docs.get a = some rec → rec.stamp.hlc < entry.stamp.hlc
  deletes : entry.kind = .delete → entry.incoming.isLive = false
  same : t = { s with log := s.log ++ [entry], docs := s.docs.insert a entry.incoming }

theorem appendWrites {s : State} {entry : OplogEntry} (untied : Untied s entry) :
    s.append entry = s ∨ ∃ a, Wrote s (s.append entry) entry a := by
  unfold State.append
  cases address : entry.address with
  | none => exact Or.inl rfl
  | some a =>
      simp only
      split_ifs with wins
      · simp only [Bool.and_eq_true] at wins
        refine Or.inr ⟨a,address,fun rec found => ?_,fun delete => ?_,rfl⟩
        · have below : rec.stamp < entry.stamp := by
            have all := wins.2
            rw [found] at all
            simpa using all
          have le : rec.stamp.hlc ≤ entry.stamp.hlc := by
            rcases stampLtIff.mp below with less | ⟨same, _⟩
            · exact less.le
            · exact same.le
          exact lt_of_le_of_ne le (untied a rec address found)
        · have without := wins.1.2
          simp only [delete, decide_true, beq_iff_eq] at without
          unfold OplogEntry.incoming
          rw [Option.isNone_iff_eq_none.mp without.symm]
          rfl
      · exact Or.inl rfl

theorem incomingStamp (e : OplogEntry) : e.incoming.stamp = e.stamp := by
  unfold OplogEntry.incoming
  split <;> rfl

section
variable {c : Config} {s t : State} {entry : OplogEntry} {a₀ : Address}

theorem coveredLonger {n m : Nat} (le : n ≤ m) {a : Address} {rec : DocRecord} (covered : Covered s n a rec) :
    Covered s m a rec := by
  obtain ⟨current, live, i, below, rest⟩ := covered
  exact ⟨current,live,i,below.trans_le le,rest⟩

theorem Wrote.docs (wrote : Wrote s t entry a₀) (a : Address) :
    t.docs.get a = if a = a₀ then some entry.incoming else s.docs.get a := by
  rw [wrote.same]
  exact SortedMap.getInsert _ _ _ _

theorem Wrote.entries (wrote : Wrote s t entry a₀) {i : Nat} {e : OplogEntry} (found : t.log[i]? = some e) :
    s.log[i]? = some e ∨ (i = s.log.length ∧ e = entry) := by
  rw [wrote.same] at found
  simp only [List.getElem?_append] at found
  split_ifs at found with inside
  · exact Or.inl found
  · rw [List.getElem?_singleton] at found
    split_ifs at found with first
    exact Or.inr ⟨by omega,(Option.some.inj found).symm⟩

/- What was covered before the write still is, and nothing else. -/
theorem Wrote.covered (wrote : Wrote s t entry a₀) (lasting : Lasting c s) {n : Nat} (reached : n ≤ s.log.length)
    {a : Address} {rec : DocRecord} (covered : Covered t n a rec) : a ≠ a₀ ∧ Covered s n a rec := by
  obtain ⟨current, live, i, below, e, found, address, stamp⟩ := covered
  rcases wrote.entries found with old | ⟨rfl, _⟩
  · have other : a ≠ a₀ := by
      rintro rfl
      obtain ⟨was, held, le, _⟩ := lasting.logged i e a old address
      rw [wrote.docs, if_pos rfl] at current
      rw [←Option.some.inj current, incomingStamp] at stamp
      rw [stamp] at le
      exact absurd (wrote.above was held) (not_lt.mpr le)
    rw [wrote.docs, if_neg other] at current
    exact ⟨other,current,live,i,below,e,old,address,stamp⟩
  · omega

theorem Wrote.genuine (wrote : Wrote s t entry a₀) {a : Address} {hlc : Hlc} {text : List String}
    (genuine : Genuine c s a hlc text) : Genuine c t a hlc text := by
  obtain ⟨⟨rec, held, le⟩, same⟩ := genuine
  refine ⟨?_,fun now current live equal => ?_⟩
  · rw [wrote.docs]
    split_ifs with own
    · subst own
      exact ⟨entry.incoming,rfl,by rw [incomingStamp]; exact le.trans (wrote.above rec held).le⟩
    · exact ⟨rec,held,le⟩
  · rw [wrote.docs] at current
    split_ifs at current with own
    · subst own
      rw [←Option.some.inj current, incomingStamp] at equal
      rw [←equal] at le
      exact absurd (wrote.above rec held) (not_lt.mpr le)
    · exact same now current live equal

theorem Wrote.kept (wrote : Wrote s t entry a₀) : t.vectors = s.vectors ∧ t.position = s.position ∧ t.marks = s.marks ∧
    t.refused = s.refused ∧ t.read = s.read ∧ t.pending = s.pending ∧ t.backoff = s.backoff := by
  rw [wrote.same]
  exact ⟨rfl,rfl,rfl,rfl,rfl,rfl,rfl⟩

theorem Wrote.settled (wrote : Wrote s t entry a₀) {a : Address} {rec : DocRecord} :
    Settled c t a rec ↔ Settled c s a rec := by
  unfold Settled
  rw [wrote.kept.1, wrote.kept.2.2.2.1]

theorem Lasting.wrote (lasting : Lasting c s) (wrote : Wrote s t entry a₀) : Lasting c t := by
  obtain ⟨vectors, position, marks, refused, _⟩ := wrote.kept
  have longer : s.log.length ≤ t.log.length := by
    rw [wrote.same]
    simp
  refine ⟨?_,fun i e a found address => ?_,fun i j e f a less first second one two => ?_,fun a r held => ?_,
    fun x member => ?_,fun a rec embeds covered => ?_⟩
  · rw [position]
    exact lasting.reached.trans longer
  · rcases wrote.entries found with old | ⟨rfl, rfl⟩
    · obtain ⟨rec, held, le, same, deletes⟩ := lasting.logged i e a old address
      rw [wrote.docs]
      split_ifs with own
      · subst own
        have above := wrote.above rec held
        refine ⟨entry.incoming,rfl,?_,fun equal => ?_,deletes⟩
        · rw [incomingStamp]
          exact (le.trans_lt above).le
        · rw [incomingStamp] at equal
          exact absurd (le.trans_lt above) (not_lt.mpr equal.ge)
      · exact ⟨rec,held,le,same,deletes⟩
    · have own : a = a₀ := Option.some.inj (address.symm.trans wrote.address)
      rw [wrote.docs, if_pos own]
      exact ⟨_,rfl,by rw [incomingStamp],fun _ => rfl,wrote.deletes⟩
  · rcases wrote.entries first with old | ⟨rfl, rfl⟩
    · rcases wrote.entries second with before | ⟨rfl, rfl⟩
      · exact lasting.sorted i j e f a less old before one two
      · have own : a = a₀ := Option.some.inj (two.symm.trans wrote.address)
        subst own
        obtain ⟨rec, held, le, _⟩ := lasting.logged i e a old one
        exact le.trans_lt (wrote.above rec held)
    · rcases wrote.entries second with before | ⟨rfl, _⟩
      · exact absurd (List.getElem?_eq_some_iff.mp before).1 (not_lt.mpr less.le)
      · exact absurd less (lt_irrefl _)
  · rw [vectors] at held
    exact wrote.genuine (lasting.vectors a r held)
  · rw [refused] at member
    exact wrote.genuine (lasting.refused x member)
  · rw [position] at covered
    rw [wrote.settled, marks]
    exact lasting.owes a rec embeds (wrote.covered lasting lasting.reached covered).2

/- Of two entries of one document the later one has the current version. -/
theorem Lasting.last (lasting : Lasting c s) {k : Nat} {e : OplogEntry} {a : Address} (found : s.log[k]? = some e)
    (address : e.address = some a) {rec : DocRecord} (covered : Covered s (k + 1) a rec) : rec = e.incoming := by
  obtain ⟨current, _, i, below, f, there, same, stamp⟩ := covered
  obtain ⟨now, held, le, equal, _⟩ := lasting.logged k e a found address
  cases current.symm.trans held
  refine equal (le_antisymm le ?_)
  rw [←stamp]
  rcases Nat.lt_succ_iff_lt_or_eq.mp below with before | rfl
  · exact (lasting.sorted i k f e a before there found same address).le
  · cases there.symm.trans found
    exact le_refl _

/-! What the worker promises. -/

/- The versions that something in the worker's hands will settle. -/
abbrev Promise := Address → Hlc → Prop

def ofJobs (collection : CollectionId) (jobs : List Job) : Promise := fun a hlc =>
  a.collection = collection ∧ ∃ job ∈ jobs, job.source = a.key ∧ job.hlc = hlc

def ofBatches (batches : List Batch) : Promise := fun a hlc => ∃ b ∈ batches, ofJobs b.collection b.jobs a hlc

/- A scan settles every document of its collection. -/
def ofScan (collection : CollectionId) : Promise := fun a _ => a.collection = collection

def Backoff.promise (b : Backoff) : Promise := fun a hlc =>
  b.rescan.isSome = true ∨ ∃ batch, b.held = some batch ∧ ofJobs a.collection batch.jobs a hlc

def ofBackoff (backoff : SortedMap CollectionId Backoff) : Promise := fun a hlc =>
  ∃ b, backoff.get a.collection = some b ∧ b.promise a hlc

def AllGenuine (c : Config) (s : State) (collection : CollectionId) (jobs : List Job) : Prop :=
  ∀ job ∈ jobs, Genuine c s ⟨collection,job.source⟩ job.hlc job.chunks

theorem Wrote.allGenuine (wrote : Wrote s t entry a₀) {collection : CollectionId} {jobs : List Job}
    (all : AllGenuine c s collection jobs) : AllGenuine c t collection jobs := fun job member =>
  wrote.genuine (all job member)

/- `promise` is what is in flight; `skip` is a collection whose mark is just being written. -/
structure Working (c : Config) (promise : Promise) (skip : Option CollectionId) (s : State) : Prop where
  lasting : Lasting c s
  behind : s.position ≤ s.read
  within : s.read ≤ s.log.length
  token : ∀ n, s.pending.token = some n → n ≤ s.read
  waiting : ∀ b ∈ s.pending.batches, AllGenuine c s b.collection b.jobs
  ahead : ∀ a rec, ofBatches s.pending.batches a rec.stamp.hlc → ¬ Covered s s.position a rec
  held : ∀ k b batch, s.backoff.get k = some b → b.held = some batch →
    batch.collection = k ∧ AllGenuine c s k batch.jobs
  owed : ∀ a rec, c.embeds a.collection = true → Covered s s.read a rec → Settled c s a rec ∨ promise a rec.stamp.hlc ∨
    ofBatches s.pending.batches a rec.stamp.hlc ∨ ofBackoff s.backoff a rec.stamp.hlc
  marked : ∀ k b, s.backoff.get k = some b → b.marked.isSome = true → (s.marks.get k).isSome = true
  debt : ∀ k b, some k ≠ skip → s.backoff.get k = some b → b.held.isSome = true ∨ b.rescan.isSome = true →
    b.marked.isSome = true ∨ b.unwritten.isSome = true

variable {promise more : Promise} {skip : Option CollectionId}

theorem Working.wrote (working : Working c promise skip s) (wrote : Wrote s t entry a₀) :
    Working c promise skip t := by
  obtain ⟨_, position, marks, _, read, pending, backoff⟩ := wrote.kept
  obtain ⟨lasting, behind, within, token, waiting, ahead, held, owed, marked, debt⟩ := working
  have longer : s.log.length ≤ t.log.length := by
    rw [wrote.same]
    simp
  refine ⟨lasting.wrote wrote,?_,?_,?_,?_,fun a rec there => ?_,fun k b batch found is => ?_,fun a rec embeds covered => ?_,
    ?_,?_⟩
  · rwa [position, read]
  · rw [read]
    exact within.trans longer
  · rwa [pending, read]
  · rw [pending]
    exact fun b member => wrote.allGenuine (waiting b member)
  · rw [pending] at there
    rw [position]
    exact fun covered => ahead a rec there (wrote.covered lasting lasting.reached covered).2
  · rw [backoff] at found
    exact (held k b batch found is).imp_right wrote.allGenuine
  · rw [read] at covered
    rw [wrote.settled, pending, backoff]
    exact owed a rec embeds (wrote.covered lasting within covered).2
  · rwa [backoff, marks]
  · rwa [backoff]

theorem Working.weaken (working : Working c promise skip s)
    (le : ∀ a rec, c.embeds a.collection = true → Covered s s.read a rec → promise a rec.stamp.hlc → Settled c s a rec ∨
      more a rec.stamp.hlc ∨ ofBatches s.pending.batches a rec.stamp.hlc ∨ ofBackoff s.backoff a rec.stamp.hlc) :
    Working c more skip s := by
  obtain ⟨lasting, behind, within, token, waiting, ahead, held, owed, marked, debt⟩ := working
  refine ⟨lasting,behind,within,token,waiting,ahead,held,fun a rec embeds covered => ?_,marked,debt⟩
  rcases owed a rec embeds covered with settled | promised | rest
  · exact Or.inl settled
  · exact le a rec embeds covered promised
  · exact Or.inr (Or.inr rest)

theorem Working.skipping (working : Working c promise none s) (k : CollectionId) : Working c promise (some k) s := by
  obtain ⟨lasting, behind, within, token, waiting, ahead, held, owed, marked, debt⟩ := working
  exact ⟨lasting,behind,within,token,waiting,ahead,held,owed,marked,fun j b _ => debt j b (Option.some_ne_none j)⟩

/-! Marks. -/

/- An entry changes; its mark stays what it was. -/
theorem Working.replaced (working : Working c promise none s) (k : CollectionId) {b : Backoff}
    (marked : b.marked = ((s.backoff.get k).getD .new).marked)
    (genuine : ∀ batch, b.held = some batch → batch.collection = k ∧ AllGenuine c s k batch.jobs)
    (kept : ∀ a hlc, promise a hlc → more a hlc ∨ (a.collection = k ∧ b.promise a hlc))
    (own : ∀ old a hlc, s.backoff.get k = some old → a.collection = k → old.promise a hlc →
      more a hlc ∨ b.promise a hlc) :
    Working c more (some k) { s with backoff := s.backoff.insert k b } := by
  obtain ⟨lasting, behind, within, token, waiting, ahead, held, owed, marks, debt⟩ := working
  refine ⟨⟨lasting.reached,lasting.logged,lasting.sorted,lasting.vectors,lasting.refused,lasting.owes⟩,behind,within,token,
    waiting,ahead,fun j old batch found is => ?_,fun a rec embeds covered => ?_,fun j old found is => ?_,
    fun j old other found => ?_⟩
  · simp only [SortedMap.getInsert] at found
    split_ifs at found with same
    · rw [same]
      cases Option.some.inj found
      exact genuine batch is
    · exact held j old batch found is
  · have back : ∀ old, a.collection = k ∧ b.promise a rec.stamp.hlc ∨
        (a.collection ≠ k ∧ s.backoff.get a.collection = some old ∧ old.promise a rec.stamp.hlc) →
        ofBackoff (s.backoff.insert k b) a rec.stamp.hlc := by
      rintro old (⟨same, promised⟩ | ⟨other, found, promised⟩)
      · exact ⟨b,by rw [SortedMap.getInsert, if_pos same],promised⟩
      · exact ⟨old,by rw [SortedMap.getInsert, if_neg other]; exact found,promised⟩
    rcases owed a rec embeds covered with settled | promised | waits | ⟨old, found, promised⟩
    · exact Or.inl settled
    · rcases kept a _ promised with still | here
      · exact Or.inr (Or.inl still)
      · exact Or.inr (Or.inr (Or.inr (back b (Or.inl here))))
    · exact Or.inr (Or.inr (Or.inl waits))
    · by_cases same : a.collection = k
      · rcases own old a _ (same ▸ found) same promised with still | here
        · exact Or.inr (Or.inl still)
        · exact Or.inr (Or.inr (Or.inr (back b (Or.inl ⟨same,here⟩))))
      · exact Or.inr (Or.inr (Or.inr (back old (Or.inr ⟨same,found,promised⟩))))
  · simp only [SortedMap.getInsert] at found
    split_ifs at found with same
    · cases Option.some.inj found
      rw [marked] at is
      cases there : s.backoff.get k with
      | none =>
          rw [there] at is
          cases is
      | some was =>
          rw [there] at is
          rw [same]
          exact marks k was there is
    · exact marks j old found is
  · simp only [SortedMap.getInsert] at found
    rw [if_neg fun same => other (congrArg some same)] at found
    exact debt j old (Option.some_ne_none j) found

theorem Working.mark {k : CollectionId} (working : Working c promise (some k) s) (how : Unscanned) (written : Bool) :
    Working c promise none (s.mark k how written) := by
  unfold State.mark
  obtain ⟨lasting, behind, within, token, waiting, ahead, held, owed, marks, debt⟩ := working
  cases found : s.backoff.get k with
  | none =>
      refine ⟨lasting,behind,within,token,waiting,ahead,held,owed,marks,fun j b _ there => ?_⟩
      refine debt j b (fun same => ?_) there
      cases Option.some.inj same
      cases found.symm.trans there
  | some b =>
      simp only
      -- the entry promises what it did, and its debt is now known
      have still (x : Backoff) (rescan : x.rescan = b.rescan) (batch : x.held = b.held) (a : Address) (hlc : Hlc)
          (promised : ofBackoff s.backoff a hlc) : ofBackoff (s.backoff.insert k x) a hlc := by
        obtain ⟨old, there, promised⟩ := promised
        by_cases same : a.collection = k
        · rw [same, found] at there
          cases Option.some.inj there
          refine ⟨x,by rw [SortedMap.getInsert, if_pos same],?_⟩
          unfold Backoff.promise
          rw [rescan, batch]
          exact promised
        · exact ⟨old,by rw [SortedMap.getInsert, if_neg same]; exact there,promised⟩
      have others (x : Backoff) (known : x.marked.isSome = true ∨ x.unwritten.isSome = true) (j : CollectionId)
          (y : Backoff) (there : (s.backoff.insert k x).get j = some y) (owing : y.held.isSome = true ∨ y.rescan.isSome = true) :
          y.marked.isSome = true ∨ y.unwritten.isSome = true := by
        rw [SortedMap.getInsert] at there
        split_ifs at there with same
        · cases Option.some.inj there
          exact known
        · exact debt j y (fun wrong => same (Option.some.inj wrong)) there owing
      split_ifs with already
      · refine ⟨lasting,behind,within,token,waiting,ahead,held,owed,marks,fun j y _ there owing => ?_⟩
        by_cases same : j = k
        · subst same
          cases Option.some.inj (found.symm.trans there)
          rw [already]
          exact Or.inl rfl
        · exact debt j y (fun wrong => same (Option.some.inj wrong)) there owing
      · have raised : ∀ j, (s.marks.get j).isSome = true →
            ((s.marks.insert k (stronger b.marked how)).get j).isSome = true := by
          intro j there
          rw [SortedMap.getInsert]
          split_ifs
          · rfl
          · exact there
        refine ⟨⟨lasting.reached,lasting.logged,lasting.sorted,lasting.vectors,lasting.refused,
          fun a rec embeds covered => (lasting.owes a rec embeds covered).imp_right (raised _)⟩,behind,within,token,waiting,
          ahead,fun j y batch there is => ?_,fun a rec embeds covered => ?_,fun j y there is => ?_,
          fun j y _ there => others _ (Or.inl rfl) j y there⟩
        · simp only [SortedMap.getInsert] at there
          split_ifs at there with same
          · cases Option.some.inj there
            exact held j b batch (same ▸ found) is
          · exact held j y batch there is
        · exact (owed a rec embeds covered).imp_right fun rest => rest.imp_right fun rest => rest.imp_right
            (still { b with marked := some (stronger b.marked how), unwritten := none } rfl rfl a _)
        · simp only [SortedMap.getInsert] at there ⊢
          split_ifs at there ⊢ with same
          · rfl
          · exact marks j y there is
      · refine ⟨⟨lasting.reached,lasting.logged,lasting.sorted,lasting.vectors,lasting.refused,lasting.owes⟩,behind,within,
          token,waiting,ahead,fun j y batch there is => ?_,fun a rec embeds covered => ?_,fun j y there is => ?_,
          fun j y _ there => others _ (Or.inr rfl) j y there⟩
        · simp only [SortedMap.getInsert] at there
          split_ifs at there with same
          · cases Option.some.inj there
            exact held j b batch (same ▸ found) is
          · exact held j y batch there is
        · exact (owed a rec embeds covered).imp_right fun rest => rest.imp_right fun rest => rest.imp_right
            (still { b with unwritten := some (stronger b.marked how) } rfl rfl a _)
        · simp only [SortedMap.getInsert] at there
          split_ifs at there with same
          · cases Option.some.inj there
            exact marks j b (same ▸ found) is
          · exact marks j y there is

/- Both promises together. -/
def both (promise more : Promise) : Promise := fun a hlc => promise a hlc ∨ more a hlc

theorem Working.noteRescan {k : CollectionId} (working : Working c (both promise (ofScan k)) none s) (how : Unscanned)
    (written : Bool) : Working c promise none (s.noteRescan k how written) := by
  unfold State.noteRescan
  simp only
  generalize entry : (s.backoff.get k).getD .new = b
  refine (working.replaced k (b := { b with rescan := some (stronger b.rescan how) }) (by rw [entry]) (fun batch is => ?_)
    (fun a hlc promised => ?_) fun old a hlc found same promised => ?_).mark how written
  · cases found : s.backoff.get k with
    | none =>
        rw [found] at entry
        rw [←entry] at is
        cases is
    | some old =>
        rw [found] at entry
        rw [←entry] at is
        exact working.held k old batch found is
  · rcases promised with first | same
    · exact Or.inl first
    · exact Or.inr ⟨same,Or.inl rfl⟩
  · exact Or.inr (Or.inl rfl)

theorem Working.holdForRetry {k : CollectionId} {jobs : List Job} (working : Working c (both promise (ofJobs k jobs)) none s)
    (genuine : AllGenuine c s k jobs) (written : Bool) : Working c promise none (s.holdForRetry ⟨k,jobs⟩ written) := by
  unfold State.holdForRetry
  simp only
  generalize entry : (s.backoff.get k).getD .new = b
  have before : ∀ old, s.backoff.get k = some old → old = b := fun old found => by
    rw [found] at entry
    exact entry
  refine (working.replaced k ?_ (fun batch is => ?_) (fun a hlc promised => ?_) fun old a hlc found same promised => ?_).mark
    .check written
  · rw [entry]
    split_ifs <;> rfl
  · split_ifs at is with empty
    · cases Option.some.inj is
      exact ⟨rfl,genuine⟩
    · cases found : s.backoff.get k with
      | none =>
          rw [found] at entry
          rw [←entry] at is
          cases is
      | some old =>
          rw [before old found] at found
          exact working.held k b batch found is
  · rcases promised with first | ⟨same, job⟩
    · exact Or.inl first
    · refine Or.inr ⟨same,?_⟩
      split_ifs with empty
      · exact Or.inr ⟨⟨k,jobs⟩,rfl,rfl,job⟩
      · exact Or.inl rfl
  · rw [before old found] at promised
    refine Or.inr ?_
    split_ifs with empty
    · rcases promised with rescan | ⟨batch, is, _⟩
      · exact Or.inl rescan
      · rw [is] at empty
        cases empty
    · exact Or.inl rfl

/-! Commits. -/

/- Vectors are written or removed, or a refusal noted: what is settled changes at one document. -/
theorem Working.settles (working : Working c promise none s) {vectors : SortedMap Address VectorRecord}
    {refused : List (CollectionId × Job)} (genuine : ∀ a r, vectors.get a = some r → Genuine c s a r.sourceHlc r.text)
    (refusals : ∀ x ∈ refused, Genuine c s ⟨x.1,x.2.source⟩ x.2.hlc x.2.chunks)
    (settled : ∀ a rec, Covered s s.read a rec → Settled c s a rec →
      Settled c { s with vectors := vectors, refused := refused } a rec)
    (kept : ∀ a rec, Covered s s.read a rec → promise a rec.stamp.hlc →
      Settled c { s with vectors := vectors, refused := refused } a rec ∨ more a rec.stamp.hlc) :
    Working c more none { s with vectors := vectors, refused := refused } := by
  obtain ⟨lasting, behind, within, token, waiting, ahead, held, owed, marks, debt⟩ := working
  refine ⟨⟨lasting.reached,lasting.logged,lasting.sorted,genuine,refusals,fun a rec embeds covered => ?_⟩,behind,within,token,
    waiting,ahead,held,fun a rec embeds covered => ?_,marks,debt⟩
  · exact (lasting.owes a rec embeds covered).imp_left (settled a rec (coveredLonger behind covered))
  · rcases owed a rec embeds covered with done | promised | rest
    · exact Or.inl (settled a rec covered done)
    · exact (kept a rec covered promised).imp_right Or.inl
    · exact Or.inr (Or.inr rest)

theorem Working.put {k : CollectionId} {job : Job} {jobs : List Job}
    (working : Working c (both promise (ofJobs k (job :: jobs))) none s)
    (genuine : Genuine c s ⟨k,job.source⟩ job.hlc job.chunks) :
    Working c (both promise (ofJobs k jobs)) none (s.put k job) := by
  have split {a : Address} {hlc : Hlc} (promised : both promise (ofJobs k (job :: jobs)) a hlc) :
      (a = ⟨k,job.source⟩ ∧ job.hlc = hlc) ∨ both promise (ofJobs k jobs) a hlc := by
    rcases promised with first | ⟨same, other, member, source, time⟩
    · exact Or.inr (Or.inl first)
    · rcases List.mem_cons.mp member with rfl | inside
      · refine Or.inl ⟨?_,time⟩
        cases a
        simp only at same source
        rw [same, source]
      · exact Or.inr (Or.inr ⟨same,other,inside,source,time⟩)
  unfold State.put
  simp only
  split_ifs with current
  · have now : ∀ rec, s.docs.get ⟨k,job.source⟩ = some rec → rec.isLive = true → rec.stamp.hlc = job.hlc := by
      intro rec found live
      unfold State.documentStamp at current
      simpa [found, Option.filter, live] using current
    refine working.settles (fun a r found => ?_) working.lasting.refused (fun a rec covered done => ?_)
      fun a rec covered promised => ?_
    · rw [SortedMap.getInsert] at found
      split_ifs at found with same
      · cases Option.some.inj found
        rw [same]
        exact genuine
      · exact working.lasting.vectors a r found
    · rcases done with stored | rest
      · by_cases same : a = ⟨k,job.source⟩
        · refine Or.inl ?_
          have equal := now rec (same ▸ covered.1) covered.2.1
          rw [SortedMap.getInsert, if_pos same, genuine.2 rec (same ▸ covered.1) covered.2.1 equal, equal, same]
        · refine Or.inl ?_
          rw [SortedMap.getInsert, if_neg same]
          exact stored
      · exact Or.inr rest
    · rcases split promised with ⟨same, _⟩ | rest
      · refine Or.inl (Or.inl ?_)
        have equal := now rec (same ▸ covered.1) covered.2.1
        rw [SortedMap.getInsert, if_pos same, genuine.2 rec (same ▸ covered.1) covered.2.1 equal, equal, same]
      · exact Or.inr rest
  · refine working.weaken fun a rec _ covered promised => ?_
    rcases split promised with ⟨same, time⟩ | rest
    · refine absurd ?_ current
      unfold State.documentStamp
      rw [←same, covered.1]
      simp [Option.filter, covered.2.1, time]
    · exact Or.inr (Or.inl rest)

theorem putKept (k : CollectionId) (s : State) (job : Job) : (s.put k job).docs = s.docs ∧ (s.put k job).log = s.log ∧
    (s.put k job).read = s.read ∧ (s.put k job).pending = s.pending ∧ (s.put k job).backoff = s.backoff ∧
    (s.put k job).position = s.position := by
  unfold State.put
  simp only
  split_ifs <;> exact ⟨rfl,rfl,rfl,rfl,rfl,rfl⟩

theorem Working.puts {k : CollectionId} {jobs : List Job} : ∀ {s : State},
    Working c (both promise (ofJobs k jobs)) none s → AllGenuine c s k jobs →
      Working c promise none (jobs.foldl (State.put k) s) := by
  induction jobs with
  | nil =>
      intro s working _
      refine working.weaken fun a rec _ _ promised => ?_
      rcases promised with first | ⟨_, job, member, _⟩
      · exact Or.inr (Or.inl first)
      · exact absurd member List.not_mem_nil
  | cons job rest ih =>
      intro s working genuine
      refine ih (working.put (genuine job List.mem_cons_self)) fun other member => ?_
      have same := (putKept k s job).1
      unfold Genuine
      rw [same]
      exact genuine other (List.mem_cons_of_mem _ member)

theorem putsKept (k : CollectionId) (jobs : List Job) : ∀ s : State, (jobs.foldl (State.put k) s).docs = s.docs ∧
    (jobs.foldl (State.put k) s).log = s.log ∧ (jobs.foldl (State.put k) s).read = s.read ∧
    (jobs.foldl (State.put k) s).pending = s.pending ∧ (jobs.foldl (State.put k) s).backoff = s.backoff ∧
    (jobs.foldl (State.put k) s).position = s.position := by
  induction jobs with
  | nil => exact fun s => ⟨rfl,rfl,rfl,rfl,rfl,rfl⟩
  | cons job rest ih =>
      intro s
      obtain ⟨a, b, d, e, f, g⟩ := ih (s.put k job)
      obtain ⟨a', b', d', e', f', g'⟩ := putKept k s job
      exact ⟨a.trans a',b.trans b',d.trans d',e.trans e',f.trans f',g.trans g'⟩

theorem Working.refuse {k : CollectionId} {jobs : List Job} (working : Working c (both promise (ofJobs k jobs)) none s)
    (genuine : AllGenuine c s k jobs) : Working c promise none (s.refuse k jobs) := by
  unfold State.refuse
  refine working.settles working.lasting.vectors (fun x member => ?_) (fun a rec _ done => ?_) fun a rec covered promised => ?_
  · rcases List.mem_append.mp member with old | new
    · exact working.lasting.refused x old
    · obtain ⟨job, inside, rfl⟩ := List.mem_map.mp new
      exact genuine job inside
  · rcases done with stored | none' | ⟨job, member, rest⟩
    · exact Or.inl stored
    · exact Or.inr (Or.inl none')
    · exact Or.inr (Or.inr ⟨job,List.mem_append_left _ member,rest⟩)
  · rcases promised with first | ⟨same, job, inside, source, time⟩
    · exact Or.inr first
    · have address : a = ⟨k,job.source⟩ := by
        cases a
        simp only at same source
        rw [same, source]
      refine Or.inl (Or.inr (Or.inr ⟨job,List.mem_append_right _ ?_,source,time,?_⟩))
      · rw [same]
        exact List.mem_map.mpr ⟨job,inside,rfl⟩
      · have texts := (genuine job inside).2 rec (address ▸ covered.1) covered.2.1 time.symm
        rw [texts, same]

/-! The position. -/

theorem Working.tokens (working : Working c promise skip s) {token : Option Nat} (within : ∀ n, token = some n → n ≤ s.read) :
    Working c promise skip { s with pending := { s.pending with token := token } } := by
  obtain ⟨lasting, behind, reached, _, waiting, ahead, held, owed, marked, debt⟩ := working
  exact ⟨⟨lasting.reached,lasting.logged,lasting.sorted,lasting.vectors,lasting.refused,lasting.owes⟩,behind,reached,within,
    waiting,ahead,held,owed,marked,debt⟩

/- A debt whose mark is written. -/
theorem Working.backoffMarked (working : Working c promise none s) (written : s.marksUnwritten = false) {a : Address}
    {hlc : Hlc} (promised : ofBackoff s.backoff a hlc) : (s.marks.get a.collection).isSome = true := by
  obtain ⟨b, found, promised⟩ := promised
  have owing : b.held.isSome = true ∨ b.rescan.isSome = true := by
    rcases promised with rescan | ⟨batch, is, _⟩
    · exact Or.inr rescan
    · exact Or.inl (by rw [is]; rfl)
  rcases working.debt _ b (Option.some_ne_none _) found owing with marked | unwritten
  · exact working.marked _ b found marked
  · unfold State.marksUnwritten at written
    rw [List.any_eq_false] at written
    exact absurd unwritten (written b (SortedMap.memValues.mpr ⟨_,found⟩))

/- No batch is open, every mark is written, and nothing in flight is covered: what is covered then is
settled or marked. -/
theorem Working.advance (working : Working c promise none s) (empty : s.pending.batches = [])
    (written : s.marksUnwritten = false) {n : Nat} (within : n ≤ s.read)
    (beyond : ∀ a rec, Covered s n a rec → ¬ promise a rec.stamp.hlc) : Working c promise none { s with position := n } := by
  have owes (a : Address) (rec : DocRecord) (embeds : c.embeds a.collection = true) (covered : Covered s n a rec) :
      Settled c s a rec ∨ (s.marks.get a.collection).isSome = true := by
    rcases working.owed a rec embeds (coveredLonger within covered) with settled | promised | waits | backoff
    · exact Or.inl settled
    · exact absurd promised (beyond a rec covered)
    · rw [empty] at waits
      obtain ⟨b, member, _⟩ := waits
      exact absurd member List.not_mem_nil
    · exact Or.inr (working.backoffMarked written backoff)
  obtain ⟨lasting, behind, reached, token, waiting, ahead, held, owed, marked, debt⟩ := working
  refine ⟨⟨within.trans reached,lasting.logged,lasting.sorted,lasting.vectors,lasting.refused,owes⟩,within,reached,token,
    waiting,fun a rec waits => ?_,held,owed,marked,debt⟩
  rw [empty] at waits
  obtain ⟨b, member, _⟩ := waits
  exact absurd member List.not_mem_nil

/- The open batches are taken to be sent. -/
theorem Working.take (working : Working c promise none s) :
    Working c (both promise (ofBatches s.pending.batches)) none { s with pending := { s.pending with batches := [] } } := by
  obtain ⟨lasting, behind, reached, token, waiting, ahead, held, owed, marked, debt⟩ := working
  refine ⟨⟨lasting.reached,lasting.logged,lasting.sorted,lasting.vectors,lasting.refused,lasting.owes⟩,behind,reached,token,
    fun b member => absurd member List.not_mem_nil,fun a rec waits => ?_,held,fun a rec embeds covered => ?_,marked,debt⟩
  · obtain ⟨b, member, _⟩ := waits
    exact absurd member List.not_mem_nil
  · rcases owed a rec embeds covered with settled | promised | waits | backoff
    · exact Or.inl settled
    · exact Or.inr (Or.inl (Or.inl promised))
    · exact Or.inr (Or.inl (Or.inr waits))
    · exact Or.inr (Or.inr (Or.inr backoff))

theorem Working.store {k : CollectionId} {jobs : List Job} {token : Option Nat}
    (working : Working c (both promise (ofJobs k jobs)) none s) (genuine : AllGenuine c s k jobs)
    (ready : ∀ n, token = some n → s.pending.batches = [] ∧ s.marksUnwritten = false ∧ n ≤ s.read ∧
      ∀ a rec, Covered s n a rec → ¬ promise a rec.stamp.hlc) : Working c promise none (s.store k jobs token) := by
  have stored := working.puts genuine
  obtain ⟨docs, log, read, pending, backoff, _⟩ := putsKept k jobs s
  unfold State.store
  cases token with
  | none => exact stored
  | some n =>
      obtain ⟨empty, written, within, beyond⟩ := ready n rfl
      refine stored.advance (by rw [pending]; exact empty) ?_ (by rw [read]; exact within) fun a rec covered => ?_
      · unfold State.marksUnwritten at written ⊢
        rw [backoff]
        exact written
      · unfold Covered at covered
        rw [docs, log] at covered
        exact beyond a rec covered

end

end Kimmy.Vector
