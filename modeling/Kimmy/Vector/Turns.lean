import Kimmy.Vector.Debt

/-!
Every batch, flush and scan of the worker is safe beside other writers: whatever the provider answers,
what it has in flight is settled, held or noted.
-/
namespace Kimmy.Vector
open Merge Store

/-! Other writers. -/

/- Others write, each time a version with a timestamp of its own. -/
def Beside : State → State → Prop := Relation.ReflTransGen fun s t => ∃ e, Untied s e ∧ t = s.append e

/- Something known that other writers leave. -/
def Steady (c : Config) (known : State → Prop) : Prop :=
  ∀ s t e a, Wrote s t e a → Lasting c s → s.read ≤ s.log.length → known s → known t

/- The worker's own commits leave it too. -/
structure Frame (c : Config) (known : State → Prop) : Prop where
  wrote : Steady c known
  same : ∀ s t, t.log = s.log → t.docs = s.docs → t.read = s.read → t.pending = s.pending → t.position = s.position →
    known s → known t

/- Something known of the documents and the stream alone. -/
structure Deep (c : Config) (also : State → Prop) : Prop where
  wrote : Steady c also
  same : ∀ s t, t.log = s.log → t.docs = s.docs → t.read = s.read → also s → also t

section
variable {c : Config} {s t : State} {promise more : Promise} {known : State → Prop}

theorem Steady.and {also : State → Prop} (first : Steady c known) (second : Steady c also) :
    Steady c fun s => known s ∧ also s := fun s t e a wrote lasting within holds =>
  ⟨first s t e a wrote lasting within holds.1,second s t e a wrote lasting within holds.2⟩

theorem Frame.and {also : State → Prop} (first : Frame c known) (second : Frame c also) :
    Frame c fun s => known s ∧ also s :=
  ⟨first.wrote.and second.wrote,
    fun s t log docs read pending position holds =>
      ⟨first.same s t log docs read pending position holds.1,second.same s t log docs read pending position holds.2⟩⟩

theorem Deep.and {also : State → Prop} (first : Deep c known) (second : Deep c also) :
    Deep c fun s => known s ∧ also s :=
  ⟨first.wrote.and second.wrote,fun s t log docs read holds =>
    ⟨first.same s t log docs read holds.1,second.same s t log docs read holds.2⟩⟩

theorem Deep.frame (deep : Deep c known) : Frame c known :=
  ⟨deep.wrote,fun s t log docs read _ _ holds => deep.same s t log docs read holds⟩

theorem deepTrue : Deep c fun _ => True := ⟨fun _ _ _ _ _ _ _ _ => trivial,fun _ _ _ _ _ _ => trivial⟩

theorem frameTrue : Frame c fun _ => True := deepTrue.frame

theorem genuineSame {a : Address} {hlc : Hlc} {text : List String} (docs : t.docs = s.docs)
    (genuine : Genuine c s a hlc text) : Genuine c t a hlc text := by
  unfold Genuine
  rwa [docs]

theorem coveredSame {n : Nat} {a : Address} {rec : DocRecord} (docs : t.docs = s.docs) (log : t.log = s.log)
    (covered : Covered t n a rec) : Covered s n a rec := by
  unfold Covered at covered
  rwa [docs, log] at covered

theorem frameGenuine (k : CollectionId) (jobs : List Job) : Frame c fun s => AllGenuine c s k jobs :=
  ⟨fun _ _ _ _ wrote _ _ all => wrote.allGenuine all,
    fun _ _ _ docs _ _ _ all job member => genuineSame docs (all job member)⟩

theorem Beside.keeps {holds : State → Prop} (one : ∀ s t e a, Wrote s t e a → holds s → holds t) (beside : Beside s t)
    (before : holds s) : holds t := by
  induction beside with
  | refl => exact before
  | tail _ last ih =>
      obtain ⟨e, untied, rfl⟩ := last
      rcases appendWrites untied with same | ⟨a, wrote⟩
      · rwa [same]
      · exact one _ _ e a wrote ih

/-! Safe steps. -/

/- The worker keeps what is known, with the promise. -/
def Holds (c : Config) (promise : Promise) (known : State → Prop) (s : State) : Prop :=
  Working c promise none s ∧ known s

theorem Holds.beside (holds : Holds c promise known s) (steady : Steady c known) (beside : Beside s t) :
    Holds c promise known t :=
  beside.keeps (fun _ _ e a wrote held => ⟨held.1.wrote wrote,steady _ _ e a wrote held.1.lasting held.1.within held.2⟩) holds

variable {α β : Type} {post : α → State → Prop}

/- One action of the worker. -/
theorem safeAct (holds : Holds c promise known s) (steady : Steady c known) {f : State → State × β} {rest : β → Work α}
    (body : ∀ t, Holds c promise known t → Lasting c (f t).1 ∧ (rest (f t).2).Safe (Lasting c) Beside post (f t).1) :
    (Prog.act f rest).Safe (Lasting c) Beside post s := fun t beside => body t (holds.beside steady beside)

theorem safeStep (holds : Holds c promise known s) (steady : Steady c known) {f : State → State × β} {rest : β → Work α}
    (body : ∀ t, Holds c promise known t → Lasting c (f t).1 ∧ (rest (f t).2).Safe (Lasting c) Beside post (f t).1) :
    (Prog.step f >>= rest).Safe (Lasting c) Beside post s := safeAct holds steady body

theorem safeUpdate (holds : Holds c promise known s) (steady : Steady c known) {f : State → State} {rest : Unit → Work α}
    (body : ∀ t, Holds c promise known t → Lasting c (f t) ∧ (rest ()).Safe (Lasting c) Beside post (f t)) :
    (Prog.update f >>= rest).Safe (Lasting c) Beside post s := safeAct holds steady body

theorem safeRead (holds : Holds c promise known s) (steady : Steady c known) {f : State → β} {rest : β → Work α}
    (body : ∀ t, Holds c promise known t → (rest (f t)).Safe (Lasting c) Beside post t) :
    (Prog.read f >>= rest).Safe (Lasting c) Beside post s :=
  safeAct holds steady fun t held => ⟨held.1.lasting,body t held⟩

theorem safeAnswer {rest : Answer → Work α} (body : ∀ answer, (rest answer).Safe (Lasting c) Beside post s) :
    (Prog.answer >>= rest).Safe (Lasting c) Beside post s := body

theorem safeCall {rest : Outcome → Work α} (body : ∀ outcome, (rest outcome).Safe (Lasting c) Beside post s) :
    (callProvider >>= rest).Safe (Lasting c) Beside post s := fun i => body i.outcome

theorem safeClock {rest : Bool → Work α} (body : ∀ b, (rest b).Safe (Lasting c) Beside post s) :
    (clock >>= rest).Safe (Lasting c) Beside post s := fun i => body i.flag

/-! Marks. -/

theorem markKept (s : State) (k : CollectionId) (how : Unscanned) (written : Bool) :
    (s.mark k how written).log = s.log ∧ (s.mark k how written).docs = s.docs ∧ (s.mark k how written).read = s.read ∧
      (s.mark k how written).pending = s.pending ∧ (s.mark k how written).position = s.position := by
  unfold State.mark
  split
  · exact ⟨rfl,rfl,rfl,rfl,rfl⟩
  · simp only
    split_ifs <;> exact ⟨rfl,rfl,rfl,rfl,rfl⟩

theorem Frame.mark (frame : Frame c known) {k : CollectionId} {how : Unscanned} {written : Bool}
    {backoff : SortedMap CollectionId Backoff} (holds : known s) :
    known ({ s with backoff := backoff }.mark k how written) := by
  obtain ⟨log, docs, read, pending, position⟩ := markKept { s with backoff := backoff } k how written
  exact frame.same s _ log docs read pending position holds

theorem safeNoteRescan {k : CollectionId} {how : Unscanned} (holds : Holds c (both promise (ofScan k)) known s)
    (frame : Frame c known) : (noteRescan k how).Safe (Lasting c) Beside (fun _ => Holds c promise known) s := by
  refine safeClock fun written => safeAct holds frame.wrote fun t held => ?_
  have working := held.1.noteRescan how written
  exact ⟨working.lasting,working,frame.mark held.2⟩

theorem safeHoldForRetry {k : CollectionId} {jobs : List Job} (holds : Holds c (both promise (ofJobs k jobs)) known s)
    (genuine : AllGenuine c s k jobs) (frame : Frame c known) :
    (holdForRetry ⟨k,jobs⟩).Safe (Lasting c) Beside (fun _ => Holds c promise known) s := by
  have both : Holds c (both promise (ofJobs k jobs)) (fun s => known s ∧ AllGenuine c s k jobs) s :=
    ⟨holds.1,holds.2,genuine⟩
  refine safeClock fun written => safeAct both (frame.wrote.and (frameGenuine k jobs).wrote) fun t held => ?_
  have working := held.1.holdForRetry held.2.2 written
  exact ⟨working.lasting,working,frame.mark held.2.1⟩

/-! Batches. -/

/- A position that may be recorded: no batch is open, and nothing in flight is covered by it. -/
structure Carries (promise : Promise) (known : State → Prop) (n : Nat) : Prop where
  ready : ∀ s, known s → s.pending.batches = [] ∧ n ≤ s.read ∧ ∀ a rec, Covered s n a rec → ¬ promise a rec.stamp.hlc
  moved : ∀ s, known s → known { s with position := n }

/- The position is only carried while every mark is written. -/
def Clear (token : Option Nat) (s : State) : Prop := token.isSome = true → s.marksUnwritten = false

theorem steadyClear (token : Option Nat) : Steady c (Clear token) := by
  intro s t e a wrote _ _ clear carried
  unfold State.marksUnwritten
  rw [wrote.kept.2.2.2.2.2.2]
  exact clear carried

theorem Holds.store {k : CollectionId} {jobs : List Job} {token : Option Nat}
    (holds : Holds c (both promise (ofJobs k jobs)) known s) (genuine : AllGenuine c s k jobs) (frame : Frame c known)
    (carries : ∀ n, token = some n → Carries promise known n) (clear : Clear token s) :
    Holds c promise known (s.store k jobs token) := by
  refine ⟨holds.1.store genuine fun n is => ?_,?_⟩
  · obtain ⟨empty, within, beyond⟩ := (carries n is).ready s holds.2
    exact ⟨empty,clear (by rw [is]; rfl),within,beyond⟩
  · obtain ⟨docs, log, read, pending, _, position⟩ := putsKept k jobs s
    have after : known (jobs.foldl (State.put k) s) := frame.same s _ log docs read pending position holds.2
    unfold State.store
    cases token with
    | none => exact after
    | some n => exact (carries n rfl).moved _ after

theorem Holds.refuse {k : CollectionId} {jobs : List Job} (holds : Holds c (both promise (ofJobs k jobs)) known s)
    (genuine : AllGenuine c s k jobs) (frame : Frame c known) : Holds c promise known (s.refuse k jobs) :=
  ⟨holds.1.refuse genuine,frame.same s _ rfl rfl rfl rfl rfl holds.2⟩

/- How a call for one document ends. -/
def AloneEnds (c : Config) (promise : Promise) (known : State → Prop) (k : CollectionId) (job : Job)
    (checkpoint : Checkpoint) (ended : Alone × Checkpoint) (s : State) : Prop :=
  match ended with
  | (.stored,after) => after = { checkpoint with token := none } ∧ Holds c promise known s
  | (.deferred,after) => after = checkpoint ∧ Holds c (both promise (ofJobs k [job])) known s ∧ AllGenuine c s k [job]
  | (.failed,after) => after = { checkpoint with failed := true, stopped := true } ∧ Lasting c s ∨
      after = checkpoint ∧ Holds c promise known s

theorem safeEmbedAlone {k : CollectionId} {job : Job} {checkpoint : Checkpoint}
    (holds : Holds c (both promise (ofJobs k [job])) known s) (genuine : AllGenuine c s k [job]) (frame : Frame c known)
    (carries : ∀ n, checkpoint.token = some n → Carries promise known n) (clear : Clear checkpoint.token s) :
    (embedAlone k job checkpoint).Safe (Lasting c) Beside (AloneEnds c promise known k job checkpoint) s := by
  have all : Holds c (both promise (ofJobs k [job]))
      (fun s => known s ∧ AllGenuine c s k [job] ∧ Clear checkpoint.token s) s := ⟨holds.1,holds.2,genuine,clear⟩
  have steady := frame.wrote.and ((frameGenuine (c := c) k [job]).wrote.and (steadyClear checkpoint.token))
  have refused : (do
      Prog.update fun s => s.refuse k [job]
      return (Alone.failed,checkpoint) : Work (Alone × Checkpoint)).Safe (Lasting c) Beside
        (AloneEnds c promise known k job checkpoint) s := by
    refine safeUpdate all steady fun t held => ?_
    have done := Holds.refuse ⟨held.1,held.2.1⟩ held.2.2.1 frame
    exact ⟨done.1.lasting,Or.inr ⟨rfl,done⟩⟩
  refine safeCall fun outcome => ?_
  cases outcome with
  | answered =>
      refine safeUpdate all steady fun t held => ?_
      have done := Holds.store ⟨held.1,held.2.1⟩ held.2.2.1 frame carries held.2.2.2
      exact ⟨done.1.lasting,rfl,done⟩
  | failing => exact ⟨rfl,holds,genuine⟩
  | refused => exact refused
  | refusedByPolicy => exact refused
  | stopping => exact Or.inl ⟨rfl,holds.1.lasting⟩

theorem Holds.weaken (holds : Holds c promise known s)
    (le : ∀ a rec, Covered s s.read a rec → promise a rec.stamp.hlc → Settled c s a rec ∨ more a rec.stamp.hlc) :
    Holds c more known s :=
  ⟨holds.1.weaken fun a rec _ covered promised => (le a rec covered promised).imp_right Or.inl,holds.2⟩

/- How a batch ends. -/
def Ends (c : Config) (promise : Promise) (known : State → Prop) (before after : Checkpoint) (s : State) : Prop :=
  if after.stopped then after.failed = true ∧ Lasting c s
  else Holds c promise known s ∧ after.failed = before.failed ∧ (after.token = none ∨ after.token = before.token)

theorem Ends.goesOn {before after : Checkpoint} (going : before.stopped = false) (stopped : after.stopped = before.stopped)
    (failed : after.failed = before.failed) (token : after.token = none ∨ after.token = before.token)
    (holds : Holds c promise known s) : Ends c promise known before after s := by
  unfold Ends
  rw [stopped, going]
  exact ⟨holds,failed,token⟩

theorem Ends.stops {before after : Checkpoint} (stopped : after.stopped = true) (failed : after.failed = true)
    (lasting : Lasting c s) : Ends c promise known before after s := by
  unfold Ends
  rw [stopped]
  exact ⟨failed,lasting⟩

theorem safeSplitBatch {k : CollectionId} (frame : Frame c known) : ∀ {jobs : List Job} {alone : Checkpoint} {s : State},
    alone.token = none → alone.stopped = false → Holds c (both promise (ofJobs k jobs)) known s → AllGenuine c s k jobs →
      (splitBatch k jobs alone).Safe (Lasting c) Beside (Ends c promise known alone) s := by
  intro jobs
  induction jobs with
  | nil =>
      intro alone s token going holds _
      refine Ends.goesOn going rfl rfl (Or.inl token) (holds.weaken fun a rec _ promised => ?_)
      rcases promised with first | ⟨_, job, member, _⟩
      · exact Or.inr first
      · exact absurd member List.not_mem_nil
  | cons job rest ih =>
      intro alone s token going holds genuine
      -- the documents behind this one stay promised while it is sent
      have first : Holds c (both (both promise (ofJobs k rest)) (ofJobs k [job]))
          (fun s => known s ∧ AllGenuine c s k rest) s := by
        refine Holds.weaken ⟨holds.1,holds.2,fun other member => genuine other (List.mem_cons_of_mem _ member)⟩
          fun a rec _ promised => Or.inr ?_
        rcases promised with before | ⟨same, other, member, is⟩
        · exact Or.inl (Or.inl before)
        · rcases List.mem_cons.mp member with rfl | inside
          · exact Or.inr ⟨same,other,List.mem_singleton_self _,is⟩
          · exact Or.inl (Or.inr ⟨same,other,inside,is⟩)
      refine Prog.safeThen (safeEmbedAlone first (fun other member => ?_) (frame.and (frameGenuine k rest))
        (fun n is => by rw [token] at is; cases is) (fun is => by rw [token] at is; cases is)) fun ended t ends => ?_
      · exact genuine other (List.mem_cons.mpr (Or.inl (List.mem_singleton.mp member)))
      · obtain ⟨ended, after⟩ := ended
        cases ended with
        | stored =>
            obtain ⟨is, held⟩ := ends
            have same : after = alone := by rw [is, ←token]
            subst same
            simp only [going]
            exact ih token going ⟨held.1,held.2.1⟩ held.2.2
        | deferred =>
            obtain ⟨rfl, held, one⟩ := ends
            have again : Holds c (both promise (ofJobs k (job :: rest))) known t := by
              refine Holds.weaken ⟨held.1,held.2.1⟩ fun a rec _ promised => Or.inr ?_
              rcases promised with (before | ⟨same, other, member, is⟩) | ⟨same, other, member, is⟩
              · exact Or.inl before
              · exact Or.inr ⟨same,other,List.mem_cons_of_mem _ member,is⟩
              · exact Or.inr ⟨same,other,List.mem_cons.mpr (Or.inl (List.mem_singleton.mp member)),is⟩
            refine Prog.safeThen (safeHoldForRetry again (fun other member => ?_) frame) fun _ u done => ?_
            · rcases List.mem_cons.mp member with rfl | inside
              · exact one other (List.mem_singleton_self _)
              · exact held.2.2 other inside
            · exact Ends.goesOn going rfl rfl (Or.inl token) done
        | failed =>
            rcases ends with ⟨rfl, lasting⟩ | ⟨rfl, held⟩
            · exact Ends.stops rfl rfl lasting
            · simp only [going]
              exact ih token going ⟨held.1,held.2.1⟩ held.2.2

theorem safeEmbedTogether {batch : Batch} {checkpoint : Checkpoint} (going : checkpoint.stopped = false)
    (holds : Holds c (both promise (ofJobs batch.collection batch.jobs)) known s)
    (genuine : AllGenuine c s batch.collection batch.jobs) (frame : Frame c known)
    (carries : ∀ n, checkpoint.token = some n → Carries promise known n) (clear : Clear checkpoint.token s) :
    (embedTogether batch checkpoint).Safe (Lasting c) Beside (Ends c promise known checkpoint) s := by
  have all : Holds c (both promise (ofJobs batch.collection batch.jobs))
      (fun s => known s ∧ AllGenuine c s batch.collection batch.jobs ∧ Clear checkpoint.token s) s :=
    ⟨holds.1,holds.2,genuine,clear⟩
  have steady := frame.wrote.and
    ((frameGenuine (c := c) batch.collection batch.jobs).wrote.and (steadyClear checkpoint.token))
  refine safeCall fun outcome => ?_
  cases outcome with
  | answered =>
      refine safeUpdate all steady fun t held => ?_
      have done := Holds.store ⟨held.1,held.2.1⟩ held.2.2.1 frame carries held.2.2.2
      exact ⟨done.1.lasting,Ends.goesOn going rfl rfl (Or.inl rfl) done⟩
  | failing =>
      exact Prog.safeThen (safeHoldForRetry holds genuine frame) fun _ t done =>
        Ends.goesOn going rfl rfl (Or.inr rfl) done
  | refused =>
      refine Prog.safeThen (safeSplitBatch frame rfl rfl holds genuine) fun alone t ends => ?_
      unfold Ends at ends
      by_cases stopped : alone.stopped = true
      · rw [if_pos stopped] at ends
        exact Ends.stops (by simp only [stopped, Bool.or_true]) (by simp only [ends.1, Bool.or_true]) ends.2
      · rw [if_neg stopped] at ends
        obtain ⟨done, failed, _⟩ := ends
        refine Ends.goesOn going (by simp only [stopped, Bool.or_false]) ?_ (Or.inr rfl) done
        rw [failed]
        exact Bool.or_false _
  | refusedByPolicy =>
      refine safeUpdate all steady fun t held => ?_
      have done := Holds.refuse ⟨held.1,held.2.1⟩ held.2.2.1 frame
      exact ⟨done.1.lasting,Ends.goesOn going rfl rfl (Or.inr rfl) done⟩
  | stopping => exact Ends.stops rfl rfl holds.1.lasting

theorem safeEmbedBatch {batch : Batch} {checkpoint : Checkpoint} (going : checkpoint.stopped = false)
    (holds : Holds c (both promise (ofJobs batch.collection batch.jobs)) known s)
    (genuine : AllGenuine c s batch.collection batch.jobs) (frame : Frame c known)
    (carries : ∀ n, checkpoint.token = some n → Carries promise known n) (clear : Clear checkpoint.token s) :
    (embedBatch batch checkpoint).Safe (Lasting c) Beside (Ends c promise known checkpoint) s := by
  unfold embedBatch
  split_ifs with empty
  · refine Ends.goesOn going rfl rfl (Or.inr rfl) (holds.weaken fun a rec _ promised => ?_)
    rcases promised with first | ⟨_, job, member, _⟩
    · exact Or.inr first
    · rw [List.isEmpty_iff.mp empty] at member
      exact absurd member List.not_mem_nil
  · refine safeClock fun notDue => ?_
    have all : Holds c (both promise (ofJobs batch.collection batch.jobs))
        (fun s => known s ∧ AllGenuine c s batch.collection batch.jobs ∧ Clear checkpoint.token s) s :=
      ⟨holds.1,holds.2,genuine,clear⟩
    refine safeRead all (frame.wrote.and
      ((frameGenuine batch.collection batch.jobs).wrote.and (steadyClear checkpoint.token))) fun t held => ?_
    obtain ⟨working, still, genuine, clear⟩ := held
    split_ifs
    · have scans : Holds c (both promise (ofScan batch.collection)) known t :=
        Holds.weaken ⟨working,still⟩ fun a rec _ promised => Or.inr (promised.imp_right fun job => job.1)
      exact Prog.safeThen (safeNoteRescan scans frame) fun _ u done => Ends.goesOn going rfl rfl (Or.inr rfl) done
    · split
      · rename_i job single
        rw [single] at working genuine
        refine Prog.safeThen (safeEmbedAlone ⟨working,still⟩ genuine frame carries clear) fun ended u ends => ?_
        obtain ⟨ended, after⟩ := ended
        cases ended with
        | stored =>
            obtain ⟨rfl, done⟩ := ends
            exact Ends.goesOn going rfl rfl (Or.inl rfl) done
        | deferred =>
            obtain ⟨rfl, done, one⟩ := ends
            rw [←single] at done one
            exact Prog.safeThen (safeHoldForRetry done one frame) fun _ v last =>
              Ends.goesOn going rfl rfl (Or.inr rfl) last
        | failed =>
            rcases ends with ⟨rfl, lasting⟩ | ⟨rfl, done⟩
            · exact Ends.stops rfl rfl lasting
            · exact Ends.goesOn going rfl rfl (Or.inr rfl) done
      · exact safeEmbedTogether going ⟨working,still⟩ genuine frame carries clear

/-! Flushes. -/

theorem noToken (k : Nat) : ∀ n, none = some n → n ≤ k := fun _ is => by cases is

/- No position beyond `k` is recorded or about to be, and nothing in flight is covered before it. -/
structure Flushable (promise : Promise) (also : State → Prop) (k : Nat) (s : State) : Prop where
  tokens : ∀ n, s.pending.token = some n → n ≤ k
  position : s.position ≤ k
  within : k ≤ s.read
  beyond : ∀ a rec, Covered s k a rec → ¬ promise a rec.stamp.hlc
  also : also s

structure Bounded (promise : Promise) (also : State → Prop) (k : Nat) (s : State) : Prop
    extends Flushable promise also k s where
  empty : s.pending.batches = []

variable {also : State → Prop}

theorem frameFlushable (promise : Promise) (deep : Deep c also) (k : Nat) : Frame c (Flushable promise also k) := by
  refine ⟨fun s t e a wrote lasting within flushable => ?_,fun s t log docs read pending position flushable => ?_⟩
  · obtain ⟨_, position, _, _, read, pending, _⟩ := wrote.kept
    refine ⟨?_,?_,?_,fun b rec covered => ?_,deep.wrote s t e a wrote lasting within flushable.also⟩
    · rw [pending]
      exact flushable.tokens
    · rw [position]
      exact flushable.position
    · rw [read]
      exact flushable.within
    · exact flushable.beyond b rec (wrote.covered lasting (flushable.within.trans within) covered).2
  · refine ⟨?_,?_,?_,fun b rec covered => flushable.beyond b rec (coveredSame docs log covered),
      deep.same s t log docs read flushable.also⟩
    · rw [pending]
      exact flushable.tokens
    · rw [position]
      exact flushable.position
    · rw [read]
      exact flushable.within

theorem frameBounded (promise : Promise) (deep : Deep c also) (k : Nat) : Frame c (Bounded promise also k) := by
  have frame := frameFlushable promise deep k
  refine ⟨fun s t e a wrote lasting within bounded => ?_,fun s t log docs read pending position bounded => ?_⟩
  · refine ⟨frame.wrote s t e a wrote lasting within bounded.toFlushable,?_⟩
    rw [wrote.kept.2.2.2.2.2.1]
    exact bounded.empty
  · refine ⟨frame.same s t log docs read pending position bounded.toFlushable,?_⟩
    rw [pending]
    exact bounded.empty

theorem Bounded.token {k : Nat} (deep : Deep c also) (bounded : Bounded promise also k s) {token : Option Nat}
    (below : ∀ n, token = some n → n ≤ k) :
    Bounded promise also k { s with pending := { s.pending with token := token } } :=
  ⟨⟨below,bounded.position,bounded.within,bounded.beyond,deep.same s _ rfl rfl rfl bounded.also⟩,bounded.empty⟩

theorem Bounded.moved {k n : Nat} (deep : Deep c also) (bounded : Bounded promise also k s) (below : n ≤ k) :
    Bounded promise also k { s with position := n } :=
  ⟨⟨bounded.tokens,below,bounded.within,bounded.beyond,deep.same s _ rfl rfl rfl bounded.also⟩,bounded.empty⟩

def AllBatches (c : Config) (batches : List Batch) (s : State) : Prop :=
  ∀ b ∈ batches, AllGenuine c s b.collection b.jobs

theorem frameBatches (batches : List Batch) : Frame c (AllBatches c batches) :=
  ⟨fun _ _ _ _ wrote _ _ all b member => wrote.allGenuine (all b member),
    fun s t log docs read pending position all b member =>
      (frameGenuine b.collection b.jobs).same s t log docs read pending position (all b member)⟩

def Flushed (c : Config) (promise : Promise) (also : State → Prop) (k : Nat) (checkpoint : Checkpoint) (s : State) : Prop :=
  if checkpoint.stopped then checkpoint.failed = true ∧ Lasting c s
  else Holds c promise (Bounded promise also k) s ∧ checkpoint.failed = false ∧ ∀ n, checkpoint.token = some n → n ≤ k

theorem ofBatchesCons {b : Batch} {rest : List Batch} {a : Address} {hlc : Hlc} (promised : ofBatches (b :: rest) a hlc) :
    ofJobs b.collection b.jobs a hlc ∨ ofBatches rest a hlc := by
  obtain ⟨other, member, jobs⟩ := promised
  rcases List.mem_cons.mp member with rfl | inside
  · exact Or.inl jobs
  · exact Or.inr ⟨other,inside,jobs⟩

theorem notOfBatchesNil {a : Address} {hlc : Hlc} : ¬ ofBatches [] a hlc := fun ⟨_,member,_⟩ =>
  absurd member List.not_mem_nil

theorem safeFlushBatches (deep : Deep c also) {k : Nat} : ∀ {batches : List Batch} {checkpoint : Checkpoint} {s : State},
    checkpoint.stopped = false → checkpoint.failed = false → (batches = [] ∨ checkpoint.token = none) →
      (∀ n, checkpoint.token = some n → n ≤ k) → Holds c (both promise (ofBatches batches)) (Bounded promise also k) s →
      AllBatches c batches s → (flushBatches batches checkpoint).Safe (Lasting c) Beside (Flushed c promise also k) s := by
  intro batches
  induction batches with
  | nil =>
      intro checkpoint s going fine _ below holds _
      have rest : Holds c promise (Bounded promise also k) s := holds.weaken fun a rec _ promised =>
        Or.inr (promised.resolve_right notOfBatchesNil)
      show Flushed c promise also k checkpoint s
      unfold Flushed
      rw [going]
      exact ⟨rest,fine,below⟩
  | cons batch rest ih =>
      intro checkpoint s going fine token below holds genuine
      replace token : checkpoint.token = none := token.resolve_left (List.cons_ne_nil _ _)
      have all : Holds c (both promise (ofBatches (batch :: rest)))
          (fun s => Bounded promise also k s ∧ AllBatches c (batch :: rest) s) s := ⟨holds.1,holds.2,genuine⟩
      refine safeAct all ((frameBounded promise deep k).wrote.and (frameBatches (batch :: rest)).wrote) fun t held => ?_
      obtain ⟨working, bounded, genuine⟩ := held
      have later : Holds c (both (both promise (ofBatches rest)) (ofJobs batch.collection batch.jobs))
          (fun s => Bounded promise also k s ∧ AllBatches c rest s) t := by
        refine Holds.weaken ⟨working,bounded,fun b member => genuine b (List.mem_cons_of_mem _ member)⟩
          fun a rec _ promised => Or.inr ?_
        rcases promised with before | batches
        · exact Or.inl (Or.inl before)
        · rcases ofBatchesCons batches with own | others
          · exact Or.inr own
          · exact Or.inl (Or.inr others)
      have own : AllGenuine c t batch.collection batch.jobs := genuine batch List.mem_cons_self
      have frame := (frameBounded promise deep k).and (frameBatches rest)
      -- what follows the batch, with the position or without
      have goes (after : Checkpoint) (u : State) (still : after.stopped = false) (well : after.failed = false)
          (carried : rest = [] ∨ after.token = none) (low : ∀ n, after.token = some n → n ≤ k)
          (held : Holds c (both (both promise (ofBatches rest)) (ofJobs batch.collection batch.jobs))
            (fun s => Bounded promise also k s ∧ AllBatches c rest s) u) (own : AllGenuine c u batch.collection batch.jobs)
          (clear : Clear after.token u) :
          (do
            let checkpoint ← embedBatch batch after
            if checkpoint.stopped then return checkpoint else flushBatches rest checkpoint : Work Checkpoint).Safe (Lasting c)
              Beside (Flushed c promise also k) u := by
        have carries (n : Nat) (is : after.token = some n) :
            Carries (both promise (ofBatches rest)) (fun s => Bounded promise also k s ∧ AllBatches c rest s) n := by
          have last : rest = [] := carried.resolve_right fun wrong => by rw [wrong] at is; cases is
          refine ⟨fun v known => ⟨known.1.empty,(low n is).trans known.1.within,fun a rec covered promised => ?_⟩,
            fun v known => ⟨known.1.moved deep (low n is),known.2⟩⟩
          rcases promised with before | batches
          · exact known.1.beyond a rec (coveredLonger (low n is) covered) before
          · rw [last] at batches
            exact notOfBatchesNil batches
        refine Prog.safeThen (safeEmbedBatch still held own frame carries clear) fun ended v ends => ?_
        unfold Ends at ends
        by_cases stopped : ended.stopped = true
        · rw [if_pos stopped] at ends
          simp only [stopped]
          show Flushed c promise also k ended v
          unfold Flushed
          rwa [stopped]
        · rw [if_neg stopped] at ends
          obtain ⟨done, failed, kept⟩ := ends
          simp only [Bool.not_eq_true] at stopped
          simp only [stopped]
          refine ih stopped (failed.trans well) ?_ (fun n is => ?_) ⟨done.1,done.2.1⟩ done.2.2
          · rcases carried with last | without
            · exact Or.inl last
            · rw [without, or_self] at kept
              exact Or.inr kept
          · rcases kept with without | same
            · rw [without] at is
              cases is
            · exact low n (same.symm.trans is)
      simp only
      split_ifs with carry
      · simp only [Bool.and_eq_true, Bool.not_eq_true', List.isEmpty_iff] at carry
        have cleared : Working c (both (both promise (ofBatches rest)) (ofJobs batch.collection batch.jobs)) none
            { t with pending := { t.pending with token := none } } := later.1.tokens (noToken _)
        have low : Bounded promise also k { t with pending := { t.pending with token := none } } :=
          bounded.token deep (noToken k)
        exact ⟨cleared.lasting,goes { checkpoint with token := t.pending.token } _ going fine (Or.inl carry.1.1)
          (fun n is => bounded.tokens n is) ⟨cleared,low,later.2.2⟩ own fun _ => carry.2⟩
      · exact ⟨working.lasting,goes checkpoint t going fine (Or.inr token) below later own fun is => by
          rw [token] at is
          cases is⟩

/- A flush ends at the node's stop, or the open batches are gone. -/
def FlushEnds (c : Config) (promise : Promise) (also : State → Prop) (k : Nat) (stopped : Bool) (s : State) : Prop :=
  if stopped then Lasting c s else Holds c promise (Bounded promise also k) s

theorem Lasting.beside (lasting : Lasting c s) (beside : Beside s t) : Lasting c t :=
  beside.keeps (fun _ _ _ _ wrote before => before.wrote wrote) lasting

theorem safeFlush (deep : Deep c also) {k : Nat} (holds : Holds c promise (Flushable promise also k) s) :
    flush.Safe (Lasting c) Beside (FlushEnds c promise also k) s := by
  refine safeStep holds (frameFlushable promise deep k).wrote fun t held => ?_
  obtain ⟨working, flushable⟩ := held
  have taken := working.take
  have bounded : Bounded promise also k { t with pending := { t.pending with batches := [] } } :=
    ⟨⟨flushable.tokens,flushable.position,flushable.within,flushable.beyond,
      deep.same t _ rfl rfl rfl flushable.also⟩,rfl⟩
  have sent : (flushBatches t.pending.batches .new).Safe (Lasting c) Beside (Flushed c promise also k)
      { t with pending := { t.pending with batches := [] } } :=
    safeFlushBatches deep rfl rfl (Or.inr rfl) (noToken k) ⟨taken,bounded⟩ working.waiting
  refine ⟨taken.lasting,Prog.safeThen sent fun checkpoint u flushed => ?_⟩
  unfold Flushed at flushed
  by_cases stopped : checkpoint.stopped = true
  · rw [if_pos stopped] at flushed
    obtain ⟨failed, lasting⟩ := flushed
    refine fun v beside => ⟨lasting.beside beside,?_⟩
    have branch : (checkpoint.failed || v.marksUnwritten) = true := by rw [failed, Bool.true_or]
    show (if (checkpoint.failed || v.marksUnwritten) = true then _ else _ : Work Bool).Safe _ _ _ _
    rw [if_pos branch]
    refine fun w later => ?_
    have last := (lasting.beside beside).beside later
    have kept : Lasting c { w with pending := { w.pending with token := w.pending.token <|> checkpoint.token } } :=
      ⟨last.reached,last.logged,last.sorted,last.vectors,last.refused,last.owes⟩
    refine ⟨kept,?_⟩
    show FlushEnds c promise also k checkpoint.stopped _
    rw [stopped]
    exact kept
  · rw [if_neg stopped] at flushed
    obtain ⟨done, fine, below⟩ := flushed
    rw [Bool.not_eq_true] at stopped
    -- the position that was taken and not recorded is kept, or recorded now
    have either (w : State) (bounded : Bounded promise also k w) (n : Nat)
        (is : (w.pending.token <|> checkpoint.token) = some n) : n ≤ k := by
      cases token : w.pending.token with
      | none =>
          rw [token] at is
          exact below n is
      | some m =>
          rw [token] at is
          exact (Option.some.inj is) ▸ bounded.tokens m token
    refine safeRead done (frameBounded promise deep k).wrote fun v held => ?_
    split_ifs with unwritten
    · refine safeUpdate held (frameBounded promise deep k).wrote fun w now => ?_
      have working := now.1.tokens fun n is => (either w now.2 n is).trans now.2.within
      refine ⟨working.lasting,?_⟩
      show FlushEnds c promise also k checkpoint.stopped _
      rw [stopped]
      exact ⟨working,now.2.token deep (either w now.2)⟩
    · rw [fine, Bool.false_or, Bool.not_eq_true] at unwritten
      have clear : Holds c promise (fun s => Bounded promise also k s ∧ Clear (some 0) s) v := ⟨held.1,held.2,fun _ => unwritten⟩
      refine safeUpdate clear ((frameBounded promise deep k).wrote.and (steadyClear _)) fun w now => ?_
      obtain ⟨working, bounded, written⟩ := now
      have low : (w.pending.token <|> checkpoint.token).getD w.position ≤ k := by
        cases token : (w.pending.token <|> checkpoint.token) with
        | none => exact bounded.position
        | some n => exact either w bounded n token
      have moved := working.advance bounded.empty (written rfl) (low.trans bounded.within) fun a rec covered =>
        bounded.beyond a rec (coveredLonger low covered)
      have last : Holds c promise (Bounded promise also k) { w with
          position := (w.pending.token <|> checkpoint.token).getD w.position
          pending := { w.pending with token := none } } :=
        ⟨moved.tokens (noToken _),(bounded.moved deep low).token deep (noToken k)⟩
      exact ⟨last.1.lasting,last⟩

/-! Jobs. -/

/- The job is for the version that the stream has come to, where there is one. -/
def Current (c : Config) (a : Address) (hlc : Hlc) (text : List String) (s : State) : Prop :=
  Genuine c s a hlc text ∧ ∀ rec, Covered s s.read a rec → rec.stamp.hlc = hlc

theorem deepCurrent (a : Address) (hlc : Hlc) (text : List String) : Deep c (Current c a hlc text) := by
  refine ⟨fun s t e b wrote lasting within current => ⟨wrote.genuine current.1,fun rec covered => ?_⟩,
    fun s t log docs read current => ⟨genuineSame docs current.1,fun rec covered => ?_⟩⟩
  · rw [wrote.kept.2.2.2.2.1] at covered
    exact current.2 rec (wrote.covered lasting within covered).2
  · rw [read] at covered
    exact current.2 rec (coveredSame docs log covered)

/- Of one document only the latest version is kept, and that is the one still promised. -/
theorem ofPush {b : Batch} {job : Job} (current : Current c ⟨b.collection,job.source⟩ job.hlc job.chunks s) {a : Address}
    {rec : DocRecord} (covered : Covered s s.read a rec)
    (promised : ofJobs b.collection b.jobs a rec.stamp.hlc ∨ ofJobs b.collection [job] a rec.stamp.hlc) :
    ofJobs b.collection (b.push job).jobs a rec.stamp.hlc := by
  have last : job ∈ (b.push job).jobs := List.mem_append_right _ (List.mem_singleton_self _)
  rcases promised with ⟨same, other, member, source, time⟩ | ⟨same, other, member, source, time⟩
  · by_cases own : other.source = job.source
    · refine ⟨same,job,last,own.symm.trans source,?_⟩
      have address : a = ⟨b.collection,job.source⟩ := by
        cases a
        simp only at same source
        rw [same, ←own, source]
      exact (current.2 rec (address ▸ covered)).symm
    · exact ⟨same,other,List.mem_append_left _ (List.mem_filter.mpr ⟨member,decide_eq_true own⟩),source,time⟩
  · rw [List.mem_singleton.mp member] at source time
    exact ⟨same,job,last,source,time⟩

theorem genuinePush {b : Batch} {job : Job} (all : AllGenuine c s b.collection b.jobs)
    (current : Current c ⟨b.collection,job.source⟩ job.hlc job.chunks s) :
    AllGenuine c s b.collection (b.push job).jobs := by
  intro other member
  rcases List.mem_append.mp member with old | new
  · exact all other (List.mem_filter.mp old).1
  · rw [List.mem_singleton.mp new]
    exact current.1

def ofOne (a₀ : Address) : Promise := fun a _ => a = a₀

/- What preparing a document leaves. -/
def Prepared (c : Config) (promise : Promise) (known : State → Prop) (a : Address) (prepared : Option Job) (s : State) :
    Prop :=
  match prepared with
  | none => Holds c promise known s
  | some job => Holds c (both promise (ofJobs a.collection [job])) known s ∧ job.source = a.key ∧
      Current c a job.hlc job.chunks s

/- A version that has no text loses its vectors. -/
theorem Holds.deleteVectors {a : Address} (holds : Holds c (both promise (ofOne a)) known s)
    (none' : ∀ rec, Covered s s.read a rec → c.chunks a.collection rec.body = []) (frame : Frame c known) :
    Holds c promise known (s.deleteVectors a) := by
  refine ⟨?_,frame.same s _ rfl rfl rfl rfl rfl holds.2⟩
  refine holds.1.settles (fun b r found => ?_) holds.1.lasting.refused (fun b rec covered done => ?_)
    fun b rec covered promised => ?_
  · rw [SortedMap.getRemove] at found
    split_ifs at found
    exact holds.1.lasting.vectors b r found
  · by_cases same : b = a
    · subst same
      exact Or.inr (Or.inl (none' rec covered))
    · rcases done with stored | rest
      · refine Or.inl ?_
        rw [SortedMap.getRemove, if_neg same]
        exact stored
      · exact Or.inr rest
  · rcases promised with first | rfl
    · exact Or.inr first
    · exact Or.inl (Or.inr (Or.inl (none' rec covered)))

theorem Holds.prepare {a : Address} {hlc : Hlc} {document : Document}
    (holds : Holds c (both promise (ofOne a)) known s)
    (current : Current c a hlc (c.chunks a.collection document) s) (frame : Frame c known) :
    Lasting c (s.prepare c a hlc document).1 ∧
      Prepared c promise known a (s.prepare c a hlc document).2 (s.prepare c a hlc document).1 := by
  unfold State.prepare
  simp only
  split_ifs with empty
  · have done : Holds c promise known (s.deleteVectors a) := by
      refine holds.deleteVectors (fun rec covered => ?_) frame
      have texts := current.1.2 rec covered.1 covered.2.1 (current.2 rec covered)
      rw [←texts, empty]
    exact ⟨done.1.lasting,done⟩
  · refine ⟨holds.1.lasting,holds.weaken fun b rec covered promised => Or.inr ?_,rfl,current⟩
    rcases promised with first | rfl
    · exact Or.inl first
    · exact Or.inr ⟨rfl,_,List.mem_singleton_self _,rfl,(current.2 rec covered).symm⟩

/- Vectors as new as the current version are its own. -/
theorem Lasting.fresh (lasting : Lasting c s) {a : Address} {rec : DocRecord} (current : s.docs.get a = some rec)
    (live : rec.isLive = true) (fresh : s.vectorsAreStale a rec.stamp.hlc = false) : Settled c s a rec := by
  unfold State.vectorsAreStale at fresh
  cases found : s.vectors.get a with
  | none =>
      rw [found] at fresh
      cases fresh
  | some r =>
      rw [found] at fresh
      have new : ¬ r.sourceHlc < rec.stamp.hlc := by simpa using fresh
      obtain ⟨⟨now, held, le⟩, same⟩ := lasting.vectors a r found
      cases current.symm.trans held
      have equal : rec.stamp.hlc = r.sourceHlc := le_antisymm (not_lt.mp new) le
      refine Or.inl ?_
      rw [found, ←same rec current live equal, equal]

/-! Scans. -/

theorem safeScannedJob {a : Address} (holds : Holds c (both promise (ofOne a)) known s) (frame : Frame c known) :
    (scannedJob c a).Safe (Lasting c) Beside (Prepared c promise known a) s := by
  refine safeRead holds frame.wrote fun t held => ?_
  have live (rec : DocRecord) (covered : Covered t t.read a rec) : t.documentStamp a = some rec.stamp := by
    unfold State.documentStamp
    rw [covered.1]
    simp [Option.filter, covered.2.1]
  cases read : (t.documentStamp a).filter fun stamp => t.vectorsAreStale a stamp.hlc with
  | none =>
      refine held.weaken fun b rec covered promised => ?_
      rcases promised with first | rfl
      · exact Or.inr first
      · refine Or.inl (held.1.lasting.fresh covered.1 covered.2.1 ?_)
        rw [live rec covered] at read
        simpa [Option.filter] using read
  | some stamp =>
      have stamped : t.documentStamp a = some stamp := (Option.filter_eq_some_iff.mp read).1
      have version : ∃ rec, t.docs.get a = some rec ∧ rec.stamp = stamp := by
        unfold State.documentStamp at stamped
        obtain ⟨rec, filtered, is⟩ := Option.map_eq_some_iff.mp stamped
        exact ⟨rec,(Option.filter_eq_some_iff.mp filtered).1,is⟩
      obtain ⟨was, found, is⟩ := version
      -- the version that was read is the one promised, until another is written
      have reading : Holds c (both promise (ofOne a))
          (fun s => known s ∧ Current c a stamp.hlc (c.chunks a.collection was.body) s) t := by
        refine ⟨held.1,held.2,⟨⟨was,found,by rw [is]⟩,fun rec current _ _ => ?_⟩,fun rec covered => ?_⟩
        · cases found.symm.trans current
          rfl
        · rw [live rec covered] at stamped
          rw [Option.some.inj stamped]
      refine safeRead reading (frame.wrote.and (deepCurrent _ _ _).wrote) fun u still => ?_
      obtain ⟨working, also, ⟨old, _⟩, same⟩ := still
      cases got : u.get a with
      | none =>
          refine Holds.weaken ⟨working,also⟩ fun b rec covered promised => ?_
          rcases promised with first | rfl
          · exact Or.inr first
          · have alive := covered.2.1
            unfold State.get DocRecord.document at got
            rw [covered.1] at got
            unfold DocRecord.isLive at alive
            simp only [Bool.not_eq_true'] at alive
            simp [alive] at got
      | some document =>
          have body (rec : DocRecord) (current : u.docs.get a = some rec) : rec.body = document := by
            unfold State.get DocRecord.document at got
            rw [current] at got
            simp only [Option.bind_some] at got
            split_ifs at got
            exact Option.some.inj got
          have ready : Holds c (both promise (ofOne a))
              (fun s => known s ∧ Current c a stamp.hlc (c.chunks a.collection document) s) u :=
            ⟨working,also,⟨old,fun rec current _ _ => by rw [body rec current]⟩,same⟩
          exact safeAct ready (frame.wrote.and (deepCurrent _ _ _).wrote) fun v last =>
            Holds.prepare ⟨last.1,last.2.1⟩ last.2.2 frame

/- How a part of a scan ends. -/
def ScanEnds (c : Config) (promise : Promise) (known : State → Prop) (ended : Option CutShort) (s : State) : Prop :=
  match ended with
  | some .stopped => Lasting c s
  | _ => Holds c promise known s

theorem safeEmbedScanned {batch : Batch} (holds : Holds c (both promise (ofJobs batch.collection batch.jobs)) known s)
    (genuine : AllGenuine c s batch.collection batch.jobs) (frame : Frame c known) :
    (embedScanned batch).Safe (Lasting c) Beside (ScanEnds c promise known) s := by
  have sent : (embedBatch batch .new).Safe (Lasting c) Beside (Ends c promise known .new) s :=
    safeEmbedBatch rfl holds genuine frame (fun n is => by cases is) fun is => by cases is
  refine Prog.safeThen sent fun checkpoint t ends => ?_
  unfold Ends at ends
  split_ifs at ends with stopped
  · show ScanEnds c promise known (if checkpoint.stopped = true then _ else _) t
    rw [if_pos stopped]
    exact ends.2
  · show ScanEnds c promise known (if checkpoint.stopped = true then _ else _) t
    rw [if_neg stopped]
    split_ifs
    · exact ends.1
    · exact ends.1

def ofIds (k : CollectionId) (ids : List DocKey) : Promise := fun a _ => a.collection = k ∧ a.key ∈ ids

/- How a scan ends: what is cut short is still owed. -/
def Scanned (c : Config) (promise : Promise) (known : State → Prop) (k : CollectionId) (ended : Option CutShort) (s : State) :
    Prop :=
  match ended with
  | some .stopped => Lasting c s
  | some .held => Holds c (both promise (ofScan k)) known s
  | none => Holds c promise known s

theorem ScanEnds.cutShort {also : State → Prop} {k : CollectionId} {ended : CutShort}
    (ends : ScanEnds c more also (some ended) s) (le : ∀ a hlc, more a hlc → promise a hlc ∨ a.collection = k)
    (still : also s → known s) : Scanned c promise known k (some ended) s := by
  cases ended with
  | stopped => exact ends
  | held => exact ⟨ends.1.weaken fun a rec _ _ promised => Or.inr (Or.inl (le a _ promised)),still ends.2⟩

theorem safeScanDocs {k : CollectionId} (frame : Frame c known) : ∀ {ids : List DocKey} {batch : Batch} {s : State},
    batch.collection = k → Holds c (both (both promise (ofIds k ids)) (ofJobs k batch.jobs)) known s →
      AllGenuine c s k batch.jobs →
      (scanDocs c k ids batch).Safe (Lasting c) Beside (Scanned c promise known k) s := by
  intro ids
  induction ids with
  | nil =>
      rintro batch s rfl holds genuine
      refine Prog.safeMono (fun ended t ends => ?_) (safeEmbedScanned holds genuine frame)
      cases ended with
      | some ended => exact ends.cutShort (fun a hlc promised => promised.imp_right And.left) id
      | none =>
          refine Holds.weaken ends fun a rec _ promised => Or.inr ?_
          exact promised.resolve_right fun wrong => absurd wrong.2 List.not_mem_nil
  | cons source rest ih =>
      rintro batch s rfl holds genuine
      -- the document at hand beside the others and the open batch
      have one : Holds c (both (both (both promise (ofIds batch.collection rest)) (ofJobs batch.collection batch.jobs))
          (ofOne ⟨batch.collection,source⟩)) (fun s => known s ∧ AllGenuine c s batch.collection batch.jobs) s := by
        refine Holds.weaken ⟨holds.1,holds.2,genuine⟩ fun a rec _ promised => Or.inr ?_
        rcases promised with (before | ⟨same, member⟩) | jobs
        · exact Or.inl (Or.inl (Or.inl before))
        · rcases List.mem_cons.mp member with own | inside
          · refine Or.inr ?_
            show a = ⟨batch.collection,source⟩
            rw [←same, ←own]
          · exact Or.inl (Or.inl (Or.inr ⟨same,inside⟩))
        · exact Or.inl (Or.inr jobs)
      have frames := frame.and (frameGenuine (c := c) batch.collection batch.jobs)
      refine Prog.safeThen (safeScannedJob one frames) fun prepared t ready => ?_
      cases prepared with
      | none => exact ih rfl ⟨ready.1,ready.2.1⟩ ready.2.2
      | some job =>
          obtain ⟨⟨working, also, genuine⟩, own, current⟩ := ready
          replace current : Current c ⟨batch.collection,job.source⟩ job.hlc job.chunks t := by
            rw [own]
            exact current
          have all : Holds c (both (both promise (ofIds batch.collection rest))
              (both (ofJobs batch.collection batch.jobs) (ofJobs batch.collection [job]))) known t := by
            refine Holds.weaken ⟨working,also⟩ fun a rec _ promised => Or.inr ?_
            rcases promised with (before | jobs) | new
            · exact Or.inl before
            · exact Or.inr (Or.inl jobs)
            · exact Or.inr (Or.inr new)
          -- the batch the job joins, once the one it does not fit in is sent
          refine @Prog.safeThen _ _ _ _ _ _ (fun ended u => (∀ cut, ended = some cut → Scanned c promise known batch.collection ended u) ∧
            (ended = none → ∃ b, (if batch.accepts c job then batch else ⟨batch.collection,[]⟩) = b ∧ b.collection = batch.collection ∧
              Holds c (both (both promise (ofIds b.collection rest)) (both (ofJobs b.collection b.jobs) (ofJobs b.collection [job]))) known u ∧
              AllGenuine c u b.collection b.jobs ∧ Current c ⟨b.collection,job.source⟩ job.hlc job.chunks u)) _ _ _ _ ?_
            fun ended u ready => ?_
          · cases fits : batch.accepts c job with
            | true =>
                refine ⟨fun cut wrong => ?_,fun _ => ⟨batch,rfl,rfl,all,genuine,current⟩⟩
                cases wrong
            | false =>
                have sends : Holds c (both (both (both promise (ofIds batch.collection rest)) (ofJobs batch.collection [job]))
                    (ofJobs batch.collection batch.jobs))
                    (fun s => known s ∧ Current c ⟨batch.collection,job.source⟩ job.hlc job.chunks s) t := by
                  refine Holds.weaken ⟨all.1,all.2,current⟩ fun a rec _ promised => Or.inr ?_
                  rcases promised with before | jobs | new
                  · exact Or.inl (Or.inl before)
                  · exact Or.inr jobs
                  · exact Or.inl (Or.inr new)
                refine Prog.safeMono (fun ended u ends => ⟨fun cut is => ?_,fun is => ?_⟩)
                  (safeEmbedScanned sends genuine (frame.and (deepCurrent _ _ _).frame))
                · cases is
                  refine ends.cutShort (fun a hlc promised => ?_) And.left
                  rcases promised with (before | ids) | new
                  · exact Or.inl before
                  · exact Or.inr ids.1
                  · exact Or.inr new.1
                · cases is
                  refine ⟨⟨batch.collection,[]⟩,rfl,rfl,Holds.weaken ⟨ends.1,ends.2.1⟩ fun a rec _ promised => ?_,
                    fun other member => absurd member List.not_mem_nil,ends.2.2⟩
                  exact Or.inr (promised.imp_right Or.inr)
          · cases ended with
            | some ended => exact ready.1 ended rfl
            | none =>
                obtain ⟨b,is,own,held,all,current⟩ := ready.2 rfl
                simp only [is]
                have pushed : Holds c (both (both promise (ofIds b.collection rest)) (ofJobs b.collection (b.push job).jobs))
                    known u := held.weaken fun a rec covered promised => Or.inr (promised.imp_right (ofPush current covered))
                have genuine := genuinePush all current
                split_ifs
                · refine Prog.safeThen (@safeEmbedScanned _ _ _ _ (b.push job) pushed genuine frame) fun ended v ends => ?_
                  cases ended with
                  | some ended =>
                      exact ends.cutShort (fun a hlc promised => promised.imp_right fun here => here.1.trans own) id
                  | none =>
                      refine ih rfl (Holds.weaken ends fun a rec _ promised => Or.inr (Or.inl (own ▸ promised))) ?_
                      exact fun other member => absurd member List.not_mem_nil
                · exact ih own (own ▸ pushed) (own ▸ genuine)

end

end Kimmy.Vector
