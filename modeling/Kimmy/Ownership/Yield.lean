import Kimmy.Ownership.Facts

/-!
Yielding leaves no work unowned. A member counts as having yielded only once every peer has
echoed the generation that set the bit, a peer's table never goes back to an earlier generation,
and where every member has yielded they all fall back to the same candidates.
-/
namespace Kimmy.Ownership
open Store

/-! Owners. -/

theorem ownerIff {key : List UInt8} {members : List NodeId} {m : NodeId} :
    owner key members = some m ↔ m ∈ members ∧ ∀ p ∈ members, rank key p ≤ rank key m := by
  unfold owner
  constructor
  · intro found
    exact ⟨List.argmax_mem found,fun p member => List.le_of_mem_argmax member found⟩
  · rintro ⟨member, highest⟩
    cases found : members.argmax (rank key) with
    | none =>
        rw [List.argmax_eq_none.mp found] at member
        exact absurd member List.not_mem_nil
    | some a =>
        have same : rank key a = rank key m :=
          le_antisymm (highest a (List.argmax_mem found)) (List.le_of_mem_argmax member found)
        exact congrArg some (Prod.mk.inj (toLex.injective same)).2

theorem ownerSome (key : List UInt8) {members : List NodeId} (some' : members ≠ []) :
    ∃ m, owner key members = some m := by
  cases found : owner key members with
  | none => exact absurd (List.argmax_eq_none.mp found) some'
  | some m => exact ⟨m,rfl⟩

theorem memPeers {env : Env} {me p : NodeId} : p ∈ env.peers me ↔ p ∈ env.members ∧ p ≠ me := by
  unfold Env.peers
  rw [List.mem_filter, decide_eq_true_eq]

/-! Blocks by generation. -/

/- The generation that a member holds of a peer, and zero where it holds none. -/
def PeerTable.generationOf (t : PeerTable) (peer : NodeId) : Nat := ((t.held.get peer).bind (·.generation)).getD 0

/- Every block that was ever current, with the generations that are current and held now. -/
structure Ledger where
  block : NodeId → Nat → Facts
  generation : NodeId → Nat
  holds : NodeId → NodeId → Nat

structure Ledger.Knows (l : Ledger) (m : NodeId) (facts : Facts) (generation : Nat) : Prop where
  positive : 0 < generation
  reached : generation ≤ l.generation m
  same : facts = l.block m generation

structure Ledger.Formed (env : Env) (l : Ledger) : Prop where
  active : ∀ m k, k ≤ l.generation m → (l.block m k).catchingUp = false
  booted : ∀ m k, 0 < k → k ≤ l.generation m → (l.block m k).boot = env.boot m

structure Ledger.Grows (l n : Ledger) : Prop where
  block : ∀ m k, k ≤ l.generation m → n.block m k = l.block m k
  generation : ∀ m, l.generation m ≤ n.generation m
  holds : ∀ p m, l.holds p m ≤ n.holds p m

theorem Ledger.Grows.same (l : Ledger) : l.Grows l := ⟨fun _ _ _ => rfl,fun _ => le_refl _,fun _ _ => le_refl _⟩

theorem Ledger.Knows.grows {l n : Ledger} {m : NodeId} {facts : Facts} {k : Nat} (knows : l.Knows m facts k)
    (grows : l.Grows n) : n.Knows m facts k :=
  ⟨knows.positive,knows.reached.trans (grows.generation m),knows.same.trans (grows.block m k knows.reached).symm⟩

/-! Members and frames. -/

structure Frame.Sound (env : Env) (l : Ledger) (f : Frame) : Prop where
  peer : f.sender ∈ env.peers f.receiver
  block : l.Knows f.sender f.block.1 f.block.2
  echo : f.echo.generation ≤ l.holds f.sender f.receiver

theorem Frame.Sound.grows {env : Env} {l n : Ledger} {f : Frame} (sound : f.Sound env l) (grows : l.Grows n) :
    f.Sound env n :=
  ⟨sound.peer,sound.block.grows grows,sound.echo.trans (grows.holds _ _)⟩

/- A block is returned only once one was published. -/
structure Begun (m : Member) : Prop where
  next : 0 < m.facts.nextTicket
  built : m.facts.built ≠ none → 0 < m.facts.generation
  published : 0 < m.facts.publishedTicket → 0 < m.facts.generation
  cached : none ∈ m.calls → 0 < m.facts.generation
  ticket : ∀ t, some t ∈ m.calls → 0 < t

structure LocalState.Sound (l : Ledger) (node : NodeId) (facts : LocalState) : Prop where
  generation : facts.generation = l.generation node
  current : facts.current = l.block node facts.generation
  unset : ∀ cls, facts.yieldGen cls = none → facts.current.yielding.of cls = false
  since : ∀ cls g, facts.yieldGen cls = some g → 0 < g ∧ g ≤ facts.generation ∧
    ∀ k, g ≤ k → k ≤ facts.generation → (l.block node k).yielding.of cls = true
  echoed : ∀ p k, facts.echoed.get p = some k → k ≤ l.holds p node

structure PeerTable.Sound (env : Env) (l : Ledger) (node : NodeId) (table : PeerTable) : Prop where
  holds : ∀ p, table.generationOf p = l.holds node p
  held : ∀ p h, table.held.get p = some h → p ∈ env.peers node ∧ ∃ k, h.generation = some k ∧ l.Knows p h.facts k

structure Member.Sound (env : Env) (l : Ledger) (node : NodeId) (m : Member) : Prop where
  facts : m.facts.Sound l node
  table : m.table.Sound env l node
  begun : Begun m
  reads : ∀ r ∈ m.reads, l.Knows node r.1 r.2
  decoded : ∀ d ∈ m.decoded, d.2.receiver = node ∧ d.2.Sound env l

structure Cluster.Sound (env : Env) (s : Cluster) (l : Ledger) : Prop where
  formed : l.Formed env
  member : ∀ node, (s.member node).Sound env l node
  frames : ∀ f ∈ s.frames, f.Sound env l

section
variable {env : Env} {l n : Ledger} {node : NodeId}

theorem LocalState.Sound.grows {facts : LocalState} (sound : facts.Sound l node) (grows : l.Grows n)
    (same : n.generation node = l.generation node) : facts.Sound n node := by
  obtain ⟨generation, current, unset, since, echoed⟩ := sound
  have block : ∀ k, k ≤ facts.generation → n.block node k = l.block node k := fun k le =>
    grows.block node k (generation ▸ le)
  refine ⟨generation.trans same.symm,?_,unset,fun cls g set => ?_,fun p k found => ?_⟩
  · rw [block _ (le_refl _)]
    exact current
  · obtain ⟨positive, reached, yields⟩ := since cls g set
    refine ⟨positive,reached,fun k above below => ?_⟩
    rw [block k below]
    exact yields k above below
  · exact (echoed p k found).trans (grows.holds _ _)

theorem PeerTable.Sound.grows {table : PeerTable} (sound : table.Sound env l node) (grows : l.Grows n)
    (same : n.holds node = l.holds node) : table.Sound env n node := by
  refine ⟨fun p => ?_,fun p h found => ?_⟩
  · rw [same]
    exact sound.holds p
  · obtain ⟨peer, k, generation, knows⟩ := sound.held p h found
    exact ⟨peer,k,generation,knows.grows grows⟩

/- A member that did nothing, where another did something. -/
theorem Member.Sound.grows {m : Member} (sound : m.Sound env l node) (grows : l.Grows n)
    (generation : n.generation node = l.generation node) (holds : n.holds node = l.holds node) : m.Sound env n node :=
  ⟨sound.facts.grows grows generation,sound.table.grows grows holds,sound.begun,
    fun r read => (sound.reads r read).grows grows,
    fun d arrived => ⟨(sound.decoded d arrived).1,(sound.decoded d arrived).2.grows grows⟩⟩

theorem Cluster.memberSet (s : Cluster) (m : Member) (p : NodeId) :
    (s.set node m).member p = if p = node then m else s.member p := Function.update_apply _ _ _ _

/- One member changes, and the others see at most more of it. -/
theorem Cluster.Sound.set {s : Cluster} {m : Member} (sound : s.Sound env l) (grows : l.Grows n) (formed : n.Formed env)
    (generation : ∀ p, p ≠ node → n.generation p = l.generation p) (holds : ∀ p, p ≠ node → n.holds p = l.holds p)
    (changed : m.Sound env n node) : (s.set node m).Sound env n := by
  refine ⟨formed,fun p => ?_,fun f sent => (sound.frames f sent).grows grows⟩
  rw [Cluster.memberSet]
  split_ifs with same
  · subst same
    exact changed
  · exact (sound.member p).grows grows (generation p same) (holds p same)

/- The ledger stays. -/
theorem Cluster.Sound.stay {s : Cluster} {m : Member} (sound : s.Sound env l) (changed : m.Sound env l node) :
    (s.set node m).Sound env l :=
  sound.set (.same l) sound.formed (fun _ _ => rfl) (fun _ _ => rfl) changed

/-! Builds. -/

/- A new block becomes current. -/
def Ledger.publish (l : Ledger) (node : NodeId) (next : Facts) : Ledger :=
  ⟨Function.update l.block node (Function.update (l.block node) (l.generation node + 1) next),
    Function.update l.generation node (l.generation node + 1),l.holds⟩

theorem Ledger.publishOld (l : Ledger) (next : Facts) {k : Nat} (below : k ≤ l.generation node) :
    (l.publish node next).block node k = l.block node k := by
  unfold Ledger.publish
  simp only [Function.update_self]
  exact Function.update_of_ne (by omega) _ _

theorem Ledger.publishNew (l : Ledger) (next : Facts) :
    (l.publish node next).block node (l.generation node + 1) = next := by
  unfold Ledger.publish
  simp only [Function.update_self]

theorem Ledger.publishOther (l : Ledger) (next : Facts) {p : NodeId} (other : p ≠ node) :
    (l.publish node next).block p = l.block p ∧ (l.publish node next).generation p = l.generation p :=
  ⟨Function.update_of_ne other _ _,Function.update_of_ne other _ _⟩

theorem Ledger.publishGeneration (l : Ledger) (next : Facts) :
    (l.publish node next).generation node = l.generation node + 1 := Function.update_self _ _ _

theorem Ledger.publishGrows (l : Ledger) (next : Facts) : l.Grows (l.publish node next) := by
  refine ⟨fun m k below => ?_,fun m => ?_,fun _ _ => le_refl _⟩
  · by_cases same : m = node
    · subst same
      exact l.publishOld next below
    · rw [(l.publishOther next same).1]
  · by_cases same : m = node
    · subst same
      rw [l.publishGeneration]
      exact Nat.le_succ _
    · rw [(l.publishOther next same).2]

theorem Ledger.Formed.publish (formed : l.Formed env) (said : Said) :
    (l.publish node (env.source node said)).Formed env := by
  have either {m : NodeId} {k : Nat} (below : k ≤ (l.publish node (env.source node said)).generation m) :
      (k ≤ l.generation m ∧ (l.publish node (env.source node said)).block m k = l.block m k) ∨
        (m = node ∧ (l.publish node (env.source node said)).block m k = env.source node said) := by
    by_cases same : m = node
    · subst same
      rw [l.publishGeneration] at below
      rcases Nat.le_succ_iff.mp below with old | rfl
      · exact Or.inl ⟨old,l.publishOld _ old⟩
      · exact Or.inr ⟨rfl,l.publishNew _⟩
    · rw [(l.publishOther _ same).2] at below
      exact Or.inl ⟨below,by rw [(l.publishOther _ same).1]⟩
  refine ⟨fun m k below => ?_,fun m k positive below => ?_⟩
  · rcases either below with ⟨old, block⟩ | ⟨_, block⟩
    · rw [block]
      exact formed.active m k old
    · rw [block]
      rfl
  · rcases either below with ⟨old, block⟩ | ⟨rfl, block⟩
    · rw [block]
      exact formed.booted m k positive old
    · rw [block]
      rfl

theorem LocalState.Sound.publish {facts : LocalState} (sound : facts.Sound l node) (next : Facts) :
    LocalState.Sound (l.publish node next) node
      { facts with current := next, generation := facts.generation + 1, yieldGen := facts.yieldGenAfter next } := by
  obtain ⟨generation, current, unset, since, echoed⟩ := sound
  have new : (l.publish node next).block node (facts.generation + 1) = next := by
    rw [generation]
    exact l.publishNew next
  have old : ∀ k, k ≤ facts.generation → (l.publish node next).block node k = l.block node k := fun k below =>
    l.publishOld next (generation ▸ below)
  refine ⟨?_,new.symm,fun cls none' => ?_,fun cls g set => ?_,echoed⟩
  · rw [l.publishGeneration, ←generation]
  · unfold LocalState.yieldGenAfter at none'
    cases was : facts.current.yielding.of cls <;> cases will : next.yielding.of cls <;> simp only [was, will] at none' ⊢
    · cases none'
    · rw [unset cls none'] at was
      cases was
  · unfold LocalState.yieldGenAfter at set
    cases was : facts.current.yielding.of cls <;> cases will : next.yielding.of cls <;> simp only [was, will] at set
    · cases set
    · cases set
      refine ⟨Nat.succ_pos _,le_refl _,fun k above below => ?_⟩
      rw [Nat.le_antisymm below above, new]
      exact will
    · cases set
    · obtain ⟨positive, reached, yields⟩ := since cls g set
      refine ⟨positive,Nat.le_succ_of_le reached,fun k above below => ?_⟩
      rcases Nat.le_succ_iff.mp below with before | rfl
      · rw [old k before]
        exact yields k above before
      · rw [new]
        exact will

/- A build that is too late changes nothing, one that says nothing new is only noted, and any other
is the next generation. -/
theorem publishCases (facts : LocalState) (ticket : Nat) (next : Facts) (now : Nat) :
    (ticket ≤ facts.publishedTicket ∧ facts.publish ticket next now = facts) ∨
      (0 < facts.generation ∧
        facts.publish ticket next now = { facts with publishedTicket := ticket, built := some now }) ∨
      facts.publish ticket next now = { facts with
        publishedTicket := ticket, built := some now, current := next, generation := facts.generation + 1
        yieldGen := facts.yieldGenAfter next } := by
  unfold LocalState.publish
  by_cases newer : facts.publishedTicket < ticket
  · rw [if_pos newer]
    refine Or.inr ?_
    simp only
    split_ifs with changed
    · exact Or.inr rfl
    · refine Or.inl ⟨Nat.pos_of_ne_zero fun zero => changed ?_,rfl⟩
      simp [zero]
  · rw [if_neg newer]
    exact Or.inl ⟨not_lt.mp newer,rfl⟩

/- The second locked section of a read. -/
theorem Cluster.Sound.current {s : Cluster} (sound : s.Sound env l) {call : Nat} {ticket : Option Nat}
    (called : (s.member node).calls[call]? = some ticket) (said : Said) (now : Nat) :
    ∃ n, l.Grows n ∧ (s.set node { s.member node with
      facts := (s.member node).facts.currentAfter ticket (env.source node said) now
      calls := (s.member node).calls.eraseIdx call
      reads := (s.member node).reads ++
        [(((s.member node).facts.currentAfter ticket (env.source node said) now).current,
          ((s.member node).facts.currentAfter ticket (env.source node said) now).generation)] }).Sound env n := by
  have mine := sound.member node
  generalize s.member node = m at mine called ⊢
  have inside : ticket ∈ m.calls := List.mem_of_getElem? called
  obtain ⟨facts, table, begun, reads, decoded⟩ := mine
  -- whatever was published, the block that is returned is the current one
  have finish {n : Ledger} {after : LocalState} (grows : l.Grows n) (formed : n.Formed env)
      (other : ∀ p, p ≠ node → n.generation p = l.generation p) (holds : n.holds = l.holds)
      (after' : after.Sound n node) (positive : 0 < after.generation) (next : after.nextTicket = m.facts.nextTicket) :
      (s.set node { m with
        facts := after, calls := m.calls.eraseIdx call
        reads := m.reads ++ [(after.current,after.generation)] }).Sound env n := by
    refine sound.set grows formed other (fun p _ => by rw [holds]) ⟨after',table.grows grows (by rw [holds]),?_,?_,?_⟩
    · exact ⟨by rw [next]; exact begun.next,fun _ => positive,fun _ => positive,fun _ => positive,
        fun t there => begun.ticket t (List.mem_of_mem_eraseIdx there)⟩
    · intro r read
      rcases List.mem_append.mp read with old | new
      · exact (reads r old).grows grows
      · rw [List.mem_singleton.mp new]
        exact ⟨positive,after'.generation.le,after'.current⟩
    · exact fun d arrived => ⟨(decoded d arrived).1,(decoded d arrived).2.grows grows⟩
  have same {after : LocalState} (after' : after.Sound l node) := finish (.same l) sound.formed (fun _ _ => rfl) rfl after'
  cases ticket with
  | none => exact ⟨l,.same l,same facts (begun.cached inside) rfl⟩
  | some t =>
      unfold LocalState.currentAfter
      simp only
      rcases publishCases m.facts t (env.source node said) now with ⟨late, done⟩ | ⟨positive, done⟩ | done <;> rw [done]
      · exact ⟨l,.same l,same facts (begun.published ((begun.ticket t inside).trans_le late)) rfl⟩
      · refine ⟨l,.same l,same ⟨facts.generation,facts.current,facts.unset,facts.since,facts.echoed⟩ positive rfl⟩
      · refine ⟨l.publish node (env.source node said),l.publishGrows _,finish (l.publishGrows _)
          (sound.formed.publish said) (fun p other => (l.publishOther _ other).2) rfl ?_ (Nat.succ_pos _) rfl⟩
        obtain ⟨generation, current, unset, since, echoed⟩ := facts.publish (env.source node said)
        exact ⟨generation,current,unset,since,echoed⟩

/-! Arrivals. -/

/- Fewer echoes are noted. -/
theorem LocalState.Sound.fewer {facts : LocalState} (sound : facts.Sound l node) (echoed : SortedMap NodeId Nat)
    (fewer : ∀ p k, echoed.get p = some k → k ≤ l.holds p node) :
    LocalState.Sound l node { facts with echoed := echoed } :=
  ⟨sound.generation,sound.current,sound.unset,sound.since,fewer⟩

theorem LocalState.Sound.forget {facts : LocalState} (sound : facts.Sound l node) (peer : NodeId) :
    (facts.forget peer).Sound l node := by
  refine sound.fewer _ fun p k found => ?_
  rw [SortedMap.getRemove] at found
  split_ifs at found
  exact sound.echoed p k found

theorem LocalState.Sound.retain {facts : LocalState} (sound : facts.Sound l node) (live : List NodeId) :
    (facts.retain live).Sound l node := by
  refine sound.fewer _ fun p k found => ?_
  rw [SortedMap.getRetain] at found
  exact sound.echoed p k (Option.filter_eq_some_iff.mp found).1

theorem LocalState.Sound.noteEcho {facts : LocalState} (sound : facts.Sound l node) {peer : NodeId} {echo : Option Echo}
    (held : ∀ e, echo = some e → e.generation ≤ l.holds peer node) : (facts.noteEcho peer echo).Sound l node := by
  unfold LocalState.noteEcho
  cases echo with
  | none => exact sound.forget peer
  | some e =>
      refine sound.fewer _ fun p k found => ?_
      simp only [SortedMap.getInsert] at found
      split_ifs at found with same mine
      · subst same
        rw [←Option.some.inj found]
        refine max_le ?_ (held e rfl)
        cases before : facts.echoed.get p with
        | none => exact Nat.zero_le _
        | some was => exact sound.echoed p was before
      · rw [←Option.some.inj found]
        exact Nat.zero_le _
      · exact sound.echoed p k found

/- A block that is taken takes its sender's place; the other places stay, as they are those of live
peers. -/
structure Took (t table : PeerTable) (peer : NodeId) (taken : PeerFacts) (now lease : Nat) : Prop where
  held : ∀ q, table.held.get q = if q = peer then some taken else t.held.get q
  gave : ∀ h, t.held.get peer = some h → h.gives taken.facts taken.generation taken.decodedSeq now lease = true

theorem took {t table : PeerTable} {live : List NodeId} {lease : Nat} {peer : NodeId} {facts : Facts}
    {generation : Option Nat} {seq now : Nat} {restarted : Bool} (member : peer ∈ live)
    (all : ∀ q h, t.held.get q = some h → q ∈ live)
    (done : t.record live lease peer facts generation seq now = some (table,restarted)) :
    Took t table peer ⟨facts,now,generation,seq⟩ now lease := by
  unfold PeerTable.record at done
  simp only at done
  split_ifs at done with _ gives
  cases done
  refine ⟨fun q => ?_,fun h found => ?_⟩
  · simp only [SortedMap.getRetain, SortedMap.getInsert]
    split_ifs with same
    · subst same
      simp [Option.filter, member]
    · cases found : t.held.get q with
      | none => rfl
      | some h => simp [Option.filter, all q h found]
  · rw [found] at gives
    exact gives

def Ledger.hold (l : Ledger) (node : NodeId) (table : PeerTable) : Ledger :=
  { l with holds := Function.update l.holds node table.generationOf }

theorem Ledger.holdOther (l : Ledger) (table : PeerTable) {p : NodeId} (other : p ≠ node) :
    (l.hold node table).holds p = l.holds p := Function.update_of_ne other _ _

theorem Ledger.holdOwn (l : Ledger) (table : PeerTable) : (l.hold node table).holds node = table.generationOf :=
  Function.update_self _ _ _

/- Within one boot a later block never has an earlier generation. -/
theorem Took.rises {t table : PeerTable} {peer : NodeId} {taken : PeerFacts} {now lease k : Nat} (formed : l.Formed env)
    (sound : t.Sound env l node) (took : Took t table peer taken now lease) (generation : taken.generation = some k)
    (knows : l.Knows peer taken.facts k) (q : NodeId) : t.generationOf q ≤ table.generationOf q := by
  unfold PeerTable.generationOf
  rw [took.held]
  split_ifs with same
  · subst same
    rw [Option.bind_some, generation]
    cases found : t.held.get q with
    | none => exact Nat.zero_le _
    | some h =>
        obtain ⟨_, was, before, known⟩ := sound.held q h found
        have gives := took.gave h found
        have boot : h.facts.boot = taken.facts.boot := by
          rw [known.same, knows.same, formed.booted _ _ known.positive known.reached,
            formed.booted _ _ knows.positive knows.reached]
        unfold PeerFacts.gives at gives
        rw [if_pos boot, generation, before] at gives
        simp only [Option.all_some, Option.getD_some, Bool.and_eq_true, decide_eq_true_eq] at gives
        rw [Option.bind_some, before]
        exact gives.2
  · exact le_refl _

theorem Cluster.Sound.record {s : Cluster} (sound : s.Sound env l) {seq : Nat} {frame : Frame}
    (arrived : (seq,frame) ∈ (s.member node).decoded) (now : Nat) :
    ∃ n, l.Grows n ∧ (s.set node ((s.member node).record env node seq frame now)).Sound env n := by
  have mine := sound.member node
  generalize s.member node = m at mine arrived ⊢
  obtain ⟨facts, table, begun, reads, decoded⟩ := mine
  obtain ⟨receiver, sent⟩ := decoded _ arrived
  have peer : frame.sender ∈ env.peers node := receiver ▸ sent.peer
  unfold Member.record
  cases done : m.table.record (env.peers node) env.lease frame.sender frame.block.1 (some frame.block.2) seq now with
  | none => exact ⟨l,.same l,sound.stay ⟨facts,table,begun,reads,decoded⟩⟩
  | some result =>
      obtain ⟨after, restarted⟩ := result
      have taken := took peer (fun q h found => (table.held q h found).1) done
      have rises := taken.rises sound.formed table rfl sent.block
      have grows : l.Grows (l.hold node after) := by
        refine ⟨fun _ _ _ => rfl,fun _ => le_refl _,fun p q => ?_⟩
        by_cases same : p = node
        · subst same
          rw [l.holdOwn, ←table.holds q]
          exact rises q
        · rw [l.holdOther _ same]
      have after' : after.Sound env (l.hold node after) node := by
        refine ⟨fun p => by rw [l.holdOwn],fun q h found => ?_⟩
        rw [taken.held] at found
        split_ifs at found with same
        · subst same
          rw [←Option.some.inj found]
          exact ⟨peer,_,rfl,sent.block.grows grows⟩
        · obtain ⟨live, k, generation, knows⟩ := table.held q h found
          exact ⟨live,k,generation,knows.grows grows⟩
      have known : (if restarted then m.facts.forget frame.sender else m.facts).Sound (l.hold node after) node := by
        split_ifs
        · exact (facts.grows grows rfl).forget _
        · exact facts.grows grows rfl
      have begun' : ∀ (x : LocalState), x.nextTicket = m.facts.nextTicket → x.built = m.facts.built →
          x.publishedTicket = m.facts.publishedTicket → x.generation = m.facts.generation →
          Begun { m with facts := x, table := after } := by
        intro x next built published generation
        obtain ⟨a, b, c, d, e⟩ := begun
        exact ⟨next ▸ a,by rw [built, generation]; exact b,by rw [published, generation]; exact c,
          by rw [generation]; exact d,e⟩
      refine ⟨l.hold node after,grows,sound.set grows ⟨sound.formed.active,sound.formed.booted⟩ (fun _ _ => rfl)
        (fun p other => l.holdOther _ other) ⟨known.retain _,after',begun' _ ?_ ?_ ?_ ?_,
        fun r read => (reads r read).grows grows,fun d there => ⟨(decoded d there).1,(decoded d there).2.grows grows⟩⟩⟩
      all_goals
        cases restarted
        · rfl
        · rfl

theorem echoHeld (t : PeerTable) (peer : NodeId) : (t.echoFor peer).generation = t.generationOf peer := by
  unfold PeerTable.echoFor PeerTable.generationOf
  cases t.held.get peer <;> rfl

theorem Cluster.Sound.send {s : Cluster} (sound : s.Sound env l) {block : Facts × Nat}
    (read : block ∈ (s.member node).reads) {peer : NodeId} (member : node ∈ env.members) (other : peer ∈ env.peers node) :
    Cluster.Sound env { s with frames := s.frames ++ [⟨node,peer,block,(s.member node).table.echoFor peer⟩] } l := by
  refine ⟨sound.formed,sound.member,fun f sent => ?_⟩
  rcases List.mem_append.mp sent with old | new
  · exact sound.frames f old
  · rw [List.mem_singleton.mp new]
    refine ⟨memPeers.mpr ⟨member,(memPeers.mp other).2.symm⟩,(sound.member node).reads _ read,?_⟩
    rw [echoHeld, (sound.member node).table.holds]

theorem Cluster.Sound.step {s : Cluster} (sound : s.Sound env l) (step : Step) :
    ∃ n, l.Grows n ∧ (s.step env step).Sound env n := by
  have stays : ∃ n, l.Grows n ∧ s.Sound env n := ⟨l,.same l,sound⟩
  unfold Cluster.step
  cases step with
  | ticket node now =>
      obtain ⟨facts, table, begun, reads, decoded⟩ := sound.member node
      simp only [LocalState.ticket]
      split_ifs with stale
      · refine ⟨l,.same l,sound.stay ⟨⟨facts.generation,facts.current,facts.unset,facts.since,facts.echoed⟩,table,?_,reads,
          decoded⟩⟩
        refine ⟨Nat.succ_pos _,begun.built,begun.published,fun called => ?_,fun t called => ?_⟩
        · exact begun.cached (by simpa using called)
        · rcases List.mem_append.mp called with old | new
          · exact begun.ticket t old
          · cases List.mem_singleton.mp new
            exact begun.next
      · refine ⟨l,.same l,sound.stay ⟨facts,table,⟨begun.next,begun.built,begun.published,fun _ => begun.built ?_,
          fun t called => ?_⟩,reads,decoded⟩⟩
        · intro never
          rw [never] at stale
          exact stale rfl
        · exact begun.ticket t (by simpa using called)
  | current node call said now =>
      simp only
      split
      next ticket called => exact sound.current called said now
      · exact stays
  | mask node read stable =>
      simp only
      split
      · obtain ⟨facts, table, begun, reads, decoded⟩ := sound.member node
        exact ⟨l,.same l,sound.stay ⟨facts,table,⟨begun.next,begun.built,begun.published,begun.cached,begun.ticket⟩,reads,
          decoded⟩⟩
      · exact stays
  | send node read peer =>
      simp only
      split
      next block found =>
        split_ifs with guard
        · exact ⟨l,.same l,sound.send (List.mem_of_getElem? found) guard.1 guard.2⟩
        · exact stays
      · exact stays
  | decode node frame =>
      simp only
      split
      next f found =>
        split_ifs with own
        · obtain ⟨facts, table, begun, reads, decoded⟩ := sound.member node
          refine ⟨l,.same l,sound.stay ⟨facts,table,⟨begun.next,begun.built,begun.published,begun.cached,begun.ticket⟩,reads,
            fun d arrived => ?_⟩⟩
          rcases List.mem_append.mp arrived with old | new
          · exact decoded d old
          · rw [List.mem_singleton.mp new]
            exact ⟨own,sound.frames f (List.mem_of_getElem? found)⟩
        · exact stays
      · exact stays
  | record node frame now =>
      simp only
      split
      next seq f found => exact sound.record (List.mem_of_getElem? found) now
      · exact stays
  | noteEcho node frame readable =>
      simp only
      split
      next seq f found =>
        obtain ⟨facts, table, begun, reads, decoded⟩ := sound.member node
        obtain ⟨receiver, sent⟩ := decoded _ (List.mem_of_getElem? found)
        have noted := @LocalState.Sound.noteEcho _ _ _ facts f.sender (if readable then some f.echo else none) fun e is => by
          split_ifs at is
          cases is
          exact receiver ▸ sent.echo
        refine ⟨l,.same l,sound.stay ⟨noted,table,?_,reads,decoded⟩⟩
        obtain ⟨a, b, c, d, e⟩ := begun
        cases readable
        · exact ⟨a,b,c,d,e⟩
        · exact ⟨a,b,c,d,e⟩
      · exact stays

/-! Questions. -/

theorem effectiveOf (facts : LocalState) (block : Facts) (live : List NodeId) (stable : Bool) (cls : OwnerClass) :
    (facts.effective block live stable).yielding.of cls = (block.yielding.of cls && facts.confirmed live stable cls) := by
  cases cls <;> rfl

/- Every peer holds the generation that set the bit, or a later one. -/
theorem Cluster.Sound.confirmed {s : Cluster} (sound : s.Sound env l) {cls : OwnerClass} {stable : Bool}
    (yields : (s.member node).facts.current.yielding.of cls = true)
    (confirmed : (s.member node).facts.confirmed (env.peers node) stable cls = true) :
    ∃ g, 0 < g ∧ (∀ p ∈ env.peers node, g ≤ l.holds p node) ∧
      ∀ k, g ≤ k → k ≤ l.generation node → (l.block node k).yielding.of cls = true := by
  have facts := (sound.member node).facts
  generalize (s.member node).facts = x at facts yields confirmed
  cases set : x.yieldGen cls with
  | none =>
      rw [facts.unset cls set] at yields
      cases yields
  | some g =>
      obtain ⟨positive, _, since⟩ := facts.since cls g set
      rw [facts.generation] at since
      refine ⟨g,positive,fun p peer => ?_,since⟩
      have none' := List.isEmpty_iff.mp (Bool.and_eq_true_iff.mp confirmed).2
      unfold LocalState.unconfirmed at none'
      rw [set] at none'
      have heard := List.filter_eq_nil_iff.mp none' p peer
      cases found : x.echoed.get p with
      | none =>
          rw [found] at heard
          exact absurd rfl heard
      | some k =>
          rw [found, Option.all_some, decide_eq_true_eq] at heard
          exact (not_lt.mp heard).trans (facts.echoed p k found)

/- What a peer holds of a member is one of its blocks. -/
theorem Cluster.Sound.holding {s : Cluster} (sound : s.Sound env l) {p : NodeId} (some' : 0 < l.holds p node) :
    ∃ h, (s.member p).table.held.get node = some h ∧ h.generation = some (l.holds p node) ∧
      l.Knows node h.facts (l.holds p node) := by
  have table := (sound.member p).table
  have reads := table.holds node
  unfold PeerTable.generationOf at reads
  cases found : (s.member p).table.held.get node with
  | none =>
      rw [found] at reads
      exact absurd (reads.symm ▸ some') (lt_irrefl _)
  | some h =>
      obtain ⟨_, k, generation, knows⟩ := table.held node h found
      rw [found, Option.bind_some, generation, Option.getD_some] at reads
      subst reads
      exact ⟨h,rfl,generation,knows⟩

/- A question that took a class as yielded: every peer holds the block that yields it, or a later
one. -/
structure Asked.Confirmed (env : Env) (l : Ledger) (node : NodeId) (a : Asked) : Prop where
  reached : a.generation ≤ l.generation node
  seen : ∀ cls, a.effective.yielding.of cls = true → ∃ g, 0 < g ∧ (∀ p ∈ env.peers node, g ≤ l.holds p node) ∧
    ∀ k, g ≤ k → k ≤ a.generation → (l.block node k).yielding.of cls = true

theorem Asked.Confirmed.grows {a : Asked} (confirmed : a.Confirmed env l node) (grows : l.Grows n) :
    a.Confirmed env n node := by
  refine ⟨confirmed.reached.trans (grows.generation node),fun cls yields => ?_⟩
  obtain ⟨g, positive, held, since⟩ := confirmed.seen cls yields
  refine ⟨g,positive,fun p peer => (held p peer).trans (grows.holds p node),fun k above below => ?_⟩
  rw [grows.block node k (below.trans confirmed.reached)]
  exact since k above below

/- Where a question masks the block that it read, the member's block still yields what that one
does. -/
def Still (s : Cluster) : Step → Prop
  | .mask node read _ => ∀ block generation, (s.member node).reads[read]? = some (block,generation) →
      ∀ cls, block.yielding.of cls = true → (s.member node).facts.current.yielding.of cls = true
  | _ => True

/- Only a mask adds a question. -/
theorem askedAfter (env : Env) (s : Cluster) (step : Step) (node : NodeId) {a : Asked}
    (asked : a ∈ ((s.step env step).member node).asked) :
    a ∈ (s.member node).asked ∨ ∃ read stable block generation, step = .mask node read stable ∧
      (s.member node).reads[read]? = some (block,generation) ∧
      a = ⟨(s.member node).facts.effective block (env.peers node) stable,generation⟩ := by
  have set {other : NodeId} {m : Member} (there : a ∈ ((s.set other m).member node).asked)
      (same : m.asked = (s.member other).asked) : a ∈ (s.member node).asked := by
    rw [Cluster.memberSet] at there
    split_ifs at there with own
    · rw [own, ←same]
      exact there
    · exact there
  unfold Cluster.step at asked
  cases step with
  | ticket other now =>
      simp only at asked
      exact Or.inl (set asked rfl)
  | current other call said now =>
      simp only at asked
      split at asked
      · exact Or.inl (set asked rfl)
      · exact Or.inl asked
  | mask other read stable =>
      simp only at asked
      split at asked
      next block generation found =>
        rw [Cluster.memberSet] at asked
        split_ifs at asked with own
        · subst own
          rcases List.mem_append.mp asked with old | new
          · exact Or.inl old
          · exact Or.inr ⟨read,stable,block,generation,rfl,found,List.mem_singleton.mp new⟩
        · exact Or.inl asked
      · exact Or.inl asked
  | send other read peer =>
      simp only at asked
      split at asked
      · split_ifs at asked
        · exact Or.inl asked
        · exact Or.inl asked
      · exact Or.inl asked
  | decode other frame =>
      simp only at asked
      split at asked
      · split_ifs at asked
        · exact Or.inl (set asked rfl)
        · exact Or.inl asked
      · exact Or.inl asked
  | record other frame now =>
      simp only at asked
      split at asked
      · refine Or.inl (set asked ?_)
        unfold Member.record
        split <;> rfl
      · exact Or.inl asked
  | noteEcho other frame readable =>
      simp only at asked
      split at asked
      · exact Or.inl (set asked rfl)
      · exact Or.inl asked

theorem Cluster.Sound.asks {s : Cluster} (sound : s.Sound env l) {step : Step} (still : Still s step)
    (before : ∀ node, ∀ a ∈ (s.member node).asked, a.Confirmed env l node) (node : NodeId) {a : Asked}
    (asked : a ∈ ((s.step env step).member node).asked) : a.Confirmed env l node := by
  rcases askedAfter env s step node asked with old | ⟨read, stable, block, generation, rfl, found, rfl⟩
  · exact before node a old
  · have knows := (sound.member node).reads _ (List.mem_of_getElem? found)
    refine ⟨knows.reached,fun cls yields => ?_⟩
    rw [effectiveOf, Bool.and_eq_true_iff] at yields
    obtain ⟨g, positive, held, since⟩ := sound.confirmed (still block generation found cls yields.1) yields.2
    exact ⟨g,positive,held,fun k above below => since k above (below.trans knows.reached)⟩

/-! Answers. -/

/- Whether a member counts as having yielded, on its own view. -/
def Cluster.yielded (env : Env) (s : Cluster) (m : NodeId) (stable : Bool) (cls : OwnerClass) : Bool :=
  ((s.member m).facts.effective (s.member m).facts.current (env.peers m) stable).yielding.of cls

/- Every peer of a member that counts as having yielded holds a block that says so. -/
theorem Cluster.Sound.seen {s : Cluster} (sound : s.Sound env l) {stable : Bool} {cls : OwnerClass}
    (yielded : s.yielded env node stable cls = true) {p : NodeId} (peer : p ∈ env.peers node) :
    ∃ h, (s.member p).table.held.get node = some h ∧ h.facts.yielding.of cls = true := by
  unfold Cluster.yielded at yielded
  rw [effectiveOf, Bool.and_eq_true_iff] at yielded
  obtain ⟨g, positive, held, since⟩ := sound.confirmed yielded.1 yielded.2
  obtain ⟨h, found, _, knows⟩ := sound.holding (positive.trans_le (held p peer))
  refine ⟨h,found,?_⟩
  rw [knows.same]
  exact since _ (held p peer) knows.reached

theorem Cluster.Sound.current_active {s : Cluster} (sound : s.Sound env l) (m : NodeId) :
    (s.member m).facts.current.catchingUp = false := by
  have facts := (sound.member m).facts
  rw [facts.current]
  exact sound.formed.active m _ facts.generation.le

theorem Cluster.Sound.held_active {s : Cluster} (sound : s.Sound env l) {m p : NodeId} {h : PeerFacts}
    (found : (s.member m).table.held.get p = some h) : h.facts.catchingUp = false := by
  obtain ⟨_, k, _, knows⟩ := (sound.member m).table.held p h found
  rw [knows.same]
  exact sound.formed.active p k knows.reached

/- The candidates for a subscription, with the yields respected or ignored. -/
def Cluster.pass (env : Env) (s : Cluster) (me : NodeId) (stable : Bool) (ignoreYielding : Bool) : List NodeId :=
  ((env.peers me).filter fun peer => ((s.member me).table.held.get peer).any fun h =>
    ignoreYielding || !h.facts.yielding.of .webhooks) ++
  if ignoreYielding || !s.yielded env me stable .webhooks then [me] else []

theorem Cluster.Sound.answers {s : Cluster} (sound : s.Sound env l) (me : NodeId) (stable : Bool) (now : Nat)
    (key : List UInt8) : s.ownsSubscription env me stable now key =
      ownsAmong key me (if (s.pass env me stable false).isEmpty then s.pass env me stable true
        else s.pass env me stable false) := by
  have same (ignore fresh : Bool) (p : NodeId) :
      mayOwn (((s.member me).table.held.get p).map (·.facts)) .webhooks none none ignore fresh =
        ((s.member me).table.held.get p).any fun h => ignore || !h.facts.yielding.of .webhooks := by
    cases found : (s.member me).table.held.get p with
    | none => rfl
    | some h => cases ignore <;> simp [mayOwn, sound.held_active found]
  have own (ignore : Bool) : mayOwn (some ((s.member me).facts.effective (s.member me).facts.current (env.peers me) stable))
      .webhooks none (some false) ignore true = (ignore || !s.yielded env me stable .webhooks) := by
    have active : ((s.member me).facts.effective (s.member me).facts.current (env.peers me) stable).catchingUp = false :=
      sound.current_active me
    cases ignore <;> simp [mayOwn, active, Cluster.yielded]
  unfold Cluster.ownsSubscription PeerTable.candidates Cluster.pass
  simp only [same, own]

/- At every moment some member answers that it owns the subscription. -/
theorem Cluster.Sound.owned {s : Cluster} (sound : s.Sound env l) (stable : NodeId → Bool) (now : NodeId → Nat)
    (key : List UInt8) : ∃ m ∈ env.members, s.ownsSubscription env m (stable m) (now m) key = true := by
  by_cases working : ∃ m ∈ env.members, s.yielded env m (stable m) .webhooks = false
  · -- the first of those that have not yielded: no peer that has is a candidate in its view
    obtain ⟨m, owns⟩ := @ownerSome key (env.members.filter fun m => !s.yielded env m (stable m) .webhooks) (by
      obtain ⟨m, member, works⟩ := working
      exact List.ne_nil_of_mem (List.mem_filter.mpr ⟨member,by rw [works]; rfl⟩))
    obtain ⟨inside, highest⟩ := ownerIff.mp owns
    obtain ⟨member, works⟩ := List.mem_filter.mp inside
    have me : m ∈ s.pass env m (stable m) false :=
      List.mem_append_right _ (by rw [Bool.false_or, if_pos works]; exact List.mem_singleton_self m)
    refine ⟨m,member,?_⟩
    rw [sound.answers, if_neg (by simpa using List.ne_nil_of_mem me)]
    refine decide_eq_true (ownerIff.mpr ⟨me,fun p candidate => highest p ?_⟩)
    rcases List.mem_append.mp candidate with peer | self
    · obtain ⟨live, heard⟩ := List.mem_filter.mp peer
      refine List.mem_filter.mpr ⟨(memPeers.mp live).1,?_⟩
      by_contra yielded
      obtain ⟨h, found, yields⟩ := sound.seen (by simpa using yielded)
        (memPeers.mpr ⟨member,(memPeers.mp live).2.symm⟩)
      rw [found] at heard
      simp [yields] at heard
    · split_ifs at self
      · rw [List.mem_singleton.mp self]
        exact inside
      · exact absurd self List.not_mem_nil
  · -- everybody has, and everybody falls back to everybody
    have all : ∀ m ∈ env.members, s.yielded env m (stable m) .webhooks = true := fun m member => by
      by_contra works
      exact working ⟨m,member,by simpa using works⟩
    obtain ⟨m, owns⟩ := ownerSome key env.populated
    obtain ⟨member, highest⟩ := ownerIff.mp owns
    have nobody : s.pass env m (stable m) false = [] := by
      unfold Cluster.pass
      rw [all m member]
      refine List.append_eq_nil_iff.mpr ⟨List.filter_eq_nil_iff.mpr fun p peer heard => ?_,rfl⟩
      obtain ⟨h, found, yields⟩ := sound.seen (all p (memPeers.mp peer).1)
        (memPeers.mpr ⟨member,(memPeers.mp peer).2.symm⟩)
      rw [found] at heard
      simp [yields] at heard
    refine ⟨m,member,?_⟩
    rw [sound.answers, nobody]
    refine decide_eq_true (ownerIff.mpr ⟨List.mem_append_right _ (List.mem_singleton_self m),fun p candidate => ?_⟩)
    refine highest p ?_
    rcases List.mem_append.mp candidate with peer | self
    · exact (memPeers.mp (List.mem_filter.mp peer).1).1
    · rw [List.mem_singleton.mp self]
      exact member

/-! Runs. -/

def StillRun (env : Env) (s : Cluster) : List Step → Prop
  | [] => True
  | step :: rest => Still s step ∧ StillRun env (s.step env step) rest

theorem openedSound (env : Env) : ∃ l, Cluster.opened.Sound env l := by
  refine ⟨⟨fun _ _ => .unsaid,fun _ => 0,fun _ _ => 0⟩,⟨fun _ _ _ => rfl,fun m k positive reached => ?_⟩,fun node => ?_,
    fun f sent => absurd sent List.not_mem_nil⟩
  · exact absurd (positive.trans_le reached) (lt_irrefl _)
  · refine ⟨⟨rfl,rfl,fun cls _ => ?_,fun cls g set => ?_,fun p k found => ?_⟩,⟨fun p => rfl,fun p h found => ?_⟩,
      ⟨Nat.one_pos,fun some' => absurd rfl some',fun wrong => wrong,fun called => absurd called List.not_mem_nil,
        fun t called => absurd called List.not_mem_nil⟩,fun r read => absurd read List.not_mem_nil,
      fun d arrived => absurd arrived List.not_mem_nil⟩
    · cases cls <;> rfl
    · cases set
    · cases found
    · cases found

theorem runSound (env : Env) {s : Cluster} {l : Ledger} (sound : s.Sound env l) (steps : List Step) :
    ∃ n, (s.run env steps).Sound env n := by
  induction steps generalizing s l with
  | nil => exact ⟨l,sound⟩
  | cons step rest ih =>
      obtain ⟨n, _, next⟩ := sound.step step
      exact ih next

theorem runConfirmed (env : Env) {s : Cluster} {l : Ledger} (sound : s.Sound env l) {steps : List Step}
    (still : StillRun env s steps) (before : ∀ node, ∀ a ∈ (s.member node).asked, a.Confirmed env l node) :
    ∃ n, (s.run env steps).Sound env n ∧ ∀ node, ∀ a ∈ ((s.run env steps).member node).asked, a.Confirmed env n node := by
  induction steps generalizing s l with
  | nil => exact ⟨l,sound,before⟩
  | cons step rest ih =>
      obtain ⟨n, grows, next⟩ := sound.step step
      exact ih next still.2 fun node a asked => (sound.asks still.1 before node asked).grows grows

/- In every run: if no question masks a block that the member's current one has since withdrawn,
whenever one takes a class as yielded every other member holds a block of the asking member that
yields it, or a later one; and at every moment some member answers that it owns a subscription. -/
theorem neverUnowned (env : Env) (steps : List Step) :
    let s := Cluster.opened.run env steps
    (StillRun env .opened steps → ∀ m ∈ env.members, ∀ a ∈ (s.member m).asked, ∀ cls,
      a.effective.yielding.of cls = true → ∀ p ∈ env.members, p ≠ m → ∃ held, (s.member p).table.held.get m = some held ∧
        (held.facts.yielding.of cls = true ∨ ∃ g, held.generation = some g ∧ a.generation < g)) ∧
    ∀ (stable : NodeId → Bool) (now : NodeId → Nat) (subscription : List UInt8),
      ∃ m ∈ env.members, s.ownsSubscription env m (stable m) (now m) subscription = true := by
  intro s
  obtain ⟨l, opened⟩ := openedSound env
  refine ⟨fun still m _ a asked cls yields p member other => ?_,fun stable now subscription => ?_⟩
  · obtain ⟨n, sound, confirmed⟩ := runConfirmed env opened still fun _ _ asked => absurd asked List.not_mem_nil
    obtain ⟨g, positive, seen, since⟩ := (confirmed m a asked).seen cls yields
    have reached := seen p (memPeers.mpr ⟨member,other⟩)
    obtain ⟨held, found, generation, knows⟩ := sound.holding (positive.trans_le reached)
    refine ⟨held,found,?_⟩
    by_cases later : a.generation < n.holds p m
    · exact Or.inr ⟨_,generation,later⟩
    · rw [knows.same]
      exact Or.inl (since _ reached (not_lt.mp later))
  · obtain ⟨n, sound⟩ := runSound env opened steps
    exact sound.owned stable now subscription

end

/-! Two members. -/

def pair : Env := ⟨[1,2],by decide,fun node => [⟨node.val % 256,Nat.mod_lt _ (by decide)⟩],fun _ => none,15000⟩

def working : Said := ⟨⟨false,false,false⟩,false,false,[],[]⟩

def yieldingWebhooks : Said := ⟨⟨false,true,false⟩,false,false,[],[]⟩

/- A question reads a block that yields; before it masks it another read publishes one that does
not, and with the bit nobody is left to wait for. -/
def withdrawn : List Step :=
  [.ticket 1 0,.current 1 0 working 0,.send 1 0 2,.decode 2 0,.record 2 0 0,
    .ticket 1 60000,.current 1 0 yieldingWebhooks 60000,.ticket 1 61000,.current 1 0 working 61000,.mask 1 1 true]

/- The peer holds a block that does not yield, and it is not a later one. -/
theorem yieldedAlone : ∃ a ∈ ((Cluster.opened.run pair withdrawn).member 1).asked,
    a.effective.yielding.of .webhooks = true ∧
    ¬ ∃ held, ((Cluster.opened.run pair withdrawn).member 2).table.held.get 1 = some held ∧
      (held.facts.yielding.of .webhooks = true ∨ ∃ g, held.generation = some g ∧ a.generation < g) := by
  have held : ((Cluster.opened.run pair withdrawn).member 2).table.held.get 1 =
      some ⟨pair.source 1 working,0,some 1,1⟩ := by decide +kernel
  refine ⟨⟨pair.source 1 yieldingWebhooks,2⟩,by decide +kernel,rfl,?_⟩
  rintro ⟨h, found, yields | ⟨g, generation, later⟩⟩
  · cases held.symm.trans found
    cases yields
  · cases held.symm.trans found
    cases generation
    exact absurd later (by decide)

/- The peer hears of the yield and echoes it; only then the member counts as having yielded. -/
def echoed : List Step :=
  [.ticket 1 60000,.current 1 0 yieldingWebhooks 60000,.send 1 0 2,.decode 2 0,.record 2 0 60000,
    .ticket 2 60000,.current 2 0 working 60000,.send 2 0 1,.decode 1 1,.noteEcho 1 0 true,.mask 1 0 true]

theorem neverUnownedHere : ∃ held, ((Cluster.opened.run pair echoed).member 2).table.held.get 1 = some held ∧
    (held.facts.yielding.of .webhooks = true ∨ ∃ g, held.generation = some g ∧ 1 < g) := by
  have still : StillRun pair .opened echoed := by
    refine ⟨trivial,trivial,trivial,trivial,trivial,trivial,trivial,trivial,trivial,trivial,?_,trivial⟩
    intro block generation found cls yields
    have read : (block,generation) = (pair.source 1 yieldingWebhooks,1) :=
      Option.some.inj (found.symm.trans (by decide +kernel))
    have current : ((Cluster.opened.run pair (echoed.take 10)).member 1).facts.current = pair.source 1 yieldingWebhooks := by
      decide +kernel
    cases read
    exact (congrArg (fun f : Facts => f.yielding.of cls) current).trans yields
  exact (neverUnowned pair echoed).1 still 1 (by decide) ⟨pair.source 1 yieldingWebhooks,1⟩ (by decide +kernel) .webhooks rfl
    2 (by decide) (by decide)

end Kimmy.Ownership
