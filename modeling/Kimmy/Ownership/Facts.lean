import Kimmy.Store.Records
import Mathlib.Data.List.MinMax

/-!
What the members say about themselves and who owns what by it (`facts.rs`, `membership.rs`,
`ownership.rs`), for a fixed set of members that all see each other live. Every section that a
member runs under one lock is a step of its own, and a frame may be lost, delayed, repeated or
overtaken.
-/
namespace Kimmy.Ownership
open Store

/-! Blocks. -/

inductive OwnerClass where
  | ttl
  | webhooks
  | embeddings
  deriving DecidableEq

structure Yielding where
  ttl : Bool
  webhooks : Bool
  embeddings : Bool
  deriving DecidableEq

def Yielding.of (y : Yielding) : OwnerClass → Bool
  | .ttl => y.ttl
  | .webhooks => y.webhooks
  | .embeddings => y.embeddings

def Yielding.any (y : Yielding) : Bool := y.ttl || y.webhooks || y.embeddings

/- What a member says of itself from one moment to the next; `notes` are the fields of its block
that only a comparison of blocks reads. -/
structure Said where
  yielding : Yielding
  ttlDisabled : Bool
  embeddingsDisabled : Bool
  ttl : List CollectionId
  notes : List (Fin 256)
  deriving DecidableEq

structure Facts extends Said where
  boot : List (Fin 256)
  catchingUp : Bool
  startedMs : Option Nat
  deriving DecidableEq

def Facts.unsaid : Facts := ⟨⟨⟨false,false,false⟩,false,false,[],[]⟩,[],false,none⟩

def Facts.holdsTtl (facts : Facts) (collection : CollectionId) : Bool := facts.ttl.contains collection

/- A member that was never heard is no candidate; one that is catching up never is. -/
def mayOwn (facts : Option Facts) (cls : OwnerClass) (collection : Option CollectionId) (holdsTtl : Option Bool)
    (ignoreYielding fresh : Bool) : Bool :=
  match facts with
  | none => false
  | some facts =>
      if facts.catchingUp || (!ignoreYielding && facts.yielding.of cls) then false
      else match cls with
        | .ttl => !facts.ttlDisabled && holdsTtl.getD (fresh && collection.any facts.holdsTtl)
        | .webhooks => true
        | .embeddings => !facts.embeddingsDisabled

/-! A member's own block. -/

/- `yieldGen` is the generation that first set a bit, while it is set, and `echoed` what each peer
has said that it holds. -/
structure LocalState where
  built : Option Nat
  nextTicket : Nat
  publishedTicket : Nat
  current : Facts
  generation : Nat
  yieldGen : OwnerClass → Option Nat
  echoed : SortedMap NodeId Nat

namespace LocalState

def fresh : LocalState := ⟨none,1,0,.unsaid,0,fun _ => none,.empty⟩

def rebuildAfter : Nat := 1000

/- The first locked section of a read of the block: a ticket where it is to be built again. -/
def ticket (l : LocalState) (now : Nat) : LocalState × Option Nat :=
  if l.built.all fun at' => rebuildAfter ≤ now - at' then ({ l with nextTicket := l.nextTicket + 1 },some l.nextTicket)
  else (l,none)

def yieldGenAfter (l : LocalState) (next : Facts) (cls : OwnerClass) : Option Nat :=
  match l.current.yielding.of cls, next.yielding.of cls with
  | false, true => some (l.generation + 1)
  | true, true => l.yieldGen cls
  | _, false => none

/- The second: a build that started earlier never replaces one that started later. -/
def publish (l : LocalState) (ticket : Nat) (next : Facts) (now : Nat) : LocalState :=
  if l.publishedTicket < ticket then
    let l := { l with publishedTicket := ticket, built := some now }
    if l.current ≠ next || l.generation = 0 then
      { l with current := next, generation := l.generation + 1, yieldGen := l.yieldGenAfter next }
    else l
  else l

def currentAfter (l : LocalState) (ticket : Option Nat) (next : Facts) (now : Nat) : LocalState :=
  match ticket with
  | some ticket => l.publish ticket next now
  | none => l

def forget (l : LocalState) (peer : NodeId) : LocalState := { l with echoed := l.echoed.remove peer }

def retain (l : LocalState) (live : List NodeId) : LocalState :=
  { l with echoed := l.echoed.retain fun peer _ => live.contains peer }

/- The peers that have not confirmed the yield: none where the bit is not set. -/
def unconfirmed (l : LocalState) (cls : OwnerClass) (live : List NodeId) : List NodeId :=
  match l.yieldGen cls with
  | none => []
  | some needed => live.filter fun peer => (l.echoed.get peer).all (· < needed)

def confirmed (l : LocalState) (live : List NodeId) (stable : Bool) (cls : OwnerClass) : Bool :=
  stable && (l.unconfirmed cls live).isEmpty

/- The block that was read, with only the bits that count already. -/
def effective (l : LocalState) (block : Facts) (live : List NodeId) (stable : Bool) : Facts :=
  let masked (cls : OwnerClass) : Bool := block.yielding.of cls && l.confirmed live stable cls
  { block with yielding := ⟨masked .ttl,masked .webhooks,masked .embeddings⟩ }

end LocalState

/-! What is held of the others. -/

structure Echo where
  boot : List (Fin 256)
  generation : Nat

/- An echo confirms only for this member's own boot, and only the highest generation counts. -/
def LocalState.noteEcho (l : LocalState) (peer : NodeId) (echo : Option Echo) : LocalState :=
  match echo with
  | none => l.forget peer
  | some echo =>
      let mine := !echo.boot.isEmpty && echo.boot = l.current.boot
      let record := (l.echoed.get peer).getD 0
      { l with echoed := l.echoed.insert peer (if mine then max record echo.generation else 0) }

structure PeerFacts where
  facts : Facts
  received : Nat
  generation : Option Nat
  decodedSeq : Nat
  deriving DecidableEq

/- `floor` and `dropped` are raised where a member is declared down. -/
structure PeerTable where
  held : SortedMap NodeId PeerFacts
  dropped : SortedMap NodeId (Nat × Nat)
  floor : Nat

def PeerTable.fresh : PeerTable := ⟨.empty,.empty,0⟩

def PeerTable.echoFor (t : PeerTable) (peer : NodeId) : Echo :=
  match t.held.get peer with
  | some held => ⟨held.facts.boot,held.generation.getD 0⟩
  | none => ⟨[],0⟩

/- Whether a block takes the place of the one held: within one boot its generation does not fall,
and across boots the sender's start time orders them, unless the held one is past its lease. -/
def PeerFacts.gives (held : PeerFacts) (facts : Facts) (generation : Option Nat) (decodedSeq now lease : Nat) : Bool :=
  let later := held.decodedSeq < decodedSeq
  if held.facts.boot = facts.boot then later && generation.all (held.generation.getD 0 ≤ ·)
  else
    let ordered := match facts.startedMs, held.facts.startedMs with
      | some new, some old => old ≤ new
      | _, _ => true
    later && (ordered || lease < now - held.received)

/- The table with the block taken, and whether the sender is a new process. -/
def PeerTable.record (t : PeerTable) (live : List NodeId) (lease : Nat) (node : NodeId) (facts : Facts)
    (generation : Option Nat) (decodedSeq now : Nat) : Option (PeerTable × Bool) :=
  let floor := max t.floor (((t.dropped.get node).map (·.1)).getD 0)
  if decodedSeq ≤ floor then none
  else if (t.held.get node).all fun held => held.gives facts generation decodedSeq now lease then
    let held := (t.held.insert node ⟨facts,now,generation,decodedSeq⟩).retain fun peer held =>
      live.contains peer || now - held.received < lease * 10
    let dropped := t.dropped.retain fun peer drop => t.floor < drop.1 &&
      !(held.get peer).any (fun held => drop.1 < held.decodedSeq) &&
      (live.contains peer || now - drop.2 < lease * 10)
    some (⟨held,dropped,t.floor⟩,(t.held.get node).any fun held => held.facts.boot ≠ facts.boot)
  else none

/- The peers that may own the class by what they last said, and this member by its own block; where
nobody may, the yields are ignored. -/
def PeerTable.candidates (t : PeerTable) (peers : List NodeId) (now lease : Nat) (cls : OwnerClass)
    (collection : Option CollectionId) (me : NodeId) (mine : Facts) (meHoldsTtl : Bool) : List NodeId :=
  let pass (ignoreYielding : Bool) : List NodeId :=
    (peers.filter fun peer => mayOwn ((t.held.get peer).map (·.facts)) cls collection none ignoreYielding
      ((t.held.get peer).any fun held => now - held.received ≤ lease)) ++
    if mayOwn (some mine) cls collection (some meHoldsTtl) ignoreYielding true then [me] else []
  if (pass false).isEmpty then pass true else pass false

/-! Owners. -/

/- The hyphenated form of an id. -/
def nodeText (node : NodeId) : List UInt8 :=
  let digit (place : Nat) : List UInt8 :=
    let d := node.val / 16 ^ (31 - place) % 16
    (if place = 8 ∨ place = 12 ∨ place = 16 ∨ place = 20 then [45] else []) ++
      [if d < 10 then UInt8.ofNat (48 + d) else UInt8.ofNat (87 + d)]
  (List.range 32).flatMap digit

/- FNV-1a. -/
def hash (subscription : List UInt8) (member : NodeId) : UInt64 :=
  (subscription ++ [0] ++ nodeText member).foldl (fun h (byte : UInt8) => (h ^^^ byte.toUInt64) * 0x100000001b3)
    0xcbf29ce484222325

/- The highest hash wins; ties break on the id. -/
def rank (subscription : List UInt8) (member : NodeId) : Nat ×ₗ NodeId :=
  toLex ((hash subscription member).toNat,member)

def owner (subscription : List UInt8) (members : List NodeId) : Option NodeId :=
  members.argmax (rank subscription)

def ownsAmong (key : List UInt8) (me : NodeId) (candidates : List NodeId) : Bool := owner key candidates = some me

/-! Steps. -/

/- The members, which neither come nor go nor start again, and the lease that follows from their
number. -/
structure Env where
  members : List NodeId
  populated : members ≠ []
  boot : NodeId → List (Fin 256)
  startedMs : NodeId → Option Nat
  lease : Nat

def Env.peers (env : Env) (me : NodeId) : List NodeId := env.members.filter (· ≠ me)

/- What a member's source answers: nobody is catching up. -/
def Env.source (env : Env) (node : NodeId) (said : Said) : Facts := ⟨said,env.boot node,false,env.startedMs node⟩

structure Frame where
  sender : NodeId
  receiver : NodeId
  block : Facts × Nat
  echo : Echo

/- A question that has its effective block, with the generation of the block it was masked from. -/
structure Asked where
  effective : Facts
  generation : Nat
  deriving DecidableEq

/- `calls` are the reads of the block between their locked sections, `reads` the blocks they
returned, `decoded` the frames that arrived. -/
structure Member where
  facts : LocalState
  table : PeerTable
  decodeSeq : Nat
  calls : List (Option Nat)
  reads : List (Facts × Nat)
  asked : List Asked
  decoded : List (Nat × Frame)

structure Cluster where
  member : NodeId → Member
  frames : List Frame

inductive Step where
  | ticket (node : NodeId) (now : Nat)
  | current (node : NodeId) (call : Nat) (said : Said) (now : Nat)
  | mask (node : NodeId) (read : Nat) (stable : Bool)
  | send (node : NodeId) (read : Nat) (peer : NodeId)
  | decode (node : NodeId) (frame : Nat)
  | record (node : NodeId) (frame : Nat) (now : Nat)
  | noteEcho (node : NodeId) (frame : Nat) (readable : Bool)

def Cluster.opened : Cluster := ⟨fun _ => ⟨.fresh,.fresh,0,[],[],[],[]⟩,[]⟩

def Cluster.set (s : Cluster) (node : NodeId) (m : Member) : Cluster := { s with member := Function.update s.member node m }

/- The peer's block of an arrived frame is taken, or not. -/
def Member.record (env : Env) (m : Member) (node : NodeId) (seq : Nat) (frame : Frame) (now : Nat) : Member :=
  match m.table.record (env.peers node) env.lease frame.sender frame.block.1 (some frame.block.2) seq now with
  | some (table,restarted) =>
      let facts := if restarted then m.facts.forget frame.sender else m.facts
      { m with table := table, facts := facts.retain (env.peers node) }
  | none => m

def Cluster.step (env : Env) (s : Cluster) : Step → Cluster
  | .ticket node now =>
      let m := s.member node
      let (facts,ticket) := m.facts.ticket now
      s.set node { m with facts := facts, calls := m.calls ++ [ticket] }
  | .current node call said now =>
      let m := s.member node
      match m.calls[call]? with
      | some ticket =>
          let facts := m.facts.currentAfter ticket (env.source node said) now
          s.set node { m with
            facts := facts
            calls := m.calls.eraseIdx call
            reads := m.reads ++ [(facts.current,facts.generation)] }
      | none => s
  | .mask node read stable =>
      let m := s.member node
      match m.reads[read]? with
      | some (block,generation) =>
          s.set node { m with asked := m.asked ++ [⟨m.facts.effective block (env.peers node) stable,generation⟩] }
      | none => s
  -- the echo is read as the frame is written, the block before
  | .send node read peer =>
      let m := s.member node
      match m.reads[read]? with
      | some block => if node ∈ env.members ∧ peer ∈ env.peers node then
          { s with frames := s.frames ++ [⟨node,peer,block,m.table.echoFor peer⟩] } else s
      | none => s
  | .decode node frame =>
      let m := s.member node
      match s.frames[frame]? with
      | some frame => if frame.receiver = node then
          s.set node { m with decodeSeq := m.decodeSeq + 1, decoded := m.decoded ++ [(m.decodeSeq + 1,frame)] } else s
      | none => s
  | .record node frame now =>
      let m := s.member node
      match m.decoded[frame]? with
      | some (seq,frame) => s.set node (m.record env node seq frame now)
      | none => s
  | .noteEcho node frame readable =>
      let m := s.member node
      match m.decoded[frame]? with
      | some (_,frame) =>
          s.set node { m with facts := m.facts.noteEcho frame.sender (if readable then some frame.echo else none) }
      | none => s

def Cluster.run (env : Env) (s : Cluster) (steps : List Step) : Cluster := steps.foldl (step env) s

/- A member's answer for a subscription, on its own view. -/
def Cluster.ownsSubscription (env : Env) (s : Cluster) (me : NodeId) (stable : Bool) (now : Nat)
    (subscription : List UInt8) : Bool :=
  let m := s.member me
  let mine := m.facts.effective m.facts.current (env.peers me) stable
  ownsAmong subscription me (m.table.candidates (env.peers me) now env.lease .webhooks none me mine false)

end Kimmy.Ownership
