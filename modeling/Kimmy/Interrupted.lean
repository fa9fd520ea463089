import Mathlib.Logic.Relation

/-!
Programs that run one atomic action at a time beside an environment that moves the same state in
between, and that may be cut off after any of them and started again. What a program needs of its
environment and of the outside is asked for as it runs.
-/
namespace Kimmy

/- An action is atomic; an answer comes from outside. -/
inductive Prog (σ ι α : Type) : Type 1 where
  | done (a : α)
  | act {β : Type} (f : σ → σ × β) (next : β → Prog σ ι α)
  | ask (next : ι → Prog σ ι α)

namespace Prog

variable {σ ι α β : Type}

def bind (p : Prog σ ι α) (f : α → Prog σ ι β) : Prog σ ι β :=
  match p with
  | done a => f a
  | act g next => act g fun b => (next b).bind f
  | ask next => ask fun i => (next i).bind f

instance : Monad (Prog σ ι) where
  pure := done
  bind := bind

/- One action alone, and one that only reads. -/
def step (f : σ → σ × α) : Prog σ ι α := act f done

def update (f : σ → σ) : Prog σ ι Unit := act (fun s => (f s,())) done

def read (f : σ → α) : Prog σ ι α := act (fun s => (s,f s)) done

def answer : Prog σ ι ι := ask done

/- From a state on, whatever the environment does between two actions: the invariant holds after
every action, and the program ends as promised. -/
def Safe (inv : σ → Prop) (moves : σ → σ → Prop) (post : α → σ → Prop) : Prog σ ι α → σ → Prop
  | done a, s => post a s
  | act f next, s => ∀ t, moves s t → inv (f t).1 ∧ (next (f t).2).Safe inv moves post (f t).1
  | ask next, s => ∀ i, (next i).Safe inv moves post s

section
variable {inv : σ → Prop} {moves : σ → σ → Prop} {post : α → σ → Prop} {s : σ}

theorem safeMono {more : α → σ → Prop} (le : ∀ a t, post a t → more a t) :
    ∀ {p : Prog σ ι α} {s : σ}, p.Safe inv moves post s → p.Safe inv moves more s
  | done a, s, safe => le a s safe
  | act _ _, _, safe => fun t moved => ⟨(safe t moved).1,safeMono le (safe t moved).2⟩
  | ask _, _, safe => fun i => safeMono le (safe i)

theorem safeBind {f : α → Prog σ ι β} {last : β → σ → Prop} :
    ∀ {p : Prog σ ι α} {s : σ}, p.Safe inv moves (fun a t => (f a).Safe inv moves last t) s →
      (p >>= f).Safe inv moves last s
  | done _, _, safe => safe
  | act _ _, _, safe => fun t moved => ⟨(safe t moved).1,safeBind (safe t moved).2⟩
  | ask _, _, safe => fun i => safeBind (safe i)

/- A part of a program that ends as the rest of it needs. -/
theorem safeThen {p : Prog σ ι α} {f : α → Prog σ ι β} {last : β → σ → Prop} (first : p.Safe inv moves post s)
    (rest : ∀ a t, post a t → (f a).Safe inv moves last t) : (p >>= f).Safe inv moves last s :=
  safeBind (safeMono rest first)

/- What a program promises may be promised from where the environment has moved to. -/
theorem safeMoved (trans : ∀ x y z, moves x y → moves y z → moves x z)
    (stable : ∀ a x y, moves x y → post a x → post a y) :
    ∀ {p : Prog σ ι α} {s t : σ}, p.Safe inv moves post s → moves s t → p.Safe inv moves post t
  | done a, s, t, safe, moved => stable a s t moved safe
  | act _ _, _, _, safe, moved => fun u later => safe u (trans _ _ _ moved later)
  | ask _, _, _, safe, moved => fun i => safeMoved trans stable (safe i) moved

end

end Prog

/-! Runs. -/

/- What happens next: the program goes on with an answer, the environment moves, or everything but
the durable part of the state is lost. -/
inductive Occurrence (ι ω : Type) where
  | goes (answer : ι)
  | moves (what : ω)
  | crashes

/- A program that is started anew by `start`, and goes on with `again` where it has ended. -/
structure Process (σ ι ω α : Type) where
  start : Prog σ ι α
  again : α → Prog σ ι α
  moved : σ → ω → σ
  lost : σ → σ

namespace Process

variable {σ ι ω α : Type}

def step (process : Process σ ι ω α) (now : σ × Prog σ ι α) : Occurrence ι ω → σ × Prog σ ι α
  | .goes i => match now.2 with
      | .done a => (now.1,process.again a)
      | .act f next => ((f now.1).1,next (f now.1).2)
      | .ask next => (now.1,next i)
  | .moves what => (process.moved now.1 what,now.2)
  | .crashes => (process.lost now.1,process.start)

def run (process : Process σ ι ω α) (now : σ × Prog σ ι α) (events : List (Occurrence ι ω)) : σ × Prog σ ι α :=
  events.foldl process.step now

/- Every move of the environment is one that is allowed where it happens. -/
def Allowed (process : Process σ ι ω α) (allowed : σ → ω → Prop) (now : σ × Prog σ ι α) : List (Occurrence ι ω) → Prop
  | [] => True
  | event :: rest => (match event with
      | .moves what => allowed now.1 what
      | _ => True) ∧ process.Allowed allowed (process.step now event) rest

theorem allowedTake {process : Process σ ι ω α} {allowed : σ → ω → Prop} : ∀ {events : List (Occurrence ι ω)}
    {now : σ × Prog σ ι α}, process.Allowed allowed now events → ∀ n, process.Allowed allowed now (events.take n)
  | [], _, _, _ => by
      rw [List.take_nil]
      trivial
  | _ :: _, _, _, 0 => trivial
  | _ :: _, _, ok, n + 1 => ⟨ok.1,allowedTake ok.2 n⟩

/- What is shown of one process: the invariant survives the environment and a loss, and from it the
start and every further turn are safe. -/
structure Kept (process : Process σ ι ω α) (allowed : σ → ω → Prop) (inv : σ → Prop) (moves : σ → σ → Prop)
    (post : α → σ → Prop) : Prop where
  refl : ∀ s, moves s s
  trans : ∀ x y z, moves x y → moves y z → moves x z
  move : ∀ s what, allowed s what → moves s (process.moved s what)
  steady : ∀ s t, moves s t → inv s → inv t
  stable : ∀ a s t, moves s t → post a s → post a t
  lost : ∀ s, inv s → inv (process.lost s)
  start : ∀ s, inv s → process.start.Safe inv moves post (process.lost s)
  again : ∀ a s, post a s → (process.again a).Safe inv moves post s

section
variable {process : Process σ ι ω α} {allowed : σ → ω → Prop} {inv : σ → Prop} {moves : σ → σ → Prop}
  {post : α → σ → Prop}

theorem Kept.step (kept : process.Kept allowed inv moves post) {now : σ × Prog σ ι α}
    (holds : inv now.1 ∧ now.2.Safe inv moves post now.1) {event : Occurrence ι ω}
    (ok : match event with | .moves what => allowed now.1 what | _ => True) :
    inv (process.step now event).1 ∧ (process.step now event).2.Safe inv moves post (process.step now event).1 := by
  obtain ⟨s, p⟩ := now
  obtain ⟨held, safe⟩ := holds
  cases event with
  | goes i =>
      cases p with
      | done a => exact ⟨held,kept.again a s safe⟩
      | act f next => exact safe s (kept.refl s)
      | ask next => exact ⟨held,safe i⟩
  | moves what =>
      have moved := kept.move s what ok
      exact ⟨kept.steady s _ moved held,Prog.safeMoved kept.trans kept.stable safe moved⟩
  | crashes => exact ⟨kept.lost s held,kept.start s held⟩

theorem Kept.run (kept : process.Kept allowed inv moves post) {now : σ × Prog σ ι α}
    (holds : inv now.1 ∧ now.2.Safe inv moves post now.1) {events : List (Occurrence ι ω)}
    (ok : process.Allowed allowed now events) :
    inv (process.run now events).1 ∧ (process.run now events).2.Safe inv moves post (process.run now events).1 := by
  induction events generalizing now with
  | nil => exact holds
  | cons event rest ih => exact ih (kept.step holds ok.1) ok.2

end

end Process

end Kimmy
