import Kimmy.Merge.Types

/-!
The hybrid logical clock (`hlc.rs`) and the stamps an engine mints from it (`engine.rs`).
Physical time and remote timestamps are arbitrary. The clock is strictly monotonic as long
as it is not asked for a timestamp above the last one there is.
-/
namespace Kimmy
open Merge

def Merge.Hlc.max : Hlc := ⟨⟨2 ^ 64 - 1,by decide⟩,⟨2 ^ 16 - 1,by decide⟩⟩

/- The next representable timestamp: an exhausted counter rolls into the wall clock, whose
addition saturates. -/
def Merge.Hlc.successor (h : Hlc) : Hlc :=
  if room : h.counter.val + 1 < 2 ^ 16 then ⟨h.wallMs,⟨h.counter.val + 1,room⟩⟩
  else ⟨⟨min (h.wallMs.val + 1) (2 ^ 64 - 1),by omega⟩,0⟩

theorem hlcLtIff {x y : Hlc} : x < y ↔ x.wallMs < y.wallMs ∨ x.wallMs = y.wallMs ∧ x.counter < y.counter :=
  Prod.Lex.toLex_lt_toLex

theorem successorAbove {h : Hlc} : h < h.successor ↔ h ≠ .max := by
  rcases h with ⟨⟨wall, wallBound⟩, ⟨counter, counterBound⟩⟩
  rw [hlcLtIff]
  unfold Hlc.successor Hlc.max
  split_ifs with room
  · simp only [lt_irrefl, Fin.mk_lt_mk, true_and, false_or, ne_eq, Hlc.mk.injEq, Fin.mk.injEq]
    simp only at room
    omega
  · simp only [Fin.mk.injEq, ne_eq, Hlc.mk.injEq, Fin.lt_def, Fin.val_zero]
    simp only at room
    omega

/- The previous representable timestamp; zero stays where it is. -/
def Merge.Hlc.predecessor (h : Hlc) : Hlc :=
  if h.counter.val ≠ 0 then ⟨h.wallMs,⟨h.counter.val - 1,by omega⟩⟩
  else if h.wallMs.val = 0 then .zero
  else ⟨⟨h.wallMs.val - 1,by omega⟩,⟨2 ^ 16 - 1,by decide⟩⟩

theorem predecessorBelow {h k : Hlc} (le : h ≤ k.predecessor) : h < k ∨ h = .zero := by
  rcases h with ⟨⟨wall, wallBound⟩, ⟨counter, counterBound⟩⟩
  rcases k with ⟨⟨above, aboveBound⟩, ⟨count, countBound⟩⟩
  rw [←not_lt, hlcLtIff] at le
  rw [hlcLtIff]
  unfold Hlc.predecessor Hlc.zero at *
  split_ifs at le with first last
  · simp only [Fin.mk_lt_mk, Fin.mk.injEq, Hlc.mk.injEq] at *
    omega
  · simp only [Hlc.mk.injEq, Fin.lt_def, Fin.ext_iff, Fin.val_zero] at *
    omega
  · simp only [Fin.mk_lt_mk, Fin.mk.injEq, Hlc.mk.injEq] at *
    omega

structure HlcClock where
  last : Hlc
  deriving DecidableEq

namespace HlcClock

def new : HlcClock := ⟨.zero⟩

def resumingFrom (last : Hlc) : HlcClock := ⟨last⟩

/- The timestamp issued above a high-water mark. -/
def above (physical : Fin (2 ^ 64)) (highWater : Hlc) : Hlc :=
  if highWater.wallMs < physical then ⟨physical,0⟩ else highWater.successor

def tick (clock : HlcClock) (physical : Fin (2 ^ 64)) : HlcClock × Hlc :=
  let next := above physical clock.last
  (⟨next⟩,next)

def observe (clock : HlcClock) (physical : Fin (2 ^ 64)) (remote : Hlc) : HlcClock × Hlc :=
  let next := above physical (max clock.last remote)
  (⟨next⟩,next)

def witness (clock : HlcClock) (remote : Hlc) : HlcClock :=
  if clock.last < remote then ⟨remote⟩ else clock

/- At the end of the timestamps there is none above, and physical time is never past it. -/
theorem aboveStrict {physical highWater} : highWater < above physical highWater ↔ highWater ≠ .max := by
  unfold above
  split_ifs with ahead
  · refine iff_of_true (hlcLtIff.mpr (Or.inl ahead)) ?_
    rintro rfl
    have bound := physical.isLt
    simp only [Hlc.max, Fin.lt_def] at ahead
    omega
  · exact successorAbove

theorem witnessLast (clock : HlcClock) (remote : Hlc) : (clock.witness remote).last = max clock.last remote := by
  unfold witness
  split_ifs with ahead
  · exact (max_eq_right ahead.le).symm
  · exact (max_eq_left (not_lt.mp ahead)).symm

end HlcClock

/-! Any sequence of calls. -/

inductive Call where
  | tick (physical : Fin (2 ^ 64))
  | observe (physical : Fin (2 ^ 64)) (remote : Hlc)
  | witness (remote : Hlc)

/- What a call makes known: a timestamp it was given or one it issued. -/
inductive Event where
  | observed (h : Hlc)
  | issued (h : Hlc)

namespace Event

def stamp : Event → Hlc
  | .observed h | .issued h => h

/- An issued timestamp is above every earlier one. -/
def Precedes (a b : Event) : Prop := ∀ h, b = .issued h → a.stamp < h

end Event

namespace HlcClock

def call (clock : HlcClock) : Call → HlcClock × List Event
  | .tick physical => ((clock.tick physical).1,[.issued (clock.tick physical).2])
  | .observe physical remote =>
      ((clock.observe physical remote).1,[.observed remote,.issued (clock.observe physical remote).2])
  | .witness remote => (clock.witness remote,[.observed remote])

def events (clock : HlcClock) : List Call → List Event
  | [] => []
  | c :: rest => (clock.call c).2 ++ (clock.call c).1.events rest

/- The clock once the calls have been made. -/
def after (clock : HlcClock) (calls : List Call) : HlcClock := calls.foldl (fun clock c => (clock.call c).1) clock

/- Every issued timestamp is above all that were issued or observed before it, and above the
one the clock resumed from. -/
def Monotonic (clock : HlcClock) (calls : List Call) : Prop :=
  (.observed clock.last :: clock.events calls).Pairwise Event.Precedes

/- No timestamp is asked for while the highest one known is the last there is. -/
def Room (clock : HlcClock) : List Call → Prop
  | [] => True
  | c :: rest =>
      (match c with
        | .tick _ => clock.last ≠ .max
        | .observe _ remote => Max.max clock.last remote ≠ .max
        | .witness _ => True) ∧ (clock.call c).1.Room rest

instance decidableRoom : (clock : HlcClock) → (calls : List Call) → Decidable (Room clock calls)
  | _, [] => isTrue trivial
  | clock, .tick physical :: rest =>
      @instDecidableAnd (clock.last ≠ .max) _ inferInstance (decidableRoom (clock.call (.tick physical)).1 rest)
  | clock, .observe physical remote :: rest =>
      @instDecidableAnd (Max.max clock.last remote ≠ .max) _ inferInstance
        (decidableRoom (clock.call (.observe physical remote)).1 rest)
  | clock, .witness remote :: rest =>
      @instDecidableAnd True _ inferInstance (decidableRoom (clock.call (.witness remote)).1 rest)

theorem precedesMono {a b : Event} {later : List Event} (le : a.stamp ≤ b.stamp)
    (all : ∀ e ∈ later, b.Precedes e) : ∀ e ∈ later, a.Precedes e :=
  fun e member h issued => le.trans_lt (all e member h issued)

theorem precedesObserved {a : Event} (h : Hlc) : a.Precedes (.observed h) := nofun

theorem precedesIssued {a : Event} {h : Hlc} : a.Precedes (.issued h) ↔ a.stamp < h :=
  ⟨fun before => before h rfl,fun below x same => by cases same; exact below⟩

/- Only the highest of the timestamps known so far matters to the rest. -/
theorem pairwiseHead {a b : Event} {later : List Event} (same : a.stamp = b.stamp) :
    (a :: later).Pairwise Event.Precedes ↔ (b :: later).Pairwise Event.Precedes := by
  rw [List.pairwise_cons, List.pairwise_cons]
  exact and_congr_left fun _ => ⟨precedesMono same.ge,precedesMono same.le⟩

theorem monotonicTick {clock physical rest} : Monotonic clock (.tick physical :: rest) ↔
    clock.last < (clock.tick physical).2 ∧ Monotonic (clock.tick physical).1 rest := by
  have shape : clock.events (.tick physical :: rest) =
      .issued (clock.tick physical).2 :: (clock.tick physical).1.events rest := rfl
  have tail : Monotonic (clock.tick physical).1 rest ↔
      (.issued (clock.tick physical).2 :: (clock.tick physical).1.events rest).Pairwise Event.Precedes :=
    pairwiseHead rfl
  rw [tail, Monotonic, shape, List.pairwise_cons, List.forall_mem_cons, precedesIssued]
  constructor
  · exact fun law => ⟨law.1.1,law.2⟩
  · rintro ⟨below, law⟩
    exact ⟨⟨below,precedesMono (b := .issued (clock.tick physical).2) below.le (List.pairwise_cons.mp law).1⟩,law⟩

theorem monotonicObserve {clock physical remote rest} : Monotonic clock (.observe physical remote :: rest) ↔
    max clock.last remote < (clock.observe physical remote).2 ∧
      Monotonic (clock.observe physical remote).1 rest := by
  have shape : clock.events (.observe physical remote :: rest) =
      .observed remote :: .issued (clock.observe physical remote).2 ::
        (clock.observe physical remote).1.events rest := rfl
  have tail : Monotonic (clock.observe physical remote).1 rest ↔
      (.issued (clock.observe physical remote).2 :: (clock.observe physical remote).1.events rest).Pairwise
        Event.Precedes := pairwiseHead rfl
  rw [tail, Monotonic, shape, List.pairwise_cons, List.forall_mem_cons, List.forall_mem_cons, List.pairwise_cons,
    List.forall_mem_cons, precedesIssued, precedesIssued, max_lt_iff]
  constructor
  · rintro ⟨⟨_, below, _⟩, ⟨below', _⟩, law⟩
    exact ⟨⟨below,below'⟩,law⟩
  · rintro ⟨⟨below, below'⟩, law⟩
    have later {a : Event} (le : a.stamp ≤ (clock.observe physical remote).2) :=
      precedesMono (b := .issued (clock.observe physical remote).2) le (List.pairwise_cons.mp law).1
    exact ⟨⟨precedesObserved _,below,later below.le⟩,⟨below',later below'.le⟩,law⟩

theorem monotonicWitness {clock remote rest} : Monotonic clock (.witness remote :: rest) ↔
    Monotonic (clock.witness remote) rest := by
  have shape : clock.events (.witness remote :: rest) =
      .observed remote :: (clock.witness remote).events rest := rfl
  rw [Monotonic, Monotonic, shape, List.pairwise_cons, List.forall_mem_cons, List.pairwise_cons, List.pairwise_cons]
  have last := witnessLast clock remote
  constructor
  · rintro ⟨⟨_, own⟩, given, law⟩
    refine ⟨fun e member h issued => ?_,law⟩
    have highest : (clock.witness remote).last < h := by
      rw [last]
      exact max_lt (own e member h issued) (given e member h issued)
    exact highest
  · rintro ⟨law, rest⟩
    refine ⟨⟨precedesObserved _,precedesMono ?_ law⟩,precedesMono ?_ law,rest⟩
    · exact (le_max_left _ _).trans last.ge
    · exact (le_max_right _ _).trans last.ge

theorem monotonicIff (clock : HlcClock) (calls : List Call) : Monotonic clock calls ↔ Room clock calls := by
  induction calls generalizing clock with
  | nil => exact iff_of_true (List.pairwise_singleton _ _) trivial
  | cons c rest ih =>
      cases c with
      | tick physical => exact monotonicTick.trans (and_congr aboveStrict (ih _))
      | observe physical remote => exact monotonicObserve.trans (and_congr aboveStrict (ih _))
      | witness remote => exact monotonicWitness.trans ((ih _).trans ⟨fun law => ⟨trivial,law⟩,And.right⟩)

theorem roomAppend {clock : HlcClock} {calls more : List Call} :
    Room clock (calls ++ more) ↔ Room clock calls ∧ Room (clock.after calls) more := by
  induction calls generalizing clock with
  | nil => exact ⟨fun room => ⟨trivial,room⟩,And.right⟩
  | cons c rest ih =>
      have inner : Room (clock.call c).1 (rest ++ more) ↔
          Room (clock.call c).1 rest ∧ Room ((clock.call c).1.after rest) more := ih
      simp only [List.cons_append, Room, inner, and_assoc]
      rfl

/- With room, no call moves the clock back. -/
theorem afterLe {clock : HlcClock} {calls : List Call} (room : Room clock calls) :
    clock.last ≤ (clock.after calls).last := by
  induction calls generalizing clock with
  | nil => exact le_refl _
  | cons c rest ih =>
      refine le_trans ?_ (ih room.2)
      cases c with
      | tick physical => exact (aboveStrict.mpr room.1).le
      | observe physical remote => exact (le_max_left _ _).trans (aboveStrict.mpr room.1).le
      | witness remote => exact (le_max_left _ _).trans (witnessLast clock remote).ge

/- A peer's timestamp at the end of the range: the next one issued is below it. -/
theorem monotonicFails : ¬ Monotonic .new [.witness .max,.tick 0] := by
  rw [monotonicWitness, monotonicTick]
  exact fun law => absurd law.1 (by decide)

end HlcClock

/-! The stamps of an engine. -/

/- The timestamp of a write and the node that made it. -/
structure Stamp where
  hlc : Hlc
  node : Fin (2 ^ 128)

instance : LinearOrder Stamp := LinearOrder.lift' (fun s => toLex (s.hlc, s.node))
  fun x y same => by cases x; cases y; simpa using same

theorem stampLtIff {x y : Stamp} : x < y ↔ x.hlc < y.hlc ∨ x.hlc = y.hlc ∧ x.node < y.node :=
  Prod.Lex.toLex_lt_toLex

/- `next_stamp_above`: the second tick, if it comes to that, reads the time again. -/
def nextStampAbove (clock : HlcClock) (node : Fin (2 ^ 128)) (physical again : Fin (2 ^ 64))
    (floor : Option Stamp) : HlcClock × Stamp :=
  let (ticked, hlc) := clock.tick physical
  match floor with
  | none => (ticked,⟨hlc,node⟩)
  | some f =>
      if (⟨hlc,node⟩ : Stamp) ≤ f then
        let (moved, hlc) := (ticked.witness f.hlc).tick again
        (moved,⟨hlc,node⟩)
      else (ticked,⟨hlc,node⟩)

/- A stamp minted above a floor is above it, unless the floor is the last timestamp. -/
theorem nextStampAboveFloor {clock node physical again f} (room : f.hlc ≠ .max) :
    f < (nextStampAbove clock node physical again (some f)).2 := by
  simp only [nextStampAbove]
  split_ifs with low
  · have last := HlcClock.witnessLast (clock.tick physical).1 f.hlc
    have below : (clock.tick physical).1.last ≤ f.hlc := by
      rcases eq_or_lt_of_le low with same | lower
      · exact (congrArg Stamp.hlc same).le
      · rcases stampLtIff.mp lower with less | equal
        · exact less.le
        · exact equal.1.le
    rw [max_eq_right below] at last
    have strict : (HlcClock.witness (clock.tick physical).1 f.hlc).last <
        ((HlcClock.witness (clock.tick physical).1 f.hlc).tick again).2 :=
      HlcClock.aboveStrict.mpr (by rwa [last])
    rw [last] at strict
    exact stampLtIff.mpr (Or.inl strict)
  · exact not_le.mp low

end Kimmy
