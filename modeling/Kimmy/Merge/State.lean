import Kimmy.Merge.Types
import Mathlib.Order.WithBot

/-!
The merge state and its read side (`merge_state/state.rs`), in a production build: the
mutation switches stand at their correct values, and what only a mutant reads (`gens`, the
version vector inside a generation) is not kept. An `i128` total is an integer; every place
that adds two of them saturates.
-/
namespace Kimmy.Merge

/- The newest HLC seen per writer. -/
abbrev Vv := SortedMap WriterId Hlc

/- Generations are ordered with `None` first. -/
def ofGeneration (g : Option MStamp) : WithBot MStamp := g

theorem ofGenerationInj {g h} : ofGeneration g = ofGeneration h ↔ g = h := Iff.rfl

/- Key of an observed or counted slot. -/
structure ObsKey where
  life : MStamp
  writer : WriterId
  generation : Option MStamp

instance : LinearOrder ObsKey :=
  LinearOrder.lift' (fun k => toLex (k.life, toLex (k.writer, ofGeneration k.generation)))
    fun x y same => by cases x; cases y; simpa [ofGenerationInj] using same

inductive LifeKind where
  | insert
  | upsert
  deriving DecidableEq

/- One creation of the document: the deletes its creator held, the field order of the
creating write, and its kind. -/
structure Life where
  seen : Finset MStamp
  order : List String
  kind : LifeKind
  deriving DecidableEq

/- The generation a base starts or belongs to, with the totals its starter had seen. -/
structure Gen where
  stamp : MStamp
  seen : SortedMap ObsKey Int
  deriving DecidableEq

/- A register cell. `obs` keeps, for each slot its writer counted, the slot's stamp and
total at that time. -/
structure Reg where
  stamp : MStamp
  value : Value
  obs : SortedMap ObsKey (MStamp × Int)
  generation : Option Gen
  soi : Bool
  deriving DecidableEq

def maxTotal : Int := 2 ^ 119

structure Slot where
  stamp : MStamp
  total : Int
  deriving DecidableEq

structure CellKey where
  life : MStamp
  path : String

instance : LinearOrder CellKey := LinearOrder.lift' (fun k => toLex (k.life, k.path))
  fun x y same => by cases x; cases y; simpa using same

structure SlotKey where
  life : MStamp
  path : String
  writer : WriterId
  generation : Option MStamp

instance : LinearOrder SlotKey :=
  LinearOrder.lift' (fun k => toLex (k.life, toLex (k.path,
      toLex (k.writer, ofGeneration k.generation))))
    fun x y same => by cases x; cases y; simpa [ofGenerationInj] using same

def SlotKey.obs (k : SlotKey) : ObsKey := ⟨k.life,k.writer,k.generation⟩

@[ext] structure State where
  lives : SortedMap MStamp Life
  deletes : SortedMap MStamp Vv
  dead : Finset MStamp
  regs : SortedMap CellKey Reg
  slots : SortedMap SlotKey Slot
  vv : Vv
  losses : SortedMap LossKey LossValue
  deriving DecidableEq

/- `MergeState::default`. -/
def State.empty : State := ⟨.empty,.empty,∅,.empty,.empty,.empty,.empty⟩

/- The integer bound is never negative: `JoinOptions::new` refuses one. -/
structure JoinOptions where
  retention : Fin (2 ^ 64)
  intBound : Int64
  nonneg : 0 ≤ intBound.toInt

/- `JoinOptions::default`: a retention of 10^9 and the Int64 bound. -/
def JoinOptions.default : JoinOptions := ⟨1000000000,9223372036854775807,by decide⟩

/- `i128` arithmetic that saturates. -/
def saturate (x : Int) : Int := max (-2 ^ 127) (min x (2 ^ 127 - 1))

def saturatingAdd (x y : Int) : Int := saturate (x + y)

def saturatingSub (x y : Int) : Int := saturate (x - y)

/- Is `stamp` covered by `vv`? -/
def cov (vv : Vv) (stamp : MStamp) : Bool := stamp.hlc ≤ (vv.get stamp.writer).getD .zero

/- `h - ret`, a negative difference being below every stamp. -/
def subRet (h : Hlc) (ret : Fin (2 ^ 64)) : Hlc :=
  if h.wallMs < ret then .zero else ⟨h.wallMs - ret,h.counter⟩

/- The rule by which a slot's generation counts under the winner's: the same one or a newer. -/
def genCounts (generation winner : Option MStamp) : Bool :=
  generation = winner || match generation, winner with
    | some _, none => true
    | some g, some w => w < g
    | none, _ => false

theorem subRetMono {x y : Hlc} (le : x ≤ y) (ret) : subRet x ret ≤ subRet y ret := by
  unfold subRet
  have walls : x.wallMs ≤ y.wallMs := by
    rcases Prod.Lex.toLex_le_toLex.mp le with below | ⟨same, _⟩
    · exact below.le
    · exact same.le
  split_ifs with cutX cutY cutY
  · exact le_rfl
  · exact hlcZeroLe _
  · exact absurd (walls.trans_lt cutY) cutX
  · refine Prod.Lex.toLex_le_toLex.mpr ?_
    rcases Prod.Lex.toLex_le_toLex.mp le with below | ⟨same, counter⟩
    · left
      simp only [Fin.lt_def] at below cutX cutY ⊢
      rw [Fin.sub_val_of_le (not_lt.mp cutX), Fin.sub_val_of_le (not_lt.mp cutY)]
      omega
    · exact Or.inr ⟨congrArg (· - ret) same,counter⟩

theorem subRetZero {h : Hlc} {ret} (short : h.wallMs < ret) : subRet h ret = .zero := if_pos short

theorem subRetOfZero (ret) : subRet .zero ret = .zero := by
  unfold subRet
  split_ifs with short
  · rfl
  · have none : ret = 0 := le_antisymm (not_lt.mp short) (Fin.zero_le ret)
    rw [none]
    rfl

theorem covIff {vv : Vv} {stamp} : cov vv stamp = true ↔ stamp.hlc ≤ (vv.get stamp.writer).getD .zero := by
  simp [cov]

namespace State

def maxVv (s : State) : Hlc := s.vv.values.foldl max .zero

def horizon (s : State) (o : JoinOptions) : Hlc := subRet s.maxVv o.retention

/- A life is alive when it is not dead and its creator held every delete inside retention. -/
def aliveSet (s : State) (ret : Fin (2 ^ 64)) : Finset MStamp :=
  ((s.lives.entries.filter fun x =>
    decide (x.1 ∉ s.dead) &&
      s.deletes.entries.all fun d => decide (d.1.hlc < subRet x.1.hlc ret) || decide (d.1 ∈ x.2.seen)).map
    Prod.fst).toFinset

def alive (s : State) (o : JoinOptions) : Finset MStamp := s.aliveSet o.retention

def isKind (s : State) (kind : LifeKind) (life : MStamp) : Bool :=
  (s.lives.get life).any fun l => l.kind = kind

/- The `$setOnInsert` cells of an upsert-created life are dropped while an explicit insert
is alive. -/
def suppressed (s : State) (life : MStamp) (r : Reg) (al : Finset MStamp) : Bool :=
  s.isKind .upsert life && r.soi && decide (∃ a ∈ al, s.isKind .insert a = true)

def candidate (s : State) (p : String) (al : Finset MStamp) (k : CellKey) (r : Reg) : Bool :=
  k.path = p && decide (k.life ∈ al) && !s.suppressed k.life r al

def winnerIn (s : State) (p : String) (al : Finset MStamp) : Option Reg :=
  (s.regs.entries.foldl (fun best x =>
    if s.candidate p al x.1 x.2 && best.all fun b => decide (b.2.stamp < x.2.stamp) then some x
    else best) none).map Prod.snd

/- The winning register of `p` among the alive lives. -/
def winner (s : State) (p : String) (o : JoinOptions) : Option Reg :=
  s.winnerIn p (s.alive o)

def genIn (win : Option Reg) : Option Gen := win.bind Reg.generation

def genOf (s : State) (p : String) (o : JoinOptions) : Option Gen := genIn (s.winner p o)

def countedIn (s : State) (p : String) (al : Finset MStamp) (win : Option Reg) : SortedMap ObsKey Slot :=
  let g := (genIn win).map Gen.stamp
  .collect ((s.slots.entries.filter fun x =>
    x.1.path = p && decide (x.1.life ∈ al) && genCounts x.1.generation g).map
    fun x => (x.1.obs, x.2))

/- Slots of the winning base's generation and of newer generations. -/
def counted (s : State) (p : String) (o : JoinOptions) : SortedMap ObsKey Slot :=
  s.countedIn p (s.alive o) (s.winner p o)

/- The read of a counter over a base: the part of each slot the base had not counted. A slot
that has not moved since the base saw it adds nothing, not even presence. -/
def addSlot (obs : ObsKey → Option (MStamp × Int)) (acc : Int × Bool) (x : ObsKey × Slot) : Int × Bool :=
  let ob := obs x.1
  let d := saturatingSub x.2.total ((ob.map Prod.snd).getD 0)
  if d ≠ 0 || ob.all fun seen => decide (seen.1 ≠ x.2.stamp) then (saturatingAdd acc.1 d,true) else acc

def clampTo (b x : Int) : Int := max (-b - 1) (min x b)

def valueIn (s : State) (p : String) (al : Finset MStamp) (o : JoinOptions) : Option Value :=
  let win := s.winnerIn p al
  match win with
  | some w => if w.value.isNumeric then counter win else some w.value
  | none => counter win
where
  counter (win : Option Reg) : Option Value :=
    let base := win.bind fun w => match w.value with
      | .int i => some i.toInt
      | _ => none
    let obs k := win.bind fun w => w.obs.get k
    let read := (s.countedIn p al win).entries.foldl (addSlot obs) (base.getD 0,base.isSome)
    if read.2 then some (.int (.ofInt (clampTo o.intBound.toInt read.1))) else none

/- The visible value of one path. -/
def value (s : State) (p : String) (o : JoinOptions) : Option Value := s.valueIn p (s.alive o) o

/- The visible document, `none` when no life is alive. -/
def visible (s : State) (o : JoinOptions) : Option (SortedMap String Value) :=
  let al := s.alive o
  if al = ∅ then none
  else
    let cells := s.regs.entries.filter fun x =>
      decide (x.1.life ∈ al) && !s.suppressed x.1.life x.2 al
    let counters := s.slots.entries.filter fun x => decide (x.1.life ∈ al)
    let paths := (cells.map (·.1.path) ++ counters.map (·.1.path)).toFinset
    some (.collect ((SortedMap.elements paths).filterMap fun p =>
      ((s.valueIn p al o).filter fun v => decide (v ≠ .null)).map fun v => (p,v)))

/-! Version vectors, horizons and their order. -/

theorem foldMaxLe {xs : List Hlc} {a b : Hlc} : xs.foldl max a ≤ b ↔ a ≤ b ∧ ∀ x ∈ xs, x ≤ b := by
  induction xs generalizing a with
  | nil => simp
  | cons x xs ih => simp [ih, and_assoc]

theorem maxVvLe {s : State} {b} : s.maxVv ≤ b ↔ ∀ w h, s.vv.get w = some h → h ≤ b := by
  rw [maxVv, foldMaxLe]
  constructor
  · exact fun bound w h held => bound.2 h (SortedMap.memValues.mpr ⟨w,held⟩)
  · intro bound
    refine ⟨hlcZeroLe b,fun h member => ?_⟩
    obtain ⟨w, held⟩ := SortedMap.memValues.mp member
    exact bound w h held

theorem leMaxVv {s : State} {w h} (held : s.vv.get w = some h) : h ≤ s.maxVv :=
  maxVvLe.mp le_rfl w h held

theorem foldMaxCases (xs : List Hlc) (a : Hlc) : xs.foldl max a = a ∨ xs.foldl max a ∈ xs := by
  induction xs generalizing a with
  | nil => exact Or.inl rfl
  | cons x xs ih =>
      rcases ih (max a x) with same | inside
      · rw [List.foldl_cons, same]
        rcases max_choice a x with here | here
        · exact Or.inl here
        · rw [here]
          exact Or.inr List.mem_cons_self
      · exact Or.inr (List.mem_cons_of_mem _ inside)

theorem maxVvCases (s : State) : s.maxVv = .zero ∨ ∃ w, s.vv.get w = some s.maxVv :=
  (foldMaxCases s.vv.values .zero).imp id SortedMap.memValues.mp

/-! What the read side computes, entry by entry. -/

theorem memAlive {s : State} {ret l} : l ∈ s.aliveSet ret ↔ ∃ v, s.lives.get l = some v ∧ l ∉ s.dead ∧
    ∀ d vv, s.deletes.get d = some vv → d.hlc < subRet l.hlc ret ∨ d ∈ v.seen := by
  simp only [aliveSet, List.mem_toFinset, List.mem_map, List.mem_filter, SortedMap.memEntry,
    Bool.and_eq_true, decide_eq_true_eq, List.all_eq_true, Bool.or_eq_true, Prod.exists, Prod.forall]
  constructor
  · rintro ⟨_, v, ⟨held, kept, judged⟩, rfl⟩
    exact ⟨v,held,kept,judged⟩
  · rintro ⟨v, held, kept, judged⟩
    exact ⟨l,v,⟨held,kept,judged⟩,rfl⟩

theorem aliveHeld {s : State} {ret l} (alive : l ∈ s.aliveSet ret) : ∃ v, s.lives.get l = some v :=
  (memAlive.mp alive).imp fun _ facts => facts.1

theorem isKindIff {s : State} {kind l} :
    s.isKind kind l = true ↔ ∃ v, s.lives.get l = some v ∧ v.kind = kind := by
  cases held : s.lives.get l <;> simp [isKind, held]

theorem suppressedIff {s : State} {l r al} : s.suppressed l r al = true ↔
    s.isKind .upsert l = true ∧ r.soi = true ∧ ∃ a ∈ al, s.isKind .insert a = true := by
  simp [suppressed, and_assoc]

theorem candidateIff {s : State} {p al k r} : s.candidate p al k r = true ↔
    k.path = p ∧ k.life ∈ al ∧ s.suppressed k.life r al = false := by
  simp [candidate, and_assoc]

/- A scan that keeps the entry with the highest stamp. -/
theorem scanNewest {α : Type} (stamp : α → MStamp) (ok : α → Bool) : ∀ (xs : List α) (best : Option α),
    match xs.foldl (fun best x =>
      if ok x && best.all fun b => decide (stamp b < stamp x) then some x else best) best with
    | none => best = none ∧ ∀ x ∈ xs, ok x = false
    | some y => (best = some y ∨ y ∈ xs ∧ ok y = true) ∧ (∀ b, best = some b → stamp b ≤ stamp y) ∧
        ∀ x ∈ xs, ok x = true → stamp x ≤ stamp y
  | [], best => by cases best <;> simp
  | x :: xs, best => by
      have inner := scanNewest stamp ok xs
        (if ok x && best.all fun b => decide (stamp b < stamp x) then some x else best)
      rw [List.foldl_cons]
      revert inner
      cases xs.foldl _ _ with
      | none =>
          rintro ⟨start, rest⟩
          split_ifs at start with taken
          subst start
          simp only [Option.all_none, Bool.and_true, Bool.not_eq_true] at taken
          exact ⟨rfl,fun y member => (List.mem_cons.mp member).elim (fun here => here ▸ taken) (rest y)⟩
      | some y =>
          rintro ⟨source, above, rest⟩
          split_ifs at source above with taken
          · simp only [Bool.and_eq_true, Option.all_eq_true, decide_eq_true_eq] at taken
            have top : stamp x ≤ stamp y := above x rfl
            refine ⟨?_,fun b held => (taken.2 b held).le.trans top,fun z member => ?_⟩
            · rcases source with here | ⟨member, fine⟩
              · cases here
                exact Or.inr ⟨List.mem_cons_self,taken.1⟩
              · exact Or.inr ⟨List.mem_cons_of_mem _ member,fine⟩
            · rcases List.mem_cons.mp member with rfl | later
              · exact fun _ => top
              · exact rest z later
          · refine ⟨source.imp id fun found => ⟨List.mem_cons_of_mem _ found.1,found.2⟩,above,fun z member => ?_⟩
            rcases List.mem_cons.mp member with rfl | later
            · intro fine
              simp only [fine, Bool.true_and, Option.all_eq_true, decide_eq_true_eq, not_forall,
                not_lt] at taken
              obtain ⟨b, held, least⟩ := taken
              exact least.trans (above b held)
            · exact rest z later

theorem winnerNone {s : State} {p al} : s.winnerIn p al = none ↔
    ∀ k r, s.regs.get k = some r → s.candidate p al k r = false := by
  have scan := scanNewest (fun x : CellKey × Reg => x.2.stamp)
    (fun x => s.candidate p al x.1 x.2) s.regs.entries none
  unfold winnerIn
  revert scan
  cases s.regs.entries.foldl _ none with
  | none => simp [SortedMap.memEntry]
  | some y =>
      rintro ⟨source, _, _⟩
      simp only [reduceCtorEq, false_or, SortedMap.memEntry] at source
      simp only [Option.map_some, reduceCtorEq, false_iff]
      exact fun none => absurd source.2 (by simp [none y.1 y.2 source.1])

theorem winnerSome {s : State} {p al r} (won : s.winnerIn p al = some r) :
    (∃ k, s.regs.get k = some r ∧ s.candidate p al k r = true) ∧
      ∀ k x, s.regs.get k = some x → s.candidate p al k x = true → x.stamp ≤ r.stamp := by
  have scan := scanNewest (fun x : CellKey × Reg => x.2.stamp)
    (fun x => s.candidate p al x.1 x.2) s.regs.entries none
  unfold winnerIn at won
  revert scan won
  cases s.regs.entries.foldl _ none with
  | none => exact fun won => by simp at won
  | some y =>
      intro won
      cases won
      rintro ⟨source, _, rest⟩
      simp only [reduceCtorEq, false_or, SortedMap.memEntry] at source
      exact ⟨⟨y.1,source⟩,fun k x held => rest (k,x) (SortedMap.memEntries.mpr held)⟩

/- The winner of a path depends on the registers of that path alone. -/
theorem winnerCongr {s t : State} {p al} (lives : s.lives = t.lives)
    (regs : ∀ k, k.path = p → s.regs.get k = t.regs.get k) : s.winnerIn p al = t.winnerIn p al := by
  have scan (u : State) : u.winnerIn p al = ((u.regs.retain fun k _ => k.path = p).entries.foldl (fun best x =>
      if u.candidate p al x.1 x.2 && best.all fun b => decide (b.2.stamp < x.2.stamp) then some x
      else best) none).map Prod.snd := by
    simp only [winnerIn, SortedMap.retain, List.foldl_filter]
    congr 2
    funext best x
    by_cases here : x.1.path = p
    · simp [here]
    · simp [here, candidate]
  have same : s.regs.retain (fun k _ => k.path = p) = t.regs.retain fun k _ => k.path = p := by
    refine SortedMap.ext fun k => ?_
    rw [SortedMap.getRetain, SortedMap.getRetain]
    by_cases here : k.path = p
    · rw [regs k here]
    · cases s.regs.get k <;> cases t.regs.get k <;> simp [here]
  have kinds (kind l) : s.isKind kind l = t.isKind kind l := by simp only [isKind, lives]
  have judged (k r) : s.candidate p al k r = t.candidate p al k r := by
    rw [Bool.eq_iff_iff, candidateIff, candidateIff, ←Bool.not_eq_true, ←Bool.not_eq_true, suppressedIff,
      suppressedIff]
    simp only [kinds]
  rw [scan, scan, same]
  simp only [judged]

theorem countedGet {s : State} {p al win k} : (s.countedIn p al win).get k =
    (s.slots.get ⟨k.life,p,k.writer,k.generation⟩).filter fun _ =>
      decide (k.life ∈ al) && genCounts k.generation ((genIn win).map Gen.stamp) := by
  have member (v) : (k,v) ∈ ((s.slots.entries.filter fun x =>
      x.1.path = p && decide (x.1.life ∈ al) && genCounts x.1.generation ((genIn win).map Gen.stamp)).map
      fun x => (x.1.obs,x.2)) ↔ s.slots.get ⟨k.life,p,k.writer,k.generation⟩ = some v ∧
        (decide (k.life ∈ al) && genCounts k.generation ((genIn win).map Gen.stamp)) = true := by
    simp only [List.mem_map, List.mem_filter, SortedMap.memEntry, Bool.and_eq_true, decide_eq_true_eq,
      Prod.exists, Prod.mk.injEq]
    constructor
    · rintro ⟨⟨l, q, w, g⟩, _, ⟨held, ⟨rfl, alive⟩, counts⟩, rfl, rfl⟩
      exact ⟨held,alive,counts⟩
    · rintro ⟨held, alive, counts⟩
      exact ⟨⟨k.life,p,k.writer,k.generation⟩,v,⟨held,⟨rfl,alive⟩,counts⟩,rfl,rfl⟩
  apply Option.ext
  intro v
  rw [Option.filter_eq_some_iff, countedIn, SortedMap.collectIff, member]
  intro x y first second
  have same := ((member x).mp first).1
  rw [((member y).mp second).1] at same
  exact (Option.some.inj same).symm

end State
end Kimmy.Merge
