import Kimmy.Runs
import Kimmy.Traverse
import Kimmy.Window.Slides

/-!
Each slider's state stands for the run of documents it holds. A document that leaves undoes what it did on entering:
a queue loses its head, a candidate its place, a count its one, an exact sum its term.
-/
namespace Kimmy.Window
open Decimal.Arith Decimal CanonicalCmp KeyEnc KeyOrder ByteOrder Store

section
variable {δ β : Type}

/-! Values by position. -/

/- What is read of some documents, each with its position. -/
def filed (read : δ → Option β) : Nat → List δ → List (Nat × β)
  | _, [] => []
  | i, doc :: rest => (read doc).toList.map (i,·) ++ filed read (i + 1) rest

attribute [local simp] filed

theorem filedSnoc (read : δ → Option β) (doc : δ) : ∀ (start : Nat) (docs : List δ),
    filed read start (docs ++ [doc]) = filed read start docs ++ (read doc).toList.map (start + docs.length,·) := by
  intro start docs
  induction docs generalizing start with
  | nil => simp
  | cons first rest ih =>
    have place : start + 1 + rest.length = start + (first :: rest).length := by
      rw [List.length_cons]
      omega
    rw [List.cons_append, filed, filed, ih, List.append_assoc, place]

theorem filedValues (read : δ → Option β) : ∀ (start : Nat) (docs : List δ),
    (filed read start docs).map Prod.snd = docs.filterMap read := by
  intro start docs
  induction docs generalizing start with
  | nil => rfl
  | cons doc rest ih =>
    rw [filed, List.map_append, ih]
    cases found : read doc with
    | none => simp [found]
    | some v => simp [found]

theorem filedFrom {read : δ → Option β} : ∀ {start : Nat} {docs : List δ}, ∀ x ∈ filed read start docs, start ≤ x.1 := by
  intro start docs
  induction docs generalizing start with
  | nil => nofun
  | cons doc rest ih =>
    intro x member
    rcases List.mem_append.mp member with here | later
    · obtain ⟨v,_,rfl⟩ := List.mem_map.mp here
      exact le_rfl
    · exact (Nat.le_succ start).trans (ih x later)

theorem filedSorted {read : δ → Option β} : ∀ {start : Nat} {docs : List δ},
    (filed read start docs).Pairwise fun x y => x.1 < y.1 := by
  intro start docs
  induction docs generalizing start with
  | nil => exact List.Pairwise.nil
  | cons doc rest ih =>
    refine List.pairwise_append.mpr ⟨?_,ih,fun x here y later => ?_⟩
    · cases read doc with
      | none => exact List.Pairwise.nil
      | some v => exact List.pairwise_singleton ..
    · obtain ⟨v,_,rfl⟩ := List.mem_map.mp here
      exact filedFrom y later

theorem popAway {i : Nat} {queue : List (Nat × β)} (past : ∀ x ∈ queue, i < x.1) : popAt i queue = queue := by
  cases queue with
  | nil => rfl
  | cons x rest =>
    have apart : x.1 ≠ i := (past x List.mem_cons_self).ne'
    rw [popAt, if_neg apart]

theorem filedPop (read : δ → Option β) (start : Nat) (doc : δ) (rest : List δ) :
    popAt start (filed read start (doc :: rest)) = filed read (start + 1) rest := by
  rw [filed]
  cases read doc with
  | none => exact popAway fun x member => filedFrom x member
  | some v => exact if_pos rfl

/-! Queues. -/

/- What every document of a run must give for the stage not to fail. -/
def Readable (read : δ → Option β) (docs : List δ) : Prop := ∀ doc ∈ docs, (read doc).isSome = true

theorem Readable.snoc {read : δ → Option β} {docs : List δ} (readable : Readable read docs) {doc : δ}
    (good : (read doc).isSome = true) : Readable read (docs ++ [doc]) := by
  intro other member
  rcases List.mem_append.mp member with before | last
  · exact readable other before
  · rw [List.mem_singleton.mp last]
    exact good

structure FiledRun (read : δ → Option (Option β)) (docs : List δ) (queue : List (Nat × β)) (span : Nat × Nat) : Prop where
  readable : Readable read (slice docs span)
  queue : queue = filed (fun doc => (read doc).join) span.1 (slice docs span)

theorem FiledRun.add {read : δ → Option (Option β)} {docs : List δ} {queue : List (Nat × β)} {lo hi : Nat} {doc : δ}
    (run : FiledRun read docs queue (lo,hi)) (order : lo ≤ hi) (found : docs[hi]? = some doc) {v : Option β}
    (is : read doc = some v) : FiledRun read docs (queue ++ v.toList.map (hi,·)) (lo,hi + 1) := by
  have whole := sliceSnoc order found
  obtain ⟨short,_⟩ := List.getElem?_eq_some_iff.mp found
  have place : lo + (slice docs (lo,hi)).length = hi := by
    rw [sliceLength (le_of_lt short)]
    exact Nat.add_sub_cancel' order
  refine ⟨?_,?_⟩
  · rw [whole]
    exact run.readable.snoc (by rw [is]; rfl)
  · rw [whole, filedSnoc, ← run.queue, place, is]
    rfl

theorem FiledRun.remove {read : δ → Option (Option β)} {docs : List δ} {queue : List (Nat × β)} {lo hi : Nat}
    (run : FiledRun read docs queue (lo,hi)) (order : lo < hi) (inside : hi ≤ docs.length) :
    FiledRun read docs (popAt lo queue) (lo + 1,hi) := by
  obtain ⟨doc,found⟩ : ∃ doc, docs[lo]? = some doc := ⟨_,List.getElem?_eq_getElem (by omega)⟩
  have whole := sliceCons order found
  refine ⟨fun other member => ?_,?_⟩
  · refine run.readable other ?_
    rw [whole]
    exact List.mem_cons_of_mem doc member
  · rw [run.queue, whole]
    exact filedPop ..

theorem FiledRun.empty (read : δ → Option (Option β)) (docs : List δ) (i : Nat) : FiledRun read docs [] (i,i) := by
  refine ⟨?_,?_⟩
  · rw [sliceEmpty]
    nofun
  · rw [sliceEmpty]
    rfl

theorem bindFound {γ : Type} {docs : List δ} {i : Nat} {doc : δ} (found : docs[i]? = some doc) (f : δ → Option γ) :
    docs[i]?.bind f = f doc := by
  rw [found]
  rfl

def queueFaithful (e : Operand δ) (kind : Queue) : (queueSlider e kind).Faithful where
  reads doc := (kind.read e doc).isSome
  Holds := FiledRun (kind.read e)
  start docs := FiledRun.empty _ docs 0
  starts := rfl
  reset docs _ i := FiledRun.empty _ docs i
  read run := run.readable
  add {docs st lo hi doc} run order found := by
    have reading := bindFound found (kind.read e)
    cases is : kind.read e doc with
    | none =>
      rw [is] at reading
      simp [queueSlider, reading]
    | some v =>
      rw [is] at reading
      refine ⟨_,?_,run.add order found is⟩
      simp only [queueSlider, reading, Option.bind_eq_bind, Option.bind_some]
  remove run order inside := ⟨_,rfl,run.remove order inside⟩
  value {docs st span others other place} run second same := by
    have values : st.map Prod.snd = other.map Prod.snd := by
      rw [run.queue, second.queue, filedValues, filedValues, same]
    simp only [queueSlider, values]

/-! The least and the greatest. -/

/- Those that no later one beats. -/
def survivors (beaten : β → β → Bool) : List β → List β
  | [] => []
  | x :: rest => if rest.any (beaten x) then survivors beaten rest else x :: survivors beaten rest

theorem survivorsMem {beaten : β → β → Bool} {y : β} : ∀ {list : List β}, y ∈ survivors beaten list → y ∈ list := by
  intro list
  induction list with
  | nil => exact id
  | cons x rest ih =>
    intro member
    unfold survivors at member
    split_ifs at member
    · exact List.mem_cons_of_mem x (ih member)
    · rcases List.mem_cons.mp member with rfl | later
      · exact List.mem_cons_self
      · exact List.mem_cons_of_mem x (ih later)

/- None of them is beaten by one after it. -/
theorem survivorsStand {beaten : β → β → Bool} : ∀ {list : List β},
    (survivors beaten list).Pairwise fun x y => beaten x y = false := by
  intro list
  induction list with
  | nil => exact List.Pairwise.nil
  | cons x rest ih =>
    unfold survivors
    split_ifs with lost
    · exact ih
    · refine List.pairwise_cons.mpr ⟨fun y member => ?_,ih⟩
      rw [List.any_eq_true, not_exists] at lost
      exact Bool.eq_false_iff.mpr fun is => lost y ⟨survivorsMem member,is⟩

theorem survivorsSnoc {beaten : β → β → Bool} (y : β) : ∀ {list : List β},
    survivors beaten (list ++ [y]) = (survivors beaten list).filter (fun x => !beaten x y) ++ [y] := by
  intro list
  induction list with
  | nil => rfl
  | cons x rest ih =>
    rw [List.cons_append, survivors, survivors, List.any_append, ih]
    cases lost : rest.any (beaten x) with
    | true => simp
    | false => cases last : beaten x y <;> simp [last]

/- From the back, where the ones that stand before another stand with it. -/
theorem dropBeaten {beaten : β → β → Bool} {y : β} (carries : ∀ x z, beaten x z = false → beaten z y = false → beaten x y = false) :
    ∀ {list : List β}, (list.Pairwise fun x z => beaten x z = false) →
      list.rdropWhile (beaten · y) = list.filter fun x => !beaten x y := by
  intro list
  induction list using List.reverseRecOn with
  | nil => exact fun _ => rfl
  | append_singleton rest z ih =>
    intro stand
    obtain ⟨before,_,across⟩ := List.pairwise_append.mp stand
    rw [List.rdropWhile_concat, List.filter_append]
    cases lost : beaten z y with
    | true => simp [lost, ih before]
    | false =>
      have all : rest.filter (fun x => !beaten x y) = rest := by
        refine List.filter_eq_self.mpr fun x member => ?_
        rw [carries x z (across x member z (List.mem_singleton_self z)) lost]
        rfl
      simp [lost, all]

theorem survivorsMap {γ : Type} {beaten : β → β → Bool} {other : γ → γ → Bool} {f : β → γ}
    (keeps : ∀ x y, other (f x) (f y) = beaten x y) : ∀ (list : List β),
    (survivors beaten list).map f = survivors other (list.map f) := by
  intro list
  induction list with
  | nil => rfl
  | cons x rest ih =>
    have any : (rest.map f).any (other (f x)) = rest.any (beaten x) := by
      rw [List.any_map]
      exact congrArg _ (funext fun y => keeps x y)
    rw [List.map_cons, survivors, survivors, any, ← ih]
    split_ifs
    · rfl
    · rfl

theorem beatsCarries (max : Bool) (x y z : Bson) (first : beats max z x = false) (second : beats max y z = false) :
    beats max y x = false := by
  unfold beats at *
  cases max with
  | true =>
    simp only [if_true, Bool.eq_false_iff] at first second ⊢
    intro low
    refine first (cmpTrans x y z low ?_)
    have turned := cmpSwap z y
    cases is : canonicalCmp z y with
    | lt => rw [is] at second; exact absurd rfl second
    | eq => rw [is] at second; exact absurd rfl second
    | gt =>
      rw [is] at turned
      rw [turned]
      rfl
  | false =>
    have low {a b : Bson} (is : (canonicalCmp a b).isGT = false) : (canonicalCmp a b).isLE = true := by
      cases order : canonicalCmp a b <;> simp_all
    simp only [Bool.false_eq_true, if_false] at first second ⊢
    have through := cmpTrans x z y (low first) (low second)
    cases order : canonicalCmp x y <;> simp_all

/- A candidate of the window: any value but null. -/
def candidate (e : Operand δ) (doc : δ) : Option (Option Bson) :=
  (e.eval doc).map fun v => if v = .null then none else some v

/- By position and value, whether the second leaves the first no chance. -/
def beatenBy (max : Bool) (x y : Nat × Bson) : Bool := beats max y.2 x.2

theorem survivorsValues (max : Bool) (list : List (Nat × Bson)) :
    (survivors (beatenBy max) list).map Prod.snd = survivors (fun a b => beats max b a) (list.map Prod.snd) :=
  @survivorsMap (Nat × Bson) Bson (beatenBy max) (fun a b => beats max b a) Prod.snd (fun _ _ => rfl) list

structure ExtremeRun (e : Operand δ) (max : Bool) (docs : List δ) (deque : List (Nat × Bson)) (span : Nat × Nat) : Prop where
  readable : Readable (candidate e) (slice docs span)
  deque : deque = survivors (beatenBy max) (filed (fun doc => (candidate e doc).join) span.1 (slice docs span))

theorem survivorsPop {max : Bool} {i : Nat} {x : Nat × Bson} {rest : List (Nat × Bson)} (past : ∀ y ∈ rest, i < y.1)
    (here : x.1 = i) : popAt i (survivors (beatenBy max) (x :: rest)) = survivors (beatenBy max) rest := by
  rw [survivors.eq_2]
  split_ifs
  · exact popAway fun y member => past y (survivorsMem member)
  · rw [popAt, if_pos here]

def extremeFaithful (e : Operand δ) (max : Bool) : (extremeSlider e max).Faithful where
  reads doc := (candidate e doc).isSome
  Holds := ExtremeRun e max
  start docs := ⟨(FiledRun.empty _ docs 0).readable,by rw [sliceEmpty]; rfl⟩
  starts := rfl
  reset docs _ i := ⟨(FiledRun.empty _ docs i).readable,by rw [sliceEmpty]; rfl⟩
  read run := run.readable
  add {docs st lo hi doc} run order found := by
    have filedRun : FiledRun (candidate e) docs (filed (fun doc => (candidate e doc).join) lo (slice docs (lo,hi))) (lo,hi) :=
      ⟨run.readable,rfl⟩
    have reading := bindFound found e.eval
    cases is : e.eval doc with
    | none =>
      rw [is] at reading
      simp [extremeSlider, candidate, is, reading]
    | some v =>
      have read : candidate e doc = some (if v = .null then none else some v) := by rw [candidate, is]; rfl
      have next := filedRun.add order found read
      have good : (candidate e doc).isSome = true := by rw [read]; rfl
      rw [is] at reading
      rw [if_pos good]
      have entered : (extremeSlider e max).add docs st hi = some (if v = .null then st
          else List.rdropWhile (fun x : Nat × Bson => beats max v x.2) st ++ [(hi,v)] : List (Nat × Bson)) := by
        simp only [extremeSlider, reading, Option.bind_eq_bind, Option.bind_some]
      refine ⟨_,entered,next.readable,?_⟩
      · rw [← next.queue, run.deque]
        split_ifs with null
        · rw [Option.toList_none, List.map_nil, List.append_nil]
        · have beaten : (fun x : Nat × Bson => beats max v x.2) = (beatenBy max · (hi,v)) := rfl
          rw [Option.toList_some, List.map_singleton, survivorsSnoc, beaten,
            dropBeaten (fun x z first second => beatsCarries max x.2 v z.2 first second) survivorsStand]
  remove {docs st lo hi} run order inside := by
    have filedRun : FiledRun (candidate e) docs (filed (fun doc => (candidate e doc).join) lo (slice docs (lo,hi))) (lo,hi) :=
      ⟨run.readable,rfl⟩
    have next := filedRun.remove order inside
    refine ⟨_,rfl,next.readable,?_⟩
    obtain ⟨doc,found⟩ : ∃ doc, docs[lo]? = some doc := ⟨_,List.getElem?_eq_getElem (by omega)⟩
    rw [run.deque, sliceCons order found, filed]
    cases (candidate e doc).join with
    | none => exact popAway fun y member => filedFrom y (survivorsMem member)
    | some v => exact survivorsPop (fun y member => filedFrom y member) rfl
  value {docs st span others other place} run second same := by
    have values : st.map Prod.snd = other.map Prod.snd := by
      rw [run.deque, second.deque, survivorsValues, survivorsValues, filedValues, filedValues, same]
    have answered (list : List (Nat × Bson)) :
        (extremeSlider e max).value list = some ((list.map Prod.snd).head?.getD .null) := by
      cases list <;> rfl
    refine (answered st).trans ?_
    rw [values]
    exact (answered other).symm

/-! The set of values. -/

/- The positions that hold a key, oldest first. -/
def positionsOf (k : Bytes) (held : List (Nat × Bson)) : List Nat := (held.filter fun x => groupKey x.2 = k).map Prod.fst

theorem positionsSnoc (k : Bytes) (held : List (Nat × Bson)) (x : Nat × Bson) :
    positionsOf k (held ++ [x]) = positionsOf k held ++ if groupKey x.2 = k then [x.1] else [] := by
  unfold positionsOf
  rw [List.filter_append, List.map_append]
  split_ifs with here <;> simp [here]

theorem positionsCons (k : Bytes) (x : Nat × Bson) (rest : List (Nat × Bson)) :
    positionsOf k (x :: rest) = if groupKey x.2 = k then x.1 :: positionsOf k rest else positionsOf k rest := by
  unfold positionsOf
  split_ifs with here <;> simp [here]

theorem positionsMem {k : Bytes} {held : List (Nat × Bson)} {p : Nat} :
    p ∈ positionsOf k held ↔ ∃ v, (p,v) ∈ held ∧ groupKey v = k := by
  unfold positionsOf
  simp only [List.mem_map, List.mem_filter, decide_eq_true_eq]
  constructor
  · rintro ⟨⟨q,v⟩,⟨member,here⟩,rfl⟩
    exact ⟨v,member,here⟩
  · rintro ⟨v,member,here⟩
    exact ⟨(p,v),⟨member,here⟩,rfl⟩

/- The tables of a set over the values it holds: a queue of positions for each key, and the heads of the queues. -/
structure SetOver (held : List (Nat × Bson)) (st : SetState) : Prop where
  live : ∀ p, st.live.get p = SortedMap.lookup p held
  positions : ∀ k, st.positions.get k = if positionsOf k held = [] then none else some (positionsOf k held)
  firsts : ∀ p, st.firsts.get p = some () ↔ ∃ k, (positionsOf k held).head? = some p

theorem SetOver.empty : SetOver [] .new := ⟨fun _ => rfl,fun _ => rfl,fun p => by simp [SetState.new, positionsOf]⟩

theorem SetOver.enter {held : List (Nat × Bson)} {st : SetState} (kept : SetOver held st) {i : Nat} (v : Bson)
    (past : ∀ x ∈ held, x.1 < i) : SetOver (held ++ [(i,v)]) (st.enter i v) := by
  have queue : (st.positions.get (groupKey v)).getD [] = positionsOf (groupKey v) held := by
    rw [kept.positions]
    split_ifs with none
    · exact none.symm
    · rfl
  have absent : SortedMap.lookup i held = none :=
    SortedMap.lookupNone.mpr fun u member => absurd (past (i,u) member) (lt_irrefl i)
  unfold SetState.enter
  simp only [queue]
  refine ⟨fun p => ?_,fun k => ?_,fun p => ?_⟩
  · simp only [SortedMap.getInsert, SortedMap.lookupAppend, kept.live, SortedMap.lookup]
    split_ifs with here
    · rw [here, absent]
      rfl
    · simp
  · simp only [SortedMap.getInsert, positionsSnoc]
    by_cases here : k = groupKey v
    · simp [here]
    · simp [here, Ne.symm here, kept.positions]
  · have heads : (∃ k, (positionsOf k (held ++ [(i,v)])).head? = some p) ↔
        (∃ k, (positionsOf k held).head? = some p) ∨ positionsOf (groupKey v) held = [] ∧ p = i := by
      simp only [positionsSnoc]
      constructor
      · rintro ⟨k,head⟩
        cases before : positionsOf k held with
        | cons q rest =>
          rw [before] at head
          exact Or.inl ⟨k,by rw [before]; exact head⟩
        | nil =>
          rw [before] at head
          split_ifs at head with here
          · refine Or.inr ⟨here ▸ before,?_⟩
            simpa using head.symm
          · cases head
      · rintro (⟨k,head⟩ | ⟨none,rfl⟩)
        · refine ⟨k,?_⟩
          rw [List.head?_append, head]
          rfl
        · exact ⟨groupKey v,by simp [none]⟩
    rw [heads, ← kept.firsts]
    cases empty : positionsOf (groupKey v) held with
    | nil =>
      simp only [List.isEmpty_nil, if_true, SortedMap.getInsert, true_and]
      split_ifs with here
      · simp [here]
      · simp [here]
    | cons q rest => simp

theorem SetOver.leave {held : List (Nat × Bson)} {st : SetState} {i : Nat} {v : Bson} (kept : SetOver ((i,v) :: held) st)
    (past : ∀ x ∈ held, i < x.1) : SetOver held (st.leave i) := by
  have found : st.live.get i = some v := by
    rw [kept.live]
    exact if_pos rfl
  have own : positionsOf (groupKey v) ((i,v) :: held) = i :: positionsOf (groupKey v) held := by
    rw [positionsCons, if_pos rfl]
  have others {k : Bytes} (apart : k ≠ groupKey v) : positionsOf k ((i,v) :: held) = positionsOf k held := by
    rw [positionsCons, if_neg (Ne.symm apart)]
  have queue : st.positions.get (groupKey v) = some (i :: positionsOf (groupKey v) held) := by
    rw [kept.positions, own]
    rfl
  have live (p : Nat) : (st.live.remove i).get p = SortedMap.lookup p held := by
    rw [SortedMap.getRemove, kept.live, SortedMap.lookup]
    split_ifs with here
    · rw [here, SortedMap.lookupBelow past]
    · rfl
  -- the heads of what is left: that of the key itself, and those of the other keys
  have heads (p : Nat) : (∃ k, (positionsOf k held).head? = some p) ↔
      (positionsOf (groupKey v) held).head? = some p ∨ p ≠ i ∧ ∃ k, (positionsOf k ((i,v) :: held)).head? = some p := by
    constructor
    · rintro ⟨k,head⟩
      by_cases here : k = groupKey v
      · exact Or.inl (here ▸ head)
      · refine Or.inr ⟨?_,k,by rw [others here]; exact head⟩
        rintro rfl
        obtain ⟨u,member,_⟩ := positionsMem.mp (List.mem_of_head? head)
        exact absurd (past _ member) (lt_irrefl p)
    · rintro (head | ⟨apart,k,head⟩)
      · exact ⟨_,head⟩
      · by_cases here : k = groupKey v
        · rw [here, own] at head
          exact absurd (Option.some.inj head).symm apart
        · exact ⟨k,by rw [← others here]; exact head⟩
  unfold SetState.leave
  rw [found]
  simp only [queue, List.tail_cons]
  cases rest : positionsOf (groupKey v) held with
  | nil =>
    refine ⟨live,fun k => ?_,fun p => ?_⟩
    · rw [SortedMap.getRemove]
      split_ifs with here none none
      · rfl
      · exact absurd (here ▸ rest) none
      · rw [kept.positions, others here, if_pos none]
      · rw [kept.positions, others here, if_neg none]
    · rw [heads, rest, SortedMap.getRemove]
      split_ifs with here
      · simp [here]
      · rw [kept.firsts]
        simp [here]
  | cons next more =>
    refine ⟨live,fun k => ?_,fun p => ?_⟩
    · rw [SortedMap.getInsert]
      split_ifs with here none none
      · rw [here, rest] at none
        cases none
      · rw [here, rest]
      · rw [kept.positions, others here, if_pos none]
      · rw [kept.positions, others here, if_neg none]
    · rw [heads, rest, SortedMap.getInsert, SortedMap.getRemove]
      split_ifs with here gone
      · simp [here]
      · subst gone
        simp [Ne.symm here]
      · rw [kept.firsts]
        simp [Ne.symm here, gone]

/- The first of each key, in the order of their positions. -/
def leaders (held : List (Nat × Bson)) : List (Nat × Bson) :=
  held.filter fun x => (positionsOf (groupKey x.2) held).head? = some x.1

def distinct : List Bson → List Bson
  | [] => []
  | v :: rest => v :: (distinct rest).filter fun u => groupKey u ≠ groupKey v

theorem leadersCons {x : Nat × Bson} {rest : List (Nat × Bson)} (past : ∀ y ∈ rest, x.1 < y.1) :
    leaders (x :: rest) = x :: (leaders rest).filter fun y => groupKey y.2 ≠ groupKey x.2 := by
  have here : (positionsOf (groupKey x.2) (x :: rest)).head? = some x.1 := by
    rw [positionsCons, if_pos rfl]
    rfl
  unfold leaders
  rw [List.filter_cons_of_pos (by simpa using here), List.filter_filter]
  refine congrArg _ (List.filter_congr fun y member => ?_)
  rw [positionsCons]
  split_ifs with same
  · have apart : x.1 ≠ y.1 := (past y member).ne
    simp [same, apart]
  · simp [Ne.symm same]

theorem leadersValues : ∀ {held : List (Nat × Bson)}, (held.Pairwise fun x y => x.1 < y.1) →
    (leaders held).map Prod.snd = distinct (held.map Prod.snd) := by
  intro held
  induction held with
  | nil => exact fun _ => rfl
  | cons x rest ih =>
    intro sorted
    obtain ⟨past,tail⟩ := List.pairwise_cons.mp sorted
    rw [leadersCons past, List.map_cons, List.map_cons, distinct, ← ih tail, List.filter_map]
    rfl

theorem SetOver.value {held : List (Nat × Bson)} {st : SetState} (kept : SetOver held st)
    (sorted : held.Pairwise fun x y => x.1 < y.1) : st.value = some (.array (distinct (held.map Prod.snd))) := by
  have keys : st.firsts.entries.map Prod.fst = (leaders held).map Prod.fst := by
    refine Runs.ascendsUnique (List.pairwise_map.mpr st.firsts.sorted) (List.pairwise_map.mpr (sorted.filter _)) fun p => ?_
    have first : p ∈ st.firsts.entries.map Prod.fst ↔ st.firsts.get p = some () := by
      rw [List.mem_map]
      constructor
      · rintro ⟨x,member,rfl⟩
        exact SortedMap.memEntries.mp member
      · exact fun found => ⟨(p,()),SortedMap.memEntries.mpr found,rfl⟩
    rw [first, kept.firsts, List.mem_map]
    constructor
    · rintro ⟨k,head⟩
      obtain ⟨v,member,rfl⟩ := positionsMem.mp (List.mem_of_head? head)
      exact ⟨(p,v),List.mem_filter.mpr ⟨member,by simpa using head⟩,rfl⟩
    · rintro ⟨x,member,rfl⟩
      exact ⟨groupKey x.2,by simpa using (List.mem_filter.mp member).2⟩
  have found : ∀ x ∈ leaders held, st.live.get x.1 = some x.2 := fun x member => by
    rw [kept.live]
    exact (SortedMap.lookupMem sorted).mp (List.mem_filter.mp member).1
  have read : st.firsts.entries.mapM (fun x => st.live.get x.1) = (leaders held).mapM fun x => st.live.get x.1 := by
    have through (list : List (Nat × Unit)) : list.mapM (fun x => st.live.get x.1) = (list.map Prod.fst).mapM st.live.get := by
      rw [List.mapM_map]
      rfl
    have other (list : List (Nat × Bson)) : list.mapM (fun x => st.live.get x.1) = (list.map Prod.fst).mapM st.live.get := by
      rw [List.mapM_map]
      rfl
    rw [through, keys, other]
  rw [SetState.value, read, Traverse.mapFound found, leadersValues sorted]
  rfl

structure SetRun (e : Operand δ) (docs : List δ) (st : SetState) (span : Nat × Nat) : Prop where
  readable : Readable e.present (slice docs span)
  tables : SetOver (filed (fun doc => (e.present doc).join) span.1 (slice docs span)) st

theorem filedBefore {read : δ → Option β} {i : Nat} : ∀ {start : Nat} {docs : List δ}, start + docs.length ≤ i →
    ∀ x ∈ filed read start docs, x.1 < i := by
  intro start docs
  induction docs generalizing start with
  | nil => intro _ x member; cases member
  | cons doc rest ih =>
    intro room x member
    rw [List.length_cons] at room
    rcases List.mem_append.mp member with here | later
    · obtain ⟨v,_,rfl⟩ := List.mem_map.mp here
      simp only
      omega
    · exact ih (by omega) x later

def setFaithful (e : Operand δ) : (setSlider e).Faithful where
  reads doc := (e.present doc).isSome
  Holds := SetRun e
  start docs := ⟨(FiledRun.empty _ docs 0).readable,by rw [sliceEmpty]; exact SetOver.empty⟩
  starts := rfl
  reset docs _ i := ⟨(FiledRun.empty _ docs i).readable,by rw [sliceEmpty]; exact SetOver.empty⟩
  read run := run.readable
  add {docs st lo hi doc} run order found := by
    have filedRun : FiledRun e.present docs (filed (fun doc => (e.present doc).join) lo (slice docs (lo,hi))) (lo,hi) :=
      ⟨run.readable,rfl⟩
    have reading := bindFound found e.present
    cases is : e.present doc with
    | none =>
      rw [is] at reading
      simp [setSlider, reading]
    | some v =>
      have next := filedRun.add order found is
      rw [is] at reading
      have entered : (setSlider e).add docs st hi = some (v.elim st (SetState.enter st hi)) := by
        simp only [setSlider, reading, Option.bind_eq_bind, Option.bind_some]
      refine ⟨_,entered,next.readable,?_⟩
      rw [← next.queue]
      cases v with
      | none =>
        rw [Option.toList_none, List.map_nil, List.append_nil]
        exact run.tables
      | some v =>
        obtain ⟨short,_⟩ := List.getElem?_eq_some_iff.mp found
        refine run.tables.enter v (filedBefore ?_)
        rw [sliceLength (le_of_lt short)]
        exact (Nat.add_sub_cancel' order).le
  remove {docs st lo hi} run order inside := by
    have filedRun : FiledRun e.present docs (filed (fun doc => (e.present doc).join) lo (slice docs (lo,hi))) (lo,hi) :=
      ⟨run.readable,rfl⟩
    refine ⟨_,rfl,(filedRun.remove order inside).readable,?_⟩
    obtain ⟨doc,found⟩ : ∃ doc, docs[lo]? = some doc := ⟨_,List.getElem?_eq_getElem (by omega)⟩
    have tables := run.tables
    rw [sliceCons order found, filed] at tables
    cases is : (e.present doc).join with
    | none =>
      rw [is] at tables
      have absent : st.live.get lo = none := by
        rw [tables.live]
        exact SortedMap.lookupBelow fun x member => filedFrom x member
      have stays : SetState.leave st lo = st := by
        unfold SetState.leave
        rw [absent]
      change SetOver _ (SetState.leave st lo)
      rw [stays]
      exact tables
    | some v =>
      rw [is] at tables
      exact tables.leave fun x member => filedFrom x member
  value {docs st span others other place} run second same := by
    have first := run.tables.value filedSorted
    have next := second.tables.value filedSorted
    rw [filedValues, same] at first
    rw [filedValues] at next
    exact first.trans next.symm

end

end Kimmy.Window
