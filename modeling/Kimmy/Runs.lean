import Mathlib.Data.List.Sort
import Mathlib.Tactic

/-!
Loops over sorted runs: a loop that its body can leave, the least keys of a stream held in a bounded set, and
the merge of several runs by their heads. Each is said to hand its keys, in order, to one visitor.
-/
namespace Kimmy.Runs

/- `sort_unstable` and `dedup`: in order, each once. -/
theorem dedupAscends {α : Type} [LinearOrder α] [DecidableEq α] (list : List α) :
    (list.insertionSort (· ≤ ·)).dedup.Pairwise (· < ·) := by
  have weak : (list.insertionSort (· ≤ ·)).dedup.Pairwise (· ≤ ·) :=
    (List.pairwise_insertionSort (· ≤ ·) list).sublist (List.dedup_sublist _)
  exact (weak.and (List.nodup_dedup _)).imp fun both => lt_of_le_of_ne both.1 both.2

/-! Loops with a way out. -/

section
variable {σ τ α β : Type}

/- The body says whether to go on. -/
def feed (body : σ → α → σ × Bool) : σ → List α → σ × Bool
  | s, [] => (s,true)
  | s, x :: rest => match body s x with
      | (s,true) => feed body s rest
      | (s,false) => (s,false)

attribute [local simp] feed

theorem feedAppend (body : σ → α → σ × Bool) : ∀ (xs ys : List α) (s : σ),
    feed body s (xs ++ ys) = match feed body s xs with
      | (s,true) => feed body s ys
      | (s,false) => (s,false)
  | [], _, _ => rfl
  | x :: xs, ys, s => by
    simp only [List.cons_append, feed]
    rcases body s x with ⟨s, _ | _⟩
    · rfl
    · exact feedAppend body xs ys s

/- A loop within a loop. -/
theorem feedFlat (body : σ → α → σ × Bool) (inner : β → List α) : ∀ (xs : List β) (s : σ),
    feed (fun s x => feed body s (inner x)) s xs = feed body s (xs.flatMap inner)
  | [], _ => rfl
  | x :: xs, s => by
    rw [List.flatMap_cons, feedAppend]
    simp only [feed]
    rcases feed body s (inner x) with ⟨s, _ | _⟩
    · rfl
    · exact feedFlat body inner xs s

/- A body that passes some of what it meets to a visitor and goes on at the rest. -/
structure Passes (body : σ → α → σ × Bool) (of : σ → τ) (visit : τ → β → τ × Bool) (pick : α → Option β) : Prop where
  skips : ∀ s x, pick x = none → of (body s x).1 = of s ∧ (body s x).2 = true
  visits : ∀ s x y, pick x = some y → (of (body s x).1,(body s x).2) = visit (of s) y

theorem feedPick {body : σ → α → σ × Bool} {of : σ → τ} {visit : τ → β → τ × Bool} {pick : α → Option β}
    (passes : Passes body of visit pick) : ∀ (xs : List α) (s : σ),
    (of (feed body s xs).1,(feed body s xs).2) = feed visit (of s) (xs.filterMap pick)
  | [], _ => rfl
  | x :: xs, s => by
    simp only [feed, List.filterMap_cons]
    cases picked : pick x with
    | none =>
      obtain ⟨same,goes⟩ := passes.skips s x picked
      rcases ended : body s x with ⟨after, on⟩
      rw [ended] at same goes
      obtain rfl : on = true := goes
      rw [← same]
      exact feedPick passes xs after
    | some y =>
      have one := passes.visits s x y picked
      simp only [feed]
      rw [← one]
      rcases body s x with ⟨after, _ | _⟩
      · rfl
      · exact feedPick passes xs after

end

/-! Strictly ascending lists. -/

section
variable {κ : Type} [LinearOrder κ]

abbrev Ascends (keys : List κ) : Prop := keys.Pairwise (· < ·)

/- They are known by their members. -/
theorem ascendsUnique {xs ys : List κ} (first : Ascends xs) (second : Ascends ys) (same : ∀ k, k ∈ xs ↔ k ∈ ys) : xs = ys := by
  have perm := (List.perm_ext_iff_of_nodup (first.imp fun below => below.ne) (second.imp fun below => below.ne)).mpr same
  exact perm.eq_of_pairwise (fun _ _ _ _ below above => absurd above below.not_gt) first second

/- `BTreeSet::insert`. -/
def insertOnce (k : κ) : List κ → List κ
  | [] => [k]
  | x :: rest =>
      if k < x then k :: x :: rest
      else if k = x then x :: rest
      else x :: insertOnce k rest

attribute [local simp] insertOnce

theorem memInsertOnce {k j : κ} : ∀ {keys : List κ}, j ∈ insertOnce k keys ↔ j = k ∨ j ∈ keys
  | [] => by simp [insertOnce]
  | x :: rest => by
    unfold insertOnce
    split_ifs with below same
    · rw [List.mem_cons]
    · rw [same, List.mem_cons]
      tauto
    · rw [List.mem_cons, List.mem_cons, memInsertOnce]
      tauto

theorem insertOnceAscends {k : κ} : ∀ {keys : List κ}, Ascends keys → Ascends (insertOnce k keys)
  | [], _ => List.pairwise_singleton ..
  | x :: rest, ascends => by
    obtain ⟨least,tail⟩ := List.pairwise_cons.mp ascends
    unfold insertOnce
    split_ifs with below same
    · refine List.pairwise_cons.mpr ⟨fun j member => ?_,ascends⟩
      rcases List.mem_cons.mp member with rfl | later
      · exact below
      · exact below.trans (least j later)
    · exact ascends
    · refine List.pairwise_cons.mpr ⟨fun j member => ?_,insertOnceAscends tail⟩
      rcases memInsertOnce.mp member with rfl | later
      · exact lt_of_le_of_ne (not_lt.mp below) (Ne.symm same)
      · exact least j later

theorem insertOnceHeld {k : κ} {keys : List κ} (ascends : Ascends keys) (held : k ∈ keys) : insertOnce k keys = keys := by
  refine ascendsUnique (insertOnceAscends ascends) ascends fun j => ?_
  rw [memInsertOnce, or_iff_right_iff_imp]
  rintro rfl
  exact held

theorem ascendsLast {last : κ} {keys : List κ} (ascends : Ascends keys) (is : keys.getLast? = some last) :
    ∀ j ∈ keys, j ≤ last := by
  intro j member
  obtain ⟨rest,rfl⟩ := List.getLast?_eq_some_iff.mp is
  rcases List.mem_append.mp member with earlier | here
  · exact ((List.pairwise_append.mp ascends).2.2 j earlier last (List.mem_singleton_self last)).le
  · exact (List.mem_singleton.mp here).le

theorem ascendsOf (list : List κ) : ∃ keys, Ascends keys ∧ ∀ k, k ∈ keys ↔ k ∈ list := by
  induction list with
  | nil => exact ⟨[],List.Pairwise.nil,fun _ => Iff.rfl⟩
  | cons x rest ih =>
    obtain ⟨keys,ascends,members⟩ := ih
    refine ⟨insertOnce x keys,insertOnceAscends ascends,fun k => ?_⟩
    rw [memInsertOnce, members, List.mem_cons]

/- The first of an ascending list is the least one. -/
theorem ascendsHead {k : κ} {keys : List κ} (ascends : Ascends keys) (member : k ∈ keys) (least : ∀ j ∈ keys, k ≤ j) :
    ∃ rest, keys = k :: rest ∧ Ascends rest ∧ ∀ j ∈ rest, k < j := by
  cases keys with
  | nil => cases member
  | cons x rest =>
    obtain ⟨above,tail⟩ := List.pairwise_cons.mp ascends
    have same : x = k := by
      rcases List.mem_cons.mp member with rfl | later
      · rfl
      · exact absurd (least x List.mem_cons_self) (not_le.mpr (above k later))
    subst same
    exact ⟨rest,rfl,tail,above⟩

theorem ascendsFind {p : κ → Bool} {k : κ} : ∀ {keys : List κ}, Ascends keys →
    (keys.find? p = some k ↔ k ∈ keys ∧ p k = true ∧ ∀ j ∈ keys, p j = true → k ≤ j)
  | [], _ => by simp
  | x :: rest, ascends => by
    obtain ⟨above,tail⟩ := List.pairwise_cons.mp ascends
    cases holds : p x with
    | true =>
      rw [List.find?_cons_of_pos holds, Option.some.injEq]
      constructor
      · rintro rfl
        refine ⟨List.mem_cons_self,holds,fun j member _ => ?_⟩
        rcases List.mem_cons.mp member with rfl | later
        · exact le_rfl
        · exact (above j later).le
      · rintro ⟨member, _, least⟩
        rcases List.mem_cons.mp member with same | later
        · exact same.symm
        · exact absurd (least x List.mem_cons_self holds) (above k later).not_ge
    | false =>
      have fails : ¬ p x = true := by rw [holds]; decide
      rw [List.find?_cons_of_neg fails, ascendsFind tail]
      constructor
      · rintro ⟨member, own, least⟩
        refine ⟨List.mem_cons_of_mem _ member,own,fun j there passes => ?_⟩
        rcases List.mem_cons.mp there with rfl | later
        · exact absurd passes fails
        · exact least j later passes
      · rintro ⟨member, own, least⟩
        rcases List.mem_cons.mp member with rfl | later
        · exact absurd own fails
        · exact ⟨later,own,fun j there => least j (List.mem_cons_of_mem _ there)⟩

end

/-! The least keys of a stream, in passes. -/

section
variable {κ : Type} [LinearOrder κ]

/- One key offered to a set of at most `batch` keys past `after`. -/
def keep (after : Option κ) (batch : Nat) (best : List κ) (k : κ) : List κ :=
  if after.any (k ≤ ·) then best
  else if best.length < batch then insertOnce k best
  else if best.getLast?.any (k < ·) && !best.contains k then (insertOnce k best).dropLast
  else best

/- A key that comes before the end of a full set takes the place of its largest. -/
theorem takeInsert {k : κ} : ∀ {keys : List κ} {n : Nat}, n ≤ keys.length →
    (∃ j ∈ keys.take n, k < j) → k ∉ keys → (insertOnce k keys).take n = (insertOnce k (keys.take n)).dropLast
  | [], n, _, ⟨j,member,_⟩, _ => by simp at member
  | x :: rest, 0, _, ⟨j,member,_⟩, _ => by simp at member
  | x :: rest, n + 1, fits, ⟨j,member,above⟩, fresh => by
    rw [List.take_succ_cons] at member ⊢
    have apart : k ≠ x := fun same => fresh (same ▸ List.mem_cons_self)
    have fits : n ≤ rest.length := by simpa using fits
    by_cases below : k < x
    · simp only [insertOnce, below, if_true]
      have shorter : (x :: rest.take n).dropLast = (x :: rest).take n := by
        rw [List.dropLast_eq_take, ← List.take_succ_cons, List.take_take, List.length_take, List.length_cons]
        congr 1
        omega
      rw [List.take_succ_cons, List.dropLast_cons_cons, shorter]
    · have later : ∃ j ∈ rest.take n, k < j := by
        rcases List.mem_cons.mp member with rfl | later
        · exact absurd above below
        · exact ⟨j,later,above⟩
      simp only [insertOnce, below, apart, if_false]
      rw [List.take_succ_cons, takeInsert fits later fun held => fresh (List.mem_cons_of_mem _ held)]
      have some : insertOnce k (rest.take n) ≠ [] := List.ne_nil_of_mem (memInsertOnce.mpr (Or.inl rfl))
      rw [List.dropLast_cons_of_ne_nil some]

/- A key past all of them leaves the first ones as they are. -/
theorem takeInsertPast {k : κ} : ∀ {keys : List κ} {n : Nat}, n ≤ keys.length →
    (∀ j ∈ keys.take n, j < k) → (insertOnce k keys).take n = keys.take n
  | [], n, fits, _ => by
    obtain rfl : n = 0 := by simpa using fits
    rfl
  | x :: rest, 0, _, _ => rfl
  | x :: rest, n + 1, fits, past => by
    rw [List.take_succ_cons] at past ⊢
    have above : x < k := past x List.mem_cons_self
    simp only [insertOnce, above.not_gt, above.ne', if_false]
    rw [List.take_succ_cons, takeInsertPast (by simpa using fits) fun j member => past j (List.mem_cons_of_mem _ member)]

/- What a pass holds is the first of all the keys it has met. -/
theorem keepSpec {after : Option κ} {batch : Nat} {all more : List κ} {k : κ} (ascends : Ascends all)
    (sorted : Ascends more) (members : ∀ j, j ∈ more ↔ j ∈ all ∨ j = k ∧ ¬ after.any (k ≤ ·) = true) :
    keep after batch (all.take batch) k = more.take batch := by
  unfold keep
  split_ifs with skipped short inside
  · rw [ascendsUnique sorted ascends fun j => by rw [members]; tauto]
  · have whole : all.take batch = all := List.take_of_length_le (by rw [List.length_take] at short; omega)
    have grown : more = insertOnce k all :=
      ascendsUnique sorted (insertOnceAscends ascends) fun j => by rw [members, memInsertOnce]; tauto
    rw [whole] at short ⊢
    rw [grown]
    have little : (insertOnce k all).length ≤ batch := by
      have subset : insertOnce k all ⊆ k :: all := fun j member => List.mem_cons.mpr (memInsertOnce.mp member)
      have nodup : (insertOnce k all).Nodup := (insertOnceAscends ascends).imp fun below => below.ne
      have bound := (nodup.subperm subset).length_le
      rw [List.length_cons] at bound
      omega
    rw [List.take_of_length_le little]
  · have full : batch ≤ all.length := by
      rw [List.length_take] at short
      omega
    rw [Bool.and_eq_true, Option.any_eq_true] at inside
    obtain ⟨⟨last,is,below⟩,outside⟩ := inside
    have outside : k ∉ all.take batch := by simpa using outside
    have below : k < last := by simpa using below
    have held : last ∈ all.take batch := List.mem_of_getLast? is
    have fresh : k ∉ all := by
      intro member
      rw [← List.take_append_drop batch all] at member ascends
      rcases List.mem_append.mp member with here | later
      · exact outside here
      · exact absurd ((List.pairwise_append.mp ascends).2.2 last held k later) below.not_gt
    have grown : more = insertOnce k all :=
      ascendsUnique sorted (insertOnceAscends ascends) fun j => by rw [members, memInsertOnce]; tauto
    rw [grown, takeInsert full ⟨last,held,below⟩ fresh]
  · have full : batch ≤ all.length := by
      rw [List.length_take] at short
      omega
    by_cases held : k ∈ all
    · rw [ascendsUnique sorted ascends fun j => by
        rw [members]
        constructor
        · rintro (there | ⟨rfl, _⟩)
          · exact there
          · exact held
        · exact Or.inl]
    · have grown : more = insertOnce k all :=
        ascendsUnique sorted (insertOnceAscends ascends) fun j => by rw [members, memInsertOnce]; tauto
      rw [grown, takeInsertPast full fun j member => ?_]
      by_contra above
      have apart : j ≠ k := fun same => held (same ▸ List.mem_of_mem_take member)
      have above : k < j := lt_of_le_of_ne (not_lt.mp above) apart.symm
      apply inside
      obtain ⟨last,is⟩ : ∃ last, (all.take batch).getLast? = Option.some last := by
        cases is : (all.take batch).getLast? with
        | none =>
          rw [List.getLast?_eq_none_iff] at is
          rw [is] at member
          cases member
        | some last => exact ⟨last,rfl⟩
      have most : j ≤ last := ascendsLast (ascends.sublist (List.take_sublist ..)) is j member
      rw [is]
      have outside : k ∉ all.take batch := fun member => held (List.mem_of_mem_take member)
      simpa [outside] using above.trans_le most

theorem keptLeast {after : Option κ} {batch : Nat} {keys : List κ} : ∀ {seen best more : List κ},
    Ascends best → Ascends more → (∀ j, j ∈ best ↔ j ∈ seen ∧ ¬ after.any (j ≤ ·) = true) →
    (∀ j, j ∈ more ↔ (j ∈ seen ∨ j ∈ keys) ∧ ¬ after.any (j ≤ ·) = true) →
    keys.foldl (keep after batch) (best.take batch) = more.take batch := by
  induction keys with
  | nil =>
    intro seen best more ascends sorted held members
    rw [ascendsUnique ascends sorted fun j => by rw [held, members]; simp]
    rfl
  | cons k rest ih =>
    intro seen best more ascends sorted held members
    let next := if after.any (k ≤ ·) then best else insertOnce k best
    have grows : ∀ j, j ∈ next ↔ j ∈ best ∨ j = k ∧ ¬ after.any (k ≤ ·) = true := by
      intro j
      by_cases skipped : after.any (k ≤ ·) = true
      · simp [next, skipped]
      · simp [next, skipped, memInsertOnce, or_comm]
    have climbs : Ascends next := by
      by_cases skipped : after.any (k ≤ ·) = true
      · simpa [next, skipped] using ascends
      · simpa [next, skipped] using insertOnceAscends ascends
    rw [List.foldl_cons, keepSpec ascends climbs grows]
    refine @ih (seen ++ [k]) _ _ climbs sorted (fun j => ?_) fun j => ?_
    · rw [grows, held, List.mem_append, List.mem_singleton]
      constructor
      · rintro (⟨there, past⟩ | ⟨rfl, past⟩)
        · exact ⟨Or.inl there,past⟩
        · exact ⟨Or.inr rfl,past⟩
      · rintro ⟨there | rfl, past⟩
        · exact Or.inl ⟨there,past⟩
        · exact Or.inr ⟨rfl,past⟩
    · rw [members, List.mem_append, List.mem_cons, List.mem_singleton, or_assoc]

end

/-! Walks that note what they read and offer keys to a visitor. -/

section
variable {σ τ α κ : Type}

structure Hands (σ α κ : Type) where
  key : α → κ
  note : σ → α → σ
  offer : σ → κ → σ × Bool

/- The visitor behind the hands sees the keys alone. -/
structure Hands.Serve (hands : Hands σ α κ) (of : σ → τ) (visit : τ → κ → τ × Bool) : Prop where
  note : ∀ s x, of (hands.note s x) = of s
  offer : ∀ s k, (of (hands.offer s k).1,(hands.offer s k).2) = visit (of s) k

variable {hands : Hands σ α κ} {of : σ → τ} {visit : τ → κ → τ × Bool} (serve : hands.Serve of visit)
include serve

theorem Hands.Serve.noteAll (rows : List α) (s : σ) : of (rows.foldl hands.note s) = of s := by
  induction rows generalizing s with
  | nil => rfl
  | cons x rest ih =>
    rw [List.foldl_cons, ih]
    exact serve.note s x

theorem Hands.Serve.feedAll (keys : List κ) (s : σ) :
    (of (feed hands.offer s keys).1,(feed hands.offer s keys).2) = feed visit (of s) keys := by
  have passes : Passes hands.offer of visit some := by
    refine ⟨fun s k absent => ?_,fun s k j same => ?_⟩
    · cases absent
    · cases same
      exact serve.offer s k
  have fed := feedPick passes keys s
  rw [List.filterMap_some] at fed
  exact fed

end

section
variable {σ τ α κ : Type} [LinearOrder κ]

/- Each pass offers the least keys past the last one and asks for twice as many, up to `most`. -/
def inPasses (hands : Hands σ α κ) (again : σ → σ) (most : Nat) (rows : List α) : Nat → Option κ → Nat → σ → Option σ
  | 0, _, _, _ => none
  | fuel + 1, after, batch, s =>
      let best := (rows.map hands.key).foldl (keep after batch) []
      match feed hands.offer (rows.foldl hands.note (again s)) best with
      | (s,false) => some s
      | (s,true) =>
          if best.length < batch then some s
          else inPasses hands again most rows fuel best.getLast? (min (2 * batch) most) s

attribute [local simp] inPasses

section
variable {hands : Hands σ α κ} {of : σ → τ} {visit : τ → κ → τ × Bool} (serve : hands.Serve of visit)
include serve

theorem passesSpec {again : σ → σ} {most : Nat} {rows : List α} (agains : ∀ s, of (again s) = of s) (roomy : 0 < most) :
    ∀ (fuel : Nat) (after : Option κ) (batch : Nat) (s : σ) (keys : List κ), 0 < batch → keys.length < fuel →
    Ascends keys → (∀ k, k ∈ keys ↔ k ∈ rows.map hands.key ∧ ¬ after.any (k ≤ ·) = true) →
    (inPasses hands again most rows fuel after batch s).map of = some (feed visit (of s) keys).1
  | 0, _, _, _, _, _, short, _, _ => by omega
  | fuel + 1, after, batch, s, keys, room, enough, ascends, members => by
    have best : (rows.map hands.key).foldl (keep after batch) [] = keys.take batch := by
      have none : ([] : List κ) = [].take batch := List.take_nil.symm
      rw [none]
      exact @keptLeast _ _ _ _ _ [] _ _ List.Pairwise.nil ascends (by simp) fun k => by rw [members]; simp
    have fed := serve.feedAll (keys.take batch) (rows.foldl hands.note (again s))
    rw [serve.noteAll, agains] at fed
    have whole : feed visit (of s) keys = feed visit (of s) (keys.take batch ++ keys.drop batch) := by
      rw [List.take_append_drop]
    simp only [inPasses]
    rw [best, whole, feedAppend, ← fed]
    rcases feed hands.offer (rows.foldl hands.note (again s)) (keys.take batch) with ⟨middle, _ | _⟩
    · rfl
    · simp only
      split_ifs with short
      · have none : keys.drop batch = [] := by
          rw [List.length_take] at short
          exact List.drop_eq_nil_of_le (by omega)
        rw [none]
        rfl
      · have full : batch ≤ keys.length := by
          rw [List.length_take] at short
          omega
        obtain ⟨last,is⟩ : ∃ last, (keys.take batch).getLast? = Option.some last := by
          cases is : (keys.take batch).getLast? with
          | none =>
            rw [List.getLast?_eq_none_iff, List.take_eq_nil_iff] at is
            rcases is with zero | none
            · omega
            · rw [none] at full
              simp at full
              omega
          | some last => exact ⟨last,rfl⟩
        have held : last ∈ keys.take batch := List.mem_of_getLast? is
        have split := ascends
        rw [← List.take_append_drop batch keys, Ascends, List.pairwise_append] at split
        rw [is]
        refine passesSpec agains roomy fuel (some last) _ middle _ (by omega) ?_ split.2.1 fun k => ?_
        · rw [List.length_drop]
          omega
        · rw [Option.any_some, decide_eq_true_eq, not_le]
          constructor
          · intro later
            exact ⟨((members k).mp (List.mem_of_mem_drop later)).1,split.2.2 last held k later⟩
          · rintro ⟨there, above⟩
            have past : ¬ after.any (k ≤ ·) = true := by
              intro below
              rw [Option.any_eq_true] at below
              obtain ⟨bound,is,below⟩ := below
              apply ((members last).mp (List.mem_of_mem_take held)).2
              rw [is, Option.any_some, decide_eq_true_eq]
              exact above.le.trans (of_decide_eq_true below)
            have member := (members k).mpr ⟨there,past⟩
            rw [← List.take_append_drop batch keys] at member
            rcases List.mem_append.mp member with here | later
            · exact absurd (ascendsLast split.1 is k here) above.not_ge
            · exact later

end

/-! Several runs, merged by their heads. -/

/- The key a run stands at, and what it has still to read. -/
structure Head (α κ : Type) where
  key : κ
  run : Nat
  rest : List α

namespace Head

def before (a b : Head α κ) : Bool := a.key < b.key || a.key = b.key && a.run ≤ b.run

/- The heap, by its heads in order. -/
def push (h : Head α κ) : List (Head α κ) → List (Head α κ)
  | [] => [h]
  | g :: heads => if h.before g then h :: g :: heads else g :: push h heads

/- Every key that a head will still give. -/
def keys (key : α → κ) (h : Head α κ) : List κ := h.key :: h.rest.map key

end Head

/- The next key of a run goes onto the heap. -/
def advance (hands : Hands σ α κ) (run : Nat) (s : σ) (heads : List (Head α κ)) : List α → σ × List (Head α κ)
  | [] => (s,heads)
  | x :: rest => (hands.note s x,Head.push ⟨hands.key x,run,rest⟩ heads)

def opened (hands : Hands σ α κ) : Nat → List (List α) → σ × List (Head α κ) → σ × List (Head α κ)
  | _, [], state => state
  | run, rows :: runs, (s,heads) => opened hands (run + 1) runs (advance hands run s heads rows)

/- A key that was just offered is passed over. -/
def merged (hands : Hands σ α κ) : Nat → List (Head α κ) → Option κ → σ → Option σ
  | _, [], _, s => some s
  | 0, _ :: _, _, _ => none
  | fuel + 1, h :: heads, last, s =>
      let (s,heads) := advance hands h.run s heads h.rest
      if last = some h.key then merged hands fuel heads last s
      else match hands.offer s h.key with
        | (s,false) => some s
        | (s,true) => merged hands fuel heads (some h.key) s

/- In the order of their keys, each run ascending. -/
structure Heaped (key : α → κ) (heads : List (Head α κ)) : Prop where
  ordered : heads.Pairwise fun a b => a.key ≤ b.key
  ascends : ∀ h ∈ heads, Ascends (h.keys key)

theorem pushPerm (h : Head α κ) : ∀ heads : List (Head α κ), (h.push heads).Perm (h :: heads)
  | [] => List.Perm.refl _
  | g :: heads => by
    unfold Head.push
    split_ifs
    · exact List.Perm.refl _
    · exact ((pushPerm h heads).cons g).trans (List.Perm.swap h g heads)

theorem pushOrdered {h : Head α κ} : ∀ {heads : List (Head α κ)}, heads.Pairwise (fun a b => a.key ≤ b.key) →
    (h.push heads).Pairwise fun a b => a.key ≤ b.key
  | [], _ => List.pairwise_singleton ..
  | g :: heads, ordered => by
    obtain ⟨least,tail⟩ := List.pairwise_cons.mp ordered
    unfold Head.push
    split_ifs with before
    · have low : h.key ≤ g.key := by
        rw [Head.before, Bool.or_eq_true, Bool.and_eq_true, decide_eq_true_eq, decide_eq_true_eq] at before
        rcases before with below | ⟨same, _⟩
        · exact below.le
        · exact same.le
      refine List.pairwise_cons.mpr ⟨fun a member => ?_,ordered⟩
      rcases List.mem_cons.mp member with rfl | later
      · exact low
      · exact low.trans (least a later)
    · have low : g.key ≤ h.key := by
        rw [Head.before, Bool.or_eq_true, decide_eq_true_eq, not_or] at before
        exact not_lt.mp before.1
      refine List.pairwise_cons.mpr ⟨fun a member => ?_,pushOrdered tail⟩
      rcases List.mem_cons.mp ((pushPerm h heads).mem_iff.mp member) with rfl | later
      · exact low
      · exact least a later

section
variable {hands : Hands σ α κ} {of : σ → τ} {visit : τ → κ → τ × Bool}

theorem heapedAdvance {heads : List (Head α κ)} (heaped : Heaped hands.key heads) (run : Nat) (s : σ) {rows : List α}
    (ascends : Ascends (rows.map hands.key)) :
    Heaped hands.key (advance hands run s heads rows).2 ∧
      ((advance hands run s heads rows).2.flatMap (·.keys hands.key)).Perm
        (rows.map hands.key ++ heads.flatMap (·.keys hands.key)) := by
  cases rows with
  | nil => exact ⟨heaped,List.Perm.refl _⟩
  | cons x rest =>
    refine ⟨⟨pushOrdered heaped.ordered,fun h member => ?_⟩,(pushPerm _ heads).flatMap_right _⟩
    rcases List.mem_cons.mp ((pushPerm _ heads).mem_iff.mp member) with rfl | later
    · exact ascends
    · exact heaped.ascends h later

theorem heapedOpened : ∀ {runs : List (List α)} (run : Nat) {s : σ} {heads : List (Head α κ)}, Heaped hands.key heads →
    (∀ rows ∈ runs, Ascends (rows.map hands.key)) →
    Heaped hands.key (opened hands run runs (s,heads)).2 ∧
      ((opened hands run runs (s,heads)).2.flatMap (·.keys hands.key)).Perm
        (runs.flatMap (·.map hands.key) ++ heads.flatMap (·.keys hands.key))
  | [], _, _, _, heaped, _ => ⟨heaped,List.Perm.refl _⟩
  | rows :: runs, run, s, heads, heaped, ascends => by
    obtain ⟨next,same⟩ := heapedAdvance heaped run s (ascends rows List.mem_cons_self)
    obtain ⟨after,more⟩ := heapedOpened (s := (advance hands run s heads rows).1) (run + 1) next
      fun rows member => ascends rows (List.mem_cons_of_mem _ member)
    refine ⟨after,more.trans ?_⟩
    rw [List.flatMap_cons, List.append_assoc]
    refine (same.append_left _).trans ?_
    rw [← List.append_assoc, ← List.append_assoc]
    exact List.perm_append_comm.append_right _

variable (serve : hands.Serve of visit)
include serve

theorem advanceServe (run : Nat) (s : σ) (heads : List (Head α κ)) (rows : List α) :
    of (advance hands run s heads rows).1 = of s := by
  cases rows with
  | nil => rfl
  | cons x rest => exact serve.note s x

theorem openedServe : ∀ (runs : List (List α)) (run : Nat) (state : σ × List (Head α κ)),
    of (opened hands run runs state).1 = of state.1
  | [], _, _ => rfl
  | rows :: runs, run, (s,heads) => by
    refine (openedServe runs (run + 1) _).trans ?_
    exact advanceServe serve run s heads rows

theorem mergedSpec : ∀ (fuel : Nat) (heads : List (Head α κ)) (last : Option κ) (s : σ) (keys : List κ),
    Heaped hands.key heads → (heads.flatMap (·.keys hands.key)).length ≤ fuel → Ascends keys →
    (∀ k, k ∈ keys ↔ k ∈ heads.flatMap (·.keys hands.key) ∧ last ≠ some k) →
    (∀ l, last = some l → ∀ k ∈ heads.flatMap (·.keys hands.key), l ≤ k) →
    (merged hands fuel heads last s).map of = some (feed visit (of s) keys).1
  | fuel, [], last, s, keys, _, _, _, members, _ => by
    have none : keys = [] := List.eq_nil_iff_forall_not_mem.mpr fun k member => by simpa using (members k).mp member
    rw [none]
    cases fuel <;> rfl
  | 0, h :: heads, _, _, _, _, enough, _, _, _ => by simp [Head.keys] at enough
  | fuel + 1, h :: heads, last, s, keys, heaped, enough, ascends, members, low => by
    obtain ⟨least,tail⟩ := List.pairwise_cons.mp heaped.ordered
    obtain ⟨first,rest⟩ := List.pairwise_cons.mp (heaped.ascends h List.mem_cons_self)
    have others : Heaped hands.key heads := ⟨tail,fun g member => heaped.ascends g (List.mem_cons_of_mem _ member)⟩
    obtain ⟨next,same⟩ := heapedAdvance others h.run s rest
    have served := advanceServe serve h.run s heads h.rest
    have flat (k : κ) : k ∈ (h :: heads).flatMap (·.keys hands.key) ↔
        k = h.key ∨ k ∈ (advance hands h.run s heads h.rest).2.flatMap (·.keys hands.key) := by
      rw [same.mem_iff, List.flatMap_cons, Head.keys, List.cons_append, List.mem_cons]
    have lowest : ∀ k ∈ (advance hands h.run s heads h.rest).2.flatMap (·.keys hands.key), h.key ≤ k := by
      intro k member
      rcases List.mem_append.mp (same.mem_iff.mp member) with here | there
      · exact (first k here).le
      · obtain ⟨g,among,given⟩ := List.mem_flatMap.mp there
        have above := least g among
        rcases List.mem_cons.mp given with rfl | later
        · exact above
        · exact above.trans ((List.pairwise_cons.mp (heaped.ascends g (List.mem_cons_of_mem _ among))).1 k later).le
    have shorter : ((advance hands h.run s heads h.rest).2.flatMap (·.keys hands.key)).length ≤ fuel := by
      rw [same.length_eq]
      rw [List.flatMap_cons, Head.keys, List.cons_append, List.length_cons] at enough
      exact Nat.le_of_succ_le_succ enough
    simp only [merged]
    split_ifs with repeated
    · rw [← served]
      refine mergedSpec fuel _ last _ keys next shorter ascends (fun k => ?_) fun l is k member => ?_
      · rw [members, flat]
        constructor
        · rintro ⟨rfl | there, apart⟩
          · exact absurd repeated apart
          · exact ⟨there,apart⟩
        · rintro ⟨there, apart⟩
          exact ⟨Or.inr there,apart⟩
      · exact low l is k ((flat k).mpr (Or.inr member))
    · have here : h.key ∈ keys := (members _).mpr ⟨(flat _).mpr (Or.inl rfl),repeated⟩
      have all : ∀ k ∈ keys, h.key ≤ k := by
        intro k member
        rcases (flat k).mp ((members k).mp member).1 with rfl | there
        · exact le_rfl
        · exact lowest k there
      obtain ⟨more,rfl,sorted,above⟩ := ascendsHead ascends here all
      have offered := serve.offer (advance hands h.run s heads h.rest).1 h.key
      rw [served] at offered
      simp only [feed]
      rw [← offered]
      rcases hands.offer (advance hands h.run s heads h.rest).1 h.key with ⟨after, _ | _⟩
      · rfl
      · refine mergedSpec fuel _ (some h.key) after more next shorter sorted (fun k => ?_) fun l is k member => ?_
        · constructor
          · intro member
            have apart := (above k member).ne
            rcases (flat k).mp ((members k).mp (List.mem_cons_of_mem _ member)).1 with same | there
            · exact absurd same.symm apart
            · exact ⟨there,fun same => apart (Option.some.inj same)⟩
          · rintro ⟨there, apart⟩
            have strict : h.key < k := lt_of_le_of_ne (lowest k there) fun same => apart (congrArg some same)
            have fresh : last ≠ some k := by
              intro is
              exact absurd (low k is h.key ((flat _).mpr (Or.inl rfl))) strict.not_ge
            rcases List.mem_cons.mp ((members k).mpr ⟨(flat k).mpr (Or.inr there),fresh⟩) with same | later
            · exact absurd same.symm strict.ne
            · exact later
        · cases is
          exact lowest k member

end
end

end Kimmy.Runs
