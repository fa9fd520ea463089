import Mathlib.Data.Finset.Max
import Mathlib.Data.Multiset.Fold
import Mathlib.Tactic

/-!
Finite maps with keys in increasing order, as `BTreeMap` keeps them. Two maps with the same
lookups are the same map, so every statement below is about `get`; the entry list is read
only by loops whose order matters.
-/
namespace Kimmy

structure SortedMap (κ ν : Type) [LinearOrder κ] where
  entries : List (κ × ν)
  sorted : entries.Pairwise fun x y => x.1 < y.1

namespace SortedMap
variable {κ ν : Type} [LinearOrder κ]

instance [DecidableEq ν] : DecidableEq (SortedMap κ ν) := fun m t =>
  decidable_of_iff (m.entries = t.entries) (by cases m; cases t; simp)

/- Lookup and insertion on the entry list. -/
def lookup (k : κ) : List (κ × ν) → Option ν
  | [] => none
  | (j, v) :: rest => if k = j then some v else lookup k rest

def place (k : κ) (v : ν) : List (κ × ν) → List (κ × ν)
  | [] => [(k, v)]
  | (j, x) :: rest =>
      if k < j then (k, v) :: (j, x) :: rest
      else if k = j then (k, v) :: rest
      else (j, x) :: place k v rest

attribute [local simp] lookup place

theorem placeMem {k v} {x : κ × ν} : ∀ {entries}, x ∈ place k v entries → x = (k,v) ∨ x ∈ entries
  | [], member => by simpa [place] using member
  | (j, y) :: rest, member => by
      simp only [place] at member
      split_ifs at member with below same
      · simpa using member
      · rcases List.mem_cons.mp member with here | later
        · exact Or.inl here
        · exact Or.inr (List.mem_cons_of_mem _ later)
      · rcases List.mem_cons.mp member with here | later
        · exact Or.inr (here ▸ List.mem_cons_self)
        · exact (placeMem later).imp id (List.mem_cons_of_mem _)

theorem placeSorted {k : κ} {v : ν} : ∀ {entries : List (κ × ν)},
    entries.Pairwise (fun x y => x.1 < y.1) → (place k v entries).Pairwise fun x y => x.1 < y.1
  | [], _ => by simp [place]
  | (j, y) :: rest, sorted => by
      obtain ⟨least, tail⟩ := List.pairwise_cons.mp sorted
      simp only [place]
      split_ifs with below same
      · refine List.pairwise_cons.mpr ⟨fun x member => ?_, sorted⟩
        rcases List.mem_cons.mp member with here | later
        · exact here ▸ below
        · exact below.trans (least x later)
      · subst same
        exact List.pairwise_cons.mpr ⟨least, tail⟩
      · refine List.pairwise_cons.mpr ⟨fun x member => ?_, placeSorted tail⟩
        rcases placeMem member with here | later
        · exact here ▸ lt_of_le_of_ne (not_lt.mp below) (Ne.symm same)
        · exact least x later

theorem lookupPlace {k j : κ} {v : ν} : ∀ {entries : List (κ × ν)},
    lookup j (place k v entries) = if j = k then some v else lookup j entries
  | [] => by simp [place, lookup]
  | (i, y) :: rest => by
      by_cases below : k < i
      · simp [place, below, lookup]
      · by_cases same : k = i
        · subst same
          by_cases here : j = k <;> simp [place, lookup, here]
        · by_cases here : j = i
          · subst here
            simp [place, below, same, lookup, Ne.symm same]
          · simp [place, below, same, lookup, here, lookupPlace]

theorem lookupMem {k : κ} {v : ν} : ∀ {entries : List (κ × ν)},
    entries.Pairwise (fun x y => x.1 < y.1) → ((k,v) ∈ entries ↔ lookup k entries = some v)
  | [], _ => by simp [lookup]
  | (j, y) :: rest, sorted => by
      obtain ⟨least, tail⟩ := List.pairwise_cons.mp sorted
      have inner := lookupMem (k := k) (v := v) tail
      by_cases same : k = j
      · subst same
        have absent : (k,v) ∉ rest := fun member => lt_irrefl k (least (k,v) member)
        simp [lookup, absent, eq_comm]
      · simp [lookup, same, inner]

theorem lookupBelow {k : κ} {entries : List (κ × ν)} (least : ∀ x ∈ entries, k < x.1) :
    lookup k entries = none := by
  induction entries with
  | nil => rfl
  | cons x rest ih =>
      have distinct : k ≠ x.1 := (least x List.mem_cons_self).ne
      simp only [lookup, distinct, if_false]
      exact ih fun y member => least y (List.mem_cons_of_mem _ member)

theorem lookupExt : ∀ {xs ys : List (κ × ν)}, xs.Pairwise (fun x y => x.1 < y.1) →
    ys.Pairwise (fun x y => x.1 < y.1) → (∀ k, lookup k xs = lookup k ys) → xs = ys
  | [], [], _, _, _ => rfl
  | [], (k, v) :: _, _, _, same => by simpa [lookup] using same k
  | (k, v) :: _, [], _, _, same => by simpa [lookup] using same k
  | (k, v) :: xs, (j, y) :: ys, sx, sy, same => by
      obtain ⟨leastX, tailX⟩ := List.pairwise_cons.mp sx
      obtain ⟨leastY, tailY⟩ := List.pairwise_cons.mp sy
      have heads : k = j := by
        rcases lt_trichotomy k j with below | equal | above
        · have absent : lookup k ((j,y) :: ys) = none := lookupBelow fun x member => by
            rcases List.mem_cons.mp member with here | later
            · exact here ▸ below
            · exact below.trans (leastY x later)
          rw [←same k] at absent
          simp [lookup] at absent
        · exact equal
        · have absent : lookup j ((k,v) :: xs) = none := lookupBelow fun x member => by
            rcases List.mem_cons.mp member with here | later
            · exact here ▸ above
            · exact above.trans (leastX x later)
          rw [same j] at absent
          simp [lookup] at absent
      subst heads
      have values : v = y := by simpa [lookup] using same k
      subst values
      rw [lookupExt tailX tailY fun i => ?_]
      by_cases here : i = k
      · subst here
        rw [lookupBelow leastX, lookupBelow leastY]
      · simpa [lookup, here] using same i

def empty : SortedMap κ ν := ⟨[], List.Pairwise.nil⟩

instance : Inhabited (SortedMap κ ν) := ⟨empty⟩

def get (m : SortedMap κ ν) (k : κ) : Option ν := lookup k m.entries

def insert (m : SortedMap κ ν) (k : κ) (v : ν) : SortedMap κ ν :=
  ⟨place k v m.entries, placeSorted m.sorted⟩

/- `BTreeMap::retain`. -/
def retain (m : SortedMap κ ν) (f : κ → ν → Bool) : SortedMap κ ν :=
  ⟨m.entries.filter fun x => f x.1 x.2, m.sorted.filter _⟩

def remove (m : SortedMap κ ν) (k : κ) : SortedMap κ ν := m.retain fun j _ => j ≠ k

/- Every value replaced by one computed from it and its key. -/
def mapValues {μ : Type} (m : SortedMap κ ν) (f : κ → ν → μ) : SortedMap κ μ :=
  ⟨m.entries.map fun x => (x.1,f x.1 x.2), List.pairwise_map.mpr m.sorted⟩

/- `range(k..)`: the entries from a key on, in order. -/
def range (m : SortedMap κ ν) (k : κ) : List (κ × ν) := m.entries.dropWhile fun x => x.1 < k

/- `entry(k).or_insert(v)`. -/
def orInsert (m : SortedMap κ ν) (k : κ) (v : ν) : SortedMap κ ν :=
  if (m.get k).isSome then m else m.insert k v

/- Collecting pairs: a later pair replaces an earlier one of the same key. -/
def collect (pairs : List (κ × ν)) : SortedMap κ ν :=
  pairs.foldl (fun m x => m.insert x.1 x.2) empty

/- The pairs whose key passes `keep`, an earlier pair of a key going before a later one. -/
def gather (keep : κ → Bool) (pairs : List (κ × ν)) : SortedMap κ ν :=
  pairs.foldl (fun m x => if keep x.1 then m.orInsert x.1 x.2 else m) empty

/- One map read into another, entry by entry: `f` decides from the old cell and the new
value what the cell holds afterwards, `none` leaving it as it is. -/
def absorb (f : κ → Option ν → ν → Option ν) (m t : SortedMap κ ν) : SortedMap κ ν :=
  t.entries.foldl (fun m x => match f x.1 (m.get x.1) x.2 with
    | some v => m.insert x.1 v
    | none => m) m

def keys (m : SortedMap κ ν) : Finset κ := (m.entries.map Prod.fst).toFinset

def values (m : SortedMap κ ν) : List ν := m.entries.map Prod.snd

theorem ext {m t : SortedMap κ ν} (same : ∀ k, m.get k = t.get k) : m = t := by
  cases m with | mk xs sx => cases t with | mk ys sy =>
  congr
  exact lookupExt sx sy same

@[simp] theorem getEmpty (k : κ) : (empty : SortedMap κ ν).get k = none := rfl

theorem memEntries {m : SortedMap κ ν} {k v} : (k,v) ∈ m.entries ↔ m.get k = some v :=
  lookupMem m.sorted

theorem memEntry {m : SortedMap κ ν} {x} : x ∈ m.entries ↔ m.get x.1 = some x.2 :=
  lookupMem m.sorted

@[simp] theorem getInsert (m : SortedMap κ ν) (k j v) :
    (m.insert k v).get j = if j = k then some v else m.get j :=
  lookupPlace

/- A key above all others goes to the end. -/
theorem placeLast {k : κ} {v : ν} : ∀ {entries : List (κ × ν)}, (∀ x ∈ entries, x.1 < k) →
    place k v entries = entries ++ [(k,v)]
  | [], _ => rfl
  | (j, x) :: rest, above => by
      have below : j < k := above (j,x) List.mem_cons_self
      simp only [place, below.not_gt, below.ne', if_false, List.cons_append]
      rw [placeLast fun y member => above y (List.mem_cons_of_mem _ member)]

theorem insertLast {m : SortedMap κ ν} {k : κ} {v : ν} (above : ∀ x ∈ m.entries, x.1 < k) :
    (m.insert k v).entries = m.entries ++ [(k,v)] := placeLast above

theorem getRetainSome {m : SortedMap κ ν} {f k v} :
    (m.retain f).get k = some v ↔ m.get k = some v ∧ f k v = true := by
  rw [←memEntries, ←memEntries]
  simp [retain]

@[simp] theorem getRetain (m : SortedMap κ ν) (f k) :
    (m.retain f).get k = (m.get k).filter (f k) := by
  apply Option.ext
  intro v
  rw [getRetainSome, Option.filter_eq_some_iff]

@[simp] theorem getRemove (m : SortedMap κ ν) (k j) :
    (m.remove k).get j = if j = k then none else m.get j := by
  rw [remove, getRetain]
  split_ifs with same
  · cases m.get j <;> simp [Option.filter, same]
  · cases m.get j <;> simp [Option.filter, same]

@[simp] theorem getMapValues {μ : Type} (m : SortedMap κ ν) (f : κ → ν → μ) (k) :
    (m.mapValues f).get k = (m.get k).map (f k) := by
  apply Option.ext
  intro v
  rw [←memEntries, Option.map_eq_some_iff]
  simp only [mapValues, List.mem_map, Prod.mk.injEq, Prod.exists]
  constructor
  · rintro ⟨j, x, member, rfl, rfl⟩
    exact ⟨x,memEntries.mp member,rfl⟩
  · rintro ⟨x, held, rfl⟩
    exact ⟨k,x,memEntries.mpr held,rfl,rfl⟩

theorem dropWhileSorted {k : κ} : ∀ {entries : List (κ × ν)},
    entries.Pairwise (fun x y => x.1 < y.1) →
    entries.dropWhile (fun x => x.1 < k) = entries.filter fun x => k ≤ x.1
  | [], _ => rfl
  | x :: rest, sorted => by
      obtain ⟨least, tail⟩ := List.pairwise_cons.mp sorted
      by_cases below : x.1 < k
      · rw [List.dropWhile_cons_of_pos (by simpa using below), dropWhileSorted tail,
          List.filter_cons_of_neg (by simpa using below)]
      · have all : ∀ y ∈ x :: rest, decide (k ≤ y.1) = true := by
          intro y member
          rcases List.mem_cons.mp member with rfl | later
          · simpa using below
          · exact decide_eq_true ((not_lt.mp below).trans (least y later).le)
        rw [List.dropWhile_cons_of_neg (by simpa using below), List.filter_eq_self.mpr all]

theorem rangeEq (m : SortedMap κ ν) (k : κ) : m.range k = m.entries.filter fun x => k ≤ x.1 :=
  dropWhileSorted m.sorted

theorem rangeSorted (m : SortedMap κ ν) (k : κ) : (m.range k).Pairwise fun x y => x.1 < y.1 := by
  rw [rangeEq]
  exact m.sorted.filter _

theorem memRange {m : SortedMap κ ν} {k : κ} {x : κ × ν} :
    x ∈ m.range k ↔ m.get x.1 = some x.2 ∧ k ≤ x.1 := by
  rw [rangeEq, List.mem_filter, memEntry, decide_eq_true_iff]

/- A walk that stops at the first entry outside a set meets all of the set, when nothing
outside it lies between the start and a member. -/
theorem memTakeWhile {p : κ → Bool} : ∀ {entries : List (κ × ν)} {x : κ × ν},
    entries.Pairwise (fun x y => x.1 < y.1) →
    (∀ y ∈ entries, ∀ z ∈ entries, y.1 < z.1 → p z.1 = true → p y.1 = true) →
    (x ∈ entries.takeWhile (fun y => p y.1) ↔ x ∈ entries ∧ p x.1 = true)
  | [], _, _, _ => by simp
  | y :: rest, x, sorted, convex => by
      obtain ⟨least, tail⟩ := List.pairwise_cons.mp sorted
      have inner := memTakeWhile (x := x) tail fun y hy z hz =>
        convex y (List.mem_cons_of_mem _ hy) z (List.mem_cons_of_mem _ hz)
      by_cases kept : p y.1 = true
      · rw [List.takeWhile_cons, if_pos kept, List.mem_cons, List.mem_cons, inner]
        constructor
        · rintro (rfl | ⟨member, holds⟩)
          · exact ⟨Or.inl rfl,kept⟩
          · exact ⟨Or.inr member,holds⟩
        · rintro ⟨rfl | member, holds⟩
          · exact Or.inl rfl
          · exact Or.inr ⟨member,holds⟩
      · rw [List.takeWhile_cons, if_neg kept]
        refine iff_of_false (List.not_mem_nil) ?_
        rintro ⟨member, holds⟩
        rcases List.mem_cons.mp member with rfl | later
        · exact kept holds
        · exact kept (convex y List.mem_cons_self x member (least x later) holds)

theorem memKeys {m : SortedMap κ ν} {k} : k ∈ m.keys ↔ ∃ v, m.get k = some v := by
  simp [keys, ←memEntries]

theorem memValues {m : SortedMap κ ν} {v} : v ∈ m.values ↔ ∃ k, m.get k = some v := by
  simp [values, ←memEntries]

@[simp] theorem getOrInsert (m : SortedMap κ ν) (k j v) :
    (m.orInsert k v).get j = if j = k then some ((m.get k).getD v) else m.get j := by
  unfold orInsert
  cases held : m.get k with
  | none => simp
  | some x =>
      by_cases here : j = k
      · simp [here, held]
      · simp [here]

theorem lookupAppend {k : κ} : ∀ {xs ys : List (κ × ν)},
    lookup k (xs ++ ys) = (lookup k xs).or (lookup k ys)
  | [], _ => by simp [lookup]
  | (j, v) :: xs, ys => by
      by_cases same : k = j
      · simp [lookup, same]
      · simp [lookup, same, lookupAppend]

theorem getFoldInsert {k : κ} : ∀ {pairs : List (κ × ν)} {m : SortedMap κ ν},
    (pairs.foldl (fun m x => m.insert x.1 x.2) m).get k = (lookup k pairs.reverse).or (m.get k)
  | [], m => by simp [lookup]
  | (j, v) :: rest, m => by
      rw [List.foldl_cons, getFoldInsert, getInsert, List.reverse_cons, lookupAppend, Option.or_assoc]
      congr 1
      by_cases same : k = j
      · simp [lookup, same]
      · simp [lookup, same]

/- The last pair of a key is the one collected. -/
theorem getCollect {pairs : List (κ × ν)} {k} : (collect pairs).get k = lookup k pairs.reverse := by
  rw [collect, getFoldInsert]
  simp

theorem lookupSome {k : κ} {v : ν} : ∀ {pairs : List (κ × ν)}, lookup k pairs = some v → (k,v) ∈ pairs
  | (j, x) :: rest, found => by
      by_cases same : k = j
      · have value : x = v := by simpa [lookup, same] using found
        rw [same, value]
        exact List.mem_cons_self
      · exact List.mem_cons_of_mem _ (lookupSome (by simpa [lookup, same] using found))

theorem lookupNone {k : κ} : ∀ {pairs : List (κ × ν)}, lookup k pairs = none ↔ ∀ v, (k,v) ∉ pairs
  | [] => by simp [lookup]
  | (j, x) :: rest => by
      by_cases same : k = j
      · subst same
        simpa [lookup] using ⟨x, fun no => absurd rfl no⟩
      · simp [lookup, same, @lookupNone k rest]

theorem collectMem {pairs : List (κ × ν)} {k v} (found : (collect pairs).get k = some v) :
    (k,v) ∈ pairs := by
  rw [getCollect] at found
  exact List.mem_reverse.mp (lookupSome found)

theorem collectSome {pairs : List (κ × ν)} {k v} (member : (k,v) ∈ pairs) :
    ∃ x, (collect pairs).get k = some x := by
  rw [getCollect]
  cases found : lookup k pairs.reverse with
  | some x => exact ⟨x,rfl⟩
  | none => exact absurd (List.mem_reverse.mpr member) (lookupNone.mp found v)

/- Where all pairs of a key carry one value, collecting is membership. -/
theorem collectIff {pairs : List (κ × ν)} {k v}
    (functional : ∀ x y, (k,x) ∈ pairs → (k,y) ∈ pairs → x = y) :
    (collect pairs).get k = some v ↔ (k,v) ∈ pairs := by
  refine ⟨collectMem, fun member => ?_⟩
  obtain ⟨x, found⟩ := collectSome member
  rw [found, functional x v (collectMem found) member]

theorem getFoldOrInsert {keep : κ → Bool} {k : κ} : ∀ {pairs : List (κ × ν)} {m : SortedMap κ ν},
    (pairs.foldl (fun m x => if keep x.1 then m.orInsert x.1 x.2 else m) m).get k =
      (m.get k).or (if keep k then lookup k pairs else none)
  | [], m => by simp [lookup]
  | (j, v) :: rest, m => by
      rw [List.foldl_cons, getFoldOrInsert]
      by_cases same : k = j
      · subst same
        by_cases kept : keep k
        · cases held : m.get k <;> simp [kept, lookup, held]
        · simp [kept]
      · have frame : (if keep j then m.orInsert j v else m).get k = m.get k := by
          split_ifs <;> simp [same]
        simp only [frame, lookup, same, if_false]

theorem getGather {keep : κ → Bool} {pairs : List (κ × ν)} {k} :
    (gather keep pairs).get k = if keep k then lookup k pairs else none := by
  rw [gather, getFoldOrInsert]
  simp

theorem lookupEntries (m : SortedMap κ ν) (k : κ) : lookup k m.entries = m.get k := rfl

theorem getFoldAbsorb {f : κ → Option ν → ν → Option ν} {k : κ} :
    ∀ {entries : List (κ × ν)} {m : SortedMap κ ν}, entries.Pairwise (fun x y => x.1 < y.1) →
    (entries.foldl (fun m x => match f x.1 (m.get x.1) x.2 with
      | some v => m.insert x.1 v
      | none => m) m).get k =
      match lookup k entries with
      | none => m.get k
      | some v => (f k (m.get k) v).or (m.get k)
  | [], _, _ => rfl
  | (j, x) :: rest, m, sorted => by
      obtain ⟨least, tail⟩ := List.pairwise_cons.mp sorted
      rw [List.foldl_cons, getFoldAbsorb tail]
      by_cases same : k = j
      · subst same
        rw [lookupBelow least]
        simp only [lookup, if_true]
        cases f k (m.get k) x with
        | none => simp
        | some v => simp
      · have frame : (match f j (m.get j) x with
            | some v => m.insert j v
            | none => m).get k = m.get k := by
          cases f j (m.get j) x with
          | none => rfl
          | some v => simp [same]
        simp only [frame, lookup, same, if_false]

theorem getAbsorb {f : κ → Option ν → ν → Option ν} {m t : SortedMap κ ν} {k} :
    (absorb f m t).get k =
      match t.get k with
      | none => m.get k
      | some v => (f k (m.get k) v).or (m.get k) :=
  getFoldAbsorb t.sorted

/-! A set in increasing order, as `BTreeSet` iterates it. -/

instance : LeftCommutative fun (k : κ) (m : SortedMap κ Unit) => m.insert k () where
  left_comm j k m := ext fun i => by
    simp only [getInsert]
    split_ifs <;> rfl

/- `first_key_value`. -/
def first (m : SortedMap κ ν) : Option (κ × ν) := m.entries.head?

def size (m : SortedMap κ ν) : Nat := m.entries.length

theorem sizeKeys (m : SortedMap κ ν) : m.size = m.keys.card := by
  have distinct : (m.entries.map Prod.fst).Nodup := List.pairwise_map.mpr (m.sorted.imp ne_of_lt)
  rw [keys, List.toFinset_card_of_nodup distinct, List.length_map, size]

theorem firstLeast {m : SortedMap κ ν} {x : κ × ν} (is : m.first = some x) : x.1 ∈ m.keys ∧ ∀ k ∈ m.keys, x.1 ≤ k := by
  have member : x ∈ m.entries := List.mem_of_head? is
  refine ⟨memKeys.mpr ⟨x.2,memEntry.mp member⟩,fun k held => ?_⟩
  obtain ⟨v,found⟩ := memKeys.mp held
  have there := memEntries.mpr found
  have sorted := m.sorted
  unfold first at is
  cases rest : m.entries with
  | nil => rw [rest] at member; cases member
  | cons y more =>
    rw [rest] at is there sorted
    cases is
    rcases List.mem_cons.mp there with same | later
    · rw [← same]
    · exact (List.rel_of_pairwise_cons sorted later).le

theorem firstSome {m : SortedMap κ ν} (some : 0 < m.size) : ∃ x, m.first = .some x := by
  unfold first
  cases entries : m.entries with
  | nil => simp [size, entries] at some
  | cons x _ => exact ⟨x,rfl⟩

theorem keysInsert (m : SortedMap κ ν) (k : κ) (v : ν) : (m.insert k v).keys = Insert.insert k m.keys := by
  ext j
  rw [memKeys, Finset.mem_insert, memKeys]
  simp only [getInsert]
  by_cases same : j = k <;> simp [same]

theorem keysRemove (m : SortedMap κ ν) (k : κ) : (m.remove k).keys = m.keys.erase k := by
  ext j
  rw [memKeys, Finset.mem_erase, memKeys]
  simp only [getRemove]
  by_cases same : j = k <;> simp [same]

def ofFinset (s : Finset κ) : SortedMap κ Unit := s.val.foldr (fun k m => m.insert k ()) empty

def elements (s : Finset κ) : List κ := (ofFinset s).entries.map Prod.fst

theorem getOfMultiset {k : κ} (s : Multiset κ) :
    (s.foldr (fun k (m : SortedMap κ Unit) => m.insert k ()) empty).get k =
      if k ∈ s then some () else none := by
  induction s using Multiset.induction with
  | empty => simp
  | cons j s ih =>
      rw [Multiset.foldr_cons, getInsert, ih]
      by_cases here : k = j <;> simp [here]

@[simp] theorem memElements {s : Finset κ} {k} : k ∈ elements s ↔ k ∈ s := by
  have held := getOfMultiset (k := k) s.val
  rw [elements, List.mem_map]
  constructor
  · rintro ⟨⟨j,u⟩, member, rfl⟩
    rw [memEntries, ofFinset, held] at member
    by_contra absent
    simp [absent] at member
  · intro member
    refine ⟨(k,()),memEntries.mpr ?_,rfl⟩
    rw [ofFinset, held]
    simp [member]

theorem elementsSorted (s : Finset κ) : (elements s).Pairwise (· < ·) :=
  List.pairwise_map.mpr (ofFinset s).sorted

theorem elementsNodup (s : Finset κ) : (elements s).Nodup :=
  (elementsSorted s).imp ne_of_lt

end SortedMap
end Kimmy
