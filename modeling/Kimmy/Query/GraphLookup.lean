import Kimmy.KeyEnc
import Kimmy.LinkDistance
import Kimmy.PathWrite
import Kimmy.Runs
import Kimmy.SortedMap
import Kimmy.Store.Records
import Kimmy.Traverse

/-!
`$graphLookup` (`exec.rs`): the foreign documents filed by the keys they are entered under, and a walk from a start
value, level by level, that visits each of them once.
-/
namespace Kimmy.Query.Graph
open KeyEnc
open ByteOrder (Bytes)

def maxGraphDepth : Nat := 1000

/- The expression of `startWith` and the filter of `restrictSearchWithMatch` are given by what they evaluate to. -/
structure GraphLookup where
  startWith : Document → Option Bson
  connectFrom : String
  connectTo : String
  asField : String
  maxDepth : Nat
  shallow : maxDepth ≤ maxGraphDepth
  depthField : Option String
  restrict : Option (Document → Option Bool)

/- The ceilings a request can meet: on documents, and on the bytes of an array and of a document. -/
structure Limits where
  maxDocuments : Nat
  joins : List Document → Bool
  builds : Document → Bool

/-! Keys. -/

def joinValues (doc : Document) (field : String) : List Bson :=
  (resolve doc field).flatMap fun value => value :: match value with
    | .array items => items
    | _ => []

def isNull : Bson → Bool
  | .null | .undefined => true
  | _ => false

def encodeKey (value : Bson) : Option Bytes := encode value

/- `sort_unstable` and `dedup`. -/
def keySet (values : List Bson) : List Bytes :=
  (((values.filter fun v => !isNull v).filterMap encodeKey).insertionSort (· ≤ ·)).dedup

def linkKeys (doc : Document) (field : String) : List Bytes := keySet (joinValues doc field)

/- A null starts nothing, in an array as alone. -/
def startKeys (start : Bson) : List Bytes :=
  if isNull start then []
  else keySet (start :: match start with
    | .array items => items
    | _ => [])

/-! The walk. -/

def file (table : SortedMap Bytes (List Nat)) (place : Nat) (keys : List Bytes) : SortedMap Bytes (List Nat) :=
  keys.foldl (fun table key => table.insert key ((table.get key).getD [] ++ [place])) table

def fileAll (connectTo : String) (foreign : List Document) : SortedMap Bytes (List Nat) :=
  foreign.zipIdx.foldl (fun table (doc,place) => file table place (linkKeys doc connectTo)) .empty

structure Walk where
  frontier : List Bytes
  searched : Finset Bytes
  visited : Finset Nat
  reached : List (Nat × Nat)
  depth : Nat

/- The keys of one document that have not been searched. -/
def pushNew (acc : Finset Bytes × List Bytes) (key : Bytes) : Finset Bytes × List Bytes :=
  if key ∈ acc.1 then acc else (insert key acc.1,acc.2 ++ [key])

/- One document of a level, with the keys of the level after it. -/
def visit (spec : GraphLookup) (foreign : List Document) (acc : Walk × List Bytes) (place : Nat) : Walk × List Bytes :=
  let (w,next) := acc
  let keys := linkKeys (foreign.getD place []) spec.connectFrom
  let (searched,next) := keys.foldl pushNew (w.searched,next)
  ({ w with searched, visited := insert place w.visited, reached := w.reached ++ [(place,w.depth)] },next)

def found (table : SortedMap Bytes (List Nat)) (w : Walk) : List Nat :=
  (((w.frontier.flatMap fun key => (table.get key).getD []).filter fun place => place ∉ w.visited).insertionSort
    (· ≤ ·)).dedup

/- `left` is how many more levels `max_depth` admits. -/
def walk (spec : GraphLookup) (limits : Limits) (foreign : List Document) (table : SortedMap Bytes (List Nat)) (held : Nat) : Nat → Walk → Option Walk
  | left, w =>
      if w.frontier.isEmpty then some w
      else
        let (w,next) := (found table w).foldl (visit spec foreign) (w,[])
        if limits.maxDocuments < held + w.reached.length then none
        else match left with
          | 0 => some w
          | left + 1 => walk spec limits foreign table held left { w with depth := w.depth + 1, frontier := next }

def begin' (start : Bson) : Walk := ⟨startKeys start,(startKeys start).toFinset,∅,[],0⟩

/- `push_copy`. -/
def copied (spec : GraphLookup) (foreign : List Document) (entry : Nat × Nat) : Document :=
  let doc := foreign.getD entry.1 []
  match spec.depthField with
  | none => doc
  | some field => doc.insert field (.int64 (Int64.ofNat entry.2))

def attach (spec : GraphLookup) (limits : Limits) (foreign : List Document) (table : SortedMap Bytes (List Nat)) (held : Nat) (doc : Document) :
    Option (Document × Nat) := do
  let start ← spec.startWith doc
  let w ← walk spec limits foreign table held spec.maxDepth (begin' start)
  let joined := w.reached.map (copied spec foreign)
  if !limits.joins joined then none
  else
    let doc := doc.insert spec.asField (.array (joined.map .document))
    if limits.builds doc then some (doc,held + w.reached.length) else none

def attachAll (spec : GraphLookup) (limits : Limits) (foreign : List Document) (table : SortedMap Bytes (List Nat)) :
    Nat → List Document → Option (List Document)
  | _, [] => some []
  | held, doc :: input => do
      let (doc,held) ← attach spec limits foreign table held doc
      let out ← attachAll spec limits foreign table held input
      some (doc :: out)

/- `read_foreign`: the documents the restriction admits, refused at the first one past the ceiling. -/
def readForeign (admits : Document → Option Bool) (max : Nat) : List Document → List Document → Option (List Document)
  | foreign, [] => some foreign
  | foreign, doc :: stored => do
      if ← admits doc then
        if max ≤ foreign.length then none else readForeign admits max (foreign ++ [doc]) stored
      else readForeign admits max foreign stored

def admits (spec : GraphLookup) (doc : Document) : Option Bool :=
  match spec.restrict with
  | some restrict => restrict doc
  | none => some true

def graphLookup (spec : GraphLookup) (limits : Limits) (stored : List Document) (input : List Document) : Option (List Document) :=
  if input.isEmpty then some input
  else do
    let foreign ← readForeign (admits spec) limits.maxDocuments [] stored
    attachAll spec limits foreign (fileAll spec.connectTo foreign) 0 input

/-! What links one document to another. -/

/- A value that is not null, at the field or an element of an array there, has the key. -/
def Names (values : List Bson) (key : Bytes) : Prop := ∃ v ∈ values, isNull v = false ∧ encodeKey v = some key

/- An array starts from itself and from its elements. -/
def startValues (start : Bson) : List Bson :=
  start :: match start with
    | .array items => items
    | _ => []

/- The documents by their places. -/
def links (spec : GraphLookup) (foreign : List Document) (start : Bson) : Links Nat Bytes where
  start := Names (startValues start)
  enters place key := ∃ doc, foreign[place]? = some doc ∧ Names (joinValues doc spec.connectTo) key
  offers place key := ∃ doc, foreign[place]? = some doc ∧ Names (joinValues doc spec.connectFrom) key

theorem memKeySet {values : List Bson} {key : Bytes} : key ∈ keySet values ↔ Names values key := by
  simp only [keySet, List.mem_dedup, List.mem_insertionSort, List.mem_filterMap, List.mem_filter, Names, Bool.not_eq_true',
    and_assoc]

theorem memStartKeys {start : Bson} {key : Bytes} : key ∈ startKeys start ↔ Names (startValues start) key := by
  unfold startKeys
  split_ifs with null
  · refine ⟨fun member => absurd member List.not_mem_nil,?_⟩
    rintro ⟨v,member,alive,_⟩
    cases start with
    | null =>
      rw [List.mem_singleton.mp member] at alive
      cases alive
    | undefined =>
      rw [List.mem_singleton.mp member] at alive
      cases alive
    | _ => cases null
  · exact memKeySet

/-! The table. -/

theorem fileMem {key : Bytes} {place at' : Nat} : ∀ {keys : List Bytes} {table : SortedMap Bytes (List Nat)},
    at' ∈ ((file table place keys).get key).getD [] ↔ at' ∈ (table.get key).getD [] ∨ at' = place ∧ key ∈ keys := by
  intro keys
  induction keys with
  | nil => simp [file]
  | cons first keys ih =>
    intro table
    rw [file, List.foldl_cons, ← file, ih, SortedMap.getInsert]
    split_ifs with same
    · subst same
      simp only [Option.getD_some, List.mem_append, List.mem_cons]
      tauto
    · simp only [List.mem_cons, same, false_or]

theorem fileAllMem {connectTo : String} {foreign : List Document} {key : Bytes} {place : Nat} :
    place ∈ ((fileAll connectTo foreign).get key).getD [] ↔
      ∃ doc, foreign[place]? = some doc ∧ Names (joinValues doc connectTo) key := by
  have fold (pairs : List (Document × Nat)) : ∀ table : SortedMap Bytes (List Nat),
      place ∈ ((pairs.foldl (fun table (doc,place) => file table place (linkKeys doc connectTo)) table).get key).getD [] ↔
        place ∈ (table.get key).getD [] ∨ ∃ doc, (doc,place) ∈ pairs ∧ key ∈ linkKeys doc connectTo := by
    induction pairs with
    | nil => simp
    | cons pair pairs ih =>
      intro table
      rw [List.foldl_cons, ih, fileMem]
      constructor
      · rintro ((before | ⟨rfl,named⟩) | ⟨doc,member,named⟩)
        · exact .inl before
        · exact .inr ⟨pair.1,List.mem_cons_self,named⟩
        · exact .inr ⟨doc,List.mem_cons_of_mem _ member,named⟩
      · rintro (before | ⟨doc,member,named⟩)
        · exact .inl (.inl before)
        · rcases List.mem_cons.mp member with rfl | later
          · exact .inl (.inr ⟨rfl,named⟩)
          · exact .inr ⟨doc,later,named⟩
  rw [fileAll, fold]
  simp only [SortedMap.getEmpty, Option.getD_none, List.not_mem_nil, false_or, List.mem_zipIdx_iff_getElem?]
  exact exists_congr fun doc => and_congr_right fun _ => memKeySet

/-! One level. -/

theorem pushedMem {key : Bytes} : ∀ {keys : List Bytes} {acc : Finset Bytes × List Bytes},
    (key ∈ (keys.foldl pushNew acc).1 ↔ key ∈ acc.1 ∨ key ∈ keys) ∧
    (key ∈ (keys.foldl pushNew acc).2 ↔ key ∈ acc.2 ∨ key ∉ acc.1 ∧ key ∈ keys) := by
  intro keys
  induction keys with
  | nil => simp
  | cons first keys ih =>
    intro acc
    obtain ⟨searched,next⟩ := @ih (pushNew acc first)
    rw [List.foldl_cons, searched, next]
    unfold pushNew
    split_ifs with old
    · simp only [List.mem_cons]
      by_cases same : key = first
      · subst same
        simp [old]
      · simp [same]
    · simp only [Finset.mem_insert, List.mem_cons, List.mem_append, List.not_mem_nil, or_false]
      by_cases same : key = first
      · subst same
        simp [old]
      · simp [same]

structure Visited (spec : GraphLookup) (foreign : List Document) (places : List Nat) (acc out : Walk × List Bytes) : Prop where
  depth : out.1.depth = acc.1.depth
  visited : ∀ p, p ∈ out.1.visited ↔ p ∈ acc.1.visited ∨ p ∈ places
  reached : out.1.reached = acc.1.reached ++ places.map (·,acc.1.depth)
  searched : ∀ k, k ∈ out.1.searched ↔ k ∈ acc.1.searched ∨ ∃ p ∈ places, k ∈ linkKeys (foreign.getD p []) spec.connectFrom
  next : ∀ k, k ∈ out.2 ↔ k ∈ acc.2 ∨ k ∉ acc.1.searched ∧ ∃ p ∈ places, k ∈ linkKeys (foreign.getD p []) spec.connectFrom

theorem visitedAll (spec : GraphLookup) (foreign : List Document) : ∀ (places : List Nat) (acc : Walk × List Bytes),
    Visited spec foreign places acc (places.foldl (visit spec foreign) acc) := by
  intro places
  induction places with
  | nil => exact fun acc => ⟨rfl,by simp,by simp,by simp,by simp⟩
  | cons place places ih =>
    intro acc
    have rest := ih (visit spec foreign acc place)
    have keys (k : Bytes) := @pushedMem k (linkKeys (foreign.getD place []) spec.connectFrom) (acc.1.searched,acc.2)
    rw [List.foldl_cons]
    refine ⟨rest.depth,fun p => ?_,?_,fun k => ?_,fun k => ?_⟩
    · rw [rest.visited]
      simp only [visit, Finset.mem_insert, List.mem_cons]
      tauto
    · rw [rest.reached]
      simp [visit]
    · rw [rest.searched]
      simp only [visit, (keys k).1, List.exists_mem_cons_iff, or_assoc]
    · rw [rest.next]
      simp only [visit, (keys k).1, (keys k).2, List.exists_mem_cons_iff]
      have cut (held old mine later : Prop) :
          ((held ∨ ¬old ∧ mine) ∨ ¬(old ∨ mine) ∧ later) ↔ (held ∨ ¬old ∧ (mine ∨ later)) := by tauto
      exact cut _ _ _ _

/-! The walk, level by level. -/

def Before (x y : Nat × Nat) : Prop := x.2 < y.2 ∨ x.2 = y.2 ∧ x.1 < y.1

/- What the walk knows before a level. -/
structure AtLevel (g : Links Nat Bytes) (w : Walk) : Prop where
  frontier : ∀ k, k ∈ w.frontier ↔ g.Handed w.depth k ∧ ∀ m < w.depth, ¬g.Handed m k
  searched : ∀ k, k ∈ w.searched ↔ ∃ m ≤ w.depth, g.Handed m k
  visited : ∀ p, p ∈ w.visited ↔ ∃ m < w.depth, g.Distance m p
  reached : ∀ p m, (p,m) ∈ w.reached ↔ m < w.depth ∧ g.Distance m p
  order : w.reached.Pairwise Before

section
variable {spec : GraphLookup} {foreign : List Document} {start : Bson}

theorem beginLevel : AtLevel (links spec foreign start) (begin' start) := by
  refine ⟨fun k => ?_,fun k => ?_,fun p => ?_,fun p m => ?_,List.Pairwise.nil⟩
  · simp only [begin', memStartKeys, Links.Handed, Nat.not_lt_zero, false_imp_iff, implies_true, and_true]
    rfl
  · simp only [begin', List.mem_toFinset, memStartKeys, Nat.le_zero, exists_eq_left]
    rfl
  · simp [begin']
  · simp [begin']

/- The level is the unvisited documents that its frontier enters. -/
theorem memFound {w : Walk} (level : AtLevel (links spec foreign start) w) (p : Nat) :
    p ∈ found (fileAll spec.connectTo foreign) w ↔ (links spec foreign start).Distance w.depth p := by
  simp only [found, List.mem_dedup, List.mem_insertionSort, List.mem_filter, List.mem_flatMap, decide_eq_true_eq, fileAllMem]
  rw [Links.distanceHere, level.visited]
  constructor
  · rintro ⟨⟨k,member,enters⟩,fresh⟩
    obtain ⟨handed,first⟩ := (level.frontier k).mp member
    exact ⟨fun m less distance => fresh ⟨m,less,distance⟩,k,handed,first,enters⟩
  · rintro ⟨fresh,k,handed,first,enters⟩
    exact ⟨⟨k,(level.frontier k).mpr ⟨handed,first⟩,enters⟩,fun ⟨m,less,distance⟩ => fresh m less distance⟩

theorem handedNext {n : Nat} {k : Bytes} : (links spec foreign start).Handed (n + 1) k ↔
    ∃ p, (links spec foreign start).Distance n p ∧ k ∈ linkKeys (foreign.getD p []) spec.connectFrom := by
  refine exists_congr fun p => and_congr_right fun distance => ?_
  -- a document at a distance is one of the foreign documents
  obtain ⟨_,_,doc,held,_⟩ := distance.handed
  rw [List.getD_eq_getElem?_getD, held, Option.getD_some, linkKeys, memKeySet]
  constructor
  · rintro ⟨other,same,names⟩
    cases held.symm.trans same
    exact names
  · exact fun names => ⟨doc,held,names⟩

theorem stepLevel {w : Walk} (level : AtLevel (links spec foreign start) w) {out : Walk} {next : List Bytes}
    (run : (found (fileAll spec.connectTo foreign) w).foldl (visit spec foreign) (w,[]) = (out,next)) :
    AtLevel (links spec foreign start) { out with depth := out.depth + 1, frontier := next } := by
  have visited := visitedAll spec foreign (found (fileAll spec.connectTo foreign) w) (w,[])
  rw [run] at visited
  have depth : out.depth = w.depth := visited.depth
  have offered (k : Bytes) : (∃ p ∈ found (fileAll spec.connectTo foreign) w, k ∈ linkKeys (foreign.getD p []) spec.connectFrom) ↔
      (links spec foreign start).Handed (w.depth + 1) k := by
    rw [handedNext]
    exact exists_congr fun p => and_congr_left fun _ => memFound level p
  refine ⟨fun k => ?_,fun k => ?_,fun p => ?_,fun p m => ?_,?_⟩
  · have is := visited.next k
    rw [offered, level.searched] at is
    simp only [List.not_mem_nil, false_or] at is
    simp only [depth, is, Nat.lt_succ_iff]
    rw [and_comm]
    simp
  · have is := visited.searched k
    rw [offered, level.searched] at is
    simp only [depth, is, Nat.le_succ_iff]
    constructor
    · rintro (⟨m,low,handed⟩ | handed)
      · exact ⟨m,.inl low,handed⟩
      · exact ⟨_,.inr rfl,handed⟩
    · rintro ⟨m,low | rfl,handed⟩
      · exact .inl ⟨m,low,handed⟩
      · exact .inr handed
  · have is := visited.visited p
    rw [memFound level, level.visited] at is
    simp only [depth, is]
    constructor
    · rintro (⟨m,less,distance⟩ | distance)
      · exact ⟨m,by omega,distance⟩
      · exact ⟨_,Nat.lt_succ_self _,distance⟩
    · rintro ⟨m,less,distance⟩
      rcases Nat.lt_succ_iff_lt_or_eq.mp less with before | rfl
      · exact .inl ⟨m,before,distance⟩
      · exact .inr distance
  · have is : out.reached = _ := visited.reached
    simp only [depth, is, List.mem_append, level.reached, List.mem_map, memFound level]
    constructor
    · rintro (⟨less,distance⟩ | ⟨q,distance,same⟩)
      · exact ⟨by omega,distance⟩
      · cases same
        exact ⟨Nat.lt_succ_self _,distance⟩
    · rintro ⟨less,distance⟩
      rcases Nat.lt_succ_iff_lt_or_eq.mp less with before | rfl
      · exact .inl ⟨before,distance⟩
      · exact .inr ⟨p,distance,rfl⟩
  · have is : out.reached = _ := visited.reached
    simp only [is]
    refine List.pairwise_append.mpr ⟨level.order,?_,fun x old y new => ?_⟩
    · exact List.pairwise_map.mpr ((Runs.dedupAscends _).imp fun below => .inr ⟨rfl,below⟩)
    · obtain ⟨q,_,rfl⟩ := List.mem_map.mp new
      exact .inl ((level.reached x.1 x.2).mp old).1

/- What the walk leaves: each document at a distance within the depth, once, with its distance, level by level and each
level in the order of the documents. -/
structure Walked (g : Links Nat Bytes) (maxDepth : Nat) (reached : List (Nat × Nat)) : Prop where
  exact : ∀ p m, (p,m) ∈ reached ↔ m ≤ maxDepth ∧ g.Distance m p
  order : reached.Pairwise Before

theorem walkSpec {limits : Limits} {held : Nat} : ∀ {left : Nat} {w out : Walk}, AtLevel (links spec foreign start) w →
    walk spec limits foreign (fileAll spec.connectTo foreign) held left w = some out →
    Walked (links spec foreign start) (w.depth + left) out.reached := by
  have empty {left : Nat} {w : Walk} (level : AtLevel (links spec foreign start) w) (none : w.frontier = []) :
      Walked (links spec foreign start) (w.depth + left) w.reached := by
    have beyond := Links.noneBeyond (g := links spec foreign start) (n := w.depth) fun k handed => by
      by_contra fresh
      push Not at fresh
      have member := (level.frontier k).mpr ⟨handed,fresh⟩
      rw [none] at member
      cases member
    refine ⟨fun p m => ?_,level.order⟩
    rw [level.reached]
    refine ⟨fun ⟨less,distance⟩ => ⟨by omega,distance⟩,fun ⟨_,distance⟩ => ⟨?_,distance⟩⟩
    by_contra more
    exact beyond m (by omega) p distance
  intro left
  induction left with
  | zero =>
    intro w out level run
    unfold walk at run
    split_ifs at run with none
    · cases run
      exact empty level (List.isEmpty_iff.mp none)
    · obtain ⟨_,run⟩ := Option.ite_none_left_eq_some.mp run
      cases run
      have after := stepLevel level (rfl : _ = (_,_))
      have depth := (visitedAll spec foreign (found (fileAll spec.connectTo foreign) w) (w,[])).depth
      refine ⟨fun p m => ?_,after.order⟩
      rw [after.reached p m, depth]
      exact and_congr_left fun _ => Nat.lt_succ_iff
  | succ left ih =>
    intro w out level run
    unfold walk at run
    split_ifs at run with none
    · cases run
      exact empty level (List.isEmpty_iff.mp none)
    · obtain ⟨_,run⟩ := Option.ite_none_left_eq_some.mp run
      have after := ih (stepLevel level (rfl : _ = (_,_))) run
      have depth := (visitedAll spec foreign (found (fileAll spec.connectTo foreign) w) (w,[])).depth
      have deep : w.depth + (left + 1) = w.depth + 1 + left := by omega
      rw [deep]
      simp only [depth] at after
      exact after

end

/-! The stage. -/

theorem readForeignSpec {admits : Document → Option Bool} {max : Nat} : ∀ {stored foreign out : List Document},
    readForeign admits max foreign stored = some out → out = foreign ++ stored.filter fun doc => admits doc = some true := by
  intro stored
  induction stored with
  | nil =>
    intro foreign out run
    cases run
    exact (List.append_nil _).symm
  | cons doc stored ih =>
    intro foreign out run
    unfold readForeign at run
    obtain ⟨admitted,is,run⟩ := Option.bind_eq_some_iff.mp run
    cases admitted with
    | true =>
      simp only [if_true] at run
      split_ifs at run
      rw [ih run, List.filter_cons_of_pos (by simpa using is), List.append_assoc, List.singleton_append]
    | false =>
      simp only [Bool.false_eq_true, if_false] at run
      rw [ih run, List.filter_cons_of_neg (by simp [is])]

theorem depthExact (spec : GraphLookup) {m : Nat} (low : m ≤ spec.maxDepth) : (Int64.ofNat m).toInt = m := by
  have shallow := low.trans spec.shallow
  rw [maxGraphDepth] at shallow
  rw [Int64.toInt_ofNat_of_lt (by omega)]

/- A document stands once, since it has one distance. -/
theorem Walked.once {g : Links Nat Bytes} {maxDepth : Nat} {reached : List (Nat × Nat)} (walked : Walked g maxDepth reached) :
    (reached.map Prod.fst).Nodup := by
  refine List.pairwise_map.mpr (walked.order.imp_of_mem fun {x y} first second before same => ?_)
  have here := ((walked.exact x.1 x.2).mp first).2
  have there := ((walked.exact y.1 y.2).mp second).2
  rw [same] at here
  have level := here.unique there
  rcases before with less | ⟨_,less⟩ <;> omega

/- The document with the walk from its start value attached. -/
def Attached (spec : GraphLookup) (foreign : List Document) (doc result : Document) : Prop :=
  ∃ start reached, spec.startWith doc = some start ∧ Walked (links spec foreign start) spec.maxDepth reached ∧
    (reached.map Prod.fst).Nodup ∧ (∀ entry ∈ reached, (Int64.ofNat entry.2).toInt = entry.2) ∧
    result = doc.insert spec.asField (.array (reached.map fun entry => .document (copied spec foreign entry)))

theorem attachSpec {spec : GraphLookup} {limits : Limits} {foreign : List Document} {held after : Nat} {doc result : Document}
    (run : attach spec limits foreign (fileAll spec.connectTo foreign) held doc = some (result,after)) :
    Attached spec foreign doc result := by
  unfold attach at run
  obtain ⟨start,starts,run⟩ := Option.bind_eq_some_iff.mp run
  obtain ⟨w,walks,run⟩ := Option.bind_eq_some_iff.mp run
  obtain ⟨_,run⟩ := Option.ite_none_left_eq_some.mp run
  obtain ⟨_,run⟩ := Option.ite_none_right_eq_some.mp run
  cases run
  have walked : Walked (links spec foreign start) (0 + spec.maxDepth) w.reached := walkSpec beginLevel walks
  rw [Nat.zero_add] at walked
  refine ⟨start,w.reached,starts,walked,walked.once,fun entry member => ?_,?_⟩
  · exact depthExact spec ((walked.exact entry.1 entry.2).mp member).1
  · rw [List.map_map]
    rfl

theorem attachAllSpec {spec : GraphLookup} {limits : Limits} {foreign : List Document} : ∀ {input out : List Document} {held : Nat},
    attachAll spec limits foreign (fileAll spec.connectTo foreign) held input = some out →
    List.Forall₂ (Attached spec foreign) input out := by
  intro input
  induction input with
  | nil =>
    intro out held run
    cases run
    exact .nil
  | cons doc input ih =>
    intro out held run
    unfold attachAll at run
    obtain ⟨⟨result,after⟩,attached,run⟩ := Option.bind_eq_some_iff.mp run
    obtain ⟨rest,others,run⟩ := Option.bind_eq_some_iff.mp run
    cases run
    exact .cons (attachSpec attached) (ih others)

/- Each input document gets every admitted document within the depth of its start value, once, with its distance, by
distance and then by place. -/
theorem searchesByDistance {spec : GraphLookup} {limits : Limits} {stored input out : List Document}
    (run : graphLookup spec limits stored input = some out) :
    List.Forall₂ (Attached spec (stored.filter fun doc => admits spec doc = some true)) input out := by
  unfold graphLookup at run
  split_ifs at run with none
  · cases run
    rw [List.isEmpty_iff.mp none]
    exact .nil
  · obtain ⟨foreign,read,run⟩ := Option.bind_eq_some_iff.mp run
    have admitted := readForeignSpec read
    rw [List.nil_append] at admitted
    subst admitted
    exact attachAllSpec run

/- Two documents that link to each other, one of them through an array with a null. -/
def ring : List Document :=
  [[("id",.boolean true),("next",.array [.null,.boolean false])],[("id",.boolean false),("next",.boolean true)]]

def fromTrue : GraphLookup := ⟨fun _ => some (.boolean true),"next","id","all",5,by decide,some "depth",none⟩

def roomy : Limits := ⟨100,fun _ => true,fun _ => true⟩

theorem ringSearched : ∃ out, graphLookup fromTrue roomy ring [[]] = some out ∧
    List.Forall₂ (Attached fromTrue (ring.filter fun doc => admits fromTrue doc = some true)) [[]] out := by
  have succeeds : (graphLookup fromTrue roomy ring [[]]).isSome = true := by decide
  obtain ⟨out,run⟩ := Option.isSome_iff_exists.mp succeeds
  exact ⟨out,run,searchesByDistance run⟩

end Kimmy.Query.Graph
