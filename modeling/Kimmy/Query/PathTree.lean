import Kimmy.Store.Document

/-!
A projection's paths as a tree of segments (`shape.rs`, `PathTree`), so that every path through one field is applied in a
single walk of it. A finished tree says of each name what the listed paths say of it.
-/
namespace Kimmy.Query.Shape

inductive PathTree where
  | node (whole : Bool) (fields : List (String × PathTree)) (index : Option (List (String × Nat))) (wholes : Nat)

namespace PathTree

def whole : PathTree → Bool
  | .node whole _ _ _ => whole

def fields : PathTree → List (String × PathTree)
  | .node _ fields _ _ => fields

def index : PathTree → Option (List (String × Nat))
  | .node _ _ index _ => index

def wholes : PathTree → Nat
  | .node _ _ _ wholes => wholes

/- `default`. -/
def empty : PathTree := .node false [] none 0

/- `SCAN_UP_TO` -/
def scanUpTo : Nat := 8

/- The field at `position`, or a new one pushed. -/
def stepInto (change : PathTree → PathTree) (seg : String) : List (String × PathTree) → List (String × PathTree)
  | [] => [(seg,change empty)]
  | (name,child) :: rest => if name == seg then (name,change child) :: rest else (name,child) :: stepInto change seg rest

/- One turn of the loop over the paths. -/
def addPath : List String → PathTree → PathTree
  | [], .node _ fields index wholes => .node true fields index wholes
  | seg :: rest, .node whole fields index wholes => .node whole (stepInto (addPath rest) seg fields) index wholes

mutual

def finish : PathTree → PathTree
  | .node whole fields index _ => .node whole (finishEach fields)
      (if scanUpTo < fields.length then some (fields.map Prod.fst).zipIdx else index) (fields.countP fun field => field.2.whole)

def finishEach : List (String × PathTree) → List (String × PathTree)
  | [] => []
  | (name,child) :: rest => (name,finish child) :: finishEach rest

end

def of (paths : List String) : PathTree := finish (paths.foldl (fun root path => addPath (segments path) root) empty)

def scan {α : Type} (fields : List (String × α)) (name : String) : Option α :=
  (fields.find? fun field => field.1 == name).map Prod.snd

/- By the index once there is one. -/
def fieldIn {α : Type} (index : Option (List (String × Nat))) (fields : List (String × α)) (name : String) : Option α :=
  match index with
  | some index => (index.lookup name).bind fun place => fields[place]?.map Prod.snd
  | none => scan fields name

def field (tree : PathTree) (name : String) : Option PathTree := fieldIn tree.index tree.fields name

/-! Where a path leads. -/

def descend (tree : PathTree) : List String → Option PathTree
  | [] => some tree
  | seg :: rest => (scan tree.fields seg).bind fun node => descend node rest

def ends (tree : PathTree) (path : List String) : Bool := (descend tree path).any whole

def reaches (tree : PathTree) (path : List String) : Bool := (descend tree path).isSome

@[simp] theorem wholeNode (w f i n) : whole (.node w f i n) = w := rfl

@[simp] theorem fieldsNode (w f i n) : fields (.node w f i n) = f := rfl

@[simp] theorem indexNode (w f i n) : index (.node w f i n) = i := rfl

@[simp] theorem descendNil (tree : PathTree) : descend tree [] = some tree := rfl

theorem descendCons (tree : PathTree) (seg : String) (rest : List String) :
    descend tree (seg :: rest) = (scan tree.fields seg).bind fun node => descend node rest := rfl

theorem endsNil (tree : PathTree) : ends tree [] = tree.whole := rfl

theorem endsCons (tree : PathTree) (seg : String) (rest : List String) :
    ends tree (seg :: rest) = (scan tree.fields seg).any fun node => ends node rest := by
  unfold ends
  rw [descendCons]
  cases scan tree.fields seg <;> rfl

theorem reachesCons (tree : PathTree) (seg : String) (rest : List String) :
    reaches tree (seg :: rest) = (scan tree.fields seg).any fun node => reaches node rest := by
  unfold reaches
  rw [descendCons]
  cases scan tree.fields seg <;> rfl

theorem scanCons {α : Type} (name : String) (node : α) (rest : List (String × α)) (k : String) :
    scan ((name,node) :: rest) k = if name = k then some node else scan rest k := by
  unfold scan
  by_cases same : name = k
  · simp [same]
  · simp [same]

theorem scanStepped (change : PathTree → PathTree) (seg k : String) (fields : List (String × PathTree)) :
    scan (stepInto change seg fields) k =
      if k = seg then some (change ((scan fields seg).getD empty)) else scan fields k := by
  induction fields with
  | nil =>
    rw [stepInto, scanCons]
    by_cases same : seg = k
    · rw [if_pos same, if_pos same.symm]
      rfl
    · rw [if_neg same, if_neg (Ne.symm same)]
  | cons first rest ih =>
    obtain ⟨name,node⟩ := first
    rw [stepInto]
    by_cases own : name = seg
    · subst own
      rw [if_pos (beq_self_eq_true name), scanCons, scanCons, scanCons, if_pos rfl, Option.getD_some]
      by_cases same : name = k
      · rw [if_pos same, if_pos same.symm]
      · rw [if_neg same, if_neg (Ne.symm same), if_neg same]
    · rw [if_neg (by simpa using own), scanCons, scanCons, scanCons, if_neg own, ih]
      by_cases same : name = k
      · rw [if_pos same, if_pos same, if_neg (by rw [← same]; exact own)]
      · rw [if_neg same, if_neg same]

theorem addPathWhole (seg : String) (rest : List String) (tree : PathTree) : (addPath (seg :: rest) tree).whole = tree.whole := by
  cases tree
  rfl

theorem addPathFields (seg : String) (rest : List String) (tree : PathTree) :
    (addPath (seg :: rest) tree).fields = stepInto (addPath rest) seg tree.fields := by
  cases tree
  rfl

theorem addedFields (tree : PathTree) : (addPath [] tree).fields = tree.fields := by
  cases tree
  rfl

theorem emptyScan (k : String) : scan empty.fields k = none := rfl

/- A path added ends where it ends and nowhere else. -/
theorem endsAdded (path : List String) (tree : PathTree) (q : List String) :
    ends (addPath path tree) q = (q == path || ends tree q) := by
  induction path generalizing tree q with
  | nil =>
    cases q with
    | nil => cases tree; rfl
    | cons k rest =>
      rw [endsCons, endsCons, addedFields]
      rfl
  | cons seg segs ih =>
    cases q with
    | nil =>
      rw [endsNil, endsNil, addPathWhole]
      rfl
    | cons k rest =>
      rw [endsCons, endsCons, addPathFields, scanStepped, List.cons_beq_cons]
      by_cases same : k = seg
      · subst same
        rw [if_pos rfl, Option.any_some, ih, beq_self_eq_true, Bool.true_and]
        cases scan tree.fields k with
        | some node => rfl
        | none => cases rest <;> rfl
      · rw [if_neg same, beq_eq_false_iff_ne.mpr same, Bool.false_and, Bool.false_or]

/- It reaches its prefixes. -/
theorem reachesAdded (path : List String) (tree : PathTree) (q : List String) :
    reaches (addPath path tree) q = (q.isPrefixOf path || reaches tree q) := by
  induction path generalizing tree q with
  | nil =>
    cases q with
    | nil => rfl
    | cons k rest =>
      rw [reachesCons, reachesCons, addedFields]
      rfl
  | cons seg segs ih =>
    cases q with
    | nil => rfl
    | cons k rest =>
      rw [reachesCons, reachesCons, addPathFields, scanStepped, List.isPrefixOf_cons_cons]
      by_cases same : k = seg
      · subst same
        rw [if_pos rfl, Option.any_some, ih, beq_self_eq_true, Bool.true_and]
        cases scan tree.fields k with
        | some node => rfl
        | none => cases rest <;> rfl
      · rw [if_neg same, beq_eq_false_iff_ne.mpr same, Bool.false_and, Bool.false_or]

/-! Levels. -/

/- A level while the paths are added: names apart and nothing counted yet. -/
def Plain (tree : PathTree) : Prop := (tree.fields.map Prod.fst).Nodup ∧ tree.index = none

def PlainBelow (tree : PathTree) : Prop := ∀ path node, descend tree path = some node → node.Plain

theorem steppedNames (change : PathTree → PathTree) (seg : String) (fields : List (String × PathTree)) :
    (stepInto change seg fields).map Prod.fst = if seg ∈ fields.map Prod.fst then fields.map Prod.fst else fields.map Prod.fst ++ [seg] := by
  induction fields with
  | nil => rfl
  | cons first rest ih =>
    obtain ⟨name,node⟩ := first
    rw [stepInto]
    by_cases own : name = seg
    · simp [own]
    · rw [if_neg (by simpa using own), List.map_cons, List.map_cons, ih]
      by_cases later : seg ∈ rest.map Prod.fst
      · rw [if_pos later, if_pos (List.mem_cons_of_mem name later)]
      · have absent : seg ∉ name :: rest.map Prod.fst := fun inside => later ((List.mem_cons.mp inside).resolve_left (Ne.symm own))
        rw [if_neg later, if_neg absent]
        rfl

theorem plainAdded (path : List String) {tree : PathTree} (plain : tree.Plain) : (addPath path tree).Plain := by
  cases tree with
  | node w fields index wholes =>
    cases path with
    | nil => exact plain
    | cons seg rest =>
      refine ⟨?_,plain.2⟩
      rw [addPathFields, steppedNames]
      split_ifs with known
      · exact plain.1
      · exact List.nodup_append.mpr ⟨plain.1,List.nodup_singleton seg,by
          intro a inside b new
          rw [List.mem_singleton.mp new]
          exact fun same => known (same ▸ inside)⟩

theorem emptyPlain : empty.PlainBelow := by
  intro path node found
  cases path with
  | nil =>
    cases found
    exact ⟨List.nodup_nil,rfl⟩
  | cons seg rest => cases found

theorem scanPlain {tree : PathTree} (plain : tree.PlainBelow) (seg : String) : ((scan tree.fields seg).getD empty).PlainBelow := by
  cases found : scan tree.fields seg with
  | none => exact emptyPlain
  | some child =>
    intro path node below
    refine plain (seg :: path) node ?_
    rw [descendCons, found]
    exact below

theorem plainBelowAdded (path : List String) {tree : PathTree} (plain : tree.PlainBelow) : (addPath path tree).PlainBelow := by
  induction path generalizing tree with
  | nil =>
    intro q node found
    cases q with
    | nil =>
      cases found
      exact plainAdded [] (plain [] tree rfl)
    | cons k rest =>
      rw [descendCons, addedFields] at found
      exact plain (k :: rest) node found
  | cons seg segs ih =>
    intro q node found
    cases q with
    | nil =>
      cases found
      exact plainAdded _ (plain [] tree rfl)
    | cons k rest =>
      rw [descendCons, addPathFields, scanStepped] at found
      by_cases same : k = seg
      · rw [if_pos same, Option.bind_some] at found
        exact ih (scanPlain plain seg) rest node found
      · rw [if_neg same] at found
        exact plain (k :: rest) node found

/-! Finished trees. -/

/- What `finish` leaves of a level: its names apart, its lookup a scan, its whole fields counted. -/
structure Level (tree : PathTree) : Prop where
  once : (tree.fields.map Prod.fst).Nodup
  field : ∀ name, tree.field name = scan tree.fields name
  wholes : tree.wholes = tree.fields.countP fun field => field.2.whole

theorem finishEachEq (fields : List (String × PathTree)) : finishEach fields = fields.map fun field => (field.1,finish field.2) := by
  induction fields with
  | nil => rfl
  | cons first rest ih =>
    rw [finishEach, ih]
    rfl

theorem finishFields (tree : PathTree) : (finish tree).fields = finishEach tree.fields := by
  cases tree
  simp only [finish, fieldsNode]

theorem finishWhole (tree : PathTree) : (finish tree).whole = tree.whole := by
  cases tree
  simp only [finish, wholeNode]

theorem finishNames (fields : List (String × PathTree)) : (finishEach fields).map Prod.fst = fields.map Prod.fst := by
  rw [finishEachEq, List.map_map]
  rfl

theorem fieldInMap {α β : Type} (f : α → β) (index : Option (List (String × Nat))) (fields : List (String × α)) (k : String) :
    fieldIn index (fields.map fun field => (field.1,f field.2)) k = (fieldIn index fields k).map f := by
  cases index with
  | none =>
    unfold fieldIn scan
    rw [List.find?_map, Option.map_map, Option.map_map]
    rfl
  | some index =>
    simp only [fieldIn, List.getElem?_map, Option.map_bind]
    refine congrArg _ (funext fun place => ?_)
    rw [Function.comp_apply, Option.map_map, Option.map_map]
    rfl

theorem scanFinished (fields : List (String × PathTree)) (k : String) : scan (finishEach fields) k = (scan fields k).map finish := by
  rw [finishEachEq]
  exact fieldInMap finish none fields k

theorem descendFinished (tree : PathTree) (path : List String) : descend (finish tree) path = (descend tree path).map finish := by
  induction path generalizing tree with
  | nil => rfl
  | cons seg rest ih =>
    rw [descendCons, descendCons, finishFields, scanFinished]
    cases scan tree.fields seg with
    | none => rfl
    | some node => exact ih node

/- A place found through the index is the place a scan finds. -/
theorem indexScan {α : Type} {fields : List (String × α)} (k : String) (start : Nat) :
    (((fields.map Prod.fst).zipIdx start).lookup k).bind (fun place => fields[place - start]?.map Prod.snd) = scan fields k := by
  induction fields generalizing start with
  | nil => rfl
  | cons first rest ih =>
    obtain ⟨name,node⟩ := first
    rw [scanCons, List.map_cons, List.zipIdx_cons, List.lookup_cons]
    by_cases same : name = k
    · subst same
      simp
    · rw [if_neg same, beq_eq_false_iff_ne.mpr (Ne.symm same), ← ih (start + 1)]
      have later : ∀ place, ((rest.map Prod.fst).zipIdx (start + 1)).lookup k = some place → start + 1 ≤ place := by
        intro place found
        obtain ⟨before,after,split,_⟩ := List.lookup_eq_some_iff.mp found
        have member : (k,place) ∈ (rest.map Prod.fst).zipIdx (start + 1) := by
          rw [split]
          exact List.mem_append_right before List.mem_cons_self
        exact List.le_snd_of_mem_zipIdx member
      cases found : ((rest.map Prod.fst).zipIdx (start + 1)).lookup k with
      | none => rfl
      | some place =>
        have next := later place found
        have split : place - start = (place - (start + 1)) + 1 := by omega
        simp only [Option.bind_some, split, List.getElem?_cons_succ]

theorem finishLevel {tree : PathTree} (plain : tree.Plain) : (finish tree).Level where
  once := by
    rw [finishFields, finishNames]
    exact plain.1
  field := by
    intro name
    cases tree with
    | node w fields index wholes =>
      have none : index = none := plain.2
      subst none
      unfold PathTree.field fieldIn
      by_cases wide : scanUpTo < fields.length
      · simp only [finish, indexNode, if_pos wide, fieldsNode]
        have found := @indexScan _ (finishEach fields) name 0
        rw [finishNames] at found
        exact found
      · simp only [finish, indexNode, if_neg wide, fieldsNode]
  wholes := by
    cases tree with
    | node w fields index wholes =>
      rw [finish, fieldsNode, finishEachEq, List.countP_map]
      refine List.countP_congr fun field _ => ?_
      simp only [Function.comp_apply, finishWhole]

/-! What the paths say. -/

/- The paths through one name, past it. -/
def after (name : String) (paths : List (List String)) : List (List String) :=
  paths.filterMap fun
    | [] => none
    | seg :: rest => if seg = name then some rest else none

theorem memAfter {name : String} {paths : List (List String)} {rest : List String} :
    rest ∈ after name paths ↔ name :: rest ∈ paths := by
  unfold after
  rw [List.mem_filterMap]
  constructor
  · rintro ⟨path,listed,is⟩
    cases path with
    | nil => cases is
    | cons seg segs =>
      obtain ⟨same,own⟩ : seg = name ∧ segs = rest := by simpa using is
      rw [← same, ← own]
      exact listed
  · intro listed
    exact ⟨name :: rest,listed,if_pos rfl⟩

structure Reads (tree : PathTree) (paths : List (List String)) : Prop where
  level : ∀ path node, descend tree path = some node → node.Level
  ends : ∀ path, tree.ends path = true ↔ path ∈ paths
  reaches : ∀ path, path ≠ [] → (tree.reaches path = true ↔ ∃ listed ∈ paths, path <+: listed)

namespace Reads

variable {tree node : PathTree} {paths : List (List String)} {name : String}

theorem whole (reads : Reads tree paths) : tree.whole = true ↔ [] ∈ paths := reads.ends []

theorem own (reads : Reads tree paths) : tree.Level := reads.level [] tree rfl

theorem child (reads : Reads tree paths) (found : scan tree.fields name = some node) : Reads node (after name paths) where
  level := by
    intro path deeper below
    refine reads.level (name :: path) deeper ?_
    rw [descendCons, found]
    exact below
  ends := by
    intro path
    rw [memAfter, ← reads.ends, endsCons, found]
    rfl
  reaches := by
    intro path _
    have reached := reads.reaches (name :: path) (List.cons_ne_nil _ _)
    rw [reachesCons, found] at reached
    refine Iff.trans reached ?_
    constructor
    · rintro ⟨listed,member,rest,rfl⟩
      exact ⟨path ++ rest,memAfter.mpr member,rest,rfl⟩
    · rintro ⟨listed,member,start⟩
      exact ⟨name :: listed,memAfter.mp member,List.cons_prefix_cons.mpr ⟨rfl,start⟩⟩

theorem unnamed (reads : Reads tree paths) : scan tree.fields name = none ↔ after name paths = [] := by
  have reached := reads.reaches [name] (List.cons_ne_nil _ _)
  rw [reachesCons] at reached
  constructor
  · intro none
    refine List.eq_nil_iff_forall_not_mem.mpr fun rest inside => ?_
    rw [none] at reached
    cases reached.mpr ⟨name :: rest,memAfter.mp inside,rest,rfl⟩
  · intro none
    cases found : scan tree.fields name with
    | none => rfl
    | some node =>
      rw [found] at reached
      obtain ⟨listed,member,rest,rfl⟩ := reached.mp rfl
      have inside : rest ∈ after name paths := memAfter.mpr member
      rw [none] at inside
      cases inside

end Reads

/- The tree while the paths are added. -/
structure Adding (tree : PathTree) (paths : List (List String)) : Prop where
  plain : tree.PlainBelow
  ends : ∀ path, tree.ends path = true ↔ path ∈ paths
  reaches : ∀ path, path ≠ [] → (tree.reaches path = true ↔ ∃ listed ∈ paths, path <+: listed)

theorem addingEmpty : Adding empty [] where
  plain := emptyPlain
  ends := by
    intro path
    cases path with
    | nil => simp [endsNil, empty]
    | cons seg rest => simp [endsCons, emptyScan]
  reaches := by
    intro path some
    cases path with
    | nil => exact absurd rfl some
    | cons seg rest => simp [reachesCons, emptyScan]

theorem addingNext {tree : PathTree} {paths : List (List String)} (adding : Adding tree paths) (path : List String) :
    Adding (addPath path tree) (paths ++ [path]) where
  plain := plainBelowAdded path adding.plain
  ends := by
    intro q
    rw [endsAdded, Bool.or_eq_true, beq_iff_eq, adding.ends q, List.mem_append, List.mem_singleton]
    exact Or.comm
  reaches := by
    intro q some
    rw [reachesAdded, Bool.or_eq_true, List.isPrefixOf_iff_prefix, adding.reaches q some]
    constructor
    · rintro (start | ⟨listed,member,start⟩)
      · exact ⟨path,List.mem_append_right _ List.mem_cons_self,start⟩
      · exact ⟨listed,List.mem_append_left _ member,start⟩
    · rintro ⟨listed,member,start⟩
      rcases List.mem_append.mp member with earlier | last
      · exact Or.inr ⟨listed,earlier,start⟩
      · rw [List.mem_singleton.mp last] at start
        exact Or.inl start

theorem addingAll (paths : List String) {tree : PathTree} {before : List (List String)} (adding : Adding tree before) :
    Adding (paths.foldl (fun root path => addPath (segments path) root) tree) (before ++ paths.map segments) := by
  induction paths generalizing tree before with
  | nil => simpa using adding
  | cons path rest ih =>
    have next := ih (addingNext adding (segments path))
    rw [List.append_assoc] at next
    exact next

theorem ofReads (paths : List String) : Reads (of paths) (paths.map segments) := by
  have adding := addingAll paths addingEmpty
  rw [List.nil_append] at adding
  have same : ∀ path, descend (of paths) path = (descend (paths.foldl (fun root path => addPath (segments path) root) empty) path).map finish :=
    descendFinished _
  constructor
  · intro path node found
    rw [same] at found
    obtain ⟨plain,is,rfl⟩ := Option.map_eq_some_iff.mp found
    exact finishLevel (adding.plain path plain is)
  · intro path
    rw [← adding.ends path]
    unfold ends
    rw [same]
    cases descend (paths.foldl (fun root path => addPath (segments path) root) empty) path with
    | none => rfl
    | some node => rw [Option.map_some, Option.any_some, Option.any_some, finishWhole]
  · intro path some
    rw [← adding.reaches path some]
    unfold reaches
    rw [same, Option.isSome_map]

end PathTree

end Kimmy.Query.Shape
