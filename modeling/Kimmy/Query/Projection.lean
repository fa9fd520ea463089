import Kimmy.PathWrite
import Kimmy.Query.Prefixes

/-!
Projections (`shape.rs`). Inclusion and exclusion walk the document and the tree of the listed paths together and choose at
each level between several walks by the sizes of the two. All of them keep what the paths say by prefixes.
-/
namespace Kimmy.Query.Shape
open PathTree (fieldIn scan scanCons fieldInMap after memAfter Reads Level)

/-! Inclusion. -/

mutual

/- An element of an array a path continues through; `within` is `include_fields` at the node. -/
def includeElement (within : Document → Document) : Bson → Option Bson
  | .document inner => some (.document (within inner))
  | .array items => some (.array (includeElements within items))
  | _ => none

def includeElements (within : Document → Document) : List Bson → List Bson
  | [] => []
  | item :: rest => (includeElement within item).toList ++ includeElements within rest

end

/- What a node includes of a value. -/
def includeValue (whole : Bool) (within : Document → Document) (value : Bson) : Option Bson :=
  if whole then some value
  else match value with
    | .document inner => if (within inner).isEmpty then none else some (.document (within inner))
    | .array items => some (.array (includeElements within items))
    | _ => none

abbrev Branch := Bson → Option Bson

def includeField (out : Document) (key : String) (value : Bson) (branch : Branch) : Document :=
  match branch value with
  | some included => out.insert key included
  | none => out

/- The loop over the document, left once every field the tree names has been met. -/
def walk (branch : String → Option Branch) : Nat → Document → Document → Document
  | 0, out, _ => out
  | _ + 1, out, [] => out
  | unmet + 1, out, (key,value) :: rest => match branch key with
      | none => walk branch (unmet + 1) out rest
      | some node => walk branch unmet (includeField out key value node) rest

def Document.has (doc : Document) (name : String) : Bool := doc.any fun field => field.1 == name

/- The lookup of few fields in a wide document, or the walk. -/
def pick (named : List (String × Branch)) (branch : String → Option Branch) (doc : Document) : Document :=
  if named.length * 4 < doc.length then
    match named.filter fun field => Document.has doc field.1 with
    | [] => []
    | [(name,node)] => match doc.get name with
        | some value => includeField [] name value node
        | none => []
    | present => walk branch present.length [] doc
  else walk branch named.length [] doc

mutual

def includeFields : PathTree → Document → Document
  | .node _ fields index _, doc => pick (branches fields) (fieldIn index (branches fields)) doc

def branches : List (String × PathTree) → List (String × Branch)
  | [] => []
  | (name,node) :: rest => (name,includeValue node.whole (includeFields node)) :: branches rest

end

/-! Exclusion. -/

mutual

/- `within` is `exclude_fields` at the node. -/
def excludeValue (within : Document → Document) : Bson → Bson
  | .document inner => .document (within inner)
  | .array items => .array (excludeElements within items)
  | other => other

def excludeElements (within : Document → Document) : List Bson → List Bson
  | [] => []
  | item :: rest => excludeValue within item :: excludeElements within rest

end

def mostlyRemoved (doc : Document) (tree : PathTree) : Bool := decide (doc.length < tree.wholes * 2)

/- `get_mut`. -/
def alter (change : Bson → Bson) (name : String) : Document → Document
  | [] => []
  | (key,value) :: rest => if key = name then (key,change value) :: rest else (key,value) :: alter change name rest

def removeWholes (fields : List (String × PathTree)) (doc : Document) : Document :=
  fields.foldl (fun doc field => if field.2.whole then Document.remove doc field.1 else doc) doc

/- The fields that go whole. -/
def removed (tree : PathTree) (doc : Document) : Document :=
  if mostlyRemoved doc tree then doc.filter fun field => !(tree.field field.1).any PathTree.whole
  else if 0 < tree.wholes then removeWholes tree.fields doc
  else doc

mutual

def excludeFields : PathTree → Document → Document
  | .node whole fields index wholes, doc => excludeEach fields (removed (.node whole fields index wholes) doc)

def excludeEach : List (String × PathTree) → Document → Document
  | [], doc => doc
  | (name,node) :: rest, doc =>
      excludeEach rest (if node.whole then doc else alter (excludeValue (excludeFields node)) name doc)

end

mutual

/- The fields that stay, built. -/
def excludedEach : List (String × Bson) → PathTree → Document
  | [], _ => []
  | (key,value) :: rest, tree => match tree.field key with
      | none => (key,value) :: excludedEach rest tree
      | some node => if node.whole then excludedEach rest tree else (key,excludedValue value node) :: excludedEach rest tree

def excludedValue : Bson → PathTree → Bson
  | .document inner, node =>
      .document (if mostlyRemoved inner node then excludedEach inner node else excludeFields node inner)
  | .array items, node => .array (excludeElements (excludeFields node) items)
  | other, _ => other

end

def excluded (doc : Document) (tree : PathTree) : Document :=
  if mostlyRemoved doc tree then excludedEach doc tree else excludeFields tree doc

inductive Projection where
  | including (paths : List String)
  | excluding (paths : List String)

def project (projection : Option Projection) (doc : Document) : Document :=
  match projection with
  | none => doc
  | some (.excluding paths) => excluded doc (PathTree.of paths)
  | some (.including paths) => includeFields (PathTree.of paths) doc

/-! The walks of an inclusion agree. -/

/- Every field asked, none counted. -/
def gather (branch : String → Option Branch) : Document → Document
  | [] => []
  | (key,value) :: rest => (((branch key).bind fun node => node value).map fun v => (key,v)).toList ++ gather branch rest

theorem includedNew {out : Document} {key : String} (new : key ∉ out.map Prod.fst) (value : Bson) (node : Branch) :
    includeField out key value node = out ++ ((node value).map fun v => (key,v)).toList := by
  unfold includeField
  cases node value with
  | none => exact (List.append_nil out).symm
  | some included => exact Document.insertNew new included

section
variable {branch : String → Option Branch}

/- With as many fields unmet as are still to come, the walk leaves out none of them. -/
theorem walkAll (doc : Document) {unmet : Nat} {out : Document} (enough : doc.countP (fun field => (branch field.1).isSome) ≤ unmet)
    (once : ((out ++ doc).map Prod.fst).Nodup) : walk branch unmet out doc = out ++ gather branch doc := by
  induction doc generalizing unmet out with
  | nil => cases unmet <;> simp [walk, gather]
  | cons field rest ih =>
    obtain ⟨key,value⟩ := field
    have new : key ∉ out.map Prod.fst := by
      intro inside
      rw [List.map_append] at once
      exact (List.nodup_append.mp once).2.2 key inside key List.mem_cons_self rfl
    have later : ((out ++ rest).map Prod.fst).Nodup :=
      once.sublist (((List.sublist_cons_self _ rest).append_left out).map Prod.fst)
    rw [gather]
    cases named : branch key with
    | none =>
      rw [List.countP_cons_of_neg (by simp [named])] at enough
      have skipped : walk branch unmet out ((key,value) :: rest) = walk branch unmet out rest := by
        cases unmet with
        | zero => cases rest <;> rfl
        | succ unmet => simp only [walk, named]
      rw [skipped, ih enough later]
      rfl
    | some node =>
      rw [List.countP_cons_of_pos (by simp [named])] at enough
      obtain ⟨unmet,rfl⟩ : ∃ n, unmet = n + 1 := ⟨unmet - 1,by omega⟩
      have next : ((includeField out key value node ++ rest).map Prod.fst).Nodup := by
        rw [includedNew new]
        cases node value with
        | none => simpa using later
        | some included => simpa using once
      rw [walk, named]
      simp only
      rw [ih (by omega) next, includedNew new, List.append_assoc]
      rfl

theorem gatherOne {name : String} {node : Branch} (named : branch name = some node) {doc : Document} (once : (doc.map Prod.fst).Nodup)
    (only : ∀ key ∈ doc.map Prod.fst, (branch key).isSome → key = name) {value : Bson} (held : doc.get name = some value) :
    gather branch doc = ((node value).map fun v => (name,v)).toList := by
  have nothing : ∀ rest : Document, (∀ key ∈ rest.map Prod.fst, branch key = none) → gather branch rest = [] := by
    intro rest none
    induction rest with
    | nil => rfl
    | cons field rest ih =>
      rw [gather, none field.1 List.mem_cons_self, ih fun key later => none key (List.mem_cons_of_mem _ later)]
      rfl
  induction doc with
  | nil => cases held
  | cons field rest ih =>
    obtain ⟨key,own⟩ := field
    obtain ⟨apart,once⟩ := List.nodup_cons.mp once
    rw [gather]
    by_cases same : key = name
    · subst same
      have is : own = value := by simpa [Document.get] using held
      have none : ∀ other ∈ rest.map Prod.fst, branch other = none := by
        intro other later
        by_contra some
        have same := only other (List.mem_cons_of_mem _ later) (Option.isSome_iff_ne_none.mpr some)
        exact apart (same ▸ later)
      rw [nothing rest none, named, is, List.append_nil]
      rfl
    · have none : branch key = none := by
        by_contra some
        exact same (only key List.mem_cons_self (Option.isSome_iff_ne_none.mpr some))
      have later : Document.get rest name = some value := by simpa [Document.get, same] using held
      rw [none, ih once (fun other inside => only other (List.mem_cons_of_mem _ inside)) later]
      rfl

/- A field of the document that the tree names is a field the tree names that the document holds. -/
theorem namedPresent {named : List (String × Branch)} (covered : ∀ key, (branch key).isSome → key ∈ named.map Prod.fst) {doc : Document}
    (once : (doc.map Prod.fst).Nodup) :
    doc.countP (fun field => (branch field.1).isSome) ≤ (named.filter fun field => Document.has doc field.1).length := by
  rw [List.countP_eq_length_filter, ← List.length_map Prod.fst, ← @List.length_map _ _ (named.filter _) Prod.fst]
  refine (List.subperm_of_subset (once.sublist (List.filter_sublist.map Prod.fst)) ?_).length_le
  intro key inside
  obtain ⟨field,member,rfl⟩ := List.mem_map.mp inside
  obtain ⟨held,isNamed⟩ := List.mem_filter.mp member
  obtain ⟨entry,listed,same⟩ := List.mem_map.mp (covered field.1 isNamed)
  refine List.mem_map.mpr ⟨entry,List.mem_filter.mpr ⟨listed,?_⟩,same⟩
  exact List.any_eq_true.mpr ⟨field,held,by rw [same]; exact beq_self_eq_true _⟩

end

theorem hasGet {doc : Document} {name : String} (has : Document.has doc name = true) : ∃ value, doc.get name = some value := by
  unfold Document.has at has
  obtain ⟨field,held,same⟩ := List.any_eq_true.mp has
  unfold Document.get
  cases found : doc.find? fun field => field.1 == name with
  | none => exact absurd same (List.find?_eq_none.mp found field held)
  | some first => exact ⟨first.2,rfl⟩

theorem scanMem {α : Type} {fields : List (String × α)} {name : String} {node : α} (found : scan fields name = some node) :
    (name,node) ∈ fields := by
  obtain ⟨field,is,rfl⟩ := Option.map_eq_some_iff.mp found
  have same : field.1 = name := by simpa using List.find?_some is
  rw [← same]
  exact List.mem_of_find?_eq_some is

theorem scanOf {α : Type} {fields : List (String × α)} (once : (fields.map Prod.fst).Nodup) {name : String} {node : α}
    (listed : (name,node) ∈ fields) : scan fields name = some node := by
  unfold scan
  cases found : fields.find? fun field => field.1 == name with
  | none => exact absurd (List.find?_eq_none.mp found _ listed) (by simp)
  | some field =>
    have same : field.1 = name := by simpa using List.find?_some found
    have is := List.inj_on_of_nodup_map once (List.mem_of_find?_eq_some found) listed same
    rw [is]
    rfl

theorem pickAll {named : List (String × Branch)} {branch : String → Option Branch} {doc : Document}
    (apart : (named.map Prod.fst).Nodup) (agree : ∀ key, branch key = scan named key) (once : (doc.map Prod.fst).Nodup) :
    pick named branch doc = gather branch doc := by
  have covered : ∀ key, (branch key).isSome → key ∈ named.map Prod.fst := by
    intro key some
    obtain ⟨node,is⟩ := Option.isSome_iff_exists.mp some
    rw [agree] at is
    exact List.mem_map.mpr ⟨_,scanMem is,rfl⟩
  have count := namedPresent covered once
  unfold pick
  split_ifs with wide
  · split
    · rename_i absent
      rw [absent] at count
      have all := @walkAll branch doc 0 [] count once
      rw [walk] at all
      exact all
    · rename_i name node single
      have present : (name,node) ∈ named.filter fun field => Document.has doc field.1 := by
        rw [single]
        exact List.mem_singleton_self _
      obtain ⟨listed,has⟩ := List.mem_filter.mp present
      obtain ⟨value,held⟩ := hasGet has
      have only : ∀ key ∈ doc.map Prod.fst, (branch key).isSome → key = name := by
        intro key inside some
        obtain ⟨field,member,rfl⟩ := List.mem_map.mp inside
        obtain ⟨entry,known,same⟩ := List.mem_map.mp (covered field.1 some)
        have kept : entry ∈ named.filter fun field => Document.has doc field.1 :=
          List.mem_filter.mpr ⟨known,List.any_eq_true.mpr ⟨field,member,by rw [same]; exact beq_self_eq_true _⟩⟩
        rw [single, List.mem_singleton] at kept
        rw [← same, kept]
      have own : branch name = some node := by
        rw [agree]
        exact scanOf apart listed
      rw [held, gatherOne own once only held]
      exact includedNew (List.not_mem_nil) value node
    · exact walkAll doc count once
  · exact walkAll doc (count.trans (List.length_filter_le _ _)) once

theorem branchesEq (fields : List (String × PathTree)) :
    branches fields = fields.map fun field => (field.1,includeValue field.2.whole (includeFields field.2)) := by
  induction fields with
  | nil => rfl
  | cons field rest ih =>
    rw [branches, ih]
    rfl

/- Whichever walk the sizes choose, every field is asked. -/
theorem includeFieldsAll {tree : PathTree} (level : tree.Level) {doc : Document} (once : (doc.map Prod.fst).Nodup) :
    includeFields tree doc =
      gather (fun key => (scan tree.fields key).map fun node => includeValue node.whole (includeFields node)) doc := by
  cases tree with
  | node whole fields index wholes =>
    have agree : ∀ key, fieldIn index (branches fields) key =
        (scan fields key).map fun node => includeValue node.whole (includeFields node) := by
      intro key
      rw [branchesEq, fieldInMap (fun node => includeValue node.whole (includeFields node))]
      exact congrArg _ (level.field key)
    have scanned : ∀ key, fieldIn index (branches fields) key = scan (branches fields) key := by
      intro key
      rw [agree, branchesEq]
      exact (fieldInMap (fun node => includeValue node.whole (includeFields node)) none fields key).symm
    have names : ((branches fields).map Prod.fst).Nodup := by
      rw [branchesEq, List.map_map]
      exact level.once
    rw [includeFields, pickAll names scanned once, funext agree]
    rfl

/-! An inclusion is decided by the paths. -/

mutual

theorem includedValue : (value : Bson) → Distinct value → (node : PathTree) → (paths : List (List String)) → Reads node paths →
    includeValue node.whole (includeFields node) value = kept paths value
  | .document fields, distinct, node, paths, reads => by
      have below := includedFields fields distinct.2 node paths reads
      unfold includeValue
      rw [kept]
      by_cases whole : [] ∈ paths
      · rw [if_pos whole, if_pos (reads.whole.mpr whole)]
      · rw [if_neg whole, if_neg fun is => whole (reads.whole.mp is)]
        simp only
        rw [includeFieldsAll reads.own distinct.1, below]
  | .array items, distinct, node, paths, reads => by
      have below := includedItems items distinct node paths reads
      unfold includeValue
      rw [kept]
      by_cases whole : [] ∈ paths
      · rw [if_pos whole, if_pos (reads.whole.mpr whole)]
      · rw [if_neg whole, if_neg fun is => whole (reads.whole.mp is)]
        simp only
        rw [below]
  | .double _, _, node, paths, reads | .string _, _, node, paths, reads | .binary _ _, _, node, paths, reads
  | .undefined, _, node, paths, reads | .objectId _, _, node, paths, reads | .boolean _, _, node, paths, reads
  | .dateTime _, _, node, paths, reads | .null, _, node, paths, reads | .regularExpression _ _, _, node, paths, reads
  | .javaScriptCode _, _, node, paths, reads | .javaScriptCodeWithScope _ _, _, node, paths, reads
  | .int32 _, _, node, paths, reads | .timestamp _ _, _, node, paths, reads | .int64 _, _, node, paths, reads
  | .decimal128 _, _, node, paths, reads | .minKey, _, node, paths, reads | .maxKey, _, node, paths, reads
  | .symbol _, _, node, paths, reads | .dbPointer, _, node, paths, reads => by
      unfold includeValue
      rw [kept]
      by_cases whole : [] ∈ paths
      · rw [if_pos whole, if_pos (reads.whole.mpr whole)]
      · rw [if_neg whole, if_neg fun is => whole (reads.whole.mp is)]
      all_goals simp

theorem includedFields : (fields : List (String × Bson)) → FieldsDistinct fields → (tree : PathTree) → (paths : List (List String)) →
    Reads tree paths →
    gather (fun key => (scan tree.fields key).map fun node => includeValue node.whole (includeFields node)) fields =
      keptFields paths fields
  | [], _, _, _, _ => rfl
  | (key,value) :: rest, distinct, tree, paths, reads => by
      rw [gather, keptFields, includedFields rest distinct.2 tree paths reads]
      cases found : scan tree.fields key with
      | none =>
        rw [if_pos (reads.unnamed.mp found)]
        rfl
      | some node =>
        have some : after key paths ≠ [] := by
          intro none
          rw [reads.unnamed.mpr none] at found
          cases found
        rw [if_neg some, ← includedValue value distinct.1 node (after key paths) (reads.child found)]
        rfl

theorem includedItems : (items : List Bson) → ItemsDistinct items → (node : PathTree) → (paths : List (List String)) → Reads node paths →
    includeElements (includeFields node) items = keptItems paths items
  | [], _, _, _, _ => rfl
  | item :: rest, distinct, node, paths, reads => by
      rw [includeElements, keptItems, includedItem item distinct.1 node paths reads, includedItems rest distinct.2 node paths reads]

theorem includedItem : (item : Bson) → Distinct item → (node : PathTree) → (paths : List (List String)) → Reads node paths →
    includeElement (includeFields node) item = keptItem paths item
  | .document fields, distinct, node, paths, reads => by
      rw [includeElement, keptItem, includeFieldsAll reads.own distinct.1, includedFields fields distinct.2 node paths reads]
  | .array items, distinct, node, paths, reads => by
      rw [includeElement, keptItem, includedItems items distinct node paths reads]
  | .double _, _, node, paths, _ | .string _, _, node, paths, _ | .binary _ _, _, node, paths, _
  | .undefined, _, node, paths, _ | .objectId _, _, node, paths, _ | .boolean _, _, node, paths, _
  | .dateTime _, _, node, paths, _ | .null, _, node, paths, _ | .regularExpression _ _, _, node, paths, _
  | .javaScriptCode _, _, node, paths, _ | .javaScriptCodeWithScope _ _, _, node, paths, _
  | .int32 _, _, node, paths, _ | .timestamp _ _, _, node, paths, _ | .int64 _, _, node, paths, _
  | .decimal128 _, _, node, paths, _ | .minKey, _, node, paths, _ | .maxKey, _, node, paths, _
  | .symbol _, _, node, paths, _ | .dbPointer, _, node, paths, _ => by
      simp only [includeElement, keptItem]

end

/-! The walks of an exclusion agree. -/

/- Every field asked. -/
def strip (tree : PathTree) : Document → Document
  | [] => []
  | (key,value) :: rest => match scan tree.fields key with
      | none => (key,value) :: strip tree rest
      | some node => if node.whole then strip tree rest else (key,excludeValue (excludeFields node) value) :: strip tree rest

/- The name goes whole. -/
def goes (fields : List (String × PathTree)) (key : String) : Bool := (scan fields key).any PathTree.whole

theorem goesCons (name : String) (node : PathTree) (rest : List (String × PathTree)) (key : String) :
    goes ((name,node) :: rest) key = if name = key then node.whole else goes rest key := by
  unfold goes
  rw [scanCons]
  split_ifs <;> rfl

theorem goesUnnamed {fields : List (String × PathTree)} {name : String} (absent : name ∉ fields.map Prod.fst) : scan fields name = none := by
  cases found : scan fields name with
  | none => rfl
  | some node => exact absurd (List.mem_map.mpr ⟨_,scanMem found,rfl⟩) absent

theorem removeWholesAll {fields : List (String × PathTree)} (once : (fields.map Prod.fst).Nodup) (doc : Document) :
    removeWholes fields doc = doc.filter fun field => !goes fields field.1 := by
  unfold removeWholes
  induction fields generalizing doc with
  | nil => exact (List.filter_eq_self.mpr fun _ _ => rfl).symm
  | cons first rest ih =>
    obtain ⟨name,node⟩ := first
    obtain ⟨apart,once⟩ := List.nodup_cons.mp once
    have none : goes rest name = false := by
      unfold goes
      rw [goesUnnamed apart]
      rfl
    rw [List.foldl_cons, ih once]
    by_cases whole : node.whole = true
    · rw [if_pos whole, Document.remove, List.filter_filter]
      refine List.filter_congr fun field _ => ?_
      rw [goesCons]
      by_cases same : name = field.1
      · simp [same, whole]
      · simp [same, Ne.symm same]
    · rw [if_neg whole]
      refine List.filter_congr fun field _ => ?_
      rw [goesCons]
      by_cases same : name = field.1
      · rw [if_pos same, ← same, none, Bool.eq_false_iff.mpr whole]
      · rw [if_neg same]

/- Filtered, removed one by one or not touched: the same fields stay. -/
theorem removedAll {tree : PathTree} (level : tree.Level) (doc : Document) :
    removed tree doc = doc.filter fun field => !goes tree.fields field.1 := by
  unfold removed
  split_ifs with most few
  · refine List.filter_congr fun field _ => ?_
    rw [level.field]
    rfl
  · exact removeWholesAll level.once doc
  · have none : ∀ field ∈ tree.fields, ¬field.2.whole = true := by
      have count := level.wholes
      rw [Nat.eq_zero_of_not_pos few] at count
      exact List.countP_eq_zero.mp count.symm
    refine (List.filter_eq_self.mpr fun field _ => ?_).symm
    unfold goes
    cases found : scan tree.fields field.1 with
    | none => rfl
    | some node =>
      have open' := none _ (scanMem found)
      simpa using open'

/- What a name's node leaves of the value under it. -/
def reduce (fields : List (String × PathTree)) (field : String × Bson) : String × Bson :=
  match scan fields field.1 with
  | none => field
  | some node => if node.whole then field else (field.1,excludeValue (excludeFields node) field.2)

theorem alterAll (change : Bson → Bson) (name : String) {doc : Document} (once : (doc.map Prod.fst).Nodup) :
    alter change name doc = doc.map fun field => if field.1 = name then (field.1,change field.2) else field := by
  induction doc with
  | nil => rfl
  | cons first rest ih =>
    obtain ⟨key,value⟩ := first
    obtain ⟨apart,once⟩ := List.nodup_cons.mp once
    rw [alter, List.map_cons]
    by_cases same : key = name
    · rw [if_pos same, if_pos same]
      congr 1
      refine (List.map_id' rest).symm.trans (List.map_congr_left fun field later => ?_)
      refine (if_neg fun is => apart ?_).symm
      rw [same, ← is]
      exact List.mem_map.mpr ⟨field,later,rfl⟩
    · rw [if_neg same, if_neg same, ih once]

theorem eachAll {fields : List (String × PathTree)} (apart : (fields.map Prod.fst).Nodup) {doc : Document}
    (once : (doc.map Prod.fst).Nodup) : excludeEach fields doc = doc.map (reduce fields) := by
  induction fields generalizing doc with
  | nil => exact (List.map_id' doc).symm
  | cons first rest ih =>
    obtain ⟨name,node⟩ := first
    obtain ⟨new,apart⟩ := List.nodup_cons.mp apart
    rw [excludeEach]
    by_cases whole : node.whole = true
    · rw [if_pos whole, ih apart once]
      refine List.map_congr_left fun field _ => ?_
      unfold reduce
      rw [scanCons]
      by_cases same : name = field.1
      · rw [if_pos same, ← same, goesUnnamed new]
        simp only [whole, if_true]
      · rw [if_neg same]
    · have altered := alterAll (excludeValue (excludeFields node)) name once
      have names : (alter (excludeValue (excludeFields node)) name doc).map Prod.fst = doc.map Prod.fst := by
        rw [altered, List.map_map]
        refine List.map_congr_left fun field _ => ?_
        simp only [Function.comp_apply]
        split_ifs <;> rfl
      rw [if_neg whole, ih apart (by rw [names]; exact once), altered, List.map_map]
      refine List.map_congr_left fun field _ => ?_
      simp only [Function.comp_apply]
      unfold reduce
      rw [scanCons]
      by_cases same : field.1 = name
      · rw [if_pos same, if_pos same.symm]
        simp only [same, goesUnnamed new, whole, Bool.false_eq_true, if_false]
      · rw [if_neg same, if_neg (Ne.symm same)]

theorem stripEq (tree : PathTree) (doc : Document) :
    (doc.filter fun field => !goes tree.fields field.1).map (reduce tree.fields) = strip tree doc := by
  induction doc with
  | nil => rfl
  | cons field rest ih =>
    obtain ⟨key,value⟩ := field
    rw [strip]
    have goesKey : goes tree.fields key = (scan tree.fields key).any PathTree.whole := rfl
    cases found : scan tree.fields key with
    | none =>
      rw [List.filter_cons_of_pos (by simp [goesKey, found]), List.map_cons, ih]
      simp only [reduce, found]
    | some node =>
      by_cases whole : node.whole = true
      · rw [List.filter_cons_of_neg (by simp [goesKey, found, whole]), ih]
        simp only [whole, if_true]
      · rw [List.filter_cons_of_pos (by simp [goesKey, found, whole]), List.map_cons, ih]
        simp only [reduce, found, whole, Bool.false_eq_true, if_false]

theorem excludeFieldsAll {tree : PathTree} (level : tree.Level) {doc : Document} (once : (doc.map Prod.fst).Nodup) :
    excludeFields tree doc = strip tree doc := by
  rw [← stripEq]
  cases tree with
  | node whole fields index wholes =>
    rw [excludeFields, removedAll level]
    exact eachAll level.once (once.sublist (List.filter_sublist.map Prod.fst))

/-! An exclusion is decided by the paths. -/

mutual

theorem strippedValue : (value : Bson) → Distinct value → (node : PathTree) → (paths : List (List String)) → Reads node paths →
    excludeValue (excludeFields node) value = left paths value
  | .document fields, distinct, node, paths, reads => by
      rw [excludeValue, left, excludeFieldsAll reads.own distinct.1, strippedFields fields distinct.2 node paths reads]
  | .array items, distinct, node, paths, reads => by
      rw [excludeValue, left, strippedItems items distinct node paths reads]
  | .double _, _, node, paths, _ | .string _, _, node, paths, _ | .binary _ _, _, node, paths, _
  | .undefined, _, node, paths, _ | .objectId _, _, node, paths, _ | .boolean _, _, node, paths, _
  | .dateTime _, _, node, paths, _ | .null, _, node, paths, _ | .regularExpression _ _, _, node, paths, _
  | .javaScriptCode _, _, node, paths, _ | .javaScriptCodeWithScope _ _, _, node, paths, _
  | .int32 _, _, node, paths, _ | .timestamp _ _, _, node, paths, _ | .int64 _, _, node, paths, _
  | .decimal128 _, _, node, paths, _ | .minKey, _, node, paths, _ | .maxKey, _, node, paths, _
  | .symbol _, _, node, paths, _ | .dbPointer, _, node, paths, _ => by
      simp only [excludeValue, left]

theorem strippedFields : (fields : List (String × Bson)) → FieldsDistinct fields → (tree : PathTree) → (paths : List (List String)) →
    Reads tree paths → strip tree fields = leftFields paths fields
  | [], _, _, _, _ => rfl
  | (key,value) :: rest, distinct, tree, paths, reads => by
      rw [strip, leftFields, strippedFields rest distinct.2 tree paths reads]
      cases found : scan tree.fields key with
      | none =>
        have none := reads.unnamed.mp found
        rw [none, if_neg List.not_mem_nil, leftAll]
      | some node =>
        have below := reads.child found
        simp only
        rw [strippedValue value distinct.1 node (after key paths) below]
        by_cases whole : [] ∈ after key paths
        · rw [if_pos whole, if_pos (below.whole.mpr whole)]
        · rw [if_neg whole, if_neg fun is => whole (below.whole.mp is)]

theorem strippedItems : (items : List Bson) → ItemsDistinct items → (node : PathTree) → (paths : List (List String)) → Reads node paths →
    excludeElements (excludeFields node) items = leftItems paths items
  | [], _, _, _, _ => rfl
  | item :: rest, distinct, node, paths, reads => by
      rw [excludeElements, leftItems, strippedValue item distinct.1 node paths reads, strippedItems rest distinct.2 node paths reads]

end

mutual

/- Building what stays gives what removing leaves. -/
theorem builtFields : (fields : List (String × Bson)) → FieldsDistinct fields → (tree : PathTree) → (paths : List (List String)) →
    Reads tree paths → excludedEach fields tree = leftFields paths fields
  | [], _, _, _, _ => rfl
  | (key,value) :: rest, distinct, tree, paths, reads => by
      rw [excludedEach, leftFields, builtFields rest distinct.2 tree paths reads, reads.own.field]
      cases found : scan tree.fields key with
      | none =>
        have none := reads.unnamed.mp found
        rw [none, if_neg List.not_mem_nil, leftAll]
      | some node =>
        have below := reads.child found
        simp only
        rw [builtValue value distinct.1 node (after key paths) below]
        by_cases whole : [] ∈ after key paths
        · rw [if_pos whole, if_pos (below.whole.mpr whole)]
        · rw [if_neg whole, if_neg fun is => whole (below.whole.mp is)]

theorem builtValue : (value : Bson) → Distinct value → (node : PathTree) → (paths : List (List String)) → Reads node paths →
    excludedValue value node = left paths value
  | .document fields, distinct, node, paths, reads => by
      rw [excludedValue, left, excludeFieldsAll reads.own distinct.1, strippedFields fields distinct.2 node paths reads,
        builtFields fields distinct.2 node paths reads, ite_self]
  | .array items, distinct, node, paths, reads => by
      rw [excludedValue, left, strippedItems items distinct node paths reads]
  | .double _, _, node, paths, _ | .string _, _, node, paths, _ | .binary _ _, _, node, paths, _
  | .undefined, _, node, paths, _ | .objectId _, _, node, paths, _ | .boolean _, _, node, paths, _
  | .dateTime _, _, node, paths, _ | .null, _, node, paths, _ | .regularExpression _ _, _, node, paths, _
  | .javaScriptCode _, _, node, paths, _ | .javaScriptCodeWithScope _ _, _, node, paths, _
  | .int32 _, _, node, paths, _ | .timestamp _ _, _, node, paths, _ | .int64 _, _, node, paths, _
  | .decimal128 _, _, node, paths, _ | .minKey, _, node, paths, _ | .maxKey, _, node, paths, _
  | .symbol _, _, node, paths, _ | .dbPointer, _, node, paths, _ => by
      simp only [excludedValue, left]

end

/-! Documents. -/

structure Held where
  fields : Document
  distinct : Distinct (.document fields)

theorem projectIncluding (paths : List String) (doc : Held) :
    project (some (.including paths)) doc.fields = keptFields (paths.map segments) doc.fields := by
  have reads := PathTree.ofReads paths
  unfold project
  simp only
  rw [includeFieldsAll reads.own doc.distinct.1, includedFields doc.fields doc.distinct.2 _ _ reads]

theorem projectExcluding (paths : List String) (doc : Held) :
    project (some (.excluding paths)) doc.fields = leftFields (paths.map segments) doc.fields := by
  have reads := PathTree.ofReads paths
  unfold project excluded
  simp only
  rw [excludeFieldsAll reads.own doc.distinct.1, strippedFields doc.fields doc.distinct.2 _ _ reads,
    builtFields doc.fields doc.distinct.2 _ _ reads, ite_self]

theorem pathsSome (paths : List String) : [] ∉ paths.map segments := by
  intro inside
  obtain ⟨path,_,none⟩ := List.mem_map.mp inside
  exact segmentsSome path none

/- By the prefixes of the names that lead to a scalar. -/
def survives : Projection → List String × Bson → Bool
  | .including paths, leaf => covers (paths.map segments) leaf
  | .excluding paths, leaf => !covers (paths.map segments) leaf

theorem projectWithin (projection : Projection) (doc : Held) : FieldsWithin (project (some projection) doc.fields) doc.fields := by
  cases projection with
  | including paths =>
    rw [projectIncluding]
    exact keptFieldsWithin doc.fields _
  | excluding paths =>
    rw [projectExcluding]
    exact leftFieldsWithin doc.fields _

/- What is projected holds each name once, so that it may be projected again. -/
def projected (projection : Projection) (doc : Held) : Held where
  fields := project (some projection) doc.fields
  distinct := distinctWithin _ doc.distinct _ (.document (projectWithin projection doc))

theorem decidedByPrefixes (projection : Projection) (doc : Held) :
    leaves (.document (project (some projection) doc.fields)) = (leaves (.document doc.fields)).filter (survives projection) ∧
    FieldsWithin (project (some projection) doc.fields) doc.fields ∧
    project (some projection) (project (some projection) doc.fields) = project (some projection) doc.fields := by
  refine ⟨?_,projectWithin projection doc,?_⟩
  · cases projection with
    | including paths =>
      rw [projectIncluding, leaves, leaves, keptFieldLeaves doc.fields _ (pathsSome paths)]
      rfl
    | excluding paths =>
      rw [projectExcluding, leaves, leaves, leftFieldLeaves doc.fields _ (pathsSome paths)]
      rfl
  · -- The second projection reads the same tree over a document that again holds each name once.
    cases projection with
    | including paths =>
      refine (projectIncluding paths (projected (.including paths) doc)).trans ?_
      have once : (projected (.including paths) doc).fields = keptFields (paths.map segments) doc.fields := projectIncluding paths doc
      rw [once, projectIncluding, keptFieldsTwice]
    | excluding paths =>
      refine (projectExcluding paths (projected (.excluding paths) doc)).trans ?_
      have once : (projected (.excluding paths) doc).fields = leftFields (paths.map segments) doc.fields := projectExcluding paths doc
      rw [once, projectExcluding, leftFieldsTwice]

end Kimmy.Query.Shape
