import Kimmy.Query.Split

/-!
The pipeline form of `$lookup` attaches what a nested loop would. Whether the clauses that read no variable were applied once, an
equality was answered from the hash table, or either attempt was abandoned, an input document gets the foreign documents for which
the whole leading filter holds, in their order; and where it cannot be decided, it fails as the loop does.
-/
namespace Kimmy.Query.Lookup
open ByteOrder (Bytes)
open CanonicalCmp KeyOrder
open Graph (encodeKey)
open Traverse (bindOk okPairs)

section
variable {Op Schema : Type} (m : Matchers Op Schema)

/- The loop with nothing applied ahead of it. -/
def joinNested (stage : PipelineLookup Op Schema) (foreign : List Document) : List Document → Except Error (List Document)
  | [] => .ok []
  | doc :: input => do
      let vars ← stage.vars m doc
      let matched ← kept (fun other => matchesWith m stage.first other vars) foreign
      let joined ← stage.rest vars matched
      let out ← joinNested stage foreign input
      .ok (stage.attach doc joined :: out)

/- Where the filter cannot be decided, it is for an error about a value. -/
def Calm (filter : Filter (Expr Op) Schema) (vars : Bindings) (docs : List Document) : Prop :=
  ∀ doc ∈ docs, ∀ e, truth m filter doc vars = .error e → e.isDeferrable = true

/-! Conjunctions, continued. -/

theorem conjAppend {ys zs : List (Except Error Bool)} (same : ∀ w, conj w ys = conj w zs) (u : Option Error) (xs : List (Except Error Bool)) :
    conj u (xs ++ ys) = conj u (xs ++ zs) := by
  induction xs generalizing u with
  | nil => exact same u
  | cons x xs ih =>
    rcases x with e | v
    · rw [List.cons_append, List.cons_append, conjError, conjError, ih]
    · cases v with
      | true => exact ih u
      | false => rfl

/- A leaf that does not hold leaves the conjunction refuted, unless an error that may not wait comes first. -/
theorem conjRefuted {u : Option Error} {xs : List (Except Error Bool)} (refuted : .ok false ∈ xs) :
    conj u xs = .ok false ∨ ∃ e, conj u xs = .error e ∧ e.isDeferrable = false := by
  induction xs generalizing u with
  | nil => cases refuted
  | cons x xs ih =>
    rcases x with e | v
    · have later : .ok false ∈ xs := by
        rcases List.mem_cons.mp refuted with no | later
        · cases no
        · exact later
      rw [conjError]
      split_ifs with waits
      · exact ih later
      · exact Or.inr ⟨e,rfl,by simpa using waits⟩
    · cases v with
      | true =>
        rcases List.mem_cons.mp refuted with no | later
        · cases no
        · exact ih later
      | false => exact Or.inl rfl

/-! Keeping. -/

theorem keptCongr {p q : Document → Except Error Bool} {docs : List Document} (same : ∀ doc ∈ docs, p doc = q doc) :
    kept p docs = kept q docs := by
  induction docs with
  | nil => rfl
  | cons doc docs ih =>
    simp only [kept]
    rw [same doc List.mem_cons_self, ih fun other member => same other (List.mem_cons_of_mem _ member)]

theorem keptFilter (p : Document → Bool) (docs : List Document) : kept (fun doc => .ok (p doc)) docs = .ok (docs.filter p) := by
  induction docs with
  | nil => rfl
  | cons doc docs ih =>
    simp only [kept, ih, List.filter_cons]
    rfl

/- A test applied ahead, where what it turns away is turned away all the same. -/
theorem keptAhead {p q r : Document → Except Error Bool} {docs base : List Document} (done : kept p docs = .ok base)
    (holds : ∀ doc ∈ docs, p doc = .ok true → q doc = r doc) (fails : ∀ doc ∈ docs, p doc = .ok false → q doc = .ok false) :
    kept q docs = kept r base := by
  induction docs generalizing base with
  | nil =>
    cases done
    rfl
  | cons doc docs ih =>
    simp only [kept] at done
    obtain ⟨held,is,done⟩ := bindOk done
    obtain ⟨more,rest,done⟩ := bindOk done
    cases done
    have later := ih rest (fun other member => holds other (List.mem_cons_of_mem _ member))
      fun other member => fails other (List.mem_cons_of_mem _ member)
    cases held with
    | true =>
      simp only [if_true, kept]
      rw [holds doc List.mem_cons_self is, later]
    | false =>
      simp only [Bool.false_eq_true, if_false]
      simp only [kept]
      rw [fails doc List.mem_cons_self is, later]
      cases kept r more <;> rfl

theorem keptMem {p : Document → Except Error Bool} {docs base : List Document} (done : kept p docs = .ok base) :
    ∀ doc ∈ base, doc ∈ docs ∧ p doc = .ok true := by
  induction docs generalizing base with
  | nil =>
    cases done
    nofun
  | cons doc docs ih =>
    simp only [kept] at done
    obtain ⟨held,is,done⟩ := bindOk done
    obtain ⟨more,rest,done⟩ := bindOk done
    cases done
    intro other member
    have later (there : other ∈ more) : other ∈ doc :: docs ∧ p other = .ok true :=
      (ih rest other there).imp_left (List.mem_cons_of_mem doc)
    cases held with
    | true =>
      rcases List.mem_cons.mp member with rfl | there
      · exact ⟨List.mem_cons_self,is⟩
      · exact later there
    | false => exact later member

/-! Leaves. -/

variable {m} {vars : Bindings} {doc : Document}

theorem truthEach (fs : List (Filter (Expr Op) Schema)) :
    ((evaluateEach m.language vars fs doc).map fun item => (item ()).1) = fs.map fun f => truth m f doc vars := by
  induction fs with
  | nil => simp only [evaluateEach, List.map_nil]
  | cons f fs ih =>
    simp only [evaluateEach, List.map_cons, ih]
    rfl

theorem truthAnd (fs : List (Filter (Expr Op) Schema)) : truth m (.and fs) doc vars = conj none (fs.map fun f => truth m f doc vars) := by
  unfold truth
  simp only [evaluate, allOf]
  rw [decideConj, truthEach]
  rfl

mutual

theorem truthFlatten : (f : Filter (Expr Op) Schema) → truth m f doc vars = conj none ((flatten f).map fun leaf => truth m leaf doc vars)
  | .alwaysTrue => by
      simp only [flatten, List.map_nil, conj]
      unfold truth
      simp only [evaluate]
      rfl
  | .and fs => by
      simp only [flatten]
      rw [truthAnd, conjEach fs]
  | .or _ | .nor _ | .field _ _ | .expr _ | .jsonSchema _ | .sampleRate _ => by
      simp only [flatten, List.map_cons, List.map_nil]
      rw [conjOne]

theorem conjEach : (fs : List (Filter (Expr Op) Schema)) → {u : Option Error} →
    conj u (fs.map fun f => truth m f doc vars) = conj u ((flattenEach fs).map fun leaf => truth m leaf doc vars)
  | [], _ => by simp only [flattenEach, List.map_nil]
  | f :: fs, u => by
      simp only [flattenEach, List.map_cons, List.map_append]
      rw [truthFlatten f, @conjNested u none nofun, Option.or_none]
      exact conjAppend (fun w => conjEach fs) u _

end

theorem truthAll (leaves : List (Filter (Expr Op) Schema)) :
    truth m (all leaves) doc vars = conj none (leaves.map fun leaf => truth m leaf doc vars) := by
  unfold all
  split_ifs with empty
  · rw [List.isEmpty_iff.mp empty]
    unfold truth
    simp only [evaluate]
    rfl
  · exact truthAnd leaves

theorem matchesOk {filter : Filter (Expr Op) Schema} {b : Bool} (is : matchesWith m filter doc vars = .ok b) :
    truth m filter doc vars = .ok b := by
  unfold matchesWith at is
  cases told : truth m filter doc vars with
  | error e =>
    rw [told] at is
    cases is
  | ok v =>
    rw [told] at is
    exact is

/-! What the analysis takes apart. -/

variable {names : List String} {whole : Filter (Expr Op) Schema} {lead : Lead Op Schema}

theorem analyzed (is : analyze names whole = some lead) :
    lead.independent = all ((flatten whole).filter fun leaf => !varies names leaf) ∧
      lead.variable' = all ((flatten whole).filter (varies names)) ∧
      ∀ key, lead.key = some key → ∃ place leaf, ((flatten whole).filter (varies names))[place]? = some leaf ∧
        keyOf names leaf = some key ∧ lead.residual = all (((flatten whole).filter (varies names)).eraseIdx place) := by
  unfold analyze at is
  simp only at is
  split_ifs at is
  cases is
  refine ⟨rfl,rfl,fun key keyed => ?_⟩
  obtain ⟨place,found,keyed⟩ := Option.bind_eq_some_iff.mp keyed
  obtain ⟨leaf,there,keyed⟩ := Option.bind_eq_some_iff.mp keyed
  refine ⟨place,leaf,there,keyed,?_⟩
  simp only [found]

/- The clauses applied once say of a document what they say under any variables of the scope. -/
theorem independentApart (is : analyze names whole = some lead) (own : ∀ bound ∈ vars, bound.1 ∈ names) :
    truth m lead.independent doc vars = truth m lead.independent doc [] := by
  rw [(analyzed is).1, truthAll, truthAll]
  refine congrArg (conj none) (List.map_congr_left fun leaf member => ?_)
  have still := (List.mem_filter.mp member).2
  simp only [varies, Bool.not_eq_true', Bool.or_eq_false_iff] at still
  exact (truthApart m (differNone own) still.1 doc).symm

theorem wholeHolds (is : analyze names whole = some lead) (own : ∀ bound ∈ vars, bound.1 ∈ names)
    (holds : truth m lead.independent doc [] = .ok true) : truth m whole doc vars = truth m lead.variable' doc vars := by
  rw [← independentApart is own, (analyzed is).1, truthAll] at holds
  rw [truthFlatten whole, (analyzed is).2.1, truthAll]
  refine conjFilter _ (fun leaf member constant => ?_) none
  refine conjTrue holds _ (List.mem_map.mpr ⟨leaf,List.mem_filter.mpr ⟨member,?_⟩,rfl⟩)
  rw [constant]
  rfl

theorem wholeRefuted (is : analyze names whole = some lead) (own : ∀ bound ∈ vars, bound.1 ∈ names)
    (fails : truth m lead.independent doc [] = .ok false) (calm : ∀ e, truth m whole doc vars = .error e → e.isDeferrable = true) :
    truth m whole doc vars = .ok false := by
  rw [← independentApart is own, (analyzed is).1, truthAll] at fails
  obtain ⟨leaf,member,refuted⟩ := List.mem_map.mp (conjFalse fails)
  have inside : .ok false ∈ (flatten whole).map fun leaf => truth m leaf doc vars :=
    List.mem_map.mpr ⟨leaf,List.mem_of_mem_filter member,refuted⟩
  have law := @truthFlatten _ _ m vars doc whole
  rcases @conjRefuted none _ inside with done | ⟨e,error,urgent⟩
  · exact law.trans done
  · have waits := calm e (law.trans error)
    rw [waits] at urgent
    cases urgent

/-! The hash table. -/

def keyBytes (m : Matchers Op Schema) (key : JoinKey Op) (doc : Document) : Option Bytes :=
  (eval m.ops [] doc key.foreign).value.toOption.bind encodeKey

theorem fileFromSpec {key : JoinKey Op} {docs before : List Document} {table out : SortedMap Bytes (List Nat)}
    (filed : fileFrom m key table before.length docs = some out) :
    (∀ doc ∈ docs, (keyBytes m key doc).isSome) ∧ ∀ bytes, ((out.get bytes).getD []).filterMap ((before ++ docs)[·]?) =
      ((table.get bytes).getD []).filterMap ((before ++ docs)[·]?) ++ docs.filter fun doc => keyBytes m key doc = some bytes := by
  induction docs generalizing before table with
  | nil =>
    cases filed
    exact ⟨nofun,fun bytes => (List.append_nil _).symm⟩
  | cons doc docs ih =>
    simp only [fileFrom] at filed
    obtain ⟨value,read,filed⟩ := Option.bind_eq_some_iff.mp filed
    obtain ⟨own,coded,filed⟩ := Option.bind_eq_some_iff.mp filed
    have bytes : keyBytes m key doc = some own := by
      unfold keyBytes
      rw [read]
      exact coded
    have next : fileFrom m key (table.insert own ((table.get own).getD [] ++ [before.length])) (before ++ [doc]).length docs = some out := by
      rw [List.length_append]
      exact filed
    obtain ⟨all,rest⟩ := ih next
    have here : ∀ docs', (before ++ doc :: docs')[before.length]? = some doc := fun docs' => by simp
    refine ⟨fun other member => ?_,fun b => ?_⟩
    · rcases List.mem_cons.mp member with rfl | later
      · rw [bytes]
        rfl
      · exact all other later
    · have step := rest b
      rw [List.append_assoc, List.singleton_append] at step
      rw [step, SortedMap.getInsert, List.filter_cons]
      by_cases same : b = own
      · subst same
        rw [if_pos rfl, if_pos (by simpa using bytes), Option.getD_some, List.filterMap_append, List.append_assoc]
        congr 1
        rw [List.filterMap_cons, here]
        rfl
      · have other : ¬(decide (keyBytes m key doc = some b)) = true := by
          rw [bytes]
          simpa using fun is : own = b => same is.symm
        rw [if_neg same, if_neg other]

/- The documents filed under a key are those with it, in their order. -/
theorem filedUnder {key : JoinKey Op} {base : List Document} {table : SortedMap Bytes (List Nat)}
    (filed : fileFrom m key .empty 0 base = some table) : (∀ doc ∈ base, (keyBytes m key doc).isSome) ∧
      ∀ bytes, ((table.get bytes).getD []).filterMap (base[·]?) = base.filter fun doc => keyBytes m key doc = some bytes := by
  obtain ⟨all,under⟩ := @fileFromSpec _ _ m key base [] .empty table filed
  exact ⟨all,fun bytes => (under bytes).trans (List.nil_append _)⟩

theorem valueOk {o : Outcome} {v : Bson} (is : o.value.toOption = some v) : o.value = .ok v := by
  cases told : o.value with
  | error e =>
    rw [told] at is
    cases is
  | ok w =>
    rw [told] at is
    cases is
    rfl

/- What the equality comes to where both its sides are values. -/
theorem equalityTruth {leaf : Filter (Expr Op) Schema} {key : JoinKey Op} (keyed : keyOf names leaf = some key)
    (own : ∀ bound ∈ vars, bound.1 ∈ names) {x y : Bson} (foreign : (eval m.ops [] doc key.foreign).value = .ok x)
    (local' : (eval m.ops (.withBindings vars) [] key.own).value = .ok y) :
    truth m leaf doc vars = .ok (canonicalCmp x y == .eq) := by
  have sides {a b : Expr Op} (side : foreignSide names a b = true) (first : (eval m.ops [] doc a).value = .ok x)
      (second : (eval m.ops (.withBindings vars) [] b).value = .ok y) :
      (eval m.ops (.withBindings vars) doc a).value = .ok x ∧ (eval m.ops (.withBindings vars) doc b).value = .ok y := by
    simp only [foreignSide, Bool.and_eq_true, Bool.not_eq_true'] at side
    rw [← evalVariables doc a side.1.2 (differNone own), ← evalDocument _ [] doc b side.2]
    exact ⟨first,second⟩
  have eqTruth {a b : Expr Op} {u v : Bson} (first : (eval m.ops (.withBindings vars) doc a).value = .ok u)
      (second : (eval m.ops (.withBindings vars) doc b).value = .ok v) :
      truth m (.expr (.eq a b)) doc vars = .ok (canonicalCmp u v == .eq) := by
    unfold truth
    simp only [evaluate, Matchers.language, eval]
    rw [first, second]
    rfl
  unfold keyOf at keyed
  split at keyed
  · split_ifs at keyed with straight turned
    · cases keyed
      obtain ⟨first,second⟩ := sides straight foreign local'
      exact eqTruth first second
    · cases keyed
      obtain ⟨first,second⟩ := sides turned foreign local'
      rw [eqTruth second first, cmpSwap x y]
      cases canonicalCmp x y <;> rfl
  · cases keyed

theorem splitPlace {α : Type} {l : List α} {place : Nat} {x : α} (there : l[place]? = some x) :
    l = l.take place ++ x :: l.drop (place + 1) := by
  obtain ⟨inside,rfl⟩ := List.getElem?_eq_some_iff.mp there
  rw [List.getElem_cons_drop, List.take_append_drop]

theorem probeFound (is : analyze names whole = some lead) (own : ∀ bound ∈ vars, bound.1 ∈ names) {key : JoinKey Op}
    (keyed : lead.key = some key) {base found : List Document} {table : SortedMap Bytes (List Nat)}
    (filed : fileFrom m key .empty 0 base = some table) (calm : Calm m lead.variable' vars base)
    (answer : probe m table key lead.residual base vars = some found) :
    kept (fun doc => matchesWith m lead.variable' doc vars) base = .ok found := by
  obtain ⟨place,leaf,there,leafKeyed,residual⟩ := (analyzed is).2.2 key keyed
  obtain ⟨all,under⟩ := filedUnder filed
  unfold probe at answer
  obtain ⟨y,read,answer⟩ := Option.bind_eq_some_iff.mp answer
  obtain ⟨bytes,coded,answer⟩ := Option.bind_eq_some_iff.mp answer
  rw [under] at answer
  -- the equality of a document is decided by its key
  have equality (doc : Document) (member : doc ∈ base) :
      truth m leaf doc vars = .ok (decide (keyBytes m key doc = some bytes)) := by
    obtain ⟨own',isKey⟩ := Option.isSome_iff_exists.mp (all doc member)
    obtain ⟨x,value,code⟩ := Option.bind_eq_some_iff.mp isKey
    obtain ⟨ka,kb,codeX,codeY,agree⟩ := keysAgree x y
    cases Option.some.inj (codeX.symm.trans code)
    cases Option.some.inj (codeY.symm.trans coded)
    rw [equalityTruth leafKeyed own (valueOk value) (valueOk read), isKey]
    congr 1
    rw [Bool.eq_iff_iff, beq_iff_eq, decide_eq_true_eq, Option.some.injEq, agree]
  have place' (doc : Document) : truth m lead.variable' doc vars =
      conj none ((((flatten whole).filter (varies names)).take place).map (fun leaf => truth m leaf doc vars) ++
        truth m leaf doc vars :: (((flatten whole).filter (varies names)).drop (place + 1)).map fun leaf => truth m leaf doc vars) := by
    rw [(analyzed is).2.1, truthAll]
    conv_lhs => rw [splitPlace there]
    rw [List.map_append, List.map_cons]
  have done : kept (fun doc => matchesWith m lead.residual doc vars) (base.filter fun doc => keyBytes m key doc = some bytes) = .ok found := by
    cases told : kept (fun doc => matchesWith m lead.residual doc vars) (base.filter fun doc => keyBytes m key doc = some bytes) with
    | error e =>
      rw [told] at answer
      cases answer
    | ok docs =>
      rw [told] at answer
      cases answer
      rfl
  rw [← done]
  refine keptAhead (keptFilter _ base) (fun doc member held => ?_) fun doc member fails => ?_
  · have same : truth m lead.variable' doc vars = truth m lead.residual doc vars := by
      rw [place', equality doc member, Except.ok.inj held, conjErase, residual, truthAll, List.eraseIdx_eq_take_drop_succ, List.map_append]
    unfold matchesWith
    rw [same]
  · have refuted : truth m lead.variable' doc vars = .ok false := by
      have law := place' doc
      rw [equality doc member, Except.ok.inj fails] at law
      rcases @conjRefuted none _ (List.mem_append_right _ List.mem_cons_self) with refuted | ⟨e,error,urgent⟩
      · exact law.trans refuted
      · have waits := calm doc member e (law.trans error)
        rw [waits] at urgent
        cases urgent
    unfold matchesWith
    rw [refuted]
    rfl

/- The table, where there is one, is the base's. -/
def TableFits (m : Matchers Op Schema) (lead : Lead Op Schema) (base : List Document) (table : JoinTable) : Prop :=
  ∀ t, table = .built t → ∃ key, lead.key = some key ∧ fileFrom m key .empty 0 base = some t

theorem builtFits {key : JoinKey Op} (keyed : lead.key = some key) (base : List Document) :
    TableFits m lead base (buildTable m key base) := by
  intro t built
  unfold buildTable at built
  split at built
  next filed =>
    cases built
    exact ⟨key,keyed,filed⟩
  · cases built

theorem answeredFits {plan : LeadPlan} {base : List Document} (fits : TableFits m lead base plan.table) (n : Nat) :
    TableFits m lead base (answered m plan n lead base vars).1 ∧ ∀ found, (answered m plan n lead base vars).2 = some found →
      plan.hoisted = true ∧ ∃ key t, lead.key = some key ∧ fileFrom m key .empty 0 base = some t ∧
        probe m t key lead.residual base vars = some found := by
  unfold answered
  cases keyed : lead.key with
  | none => exact ⟨fits,nofun⟩
  | some key =>
    simp only
    split_ifs with asked
    · cases stored : plan.table with
      | notBuilt =>
        refine ⟨builtFits keyed base,fun found is => ?_⟩
        cases built : buildTable m key base with
        | built t =>
          rw [built] at is
          obtain ⟨own,same,filed⟩ := builtFits keyed base t built
          cases Option.some.inj (keyed.symm.trans same)
          exact ⟨asked.2.1,key,t,rfl,filed,is⟩
        | notBuilt | declined =>
          rw [built] at is
          cases is
      | built t =>
        rw [stored] at fits
        refine ⟨fits,fun found is => ?_⟩
        obtain ⟨own,same,filed⟩ := fits t rfl
        cases Option.some.inj (keyed.symm.trans same)
        exact ⟨asked.2.1,key,t,rfl,filed,is⟩
      | declined =>
        rw [stored] at fits
        exact ⟨fits,nofun⟩
    · exact ⟨fits,nofun⟩

theorem matchedForInputSpec (is : analyze names whole = some lead) (own : ∀ bound ∈ vars, bound.1 ∈ names) {plan : LeadPlan}
    {base : List Document} (fits : TableFits m lead base plan.table) (calm : plan.hoisted = true → Calm m lead.variable' vars base) (n : Nat) :
    TableFits m lead base (matchedForInput m plan n whole lead base vars).1.table ∧
      (matchedForInput m plan n whole lead base vars).1.hoisted = plan.hoisted ∧
      (matchedForInput m plan n whole lead base vars).2 =
        kept (fun doc => matchesWith m (if plan.hoisted then lead.variable' else whole) doc vars) base := by
  obtain ⟨after,found⟩ := @answeredFits _ _ m vars lead plan base fits n
  refine ⟨after,rfl,?_⟩
  unfold matchedForInput
  cases told : (answered m plan n lead base vars).2 with
  | none =>
    simp only
    rw [told]
  | some docs =>
    obtain ⟨hoisted,key,t,keyed,filed,probed⟩ := found docs told
    simp only
    rw [told, hoisted, if_pos rfl, probeFound is own keyed filed (calm hoisted) probed]

/-! The loops. -/

theorem hoistedBase {independent : Filter (Expr Op) Schema} {foreign : List Document} {found : Option (List Document)}
    (is : hoistIndependent m independent foreign = some found) :
    kept (fun doc => matchesWith m independent doc []) foreign = .ok (found.getD foreign) := by
  unfold hoistIndependent at is
  split at is
  · cases is
    have every : (fun doc => matchesWith m (.alwaysTrue : Filter (Expr Op) Schema) doc []) = fun _ => .ok true := by
      funext doc
      unfold matchesWith truth
      simp only [evaluate]
      rfl
    rw [every, keptFilter (fun _ => true)]
    simp
  · obtain ⟨docs,told,rfl⟩ := Option.map_eq_some_iff.mp is
    cases kept' : kept (fun doc => matchesWith m independent doc []) foreign with
    | error e =>
      rw [kept'] at told
      cases told
    | ok base =>
      rw [kept'] at told
      cases told
      rfl

/- What is left of the base decides as the whole filter does of all. -/
theorem hoistedKept (is : analyze names whole = some lead) (own : ∀ bound ∈ vars, bound.1 ∈ names) {foreign base : List Document}
    (hoisted : kept (fun doc => matchesWith m lead.independent doc []) foreign = .ok base) (calm : Calm m whole vars foreign) :
    kept (fun doc => matchesWith m whole doc vars) foreign = kept (fun doc => matchesWith m lead.variable' doc vars) base ∧
      Calm m lead.variable' vars base := by
  refine ⟨keptAhead hoisted (fun doc _ held => ?_) fun doc member fails => ?_,fun doc member e error => ?_⟩
  · unfold matchesWith
    rw [wholeHolds is own (matchesOk held)]
  · unfold matchesWith
    rw [wholeRefuted is own (matchesOk fails) (calm doc member)]
    rfl
  · obtain ⟨inside,held⟩ := keptMem hoisted doc member
    refine calm doc inside e ?_
    rw [wholeHolds is own (matchesOk held)]
    exact error

theorem boundNames {letVars : List (String × Expr Op)} {doc : Document} {outer bound : Bindings}
    (is : bindLet m letVars doc outer = .ok bound) : bound.map Prod.fst = letVars.map Prod.fst := by
  have pairs := okPairs.mp is
  clear is
  induction pairs with
  | nil => rfl
  | @cons source pair _ _ first _ ih =>
    have named : pair.1 = source.1 := by
      cases value : (eval m.ops (.withBindings outer) doc source.2).value with
      | error e =>
        rw [value] at first
        cases first
      | ok v =>
        rw [value] at first
        cases first
        rfl
    rw [List.map_cons, List.map_cons, named, ih]

theorem varsOwn {stage : PipelineLookup Op Schema} {doc : Document} {vars : Bindings} (is : stage.vars m doc = .ok vars) :
    ∀ bound ∈ vars, bound.1 ∈ stage.inScope := by
  unfold PipelineLookup.vars at is
  cases let' : bindLet m stage.letVars doc stage.outer with
  | error e =>
    rw [let'] at is
    cases is
  | ok bound =>
    rw [let'] at is
    cases is
    intro pair member
    unfold PipelineLookup.inScope
    rw [← boundNames let', ← List.map_append]
    exact List.mem_map_of_mem member

section
variable {stage : PipelineLookup Op Schema} {foreign : List Document}

theorem joinMatchedNested {lead : Lead Op Schema} (is : analyze stage.inScope stage.first = some lead) {base input : List Document}
    (calm : ∀ doc ∈ input, ∀ vars, stage.vars m doc = .ok vars → Calm m stage.first vars foreign) {plan : LeadPlan}
    (hoisted : plan.hoisted = true → kept (fun doc => matchesWith m lead.independent doc []) foreign = .ok base)
    (plain : plan.hoisted = false → base = foreign) (fits : TableFits m lead base plan.table) (n : Nat) :
    joinMatched m stage lead base plan n input = joinNested m stage foreign input := by
  induction input generalizing plan n with
  | nil => rfl
  | cons doc input ih =>
    simp only [joinMatched, joinNested]
    cases bound : stage.vars m doc with
    | error e => rfl
    | ok vars =>
      have own := varsOwn bound
      have quiet := calm doc List.mem_cons_self vars bound
      have decides : plan.hoisted = true → Calm m lead.variable' vars base :=
        fun ahead => (hoistedKept is own (hoisted ahead) quiet).2
      obtain ⟨after,same,found⟩ := matchedForInputSpec is own fits decides n
      have matched : (matchedForInput m plan n stage.first lead base vars).2 =
          kept (fun other => matchesWith m stage.first other vars) foreign := by
        rw [found]
        cases ahead : plan.hoisted with
        | true =>
          rw [if_pos rfl]
          exact (hoistedKept is own (hoisted ahead) quiet).1.symm
        | false =>
          rw [if_neg Bool.false_ne_true, plain ahead]
      have later := @ih (fun other member => calm other (List.mem_cons_of_mem _ member))
        (matchedForInput m plan n stage.first lead base vars).1 (fun ahead => hoisted (same ▸ ahead)) (fun ahead => plain (same ▸ ahead))
        after (n + 1)
      show (do
        let matched ← (matchedForInput m plan n stage.first lead base vars).2
        let joined ← stage.rest vars matched
        let out ← joinMatched m stage lead base (matchedForInput m plan n stage.first lead base vars).1 (n + 1) input
        .ok (stage.attach doc joined :: out) : Except Error (List Document)) = _
      rw [matched, later]
      rfl

/- A filter that reads no variable decides alike for every input document. -/
theorem constantKept (is : analyze stage.inScope stage.first = none) {vars : Bindings} (own : ∀ bound ∈ vars, bound.1 ∈ stage.inScope) :
    kept (fun other => matchesWith m stage.first other vars) foreign = kept (fun other => matchesWith m stage.first other []) foreign := by
  refine keptCongr fun doc _ => ?_
  have same : truth m stage.first doc vars = truth m stage.first doc [] := by
    rw [truthFlatten stage.first, truthFlatten stage.first]
    refine congrArg (conj none) (List.map_congr_left fun leaf member => ?_)
    have still : varies stage.inScope leaf = false := by
      unfold analyze at is
      simp only at is
      split_ifs at is with empty
      have all := List.filter_eq_nil_iff.mp (List.isEmpty_iff.mp empty) leaf member
      simpa using all
    simp only [varies, Bool.or_eq_false_iff] at still
    exact (truthApart m (differNone own) still.1 doc).symm
  unfold matchesWith
  rw [same]

theorem joinCopiesNested (is : analyze stage.inScope stage.first = none) {base : List Document}
    (applied : kept (fun other => matchesWith m stage.first other []) foreign = .ok base) (input : List Document) :
    joinCopies m stage base input = joinNested m stage foreign input := by
  induction input with
  | nil => rfl
  | cons doc input ih =>
    simp only [joinCopies, joinNested]
    cases bound : stage.vars m doc with
    | error e => rfl
    | ok vars =>
      have same := (constantKept is (varsOwn bound)).trans applied
      show _ = (do
        let matched ← kept (fun other => matchesWith m stage.first other vars) foreign
        let joined ← stage.rest vars matched
        let out ← joinNested m stage foreign input
        .ok (stage.attach doc joined :: out) : Except Error (List Document))
      rw [same, ih]
      rfl

end

/- Of random draws the filter makes none. Where every clause is applied once it is so before the first document's variables, and a
failure of it comes ahead of theirs. -/
theorem lookupAsNested (m : Matchers Op Schema) (stage : PipelineLookup Op Schema) (foreign input : List Document)
    (_undrawn : drawsRandom stage.first = false)
    (calm : ∀ doc ∈ input, ∀ vars, stage.vars m doc = .ok vars → Calm m stage.first vars foreign) :
    (∀ out, lookupPipeline m stage foreign input = .ok out ↔ joinNested m stage foreign input = .ok out) ∧
      ((∀ doc ∈ input.head?, ∃ vars, stage.vars m doc = .ok vars) →
        lookupPipeline m stage foreign input = joinNested m stage foreign input) := by
  unfold lookupPipeline
  cases input with
  | nil => exact ⟨fun out => Iff.rfl,fun _ => rfl⟩
  | cons doc input =>
    simp only [List.isEmpty_cons, Bool.false_eq_true, if_false]
    cases is : analyze stage.inScope stage.first with
    | some lead =>
      have agree {x : Except Error (List Document)} (same : x = joinNested m stage foreign (doc :: input)) :
          (∀ out, x = .ok out ↔ joinNested m stage foreign (doc :: input) = .ok out) ∧
            ((∀ first ∈ (doc :: input).head?, ∃ vars, stage.vars m first = .ok vars) → x = joinNested m stage foreign (doc :: input)) :=
        ⟨fun out => by rw [same],fun _ => same⟩
      cases ahead : hoistIndependent m lead.independent foreign with
      | some found =>
        simp only [ahead]
        refine agree (joinMatchedNested is calm (fun _ => hoistedBase ahead) (fun no => ?_) (fun t no => ?_) 0)
        · cases no
        · cases no
      | none =>
        simp only [ahead]
        refine agree (joinMatchedNested is calm (fun no => ?_) (fun _ => rfl) (fun t no => ?_) 0)
        · cases no
        · cases no
    | none =>
      simp only
      cases applied : kept (fun other => matchesWith m stage.first other []) foreign with
      | ok base =>
        have same := joinCopiesNested is applied (doc :: input)
        exact ⟨fun out => by rw [← same]; rfl,fun _ => same⟩
      | error e =>
        refine ⟨fun out => iff_of_false nofun fun done => ?_,fun first => ?_⟩
        · simp only [joinNested] at done
          obtain ⟨vars,bound,done⟩ := bindOk done
          rw [constantKept is (varsOwn bound), applied] at done
          cases done
        · obtain ⟨vars,bound⟩ := first doc rfl
          simp only [joinNested]
          rw [bound]
          show _ = (do
            let matched ← kept (fun other => matchesWith m stage.first other vars) foreign
            let joined ← stage.rest vars matched
            let out ← joinNested m stage foreign input
            .ok (stage.attach doc joined :: out) : Except Error (List Document))
          rw [constantKept is (varsOwn bound), applied]
          rfl

/- Input documents with `a`, joined to the documents whose `b` it is. -/
def plain : Matchers Unit Unit where
  ops := ⟨fun _ _ => .ok none,fun _ _ _ => .ok none⟩
  isValid := fun _ _ => true
  isMatch := fun _ _ => true
  draw := fun _ => true
  display := fun _ => ""

def onEqual : PipelineLookup Unit Unit where
  letVars := [("k",.getField "a")]
  outer := []
  first := .expr (.eq (.getField "b") (.var "k" none))
  rest := fun _ docs => .ok docs
  asField := "found"

theorem onEqualCalm : ∀ doc ∈ [[("a",.boolean true)],[("a",Bson.null)]], ∀ vars, onEqual.vars plain doc = .ok vars →
    Calm plain onEqual.first vars [[("b",.null)],[("b",.boolean true)]] := by
  intro doc member vars bound other there e error
  obtain ⟨v,rfl⟩ : ∃ v, vars = [("k",v)] := by
    rcases List.mem_pair.mp member with rfl | rfl
    · cases bound
      exact ⟨_,rfl⟩
    · cases bound
      exact ⟨_,rfl⟩
  cases error

theorem joinedOnEqual : lookupPipeline plain onEqual [[("b",.null)],[("b",.boolean true)]] [[("a",.boolean true)],[("a",.null)]] =
    .ok [[("a",.boolean true),("found",.array [.document [("b",.boolean true)]])],[("a",.null),("found",.array [.document [("b",.null)]])]] := by
  have nested := (lookupAsNested plain onEqual _ _ rfl onEqualCalm).2 ?_
  · rw [nested]
    rfl
  · intro doc first
    cases first
    exact ⟨_,rfl⟩

end

end Kimmy.Query.Lookup
