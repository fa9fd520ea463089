import Kimmy.Query.Predicates

/-!
Planning never loses a match: a document on which the filter is not refuted is among the candidates of
whatever plan is chosen.
-/
namespace Kimmy.Query
open ByteOrder CanonicalCmp KeyEnc KeyOrder Matching Store

section
variable {Expr Schema σ : Type} {lang : Language Expr Schema σ} {vars : Bindings} {doc : Document}

/-! The plan's ranges hold a key of the document. -/

/- The document's choice for the leading fields follows the equalities. -/
theorem prefixOffered {predicates : Predicates} (met : predicates.Met doc) (fields : List IndexField) :
    ∃ parts, List.Forall₂ SamePart parts (equalityPrefix predicates fields) ∧
      List.Forall₂ (Offers doc) parts (fields.take (equalityPrefix predicates fields).length) := by
  induction fields with
  | nil => exact ⟨[],.nil,.nil⟩
  | cons field rest ih =>
    rw [equalityPrefix]
    cases found : (predicates.get field.path).bind (·.eq) with
    | none => exact ⟨[],.nil,.nil⟩
    | some value =>
      obtain ⟨bounds,held,is⟩ := Option.bind_eq_some_iff.mp found
      obtain ⟨w,offers,same⟩ := equalsOffered ((met _ _ held).eq value is)
      obtain ⟨parts,sameParts,offered⟩ := ih
      exact ⟨(w,field.descending) :: parts,.cons ⟨same,rfl⟩ sameParts,.cons ⟨offers,rfl⟩ offered⟩

theorem restOffered (doc : Document) (fields : List IndexField) : ∃ parts, List.Forall₂ (Offers doc) parts fields := by
  induction fields with
  | nil => exact ⟨[],.nil⟩
  | cons field rest ih =>
    obtain ⟨w,offers⟩ := fieldValuesNonempty doc field.path
    obtain ⟨parts,offered⟩ := ih
    exact ⟨(w,field.descending) :: parts,.cons ⟨offers,rfl⟩ offered⟩

/- A query that a partial filter covers asks only for documents that the filter selects, so an index that
leaves the others out has filed every answer. -/
theorem coverKeepsAnswers (filter : PartialFilter) (query : List (String × PartialOp))
    (covered : filter.coveredBy query = true) (doc : Document)
    (met : ∀ asked ∈ query, asked.2.selects (resolve doc asked.1) = true) :
    filter.selects doc = true ∧
      ∀ index : IndexMeta, index.selection = some filter → (documentKeys index doc).filed ≠ [] := by
  have selected := coveredSelects covered met
  refine ⟨selected,fun index own => ?_⟩
  cases keyed : documentKeys index doc with
  | unkeyed cause multikey => exact List.cons_ne_nil _ _
  | keyed keys multikey =>
    obtain ⟨parts,offers⟩ := restOffered doc index.fields
    obtain ⟨k,key⟩ := compoundTotal parts
    have filed : k ∈ keys := chosenKeyed (by rw [own]; exact selected) keyed offers key
    exact List.ne_nil_of_mem filed

/- Five in an array, under a filter for what is above three. -/
theorem coverKeepsFive :
    let filter : PartialFilter := ⟨[("k",.gt (.int32 3))]⟩
    let doc : Document := [("k",.array [.null,.int32 5])]
    filter.coveredBy [("k",.gte (.int64 5))] = true ∧ filter.selects doc = true := by
  intro filter doc
  have covered : filter.coveredBy [("k",.gte (.int64 5))] = true := by decide
  exact ⟨covered,(coverKeepsAnswers filter [("k",.gte (.int64 5))] covered doc (by decide)).1⟩

/- Some key of the document, if it is keyed at all, lies between two ends. -/
def Covered (index : IndexMeta) (doc : Document) (range : Bytes × Bytes) : Prop :=
  (documentKeys index doc).isUnkeyed = true ∨ ∃ k ∈ (documentKeys index doc).keys, range.1 ≤ k ∧ k ≤ range.2

theorem coveredBy {index : IndexMeta} {range : Bytes × Bytes} (selected : index.selection.all (·.selects doc) = true)
    {parts : List (Bson × Bool)} (offers : List.Forall₂ (Offers doc) parts index.fields)
    (within : ∀ k, encodeCompoundOrdered parts = some k → range.1 ≤ k ∧ k ≤ range.2) : Covered index doc range := by
  cases keyed : documentKeys index doc with
  | unkeyed cause multikey =>
    left
    rw [keyed]
    rfl
  | keyed keys multikey =>
    right
    obtain ⟨k,key⟩ := compoundTotal parts
    rw [keyed]
    exact ⟨k,chosenKeyed selected keyed offers key,within k key⟩

/- An end of a range, as the components it adds to the equalities: none, or one that a value reaches. -/
def Reaches (low : List (Bson × Bool)) (w : Bson) (descending : Bool) : Prop :=
  low = [] ∨ ∃ a, low = [(a,descending)] ∧ directed descending a w ≠ .gt

def Reached (high : List (Bson × Bool)) (w : Bson) (descending : Bool) : Prop :=
  high = [] ∨ ∃ b, high = [(b,descending)] ∧ directed descending w b ≠ .gt

theorem rangeWithin {start same low high rest : List (Bson × Bool)} {w : Bson} {descending : Bool} {lower upper k : Bytes}
    (agree : List.Forall₂ SamePart same start) (above : Reaches low w descending) (below : Reached high w descending)
    (isLower : encodeCompoundOrdered (start ++ low) = some lower)
    (isUpper : encodeCompoundOrdered (start ++ high) = some upper)
    (isKey : encodeCompoundOrdered (same ++ (w,descending) :: rest) = some k) :
    lower ≤ k ∧ k ≤ upper ++ [aboveAnyContinuation] := by
  obtain ⟨p,prefixed⟩ := compoundTotal start
  obtain ⟨r,rested⟩ := compoundTotal rest
  obtain ⟨n,here⟩ := compoundTotal [(w,descending)]
  have key : k = p ++ (n ++ r) := by
    have whole := compoundAppend (by rw [compoundSame agree]; exact prefixed) (compoundAppend here rested)
    rw [List.singleton_append] at whole
    exact Option.some.inj (isKey.symm.trans whole)
  subst key
  constructor
  · rcases above with rfl | ⟨a, rfl, order⟩
    · rw [List.append_nil, prefixed] at isLower
      cases isLower
      exact leAppend _ _
    · obtain ⟨l,n',first,second,codes⟩ := codesPart descending a w
      cases here.symm.trans second
      rw [compoundAppend prefixed first] at isLower
      cases isLower
      refine appendLe p ?_
      simpa using codesLe codes order (nilLe r)
  · have tail := continuationLe rested
    rcases below with rfl | ⟨b, rfl, order⟩
    · rw [List.append_nil, prefixed] at isUpper
      cases isUpper
      refine appendLe _ ?_
      have component := compoundAppend here rested
      rw [List.singleton_append] at component
      exact continuationLe component
    · obtain ⟨n',u,first,second,codes⟩ := codesPart descending w b
      cases here.symm.trans first
      rw [compoundAppend prefixed second] at isUpper
      cases isUpper
      rw [List.append_assoc]
      exact appendLe p (codesLe codes order tail)

theorem equalityWithin {start same rest : List (Bson × Bool)} {p k : Bytes} (agree : List.Forall₂ SamePart same start)
    (prefixed : encodeCompoundOrdered start = some p) (isKey : encodeCompoundOrdered (same ++ rest) = some k) :
    p ≤ k ∧ k ≤ p ++ [aboveAnyContinuation] := by
  obtain ⟨r,rested⟩ := compoundTotal rest
  have whole := compoundAppend (by rw [compoundSame agree]; exact prefixed) rested
  cases isKey.symm.trans whole
  exact ⟨leAppend p r,appendLe p (continuationLe rested)⟩

/- A value of the field is inside the ends a range was given, when one value meets both bounds or only one
is used. -/
theorem endsSpec {multikey descending both : Bool} {lower upper : Option Bson} {low high : List (Bson × Bool)}
    {values : List Bson} (is : ends multikey descending lower upper = some (low,high,both))
    (above : ∀ v, lower = some v → ∃ w ∈ values, canonicalCmp v w ≠ .gt)
    (below : ∀ v, upper = some v → ∃ w ∈ values, canonicalCmp w v ≠ .gt)
    (lone : multikey = false → ∀ u v, lower = some u → upper = some v →
      ∃ w ∈ values, canonicalCmp u w ≠ .gt ∧ canonicalCmp w v ≠ .gt) :
    (both = true → multikey = false) ∧
      ∃ w ∈ values, Reaches low w descending ∧ Reached high w descending := by
  have up (a w : Bson) : directed true a w = canonicalCmp w a := (cmpSwap a w).symm
  have onlyLower {v : Bson} (held : lower = some v)
      (is : some (if descending then ([],[(v,true)],false) else ([(v,false)],[],false)) = some (low,high,both)) :
      (both = true → multikey = false) ∧ ∃ w ∈ values, Reaches low w descending ∧ Reached high w descending := by
    obtain ⟨w,offers,order⟩ := above v held
    cases descending with
    | true =>
      cases is
      exact ⟨nofun,w,offers,Or.inl rfl,Or.inr ⟨v,rfl,by rw [up]; exact order⟩⟩
    | false =>
      cases is
      exact ⟨nofun,w,offers,Or.inr ⟨v,rfl,order⟩,Or.inl rfl⟩
  cases lower with
  | some u =>
    cases upper with
    | some v =>
      cases multikey with
      | true => exact onlyLower rfl is
      | false =>
        obtain ⟨w,offers,over',under⟩ := lone rfl u v rfl rfl
        cases descending with
        | true =>
          cases is
          exact ⟨fun _ => rfl,w,offers,Or.inr ⟨v,rfl,by rw [up]; exact under⟩,Or.inr ⟨u,rfl,by rw [up]; exact over'⟩⟩
        | false =>
          cases is
          exact ⟨fun _ => rfl,w,offers,Or.inr ⟨u,rfl,over'⟩,Or.inr ⟨v,rfl,under⟩⟩
    | none => exact onlyLower rfl is
  | none =>
    cases upper with
    | some v =>
      obtain ⟨w,offers,order⟩ := below v rfl
      cases descending with
      | true =>
        cases is
        exact ⟨nofun,w,offers,Or.inr ⟨v,rfl,by rw [up]; exact order⟩,Or.inl rfl⟩
      | false =>
        cases is
        exact ⟨nofun,w,offers,Or.inl rfl,Or.inr ⟨v,rfl,order⟩⟩
    | none => cases is

theorem fieldAt {fields : List IndexField} {n : Nat} {field : IndexField} (found : fields[n]? = some field) :
    fields = fields.take n ++ field :: fields.drop (n + 1) := by
  obtain ⟨small,is⟩ := List.getElem?_eq_some_iff.mp found
  rw [← is, List.getElem_cons_drop, List.take_append_drop]

/- The bounds of the field past the equalities, on the values it offers. -/
theorem boundsOffered {index : IndexMeta} {field : IndexField} {bounds : Bounds} (member : field ∈ index.fields)
    (met : bounds.Met (resolve doc field.path))
    (flagged : (index.fields.any fun field => fansOut doc field.path) = true → index.multikey = true) :
    (∀ v, bounds.lower = some v → ∃ w ∈ fieldValues doc field.path, canonicalCmp v w ≠ .gt) ∧
    (∀ v, bounds.upper = some v → ∃ w ∈ fieldValues doc field.path, canonicalCmp w v ≠ .gt) ∧
    (index.multikey = false → ∀ u v, bounds.lower = some u → bounds.upper = some v →
      ∃ w ∈ fieldValues doc field.path, canonicalCmp u w ≠ .gt ∧ canonicalCmp w v ≠ .gt) := by
  have fromAbove {w v : Bson} (is : canonicalCmp w v ∈ [Ordering.gt,.eq]) : canonicalCmp v w ≠ .gt := by
    rw [cmpSwap]
    rcases List.mem_cons.mp is with is | is
    · simp [is]
    · simp [List.mem_singleton.mp is]
  have fromBelow {w v : Bson} (is : canonicalCmp w v ∈ [Ordering.lt,.eq]) : canonicalCmp w v ≠ .gt := by
    rcases List.mem_cons.mp is with is | is
    · simp [is]
    · simp [List.mem_singleton.mp is]
  refine ⟨fun v is => ?_,fun v is => ?_,fun single u v isU isV => ?_⟩
  · obtain ⟨w,offers,order⟩ := comparesOffered (met.lower v is)
    exact ⟨w,offers,fromAbove order⟩
  · obtain ⟨w,offers,order⟩ := comparesOffered (met.upper v is)
    exact ⟨w,offers,fromBelow order⟩
  · have alone : fansOut doc field.path = false := by
      by_contra fans
      have wide := flagged (List.any_eq_true.mpr ⟨field,member,by simpa using fans⟩)
      rw [single] at wide
      cases wide
    obtain ⟨w,offers,first,second⟩ := loneOffered alone (met.lower u isU) (met.upper v isV)
    exact ⟨w,offers,fromAbove first,fromBelow second⟩

/- The index files the document, and a scan of the plan's ranges and of the unkeyed run meets it. -/
structure Candidate (plan : IndexPlan) (index : IndexMeta) (doc : Document) : Prop where
  selected : index.selection.all (·.selects doc) = true
  met : (documentKeys index doc).isUnkeyed = true ∨
    ∃ k ∈ (documentKeys index doc).keys, ∃ range ∈ plan.ranges, range.1 ≤ k ∧ k ≤ range.2

theorem candidateOf {plan : IndexPlan} {index : IndexMeta} {range : Bytes × Bytes} (member : range ∈ plan.ranges)
    (selected : index.selection.all (·.selects doc) = true) (covered : Covered index doc range) :
    Candidate plan index doc :=
  ⟨selected,covered.imp_right fun ⟨k,key,within⟩ => ⟨k,key,range,member,within⟩⟩

/- An index sees a document that it selects fan out where one of its fields does. -/
theorem multikeyOf {index : IndexMeta} (selected : index.selection.all (·.selects doc) = true) :
    (documentKeys index doc).multikey = index.fields.any fun field => fansOut doc field.path := by
  have inside : (index.selection.any fun filter => !filter.selects doc) = false := by
    cases chosen : index.selection with
    | none => rfl
    | some filter =>
      rw [chosen] at selected
      simpa using selected
  simp only [documentKeys, inside, Bool.false_eq_true, if_false]
  split_ifs
  · rfl
  · split
    · rfl
    · split <;> rfl

/- The plan was made for the index, and joins two bounds only where the index has seen no array. -/
def PlannedFrom (plan : IndexPlan) (index : IndexMeta) : Prop :=
  plan.indexId = index.id ∧ plan.indexName = index.name ∧ (plan.bothBounds = true → index.multikey = false)

section
variable {index : IndexMeta} {start parts : List (Bson × Bool)} {plan : IndexPlan}

/- A `$in`: the probe of the value that the document holds. -/
theorem probeCovers {field : IndexField} {values : List Bson} (selected : index.selection.all (·.selects doc) = true)
    (agree : List.Forall₂ SamePart parts start) (offered : List.Forall₂ (Offers doc) parts (index.fields.take start.length))
    (found : index.fields[start.length]? = some field) (met : values.any (equals (resolve doc field.path)) = true)
    (planned : probePlan index start field values = some plan) : PlannedFrom plan index ∧ Candidate plan index doc := by
  obtain ⟨ranges,probed,last⟩ := Option.bind_eq_some_iff.mp planned
  cases last
  refine ⟨⟨rfl,rfl,nofun⟩,?_⟩
  obtain ⟨v,member,equal⟩ := List.any_eq_true.mp met
  obtain ⟨w,offers,same⟩ := equalsOffered equal
  obtain ⟨rest,others⟩ := restOffered doc (index.fields.drop (start.length + 1))
  obtain ⟨encoded,mapped,last⟩ := Option.bind_eq_some_iff.mp probed
  cases last
  obtain ⟨probe,listed,encodes⟩ := Traverse.memMapM mapped v member
  have choice : List.Forall₂ (Offers doc) (parts ++ (w,field.descending) :: rest) index.fields := by
    rw [fieldAt found]
    exact List.rel_append offered (.cons ⟨offers,rfl⟩ others)
  have probing : (probe,probe ++ [aboveAnyContinuation]) ∈
      (encoded.dedup.map fun key => (key,key ++ [aboveAnyContinuation])).insertionSort fun x y => x.1 ≤ y.1 := by
    rw [List.mem_insertionSort]
    exact List.mem_map.mpr ⟨probe,List.mem_dedup.mpr listed,rfl⟩
  have agreed : List.Forall₂ SamePart (parts ++ [(w,field.descending)]) (start ++ [(v,field.descending)]) :=
    List.rel_append agree (.cons ⟨same,rfl⟩ .nil)
  refine candidateOf probing selected (coveredBy selected choice fun k key => ?_)
  rw [List.append_cons] at key
  exact equalityWithin agreed encodes key

/- Equalities alone. -/
theorem equalityCovers (selected : index.selection.all (·.selects doc) = true)
    (agree : List.Forall₂ SamePart parts start) (offered : List.Forall₂ (Offers doc) parts (index.fields.take start.length))
    (planned : rangePlan index start none = some plan) : PlannedFrom plan index ∧ Candidate plan index doc := by
  simp only [rangePlan, Option.map_none, Option.getD_none, List.append_nil, Option.isSome_none, Bool.false_eq_true,
    if_false] at planned
  split_ifs at planned
  obtain ⟨lower,isLower,planned⟩ := Option.bind_eq_some_iff.mp planned
  obtain ⟨upper,isUpper,last⟩ := Option.bind_eq_some_iff.mp planned
  cases last
  cases isLower.symm.trans isUpper
  obtain ⟨rest,others⟩ := restOffered doc (index.fields.drop start.length)
  have choice : List.Forall₂ (Offers doc) (parts ++ rest) index.fields := by
    rw [← List.take_append_drop start.length index.fields]
    exact List.rel_append offered others
  refine ⟨⟨rfl,rfl,nofun⟩,candidateOf (List.mem_singleton_self _) selected (coveredBy selected choice fun k key => ?_)⟩
  exact equalityWithin agree isLower key

/- A range on the field past the equalities. -/
theorem rangeCovers {field : IndexField} {bounds : Bounds} (selected : index.selection.all (·.selects doc) = true)
    (flagged : (index.fields.any fun field => fansOut doc field.path) = true → index.multikey = true)
    (agree : List.Forall₂ SamePart parts start) (offered : List.Forall₂ (Offers doc) parts (index.fields.take start.length))
    (found : index.fields[start.length]? = some field) (met : bounds.Met (resolve doc field.path))
    (planned : rangePlan index start (ends index.multikey field.descending bounds.lower bounds.upper) = some plan) :
    PlannedFrom plan index ∧ Candidate plan index doc := by
  cases ranged : ends index.multikey field.descending bounds.lower bounds.upper with
  | none =>
    rw [ranged] at planned
    exact equalityCovers selected agree offered planned
  | some range =>
    obtain ⟨low,high,both⟩ := range
    rw [ranged] at planned
    simp only [rangePlan, Option.map_some, Option.getD_some, Option.isSome_some, if_true] at planned
    rw [if_neg (Nat.succ_ne_zero _)] at planned
    obtain ⟨lower,isLower,planned⟩ := Option.bind_eq_some_iff.mp planned
    obtain ⟨upper,isUpper,last⟩ := Option.bind_eq_some_iff.mp planned
    cases last
    have offers := boundsOffered (List.mem_of_getElem? found) met flagged
    obtain ⟨lone,w,here,above,below⟩ := endsSpec ranged offers.1 offers.2.1 offers.2.2
    obtain ⟨rest,others⟩ := restOffered doc (index.fields.drop (start.length + 1))
    have choice : List.Forall₂ (Offers doc) (parts ++ (w,field.descending) :: rest) index.fields := by
      rw [fieldAt found]
      exact List.rel_append offered (.cons ⟨here,rfl⟩ others)
    exact ⟨⟨rfl,rfl,lone⟩,candidateOf (List.mem_singleton_self _) selected (coveredBy selected choice fun k key =>
      rangeWithin agree above below isLower isUpper key)⟩

theorem planCovers {predicates : Predicates} (met : predicates.Met doc)
    (selected : index.selection.all (·.selects doc) = true)
    (flagged : (documentKeys index doc).multikey = true → index.multikey = true)
    (planned : planFor index predicates = some plan) : PlannedFrom plan index ∧ Candidate plan index doc := by
  rw [multikeyOf selected] at flagged
  obtain ⟨parts,agree,offered⟩ := prefixOffered met index.fields
  simp only [planFor] at planned
  split at planned
  · exact equalityCovers selected agree offered planned
  · rename_i field found
    split at planned
    · exact equalityCovers selected agree offered planned
    · rename_i bounds held
      split at planned
      · rename_i values listed
        exact probeCovers selected agree offered found ((met _ _ held).inValues values listed) planned
      · exact rangeCovers selected flagged agree offered found (met _ _ held) planned

end

/-! The choice among the indexes. -/

theorem chosenPlan {predicates : Predicates} {proven : List (String × PartialOp)} {plan : IndexPlan} :
    ∀ {indexes : List IndexMeta} {best : Option IndexPlan},
      indexes.foldl (fun best index =>
        if usablePartial index proven then better best (planFor index predicates) else best) best = some plan →
      best = some plan ∨ ∃ index ∈ indexes, usablePartial index proven = true ∧ planFor index predicates = some plan := by
  intro indexes
  induction indexes with
  | nil => exact Or.inl
  | cons index rest ih =>
    intro best is
    rw [List.foldl_cons] at is
    rcases ih is with here | ⟨other, member, usable, planned⟩
    · split_ifs at here with usable
      · have kept : best = some plan ∨ planFor index predicates = some plan := by
          unfold better at here
          split at here
          · exact Or.inl here
          · rename_i found
            exact Or.inr (found.trans here)
          · rename_i found
            split_ifs at here
            · exact Or.inr (found.trans here)
            · exact Or.inl here
        exact kept.imp_right fun planned => ⟨index,List.mem_cons_self,usable,planned⟩
      · exact Or.inl here
    · exact Or.inr ⟨other,List.mem_cons_of_mem _ member,usable,planned⟩

/- A document found by an equality on its id is stored under the key of the value asked for. -/
theorem idKeySame {doc : Document} {v : Bson} {key probe : Bytes} (stored : doc.docKey = some key)
    (asked : idKey v = some probe) (equal : equals (resolve doc idField) v = true) : probe = key := by
  obtain ⟨id,held,keyed⟩ := Option.bind_eq_some_iff.mp stored
  have found : resolve doc idField = [id] := by
    have path : segments idField = ["_id"] := by decide
    have inside : doc.get "_id" = some id := held
    simp [resolve, path, inside, descend]
  have scalar : isArray id = false := by
    cases id with
    | array => cases keyed
    | _ => rfl
  have alone : fieldValues doc idField = [id] := by
    rw [fieldValues, found]
    cases id with
    | array => cases scalar
    | _ => rfl
  obtain ⟨w,offers,same⟩ := equalsOffered equal
  rw [alone, List.mem_singleton] at offers
  rw [offers] at same
  obtain ⟨ki,kv,keyI,keyV,agree⟩ := keysAgree id v
  rw [idKeyEncodes keyed] at keyI
  rw [idKeyEncodes asked] at keyV
  cases keyI
  cases keyV
  exact (agree.mpr same).symm

/- Whatever index is chosen, a document that the filter does not refute is a candidate of its plan; and a
lookup by primary key looks it up. -/
theorem planningKeepsAnswers (lang : Language Expr Schema σ) (vars : Bindings) (filter : Filter Expr Schema)
    (indexes : List IndexMeta) (doc : Document) (s : σ) (left : Unrefuted (evaluate lang vars filter doc s).1)
    (flagged : ∀ index ∈ indexes, (documentKeys index doc).multikey = true → index.multikey = true) :
    (∀ plan, choose filter indexes = some plan →
      ∃ index ∈ indexes, PlannedFrom plan index ∧ Candidate plan index doc) ∧
    (∀ plan, choosePrimaryKey filter = some plan → ∀ key, doc.docKey = some key → key ∈ plan.keys) := by
  have met : (extract filter).Met doc := collectMet filter left fun _ _ is => by cases is
  refine ⟨fun plan chosen => ?_,fun plan chosen key stored => ?_⟩
  · simp only [choose] at chosen
    split_ifs at chosen
    rcases chosenPlan chosen with none | ⟨index, member, usable, planned⟩
    · cases none
    · have selected := usableSelects usable (containmentMet filter left)
      exact ⟨index,member,planCovers met selected (flagged index member) planned⟩
  · obtain ⟨bounds,held,chosen⟩ := Option.bind_eq_some_iff.mp chosen
    obtain ⟨values,listed,chosen⟩ := Option.bind_eq_some_iff.mp chosen
    split_ifs at chosen
    obtain ⟨keys,mapped,last⟩ := Option.bind_eq_some_iff.mp chosen
    cases last
    -- one of the values is the document's own id
    have equal : ∃ v ∈ values, equals (resolve doc idField) v = true := by
      unfold Bounds.pinned at listed
      split at listed
      · rename_i v is
        cases listed
        exact ⟨v,List.mem_singleton_self _,(met _ _ held).eq v is⟩
      · rename_i vs _ is
        cases listed
        obtain ⟨v,member,is⟩ := List.any_eq_true.mp ((met _ _ held).inValues _ is)
        exact ⟨v,member,is⟩
      · cases listed
    obtain ⟨v,member,equal⟩ := equal
    obtain ⟨probe,probed,is⟩ := Traverse.memMapM mapped v member
    rw [List.mem_dedup, List.mem_insertionSort]
    rw [← idKeySame stored is equal]
    exact probed

end

/-! An index on a flag, and a request that is past its deadline. -/

def flagIndex : IndexMeta := ⟨7,"flag_1",[⟨"flag",false⟩],false,false,none⟩

def flagged (value : Bool) : Document := [("_id",.objectId (Vector.replicate 12 0)),("flag",.boolean value)]

def plainLanguage : Language Empty Empty Unit := ⟨nofun,nofun,fun _ _ => false,fun _ s => (false,s)⟩

theorem planningKeepsFlag :
    let filter : Filter Empty Empty := .field "flag" [.eq (.boolean true)]
    (evaluate plainLanguage [] filter (flagged true) ()).1 = .ok true ∧
      ∃ plan, choose filter [flagIndex] = some plan ∧
        ∃ index ∈ [flagIndex], PlannedFrom plan index ∧ Candidate plan index (flagged true) := by
  intro filter
  have matched : (evaluate plainLanguage [] filter (flagged true) ()).1 = .ok true := by decide
  have chosen : (choose filter [flagIndex]).isSome := by decide
  obtain ⟨plan,is⟩ := Option.isSome_iff_exists.mp chosen
  refine ⟨matched,plan,is,(planningKeepsAnswers plainLanguage [] filter [flagIndex] (flagged true) () ?_ ?_).1 plan is⟩
  · rw [matched]
    rfl
  · decide

/- The deadline stops any expression. -/
def pastDeadline : Language Unit Empty Unit :=
  ⟨fun _ _ _ s => (.error .deadlineExceeded,s),nofun,fun _ _ => false,fun _ s => (false,s)⟩

/- An error about the request is answered before the clause that refutes the document is reached. -/
theorem urgentErrorUnseen :
    let filter : Filter Unit Empty := .and [.expr (),.and [.field "flag" [.eq (.boolean true)],.expr ()]]
    (evaluate pastDeadline [] filter (flagged false) ()).1 = .error .deadlineExceeded ∧
      ∃ plan, choose filter [flagIndex] = some plan ∧ plan.indexId = flagIndex.id ∧
        ¬ Candidate plan flagIndex (flagged false) := by
  intro filter
  have chosen : (choose filter [flagIndex]).isSome := by decide
  have apart : ∀ plan ∈ choose filter [flagIndex], plan.indexId = flagIndex.id ∧
      ∀ k ∈ (documentKeys flagIndex (flagged false)).keys, ∀ range ∈ plan.ranges, ¬ (range.1 ≤ k ∧ k ≤ range.2) := by
    decide
  obtain ⟨plan,is⟩ := Option.isSome_iff_exists.mp chosen
  refine ⟨by decide,plan,is,(apart plan is).1,?_⟩
  rintro ⟨-, unkeyed | ⟨k, key, range, member, within⟩⟩
  · cases unkeyed
  · exact (apart plan is).2 k key range member within

end Kimmy.Query
