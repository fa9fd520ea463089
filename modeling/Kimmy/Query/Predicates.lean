import Kimmy.Query.Keys

/-!
What a filter imposes on every document that it does not refute: the bounds that the planner extracts, and
the predicates that it proves a partial filter from.
-/
namespace Kimmy.Query
open CanonicalCmp KeyOrder Matching Store

/-! The predicates taken from a filter hold of every match. -/

section
variable {Expr Schema σ : Type} {lang : Language Expr Schema σ} {vars : Bindings} {doc : Document}

/- A condition every match of the filter satisfies. -/
inductive Imposes : Filter Expr Schema → String → Condition Expr Schema → Prop where
  | field {path conditions condition} (member : condition ∈ conditions) : Imposes (.field path conditions) path condition
  | and {branches filter path condition} (member : filter ∈ branches) (inside : Imposes filter path condition) :
      Imposes (.and branches) path condition

theorem memEvaluateEach {branches : List (Filter Expr Schema)} {filter : Filter Expr Schema} (member : filter ∈ branches) :
    evaluate lang vars filter doc ∈ evaluateEach lang vars branches doc := by
  induction branches with
  | nil => simp at member
  | cons first rest ih =>
    rw [evaluateEach]
    rcases List.mem_cons.mp member with rfl | member
    · exact List.mem_cons_self
    · exact List.mem_cons_of_mem _ (ih member)

theorem memConditionsMatch {conditions : List (Condition Expr Schema)} {condition : Condition Expr Schema}
    {values : List Bson} (member : condition ∈ conditions) :
    conditionMatches lang vars condition values ∈ conditionsMatch lang vars conditions values := by
  induction conditions with
  | nil => simp at member
  | cons first rest ih =>
    rw [conditionsMatch]
    rcases List.mem_cons.mp member with rfl | member
    · exact List.mem_cons_self
    · exact List.mem_cons_of_mem _ (ih member)

theorem imposedUnrefuted {filter : Filter Expr Schema} {path : String} {condition : Condition Expr Schema}
    (imposed : Imposes filter path condition) {s : σ} (left : Unrefuted (evaluate lang vars filter doc s).1) :
    ∃ t, Unrefuted (conditionMatches lang vars condition (resolve doc path) t).1 := by
  induction imposed generalizing s with
  | field member =>
    rw [evaluate] at left
    exact allOfUnrefuted left _ (memConditionsMatch member)
  | and member inside ih =>
    rw [evaluate] at left
    obtain ⟨t,left⟩ := allOfUnrefuted left _ (memEvaluateEach member)
    exact ih left

/- What the bounds of a path say of the values found there. -/
structure Bounds.Met (bounds : Bounds) (values : List Bson) : Prop where
  eq : ∀ v, bounds.eq = some v → equals values v = true
  lower : ∀ v, bounds.lower = some v → compares values v [.gt,.eq] = true
  upper : ∀ v, bounds.upper = some v → compares values v [.lt,.eq] = true
  inValues : ∀ vs, bounds.inValues = some vs → vs.any (equals values) = true

theorem tightenCases {held : Option Bson} {value v : Bson} {tighter : Ordering} (is : tighten held value tighter = some v) :
    held = some v ∨ v = value := by
  unfold tighten at is
  split at is
  · cases is
    exact Or.inr rfl
  · split_ifs at is
    · cases is
      exact Or.inr rfl
    · exact Or.inl is

theorem comparesWider {values : List Bson} {bound : Bson} {accept more : List Ordering} (wider : accept ⊆ more)
    (met : compares values bound accept = true) : compares values bound more = true := by
  refine anyElementMono (fun v is => ?_) met
  unfold valueCompares at *
  simp only [Bool.and_eq_true, List.contains_eq_mem, decide_eq_true_eq] at *
  exact ⟨is.1,wider is.2⟩

theorem noteMet {slot : Bounds} {values : List Bson} {condition : Condition Expr Schema} (met : slot.Met values)
    {t : σ} (left : Unrefuted (conditionMatches lang vars condition values t).1) : (slot.note condition).Met values := by
  cases condition with
  | eq v =>
    rw [conditionMatches] at left
    refine { met with eq := fun u is => ?_ }
    simp only [Bounds.note] at is
    cases held : slot.eq with
    | none =>
      rw [held] at is
      cases is
      exact left
    | some w =>
      rw [held] at is
      cases is
      exact met.eq _ held
  | inList vs =>
    rw [conditionMatches] at left
    refine { met with inValues := fun us is => ?_ }
    simp only [Bounds.note] at is
    cases held : slot.inValues with
    | none =>
      rw [held] at is
      cases is
      exact left
    | some ws =>
      rw [held] at is
      cases is
      exact met.inValues _ held
  | gt v | gte v =>
    rw [conditionMatches] at left
    refine { met with lower := fun u is => ?_ }
    rcases tightenCases is with held | rfl
    · exact met.lower u held
    · exact comparesWider (by simp) left
  | lt v | lte v =>
    rw [conditionMatches] at left
    refine { met with upper := fun u is => ?_ }
    rcases tightenCases is with held | rfl
    · exact met.upper u held
    · exact comparesWider (by simp) left
  | _ => exact met

/- Every entry is met by the values at its path. -/
def Predicates.Met (predicates : Predicates) (doc : Document) : Prop :=
  ∀ path bounds, predicates.get path = some bounds → bounds.Met (resolve doc path)

theorem getChange {predicates : Predicates} {path other : String} {note : Bounds → Bounds} {bounds : Bounds}
    (is : (predicates.change path note).get other = some bounds) :
    predicates.get other = some bounds ∨ other = path ∧
      (bounds = note {} ∨ ∃ slot, predicates.get path = some slot ∧ bounds = note slot) := by
  induction predicates with
  | nil =>
    simp only [Predicates.change, Predicates.get, List.find?_singleton] at is
    split_ifs at is with same
    · simp only [Option.map_some, Option.some.injEq] at is
      exact Or.inr ⟨(eq_of_beq same).symm,Or.inl is.symm⟩
    · simp at is
  | cons entry rest ih =>
    obtain ⟨place, held⟩ := entry
    simp only [Predicates.change] at is
    split_ifs at is with here
    · subst here
      by_cases same : place = other
      · subst same
        simp only [Predicates.get, List.find?_cons, beq_self_eq_true, Option.map_some, Option.some.injEq] at is
        exact Or.inr ⟨rfl,Or.inr ⟨held,by simp [Predicates.get],is.symm⟩⟩
      · left
        simpa [Predicates.get, same] using is
    · by_cases same : place = other
      · left
        simpa [Predicates.get, same] using is
      · have after : (Predicates.change path note rest).get other = some bounds := by
          simpa [Predicates.get, same] using is
        rcases ih after with before | ⟨at', from'⟩
        · left
          simpa [Predicates.get, same] using before
        · right
          refine ⟨at',from'.imp_right ?_⟩
          rintro ⟨slot, held', is'⟩
          exact ⟨slot,by simpa [Predicates.get, here] using held',is'⟩

theorem changeMet {predicates : Predicates} {path : String} {conditions : List (Condition Expr Schema)}
    (met : predicates.Met doc)
    (each : ∀ condition ∈ conditions, ∃ t, Unrefuted (conditionMatches lang vars condition (resolve doc path) t).1) :
    Predicates.Met (predicates.change path fun slot => conditions.foldl Bounds.note slot) doc := by
  have folded {slot : Bounds} (holds : slot.Met (resolve doc path)) :
      (conditions.foldl Bounds.note slot).Met (resolve doc path) := by
    clear met
    induction conditions generalizing slot with
    | nil => exact holds
    | cons first rest ih =>
      obtain ⟨t,left⟩ := each first List.mem_cons_self
      exact ih (fun condition member => each condition (List.mem_cons_of_mem _ member)) (noteMet holds left)
  intro other bounds is
  rcases getChange is with before | ⟨rfl, rfl | ⟨slot, held, rfl⟩⟩
  · exact met other bounds before
  · exact folded ⟨nofun,nofun,nofun,nofun⟩
  · exact folded (met _ slot held)

mutual

theorem collectMet : ∀ (filter : Filter Expr Schema) {out : Predicates} {s : σ},
    Unrefuted (evaluate lang vars filter doc s).1 → out.Met doc → (collect filter out).Met doc
  | .and branches, out, s, left, met => by
      rw [evaluate] at left
      rw [collect]
      exact collectEachMet branches (fun filter member => allOfUnrefuted left _ (memEvaluateEach member)) met
  | .field path conditions, out, s, left, met => by
      rw [collect]
      exact changeMet met fun condition member => imposedUnrefuted (.field member) left
  | .alwaysTrue, out, s, left, met => by simpa [collect] using met
  | .or branches, out, s, left, met => by simpa [collect] using met
  | .nor branches, out, s, left, met => by simpa [collect] using met
  | .expr e, out, s, left, met => by simpa [collect] using met
  | .jsonSchema schema, out, s, left, met => by simpa [collect] using met
  | .sampleRate rate, out, s, left, met => by simpa [collect] using met

theorem collectEachMet : ∀ (branches : List (Filter Expr Schema)) {out : Predicates},
    (∀ filter ∈ branches, ∃ s, Unrefuted (evaluate lang vars filter doc s).1) → out.Met doc →
      (collectEach branches out).Met doc
  | [], out, each, met => by simpa [collectEach] using met
  | filter :: rest, out, each, met => by
      obtain ⟨s,left⟩ := each filter List.mem_cons_self
      rw [collectEach]
      exact collectEachMet rest (fun other member => each other (List.mem_cons_of_mem _ member)) (collectMet filter left met)

end

/-! Containment: what a query proves, a partial filter it is covered by needs no more of. -/

theorem anyElementPresent {values : List Bson} {p : Bson → Bool} (met : anyElement values p = true) :
    existsAt values true = true := by
  cases values with
  | nil => cases met
  | cons => rfl

theorem valueEqualsCmp {v want : Bson} (is : valueEquals v want = true) : canonicalCmp v want = .eq := by
  unfold valueEquals at is
  split at is
  · split at is
    · exact cmpRefl _
    · cases is
  · exact eq_of_beq is

theorem valueComparesIff {v bound : Bson} {accept : List Ordering} :
    valueCompares v bound accept = true ↔ typeGroup v = typeGroup bound ∧ canonicalCmp v bound ∈ accept := by
  simp [valueCompares, sameTypeGroup]

/- Equal values satisfy the same predicates, but for an equality with null. -/
theorem holdsOnSame {op : PartialOp} {w v : Bson} (same : canonicalCmp w v = .eq) (some : v ≠ .null)
    (holds : op.holdsOnValue v = true) : op.holdsOnValue w = true := by
  have bound {b : Bson} {accept : List Ordering} (is : valueCompares v b accept = true) : valueCompares w b accept = true := by
    rw [valueComparesIff] at *
    rw [groupSame same, cmpCongr same]
    exact is
  cases op with
  | present => rfl
  | eq want =>
    simp only [PartialOp.holdsOnValue] at *
    have equal := valueEqualsCmp holds
    unfold valueEquals at *
    split at holds
    · split at holds
      · exact absurd rfl some
      · cases holds
    · rw [beq_iff_eq, cmpCongr same]
      exact equal
  | gt b | gte b | lt b | lte b => exact bound holds

/- A tighter lower bound gives a looser one. -/
theorem lowerGives {w a b : Bson} {asked needed : List Ordering} (below : ∀ o ∈ asked, o ≠ .lt)
    (group : sameTypeGroup a b = true) (atLeast : canonicalCmp a b ≠ .lt)
    (enough : .gt ∈ needed ∧ (.eq ∈ asked → canonicalCmp a b = .gt ∨ .eq ∈ needed))
    (met : valueCompares w a asked = true) : valueCompares w b needed = true := by
  rw [valueComparesIff] at *
  refine ⟨met.1.trans (eq_of_beq group),?_⟩
  cases is : canonicalCmp w a with
  | lt => exact absurd is (below _ met.2)
  | eq =>
    rw [cmpCongr is]
    rw [is] at met
    cases past : canonicalCmp a b with
    | lt => exact absurd past atLeast
    | eq =>
      rw [past] at enough
      exact (enough.2 met.2).resolve_left nofun
    | gt => exact enough.1
  | gt =>
    rw [Std.TransCmp.gt_of_gt_of_isGE is (Ordering.isGE_iff_ne_lt.mpr atLeast)]
    exact enough.1

theorem upperGives {w a b : Bson} {asked needed : List Ordering} (above : ∀ o ∈ asked, o ≠ .gt)
    (group : sameTypeGroup a b = true) (under : canonicalCmp a b ≠ .gt)
    (enough : .lt ∈ needed ∧ (.eq ∈ asked → canonicalCmp a b = .lt ∨ .eq ∈ needed))
    (met : valueCompares w a asked = true) : valueCompares w b needed = true := by
  rw [valueComparesIff] at *
  refine ⟨met.1.trans (eq_of_beq group),?_⟩
  cases is : canonicalCmp w a with
  | gt => exact absurd is (above _ met.2)
  | eq =>
    rw [cmpCongr is]
    rw [is] at met
    cases past : canonicalCmp a b with
    | gt => exact absurd past under
    | eq =>
      rw [past] at enough
      exact (enough.2 met.2).resolve_left nofun
    | lt => exact enough.1
  | lt =>
    rw [Std.TransCmp.lt_of_lt_of_isLE is (Ordering.isLE_iff_ne_gt.mpr under)]
    exact enough.1

theorem impliesSound {op needed : PartialOp} {values : List Bson} (implied : op.implies needed = true)
    (met : op.selects values = true) : needed.selects values = true := by
  have known {v : Bson} (some : v ≠ .null) (holds : needed.holdsOnValue v = true)
      (equal : equals values v = true) : needed.selects values = true := by
    have inside : anyElement values (valueEquals · v) = true := by
      unfold equals at equal
      split at equal
      · exact absurd rfl some
      · exact equal
    have every : anyElement values needed.holdsOnValue = true :=
      anyElementMono (fun w is => holdsOnSame (valueEqualsCmp is) some holds) inside
    cases needed with
    | present => exact anyElementPresent inside
    | eq want =>
      simp only [PartialOp.selects, equals]
      split
      · exact Bool.or_eq_true_iff.mpr (Or.inr every)
      · exact every
    | gt | gte | lt | lte => exact every
  unfold PartialOp.implies at implied
  split at implied
  · exact met
  · cases implied
  · rename_i other
    cases op with
    | present => exact met
    | eq v =>
      have some : v ≠ .null := fun is => other (by rw [is])
      exact known some rfl met
    | gt | gte | lt | lte => exact anyElementPresent met
  · rename_i v null _ _
    exact known null implied met
  · cases implied
  · simp only [Bool.and_eq_true, bne_iff_ne] at implied
    exact anyElementMono (fun w is => lowerGives (by simp) implied.1 implied.2 (by simp) is) met
  · simp only [Bool.and_eq_true, bne_iff_ne] at implied
    exact anyElementMono (fun w is => lowerGives (by simp) implied.1 implied.2 (by simp) is) met
  · simp only [Bool.and_eq_true, bne_iff_ne] at implied
    exact anyElementMono (fun w is => lowerGives (by simp) implied.1 implied.2 (by simp) is) met
  · simp only [Bool.and_eq_true, beq_iff_eq] at implied
    exact anyElementMono (fun w is => lowerGives (by simp) implied.1 (by simp [implied.2]) (by simp [implied.2]) is) met
  · simp only [Bool.and_eq_true, bne_iff_ne] at implied
    exact anyElementMono (fun w is => upperGives (by simp) implied.1 implied.2 (by simp) is) met
  · simp only [Bool.and_eq_true, bne_iff_ne] at implied
    exact anyElementMono (fun w is => upperGives (by simp) implied.1 implied.2 (by simp) is) met
  · simp only [Bool.and_eq_true, bne_iff_ne] at implied
    exact anyElementMono (fun w is => upperGives (by simp) implied.1 implied.2 (by simp) is) met
  · simp only [Bool.and_eq_true, beq_iff_eq] at implied
    exact anyElementMono (fun w is => upperGives (by simp) implied.1 (by simp [implied.2]) (by simp [implied.2]) is) met
  · cases implied

/- A condition that proves something says it of the values. -/
theorem containmentHolds {condition : Condition Expr Schema} {op : PartialOp} {values : List Bson} {t : σ}
    (gives : containment condition = some op) (left : Unrefuted (conditionMatches lang vars condition values t).1) :
    op.selects values = true := by
  unfold containment at gives
  split at gives <;> cases gives <;> (rw [conditionMatches] at left; exact left)

mutual

theorem containmentMet : ∀ (filter : Filter Expr Schema) {s : σ}, Unrefuted (evaluate lang vars filter doc s).1 →
    ∀ proven ∈ containmentPredicates filter, proven.2.selects (resolve doc proven.1) = true
  | .and branches, s, left => by
      rw [evaluate] at left
      rw [containmentPredicates]
      exact containmentEachMet branches fun filter member => allOfUnrefuted left _ (memEvaluateEach member)
  | .field path conditions, s, left => by
      rw [containmentPredicates]
      intro proven member
      obtain ⟨condition,listed,gives⟩ := List.mem_filterMap.mp member
      obtain ⟨op,proves,rfl⟩ := Option.map_eq_some_iff.mp gives
      obtain ⟨t,left⟩ := imposedUnrefuted (.field listed) left
      exact containmentHolds proves left
  | .alwaysTrue, s, left => by simp [containmentPredicates]
  | .or branches, s, left => by simp [containmentPredicates]
  | .nor branches, s, left => by simp [containmentPredicates]
  | .expr e, s, left => by simp [containmentPredicates]
  | .jsonSchema schema, s, left => by simp [containmentPredicates]
  | .sampleRate rate, s, left => by simp [containmentPredicates]

theorem containmentEachMet : ∀ (branches : List (Filter Expr Schema)),
    (∀ filter ∈ branches, ∃ s, Unrefuted (evaluate lang vars filter doc s).1) →
      ∀ proven ∈ containmentEach branches, proven.2.selects (resolve doc proven.1) = true
  | [], each => by simp [containmentEach]
  | filter :: rest, each => by
      obtain ⟨s,left⟩ := each filter List.mem_cons_self
      rw [containmentEach]
      intro proven member
      rcases List.mem_append.mp member with here | after
      · exact containmentMet filter left proven here
      · exact containmentEachMet rest (fun other listed => each other (List.mem_cons_of_mem _ listed)) proven after

end

/- Every predicate of the filter is given by one of the query's on the same path. -/
theorem coveredSelects {filter : PartialFilter} {query : List (String × PartialOp)} (covered : filter.coveredBy query = true)
    (met : ∀ p ∈ query, p.2.selects (resolve doc p.1) = true) : filter.selects doc = true := by
  refine List.all_eq_true.mpr fun (path,needed) member => ?_
  have given := List.all_eq_true.mp covered (path,needed) member
  obtain ⟨⟨asked, op⟩,listed,is⟩ := List.any_eq_true.mp given
  obtain ⟨same,implied⟩ := Bool.and_eq_true_iff.mp is
  cases eq_of_beq same
  exact impliesSound implied (met _ listed)

theorem usableSelects {index : IndexMeta} {proven : List (String × PartialOp)} (usable : usablePartial index proven = true)
    (met : ∀ p ∈ proven, p.2.selects (resolve doc p.1) = true) : index.selection.all (·.selects doc) = true := by
  unfold usablePartial at usable
  cases chosen : index.selection with
  | none => rfl
  | some filter =>
    rw [chosen] at usable
    exact coveredSelects usable met

end
end Kimmy.Query
