import Kimmy.Query.Plan
import Kimmy.Traverse

/-!
The keys of a document as a plan meets them: byte ranges over compound keys, and what a document offers at
each field of an index.
-/
namespace Kimmy.Query
open ByteOrder CanonicalCmp KeyEnc KeyOrder Matching Store

/-! Byte ranges. -/

theorem nilLe (x : Bytes) : [] ≤ x := not_lt.mp (List.not_lt_nil x)

theorem appendLe (x : Bytes) {s t : Bytes} (le : s ≤ t) : x ++ s ≤ x ++ t := by
  induction x with
  | nil => exact le
  | cons c x ih =>
    rcases lt_or_eq_of_le ih with less | same
    · exact le_of_lt (List.cons_lt_cons_iff.mpr (Or.inr ⟨rfl,less⟩))
    · rw [List.cons_append, List.cons_append, same]

theorem leAppend (x s : Bytes) : x ≤ x ++ s := by simpa using appendLe x (nilLe s)

theorem belowLe {x y : Bytes} (below : Below x y) (s t : Bytes) : x ++ s ≤ y ++ t := by
  obtain ⟨p,c,d,u,v,rfl,rfl,less⟩ := below
  rw [List.append_assoc, List.append_assoc]
  refine appendLe p (le_of_lt ?_)
  exact List.cons_lt_cons_iff.mpr (Or.inl less)

/- A code that does not exceed another stays so under suffixes that do not either. -/
theorem codesLe {o : Ordering} {x y s t : Bytes} (codes : Codes o x y) (within : o ≠ .gt) (tail : s ≤ t) :
    x ++ s ≤ y ++ t := by
  cases o with
  | lt => exact belowLe codes s t
  | eq =>
    cases (show x = y from codes)
    exact appendLe x tail
  | gt => exact absurd rfl within

/-! Compound keys, component by component. -/

theorem compoundTotal (parts : List (Bson × Bool)) : ∃ k, encodeCompoundOrdered parts = some k := by
  induction parts with
  | nil => exact ⟨[],rfl⟩
  | cons part rest ih =>
    obtain ⟨body,key⟩ := encodeTotal part.1
    obtain ⟨more,tail⟩ := ih
    exact ⟨_,by rw [encodeCompoundOrdered, key, tail]; rfl⟩

theorem compoundAppend {parts more : List (Bson × Bool)} {k j : Bytes} (first : encodeCompoundOrdered parts = some k)
    (second : encodeCompoundOrdered more = some j) : encodeCompoundOrdered (parts ++ more) = some (k ++ j) := by
  induction parts generalizing k with
  | nil =>
    cases first
    exact second
  | cons part rest ih =>
    obtain ⟨body,key⟩ := encodeTotal part.1
    obtain ⟨tail,rested⟩ := compoundTotal rest
    rw [List.cons_append, encodeCompoundOrdered, key, ih rested]
    rw [encodeCompoundOrdered, key, rested] at first
    cases first
    simp

/- The first byte of a component is below `FF`, whichever way the component runs. -/
theorem continuationLe {parts : List (Bson × Bool)} {k : Bytes} (key : encodeCompoundOrdered parts = some k) :
    k ≤ [aboveAnyContinuation] := by
  cases parts with
  | nil =>
    cases key
    exact nilLe _
  | cons part rest =>
    obtain ⟨body,head⟩ := encodeTotal part.1
    obtain ⟨tail,rested⟩ := compoundTotal rest
    rw [encodeCompoundOrdered, head, rested] at key
    cases key
    have tags : typeRank part.1 < aboveAnyContinuation ∧ ~~~(typeRank part.1) < aboveAnyContinuation := by
      cases part.1 <;> simp only [typeRank] <;> decide
    refine le_of_lt ?_
    cases part.2 with
    | false => exact List.cons_lt_cons_iff.mpr (Or.inl tags.1)
    | true => exact List.cons_lt_cons_iff.mpr (Or.inl tags.2)

/- How two values compare where a field runs up or down. -/
def directed (descending : Bool) (x y : Bson) : Ordering :=
  if descending then (canonicalCmp x y).swap else canonicalCmp x y

theorem codesPart (descending : Bool) (x y : Bson) : ∃ kx ky,
    encodeCompoundOrdered [(x,descending)] = some kx ∧ encodeCompoundOrdered [(y,descending)] = some ky ∧
      Codes (directed descending x y) kx ky := by
  obtain ⟨kx,ky,keyX,keyY,codes⟩ := @codesComponents [descending] [x] [y] rfl rfl
  refine ⟨kx,ky,keyX,keyY,?_⟩
  simpa [cmpComponents, directed] using codes

/- Two components of one value. -/
def SamePart (x y : Bson × Bool) : Prop := canonicalCmp x.1 y.1 = .eq ∧ x.2 = y.2

theorem compoundSame {xs ys : List (Bson × Bool)} (same : List.Forall₂ SamePart xs ys) :
    encodeCompoundOrdered xs = encodeCompoundOrdered ys := by
  induction same with
  | nil => rfl
  | @cons x y xs ys here rest ih =>
    obtain ⟨kx,ky,keyX,keyY,agree⟩ := keysAgree x.1 y.1
    rw [encodeCompoundOrdered, encodeCompoundOrdered, keyX, keyY, agree.mpr here.1, ih, here.2]

/-! The canonical order, as the planner uses it. -/

/- Types of one rank are of one group, so equal values are. -/
theorem groupSame {x y : Bson} (same : canonicalCmp x y = .eq) : typeGroup x = typeGroup y := by
  have ranks := rankSame same
  cases x <;> cases y <;> first | rfl | (simp only [typeRank] at ranks; exact absurd ranks (by decide))

/-! What a document offers at a field. -/

theorem dedupAfterKeeps {kept value : Bson} {values : List Bson} (member : value ∈ values) :
    ∃ w ∈ kept :: dedupAfter kept values, canonicalCmp w value = .eq := by
  induction values generalizing kept with
  | nil => simp at member
  | cons first rest ih =>
    rw [dedupAfter]
    split_ifs with same
    · rcases List.mem_cons.mp member with rfl | member
      · refine ⟨kept,List.mem_cons_self,?_⟩
        rw [cmpSwap, eq_of_beq same]
        rfl
      · exact ih member
    · rcases List.mem_cons.mp member with rfl | member
      · exact ⟨value,by simp,cmpRefl value⟩
      · obtain ⟨w,at',is⟩ := @ih first member
        exact ⟨w,List.mem_cons_of_mem _ at',is⟩

theorem dedupKeeps {value : Bson} {values : List Bson} (member : value ∈ values) :
    ∃ w ∈ dedupValues values, canonicalCmp w value = .eq := by
  cases values with
  | nil => simp at member
  | cons first rest =>
    rcases List.mem_cons.mp member with rfl | member
    · exact ⟨value,List.mem_cons_self,cmpRefl value⟩
    · exact dedupAfterKeeps member

theorem anyElementMono {values : List Bson} {p q : Bson → Bool} (each : ∀ v, p v = true → q v = true)
    (met : anyElement values p = true) : anyElement values q = true := by
  obtain ⟨value,found,holds⟩ := List.any_eq_true.mp met
  refine List.any_eq_true.mpr ⟨value,found,?_⟩
  rcases Bool.or_eq_true_iff.mp holds with itself | inside
  · exact Bool.or_eq_true_iff.mpr (Or.inl (each value itself))
  · refine Bool.or_eq_true_iff.mpr (Or.inr ?_)
    cases value with
    | array items =>
      obtain ⟨item,member,is⟩ := List.any_eq_true.mp inside
      exact List.any_eq_true.mpr ⟨item,member,each item is⟩
    | _ => cases inside

/- A predicate on one value that some value or element meets is met by a value the field offers, or one
equal to it. -/
theorem elementOffered {doc : Document} {path : String} {predicate : Bson → Bool}
    (met : anyElement (resolve doc path) predicate = true) :
    ∃ w v, w ∈ fieldValues doc path ∧ canonicalCmp w v = .eq ∧ predicate v = true := by
  obtain ⟨value,found,holds⟩ := List.any_eq_true.mp met
  have offers : ∃ v ∈ offered value, predicate v = true := by
    rcases Bool.or_eq_true_iff.mp holds with itself | inside
    · refine ⟨value,?_,itself⟩
      unfold offered
      split <;> simp
    · cases value with
      | array items =>
        obtain ⟨item,member,is⟩ := List.any_eq_true.mp inside
        exact ⟨item,by simp [offered, member],is⟩
      | _ => cases inside
  obtain ⟨v,member,is⟩ := offers
  have listed : v ∈ (resolve doc path).flatMap offered := List.mem_flatMap.mpr ⟨value,found,member⟩
  obtain ⟨w,kept,same⟩ := dedupKeeps listed
  refine ⟨w,v,?_,same,is⟩
  unfold fieldValues
  split
  · rename_i none
    rw [none] at found
    simp at found
  · exact kept

theorem equalsOffered {doc : Document} {path : String} {v : Bson} (met : equals (resolve doc path) v = true) :
    ∃ w ∈ fieldValues doc path, canonicalCmp w v = .eq := by
  have equal {u : Bson} (is : valueEquals u v = true) : canonicalCmp u v = .eq := by
    unfold valueEquals at is
    split at is
    · split at is
      · exact cmpRefl _
      · cases is
    · exact eq_of_beq is
  have inside (is : anyElement (resolve doc path) (valueEquals · v) = true) :
      ∃ w ∈ fieldValues doc path, canonicalCmp w v = .eq := by
    obtain ⟨w,u,offers,same,holds⟩ := elementOffered is
    exact ⟨w,offers,by rw [cmpCongr same]; exact equal holds⟩
  unfold equals at met
  split at met
  · rcases Bool.or_eq_true_iff.mp met with empty | met
    · refine ⟨.null,?_,cmpRefl _⟩
      rw [fieldValues, List.isEmpty_iff.mp empty]
      simp [dedupValues, dedupAfter]
    · exact inside met
  · exact inside met

theorem comparesOffered {doc : Document} {path : String} {bound : Bson} {accept : List Ordering}
    (met : compares (resolve doc path) bound accept = true) :
    ∃ w ∈ fieldValues doc path, canonicalCmp w bound ∈ accept := by
  obtain ⟨w,v,offers,same,holds⟩ := elementOffered met
  refine ⟨w,offers,?_⟩
  rw [cmpCongr same]
  unfold valueCompares at holds
  simpa using (Bool.and_eq_true_iff.mp holds).2

theorem fieldValuesNonempty (doc : Document) (path : String) : ∃ w, w ∈ fieldValues doc path := by
  have kept {values : List Bson} (some : values ≠ []) : ∃ w, w ∈ dedupValues values := by
    cases values with
    | nil => exact absurd rfl some
    | cons first rest => exact ⟨first,List.mem_cons_self⟩
  unfold fieldValues
  cases found : resolve doc path with
  | nil => exact kept (List.cons_ne_nil _ _)
  | cons value rest =>
    refine kept ?_
    simp only [List.flatMap_cons]
    unfold offered
    split <;> simp

/- A field that is no array and fans out through none offers one value. -/
theorem loneOffered {doc : Document} {path : String} {low high : Bson} (alone : fansOut doc path = false)
    (above : compares (resolve doc path) low [.gt,.eq] = true) (below : compares (resolve doc path) high [.lt,.eq] = true) :
    ∃ w ∈ fieldValues doc path, canonicalCmp w low ∈ [.gt,.eq] ∧ canonicalCmp w high ∈ [.lt,.eq] := by
  obtain ⟨u,offersU,isU⟩ := comparesOffered above
  obtain ⟨v,offersV,isV⟩ := comparesOffered below
  have one : ∃ w, fieldValues doc path = [w] := by
    unfold fansOut at alone
    unfold fieldValues
    cases found : resolve doc path with
    | nil => exact ⟨.null,rfl⟩
    | cons value rest =>
      rw [found] at alone
      cases rest with
      | cons => simp at alone
      | nil =>
        cases value with
        | array => simp [isArray] at alone
        | _ => exact ⟨_,rfl⟩
  obtain ⟨w,is⟩ := one
  rw [is, List.mem_singleton] at offersU offersV
  rw [offersU] at isU
  rw [offersV] at isV
  exact ⟨w,by rw [is]; exact List.mem_singleton_self _,isU,isV⟩

/-! The keys of a document. -/

/- A component that the document offers for a field of the index. -/
def Offers (doc : Document) (part : Bson × Bool) (field : IndexField) : Prop :=
  part.1 ∈ fieldValues doc field.path ∧ part.2 = field.descending

theorem memCombine {doc : Document} : ∀ {fields : List IndexField} {keys all : List (List (Bson × Bool))},
    combine keys (fields.map fun field => (field,fieldValues doc field.path)) = some all →
    ∀ before ∈ keys, ∀ parts, List.Forall₂ (Offers doc) parts fields → before ++ parts ∈ all := by
  intro fields
  induction fields with
  | nil =>
    intro keys all is before member parts offers
    cases offers
    cases is
    simpa using member
  | cons field rest ih =>
    intro keys all is before member parts offers
    rw [List.map_cons, combine] at is
    cases offers with
    | @cons part _ parts _ here after =>
      split_ifs at is
      have next := ih is (before ++ [part]) ?_ parts after
      · simpa using next
      · refine List.mem_flatMap.mpr ⟨before,member,List.mem_map.mpr ⟨part.1,here.1,?_⟩⟩
        rw [← here.2]

theorem chosenKeyed {index : IndexMeta} {doc : Document} {keys : List Bytes} {multikey : Bool}
    (selected : index.selection.all (·.selects doc) = true) (keyed : documentKeys index doc = .keyed keys multikey)
    {parts : List (Bson × Bool)} (offers : List.Forall₂ (Offers doc) parts index.fields) {k : Bytes}
    (key : encodeCompoundOrdered parts = some k) : k ∈ keys := by
  have inside : (index.selection.any fun filter => !filter.selects doc) = false := by
    cases chosen : index.selection with
    | none => rfl
    | some filter =>
      rw [chosen] at selected
      simpa using selected
  simp only [documentKeys, inside, Bool.false_eq_true, if_false] at keyed
  split_ifs at keyed
  split at keyed
  · cases keyed
  · rename_i all combined
    split at keyed
    · cases keyed
    · rename_i encoded mapped
      cases keyed
      have member := memCombine combined [] (List.mem_singleton_self _) parts offers
      rw [List.nil_append] at member
      rw [List.mem_dedup, List.mem_insertionSort]
      obtain ⟨j,listed,is⟩ := Traverse.memMapM mapped parts member
      rw [key] at is
      cases is
      exact listed

end Kimmy.Query
