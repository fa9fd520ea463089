import Kimmy.Query.GridLife
import Kimmy.Traverse

/-!
What is read of the documents: their values, in the order they arrive, and the partition each is filed in.
-/
namespace Kimmy.Query.Densify
open CanonicalCmp
open Traverse (bindOk)

/- The value a document has, a missing or null field being none. -/
def fieldValue (spec : DensifySpec) (doc : Document) : Option Bson :=
  match (resolve doc spec.field).head? with
  | none | some .null => none
  | some v => some v

def keyOf (spec : DensifySpec) (doc : Document) : ByteOrder.Bytes := groupKey (.document (fieldsOf doc spec.partitionFields))

/- The documents with a value, and those without, as they arrive. -/
def valued (spec : DensifySpec) (docs : List Document) : List (Nat × Bson) :=
  docs.zipIdx.filterMap fun x => (fieldValue spec x.1).map (x.2,·)

def unvalued (spec : DensifySpec) (docs : List Document) : List Nat :=
  docs.zipIdx.filterMap fun x => if (fieldValue spec x.1).isNone then some x.2 else none

theorem zipIdxSnoc (docs : List Document) (doc : Document) : (docs ++ [doc]).zipIdx = docs.zipIdx ++ [(doc,docs.length)] := by
  rw [List.zipIdx_append]
  simp

structure ReadInv (spec : DensifySpec) (input : List Document) (r : Reading) : Prop where
  docs : r.docs = input
  passthrough : r.passthrough = unvalued spec input
  rows : r.rows.map (fun row => (row.doc,row.value)) = valued spec input
  filed : ∀ row ∈ r.rows, ∃ doc, input[row.doc]? = some doc ∧ r.index.get (keyOf spec doc) = some row.part
  apart : ∀ j k p, r.index.get j = some p → r.index.get k = some p → j = k
  small : ∀ k p, r.index.get k = some p → p < r.parts.length
  used : ∀ p part, r.parts[p]? = some part →
    ∃ row ∈ r.rows, row.part = p ∧ ∃ doc, input[row.doc]? = some doc ∧ part.fields = fieldsOf doc spec.partitionFields
  dates : ∀ row ∈ r.rows, r.dates = some (isDate row.value)

theorem readStart (spec : DensifySpec) : ReadInv spec [] ⟨[],[],[],[],.empty,none⟩ :=
  ⟨rfl,rfl,rfl,nofun,nofun,nofun,nofun,nofun⟩

theorem steppableSame {v value : Bson} (ok : steppable v = .ok value) : value = v := by
  cases v with
  | double bits =>
    simp only [steppable] at ok
    split_ifs at ok
    cases ok
    rfl
  | int32 | int64 | dateTime =>
    cases ok
    rfl
  | _ => cases ok

/- Filing a document leaves its key and everything filed before. -/
theorem partOfSpec {spec : DensifySpec} {docs : List Document} {r : Reading} (inv : ReadInv spec docs r) (doc : Document) {part : Nat}
    {r' : Reading} (is : partOf spec r doc = (part,r')) :
    r'.docs = r.docs ∧ r'.passthrough = r.passthrough ∧ r'.rows = r.rows ∧ r'.dates = r.dates ∧
    r'.index.get (keyOf spec doc) = some part ∧ (∀ k p, r.index.get k = some p → r'.index.get k = some p) ∧
    (∀ j k p, r'.index.get j = some p → r'.index.get k = some p → j = k) ∧
    (∀ k p, r'.index.get k = some p → p < r'.parts.length) ∧
    (r'.parts = r.parts ∨ part = r.parts.length ∧ ∃ rep, r'.parts = r.parts ++ [⟨fieldsOf doc spec.partitionFields,rep⟩]) := by
  unfold partOf at is
  simp only at is
  split at is
  · rename_i found
    cases is
    exact ⟨rfl,rfl,rfl,rfl,found,fun _ _ held => held,inv.apart,inv.small,.inl rfl⟩
  · rename_i absent
    cases is
    have fresh {k : ByteOrder.Bytes} {p : Nat} (held : r.index.get k = some p) : k ≠ keyOf spec doc := by
      rintro rfl
      exact absurd (held.symm.trans absent) nofun
    refine ⟨rfl,rfl,rfl,rfl,?_,fun k p held => ?_,fun j k p first second => ?_,fun k p held => ?_,.inr ⟨rfl,_,rfl⟩⟩
    · rw [SortedMap.getInsert]
      exact if_pos rfl
    · rw [SortedMap.getInsert]
      exact (if_neg (fresh held)).trans held
    · rw [SortedMap.getInsert] at first second
      split_ifs at first second with isJ isK isK
      · exact isJ.trans isK.symm
      · cases first
        exact absurd (inv.small k _ second) (lt_irrefl _)
      · cases second
        exact absurd (inv.small j _ first) (lt_irrefl _)
      · exact inv.apart j k p first second
    · rw [SortedMap.getInsert] at held
      rw [List.length_append, List.length_singleton]
      split_ifs at held
      · cases held
        exact Nat.lt_succ_self _
      · exact (inv.small k p held).trans (Nat.lt_succ_self _)

theorem getSnoc {docs : List Document} {doc other : Document} {i : Nat} (held : docs[i]? = some other) :
    (docs ++ [doc])[i]? = some other := by
  rw [List.getElem?_append_left]
  · exact held
  · exact (List.getElem?_eq_some_iff.mp held).1

theorem readValued {spec : DensifySpec} {r r' : Reading} {doc : Document} {v : Bson} (is : fieldValue spec doc = some v)
    (ok : readDoc spec r doc = .ok r') : ∃ part mid, partOf spec { r with dates := some (isDate v) } doc = (part,mid) ∧
      r' = { mid with rows := mid.rows ++ [⟨v,mid.docs.length,part⟩], docs := mid.docs ++ [doc] } ∧
      ∀ b, r.dates = some b → b = isDate v := by
  have found : (resolve doc spec.field).head? = some v ∧ v ≠ .null := by
    unfold fieldValue at is
    split at is
    · cases is
    · cases is
    · rename_i w other held
      cases is
      exact ⟨held,other⟩
  unfold readDoc at ok
  rw [found.1] at ok
  have ok : (do
      let value ← steppable v
      if r.dates.any (· ≠ isDate value) then .error .mixedKinds
      else
        let filed := partOf spec { r with dates := some (isDate value) } doc
        .ok { filed.2 with rows := filed.2.rows ++ [Row.mk value r.docs.length filed.1], docs := filed.2.docs ++ [doc] }) = .ok r' := by
    cases v with
    | null => exact absurd rfl found.2
    | _ => exact ok
  obtain ⟨value,steps,ok⟩ := bindOk ok
  cases steppableSame steps
  split_ifs at ok with mixed
  generalize filed : partOf spec { r with dates := some (isDate v) } doc = pair at ok
  obtain ⟨part,mid⟩ := pair
  cases ok
  have same : mid.docs = r.docs := by
    unfold partOf at filed
    simp only at filed
    split at filed <;> cases filed <;> rfl
  refine ⟨part,mid,rfl,by rw [same],fun b dated => ?_⟩
  by_contra other
  refine mixed ?_
  rw [dated, Option.any_some]
  exact decide_eq_true other

theorem readStep {spec : DensifySpec} {docs : List Document} {r r' : Reading} (inv : ReadInv spec docs r) {doc : Document}
    (ok : readDoc spec r doc = .ok r') : ReadInv spec (docs ++ [doc]) r' := by
  have valuedSnoc : valued spec (docs ++ [doc]) = valued spec docs ++ ((fieldValue spec doc).map (docs.length,·)).toList := by
    rw [valued, zipIdxSnoc, List.filterMap_append, List.filterMap_cons, List.filterMap_nil]
    cases fieldValue spec doc <;> rfl
  have unvaluedSnoc : unvalued spec (docs ++ [doc]) =
      unvalued spec docs ++ if (fieldValue spec doc).isNone then [docs.length] else [] := by
    rw [unvalued, zipIdxSnoc, List.filterMap_append, List.filterMap_cons, List.filterMap_nil]
    cases fieldValue spec doc <;> rfl
  have old : ∀ row ∈ r.rows, ∃ d, (docs ++ [doc])[row.doc]? = some d ∧ r.index.get (keyOf spec d) = some row.part :=
    fun row member => (inv.filed row member).imp fun d ⟨held,filed⟩ => ⟨getSnoc held,filed⟩
  have oldUsed : ∀ p part, r.parts[p]? = some part → ∃ row ∈ r.rows, row.part = p ∧
      ∃ d, (docs ++ [doc])[row.doc]? = some d ∧ part.fields = fieldsOf d spec.partitionFields :=
    fun p part held => (inv.used p part held).imp fun row ⟨member,is,d,there,same⟩ => ⟨member,is,d,getSnoc there,same⟩
  have place : r.docs.length = docs.length := congrArg _ inv.docs
  by_cases missing : fieldValue spec doc = none
  · -- the document passes through
    have passes : readDoc spec r doc = .ok { r with passthrough := r.passthrough ++ [r.docs.length], docs := r.docs ++ [doc] } := by
      unfold fieldValue at missing
      unfold readDoc
      split at missing
      · rename_i is
        simp only [is]
      · rename_i is
        simp only [is]
      · cases missing
    cases passes.symm.trans ok
    rw [missing] at valuedSnoc unvaluedSnoc
    refine ⟨by rw [inv.docs],?_,?_,old,inv.apart,inv.small,oldUsed,inv.dates⟩
    · rw [unvaluedSnoc, inv.passthrough, place]
      rfl
    · rw [valuedSnoc, inv.rows]
      exact (List.append_nil _).symm
  · obtain ⟨v,is⟩ := Option.ne_none_iff_exists'.mp missing
    obtain ⟨part,mid,filed,rfl,kinds⟩ := readValued is ok
    have inv' : ReadInv spec docs { r with dates := some (isDate v) } :=
      ⟨inv.docs,inv.passthrough,inv.rows,inv.filed,inv.apart,inv.small,inv.used,
        fun row member => congrArg some (kinds _ (inv.dates row member)).symm⟩
    obtain ⟨sameDocs,samePass,sameRows,sameDates,named,keeps,apart,small,parts⟩ := partOfSpec inv' doc filed
    rw [is] at valuedSnoc unvaluedSnoc
    have new : (docs ++ [doc])[docs.length]? = some doc := List.getElem?_concat_length
    have here : mid.docs.length = docs.length := by rw [sameDocs]; exact place
    refine ⟨?_,?_,?_,fun row member => ?_,apart,small,fun p held there => ?_,fun row member => ?_⟩
    · simp only [sameDocs, inv.docs]
    · rw [unvaluedSnoc]
      simp only [samePass, inv.passthrough]
      exact (List.append_nil _).symm
    · simp only [sameRows, List.map_append, inv.rows, valuedSnoc, here]
      rfl
    · rcases List.mem_append.mp member with before | now
      · rw [sameRows] at before
        obtain ⟨d,held,was⟩ := old row before
        exact ⟨d,held,keeps _ _ was⟩
      · rw [List.mem_singleton.mp now]
        exact ⟨doc,here ▸ new,named⟩
    · simp only [sameRows, here]
      rcases parts with same | ⟨rfl,rep,grown⟩
      · rw [show mid.parts = r.parts from same] at there
        obtain ⟨row,member,rest⟩ := oldUsed p held there
        exact ⟨row,List.mem_append_left _ member,rest⟩
      · rw [show mid.parts = r.parts ++ _ from grown] at there
        rcases Nat.lt_or_ge p r.parts.length with less | more
        · rw [List.getElem?_append_left less] at there
          obtain ⟨row,member,rest⟩ := oldUsed p held there
          exact ⟨row,List.mem_append_left _ member,rest⟩
        · have last := (List.getElem?_eq_some_iff.mp there).1
          rw [List.length_append, List.length_singleton] at last
          have is : p = r.parts.length := by omega
          subst is
          rw [List.getElem?_concat_length] at there
          cases there
          exact ⟨_,List.mem_append_right _ List.mem_cons_self,rfl,doc,new,rfl⟩
    · simp only [sameDates]
      rcases List.mem_append.mp member with before | now
      · rw [sameRows] at before
        exact congrArg some (kinds _ (inv.dates row before)).symm
      · rw [List.mem_singleton.mp now]

theorem readAllSpec {spec : DensifySpec} : ∀ {input docs : List Document} {r r' : Reading}, ReadInv spec docs r →
    input.foldlM (readDoc spec) r = .ok r' → ReadInv spec (docs ++ input) r' := by
  intro input
  induction input with
  | nil =>
    intro docs r r' inv ok
    cases ok
    rw [List.append_nil]
    exact inv
  | cons doc input ih =>
    intro docs r r' inv ok
    rw [List.foldlM_cons] at ok
    obtain ⟨next,first,ok⟩ := bindOk ok
    have rest := ih (readStep inv first) ok
    rwa [List.append_assoc, List.singleton_append] at rest

end Kimmy.Query.Densify
