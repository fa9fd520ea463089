import Kimmy.Query.Update
import Kimmy.Traverse

/-!
What an update leaves of a document's identity. An operator writes a path whose first segment is not `_id`,
so the stored id stays as it is; a replacement and a pipeline put it first again.
-/
namespace Kimmy.Query
open Traverse (bindOk okPairs)

/-! Paths that do not touch the id. -/

theorem stripAppend (start rest : List Char) : stripText start (start ++ rest) = some rest := by
  induction start with
  | nil => cases rest <;> rfl
  | cons c more ih => simp [stripText, ih]

/- The first segment is the path up to its first dot. -/
theorem splitFirst {first : String} {others : List String} : ∀ {text segment : List Char},
    splitDots text segment = first :: others →
      ∃ tail, segment.reverse ++ text = first.toList ++ tail ∧ (tail = [] ∨ ∃ rest, tail = '.' :: rest)
  | [], segment, split => by
      simp only [splitDots, List.cons.injEq] at split
      exact ⟨[],by simp [←split.1],.inl rfl⟩
  | c :: rest, segment, split => by
      rw [splitDots] at split
      split_ifs at split with dot
      · simp only [List.cons.injEq] at split
        exact ⟨c :: rest,by simp [←split.1],.inr ⟨rest,by rw [dot]⟩⟩
      · obtain ⟨tail, text, ends⟩ := splitFirst split
        exact ⟨tail,by simpa using text,ends⟩

theorem untouchedHead {path first : String} {others : List String} (untouched : touchesId path = false)
    (split : segments path = first :: others) : first ≠ idField := by
  rintro rfl
  obtain ⟨tail, text, ends⟩ := splitFirst split
  rw [List.reverse_nil, List.nil_append] at text
  simp only [touchesId, Bool.or_eq_false_iff, text, stripAppend] at untouched
  rcases ends with rfl | ⟨rest, rfl⟩
  · have whole : path = idField := String.toList_injective (by simpa using text)
    simp [whole] at untouched
  · simp [stripText] at untouched

theorem splitNoDots {part : String} : ∀ {text segment : List Char}, part ∈ splitDots text segment →
    '.' ∉ segment → '.' ∉ part.toList
  | [], segment, member, plain => by
      rw [splitDots, List.mem_singleton] at member
      simpa [member] using plain
  | c :: rest, segment, member, plain => by
      rw [splitDots] at member
      split_ifs at member with dot
      · rcases List.mem_cons.mp member with rfl | later
        · simpa using plain
        · exact splitNoDots later (by simp)
      · refine splitNoDots member ?_
        rw [List.mem_cons, not_or]
        exact ⟨fun same => dot same.symm,plain⟩

theorem splitPlain {tail : List Char} : ∀ {plain segment : List Char}, '.' ∉ plain →
    splitDots (plain ++ tail) segment = splitDots tail (plain.reverse ++ segment)
  | [], _, _ => rfl
  | c :: rest, segment, absent => by
      rw [List.mem_cons, not_or] at absent
      rw [List.cons_append, splitDots, if_neg (Ne.symm absent.1), splitPlain absent.2]
      simp

/- A path that was joined starts with the first of its segments. -/
theorem joinedHead {first : String} (plain : '.' ∉ first.toList) (others : List String) :
    ∃ rest, segments (joined (first :: others)) = first :: rest := by
  unfold segments joined
  rw [String.toList_ofList]
  cases others with
  | nil =>
      have split := @splitPlain [] first.toList [] plain
      rw [List.append_nil] at split
      refine ⟨[],?_⟩
      rw [joinDots, split]
      simp [splitDots]
  | cons next rest =>
      refine ⟨splitDots (joinDots (next :: rest)) [],?_⟩
      have text : joinDots (first :: next :: rest) = first.toList ++ '.' :: joinDots (next :: rest) := rfl
      rw [text, splitPlain plain, splitDots, if_pos rfl]
      simp

/-! What one write leaves alone. -/

theorem getSetOther {doc : Document} {head key : String} {rest : List String} {value : Bson} (other : key ≠ head) :
    (setInDocument doc (head :: rest) value).1.get key = doc.get key := by
  have inserted : ∀ held, (doc.insert head held).get key = doc.get key := by
    intro held
    rw [getInsert, if_neg other]
  cases rest with
  | nil => exact inserted value
  | cons next tail =>
      unfold setInDocument
      split
      · exact inserted _
      · split
        · rfl
        · split
          · exact inserted _
          · exact inserted _
      · exact inserted _

theorem getUnsetOther {doc : Document} {head key : String} {rest : List String} (other : key ≠ head) :
    (unsetInDocument doc (head :: rest)).1.get key = doc.get key := by
  have inserted : ∀ held, (doc.insert head held).get key = doc.get key := by
    intro held
    rw [getInsert, if_neg other]
  cases rest with
  | nil =>
      show (doc.remove head).get key = doc.get key
      rw [getRemove, if_neg other]
  | cons next tail =>
      unfold unsetInDocument
      split
      · exact inserted _
      · split
        · rfl
        · split
          · exact inserted _
          · exact inserted _
          · rfl
      · rfl

/- The path leads somewhere other than into the id. -/
def Away (path : String) : Prop := ∃ head rest, segments path = head :: rest ∧ idField ≠ head

theorem awayOfUntouched {path : String} (untouched : touchesId path = false) : Away path := by
  obtain ⟨head, rest, split⟩ := List.exists_cons_of_ne_nil (segmentsSome path)
  exact ⟨head,rest,split,(untouchedHead untouched split).symm⟩

section
variable {Condition SortKeys Stage : Type} {lang : UpdateLanguage Condition SortKeys Stage} {doc after : Document}
  {path : String} {kind : OpKind Condition SortKeys} {nowMs : Int64}

theorem setAtKeeps {value : Bson} (away : Away path) (done : setAt doc path value = .ok after) :
    after.get idField = doc.get idField := by
  obtain ⟨head, rest, split, other⟩ := away
  have kept : (setPath doc path value).1.get idField = doc.get idField := by
    rw [setPath, split]
    exact getSetOther other
  unfold setAt at done
  split at done
  next left same =>
    cases done
    rw [same] at kept
    exact kept
  next => cases done

theorem unsetKeeps (away : Away path) : (unsetPath doc path).1.get idField = doc.get idField := by
  obtain ⟨head, rest, split, other⟩ := away
  rw [unsetPath, split]
  exact getUnsetOther other

theorem applyOneKeeps (away : Away path) (done : applyOne lang path kind doc nowMs = .ok after) :
    after.get idField = doc.get idField := by
  unfold applyOne at done
  cases kind with
  | set value => exact setAtKeeps away done
  | setOnInsert value => exact setAtKeeps away done
  | unset =>
      cases done
      exact unsetKeeps away
  | inc delta =>
      obtain ⟨value, -, set⟩ := bindOk done
      exact setAtKeeps away set
  | mul factor =>
      obtain ⟨value, -, set⟩ := bindOk done
      exact setAtKeeps away set
  | bit steps =>
      obtain ⟨value, -, set⟩ := bindOk done
      exact setAtKeeps away set
  | min candidate =>
      simp only at done
      split_ifs at done
      · exact setAtKeeps away done
      · cases done
        rfl
  | max candidate =>
      simp only at done
      split_ifs at done
      · exact setAtKeeps away done
      · cases done
        rfl
  | push value =>
      obtain ⟨items, -, set⟩ := bindOk done
      exact setAtKeeps away set
  | pushEach each =>
      obtain ⟨items, -, set⟩ := bindOk done
      exact setAtKeeps away set
  | addToSet values =>
      obtain ⟨items, -, set⟩ := bindOk done
      exact setAtKeeps away set
  | pull value =>
      obtain ⟨target, -, set⟩ := bindOk done
      cases target with
      | none =>
          cases set
          rfl
      | some items => exact setAtKeeps away set
  | pullWhere condition =>
      obtain ⟨target, -, set⟩ := bindOk done
      cases target with
      | none =>
          cases set
          rfl
      | some items =>
          obtain ⟨kept, -, set⟩ := bindOk set
          exact setAtKeeps away set
  | pullAll values =>
      obtain ⟨target, -, set⟩ := bindOk done
      cases target with
      | none =>
          cases set
          rfl
      | some items => exact setAtKeeps away set
  | pop last =>
      simp only at done
      split at done
      · exact setAtKeeps away done
      · cases done
        rfl
  | rename target =>
      simp only at done
      split_ifs at done with touches
      split at done
      · cases done
        rfl
      · rw [setAtKeeps (awayOfUntouched (by simpa using touches)) done]
        exact unsetKeeps away
  | currentDate => exact setAtKeeps away done

theorem applyEachKeeps : ∀ {paths : List String} {doc : Document}, (∀ path ∈ paths, Away path) →
    applyEach lang kind nowMs paths doc = .ok after → after.get idField = doc.get idField
  | [], doc, _, done => by
      cases done
      rfl
  | path :: rest, doc, away, done => by
      obtain ⟨next, first, others⟩ := bindOk done
      rw [applyEachKeeps (fun p later => away p (List.mem_cons_of_mem _ later)) others]
      exact applyOneKeeps (away path List.mem_cons_self) first

/- Every path a positional path expands to starts as it does. -/
theorem expandEachStarts {select : Bson → Except UpdateError Bool}
    {further : Nat → Bson → Except UpdateError (List String)} {P : String → Prop}
    (each : ∀ index item paths, further index item = .ok paths → ∀ path ∈ paths, P path) :
    ∀ {items : List Bson} {index : Nat} {paths : List String}, expandEach select further index items = .ok paths →
      ∀ path ∈ paths, P path
  | [], _, paths, done => by
      cases done
      nofun
  | item :: rest, index, paths, done => by
      unfold expandEach at done
      obtain ⟨chosen, -, done⟩ := bindOk done
      obtain ⟨here, expanded, done⟩ := bindOk done
      obtain ⟨there, more, done⟩ := bindOk done
      cases done
      intro path member
      rcases List.mem_append.mp member with first | later
      · split_ifs at expanded
        · exact each index item here expanded path first
        · cases expanded
          cases first
      · exact expandEachStarts each more path later

theorem expandIntoStarts {ctx : Expansion Condition} {first : String} :
    ∀ {segs before : List String} {value : Option Bson} {paths : List String},
      expandInto lang ctx (first :: before) value segs = .ok paths →
        ∀ path ∈ paths, ∃ others, path = joined (first :: others)
  | [], before, value, paths, done => by
      rw [expandInto] at done
      cases done
      intro path member
      exact ⟨before,List.mem_singleton.mp member⟩
  | head :: rest, before, value, paths, done => by
      unfold expandInto at done
      split_ifs at done with dollar
      · split at done
        · cases done
        · split_ifs at done
          split at done
          · split at done
            · exact expandIntoStarts done
            · cases done
          · cases done
      · split at done
        · split at done
          · exact expandEachStarts (fun index item paths further => expandIntoStarts further) done
          · cases done
          · cases done
        · exact expandIntoStarts done

theorem expandedAway {filters : List (ArrayFilter Condition)} {matched : Option ArrayPosition} {paths : List String}
    (untouched : touchesId path = false) (done : expandPositional lang path filters doc matched = .ok paths) :
    ∀ p ∈ paths, Away p := by
  obtain ⟨head, rest, split, other⟩ := awayOfUntouched untouched
  have plain : '.' ∉ head.toList := by
    have member : head ∈ segments path := by
      rw [split]
      exact List.mem_cons_self
    exact splitNoDots member (by simp)
  rw [expandPositional, split] at done
  intro p member
  obtain ⟨others, rfl⟩ := expandIntoStarts done p member
  obtain ⟨more, joined⟩ := joinedHead plain others
  exact ⟨head,more,joined,other⟩

theorem applyAtKeeps {op : Operation Condition SortKeys} {paths : List String} (untouched : touchesId op.path = false)
    (away : hasPositional op.path = true → ∀ path ∈ paths, Away path) (done : applyAt lang op paths doc nowMs = .ok after) :
    after.get idField = doc.get idField := by
  unfold applyAt at done
  split_ifs at done with positional
  · exact applyEachKeeps (away positional) done
  · exact applyOneKeeps (awayOfUntouched untouched) done

theorem applyPassKeeps {chosen : Operation Condition SortKeys → Bool} :
    ∀ {pairs : List (Operation Condition SortKeys × List String)} {doc : Document},
      (∀ pair ∈ pairs, touchesId pair.1.path = false ∧ (hasPositional pair.1.path = true → ∀ path ∈ pair.2, Away path)) →
      applyPass lang chosen nowMs pairs doc = .ok after → after.get idField = doc.get idField
  | [], doc, _, done => by
      cases done
      rfl
  | (op,paths) :: rest, doc, apart, done => by
      obtain ⟨next, first, others⟩ := bindOk done
      rw [applyPassKeeps (fun pair later => apart pair (List.mem_cons_of_mem _ later)) others]
      split_ifs at first
      · exact applyAtKeeps (apart (op,paths) List.mem_cons_self).1 (apart (op,paths) List.mem_cons_self).2 first
      · cases first
        rfl

/- The expansions of the operations, in their order. -/
theorem mapOk {α β : Type} {f : α → Except UpdateError β} {xs : List α} {ys : List β} (done : xs.mapM f = .ok ys) :
    ∀ pair ∈ xs.zip ys, f pair.1 = .ok pair.2 := by
  intro pair member
  have pairs := okPairs.mp done
  clear done
  induction pairs with
  | nil => cases member
  | cons first _ ih =>
    rcases List.mem_cons.mp member with rfl | member
    · exact first
    · exact ih member

theorem applyOperatorsKeeps {operations : List (Operation Condition SortKeys)} {inserted : Bool}
    {matched : Option ArrayPosition} (untouched : ∀ op ∈ operations, touchesId op.path = false)
    (done : applyOperators lang operations doc nowMs inserted matched = .ok after) :
    after.get idField = doc.get idField := by
  unfold applyOperators at done
  simp only at done
  split at done
  · cases done
  obtain ⟨concrete, expanded, done⟩ := bindOk done
  obtain ⟨-, -, done⟩ := bindOk done
  obtain ⟨first, onInsert, rest⟩ := bindOk done
  have apart : ∀ pair ∈ operations.zip concrete, touchesId pair.1.path = false ∧
      (hasPositional pair.1.path = true → ∀ path ∈ pair.2, Away path) := by
    intro pair member
    have own := untouched pair.1 (List.of_mem_zip member).1
    refine ⟨own,fun positional path there => ?_⟩
    have paths := mapOk expanded pair member
    unfold concretePaths at paths
    split_ifs at paths
    · exact expandedAway own paths path there
    · rw [←Except.ok.inj paths] at there
      cases there
  rw [applyPassKeeps apart rest, applyPassKeeps apart onInsert]

/-! What the parser admits. -/

theorem mapMem {α β : Type} {f : α → Except UpdateError β} {xs : List α} {ys : List β} (done : xs.mapM f = .ok ys) :
    ∀ y ∈ ys, ∃ x ∈ xs, f x = .ok y := by
  intro y member
  have pairs := okPairs.mp done
  clear done
  induction pairs with
  | nil => cases member
  | cons first _ ih =>
    rcases List.mem_cons.mp member with rfl | member
    · exact ⟨_,List.mem_cons_self,first⟩
    · obtain ⟨x,there,same⟩ := ih member
      exact ⟨x,List.mem_cons_of_mem _ there,same⟩

theorem targetUntouched {filters : List (ArrayFilter Condition)} {op : String} {target : String × Bson}
    {operation : Operation Condition SortKeys} (parsed : parseTarget lang filters op target = .ok operation) :
    touchesId operation.path = false := by
  unfold parseTarget at parsed
  split_ifs at parsed with touches
  obtain ⟨kind, -, parsed⟩ := bindOk parsed
  obtain ⟨identifiers, -, parsed⟩ := bindOk parsed
  split_ifs at parsed
  obtain ⟨found, -, parsed⟩ := bindOk parsed
  cases parsed
  simpa using touches

theorem parsedUntouched {update : Document} {arrayFilters : List Document} {operations : List (Operation Condition SortKeys)}
    (parsed : parseWithFilters lang update arrayFilters = .ok (.operators operations)) :
    ∀ op ∈ operations, touchesId op.path = false := by
  unfold parseWithFilters at parsed
  simp only at parsed
  split_ifs at parsed
  · cases parsed
  obtain ⟨filters, -, parsed⟩ := bindOk parsed
  obtain ⟨fields, each, parsed⟩ := bindOk parsed
  split at parsed
  · cases parsed
  obtain ⟨-, -, parsed⟩ := bindOk parsed
  cases parsed
  intro op member
  obtain ⟨ops, inFields, inOps⟩ := List.mem_flatten.mp member
  obtain ⟨field, -, own⟩ := mapMem each ops inFields
  unfold parseField at own
  simp only at own
  split at own
  · obtain ⟨target, -, read⟩ := mapMem own op inOps
    exact targetUntouched read
  · cases own

/-! The id first. -/

theorem insertedAfter {id : Bson} (fields : Document) : ∀ others : Document,
    ∃ rest, fields.foldl (fun out field => if field.1 ≠ idField then Document.insert out field.1 field.2 else out)
      ((idField,id) :: others) = (idField,id) :: rest := by
  induction fields with
  | nil => exact fun others => ⟨others,rfl⟩
  | cons field rest ih =>
      intro others
      rw [List.foldl_cons]
      split_ifs with other
      · have first : Document.insert ((idField,id) :: others) field.1 field.2 =
            (idField,id) :: Document.insert others field.1 field.2 := if_neg (Ne.symm other)
        rw [first]
        exact ih _
      · exact ih _

theorem getFirst {id : Bson} {rest : Document} : Document.get ((idField,id) :: rest) idField = some id := by
  simp [Document.get]

/- Equal values are the id of one document. -/
theorem sameDocument {was now : Bson} {id : DocId} (is : DocId.tryFromBson was = some id)
    (same : bsonEq now was = true ∨ sameId was now = true) : DocId.tryFromBson now = some id := by
  rcases same with equal | same
  · have one : now = was := by
      cases was with
      | objectId _ | string _ | int32 _ | int64 _ | binary _ _ | decimal128 _ =>
          cases now with
          | document _ | array _ | double _ | javaScriptCodeWithScope _ _ => simp [bsonEq] at equal
          | _ => exact (Kimmy.sameIff _ _).mp (by simpa only [bsonEq] using equal)
      | _ => simp [DocId.tryFromBson] at is
    rw [one]
    exact is
  · unfold sameId at same
    rw [is] at same
    split at same
    next x y first second =>
      cases first
      rw [second, of_decide_eq_true same]
    next => cases same

/- An update the parser lets through. -/
def Accepted (lang : UpdateLanguage Condition SortKeys Stage) (update : Update Condition SortKeys Stage) : Prop :=
  (∃ doc arrayFilters, parseWithFilters lang doc arrayFilters = .ok update) ∨
    ∃ stages arrayFilters, parsePipeline lang stages arrayFilters = .ok update

def docId (doc : Document) : Option DocId := (doc.get idField).bind DocId.tryFromBson

/- The document a stored one becomes is the same document, and has its id first when it is written whole. -/
theorem updateKeepsIdentity (update : Update Condition SortKeys Stage) (accepted : Accepted lang update)
    {id : DocId} (stored : docId doc = some id) (inserted : Bool) (matched : Option ArrayPosition)
    (applied : applyTo lang update doc nowMs inserted matched = .ok after) :
    docId after = some id ∧
      ((∀ operations, update ≠ .operators operations) → after.head?.map Prod.fst = some idField) := by
  obtain ⟨was, held, is⟩ := Option.bind_eq_some_iff.mp stored
  cases update with
  | replace replacement =>
      cases applied
      obtain ⟨rest, whole⟩ := @insertedAfter was replacement []
      have result : replaced replacement doc = (idField,was) :: rest := by
        rw [←whole, replaced, held]
      rw [result]
      refine ⟨?_,fun _ => rfl⟩
      rw [docId, getFirst]
      exact is
  | operators operations =>
      have untouched : ∀ op ∈ operations, touchesId op.path = false := by
        rcases accepted with ⟨parsed, filters, from'⟩ | ⟨stages, filters, from'⟩
        · exact parsedUntouched from'
        · unfold parsePipeline at from'
          split_ifs at from'
          cases read : lang.parseStages stages with
          | error e => simp [read, Except.map] at from'
          | ok parsed => simp [read, Except.map] at from'
      refine ⟨?_,fun whole => absurd rfl (whole operations)⟩
      rw [docId, applyOperatorsKeeps untouched applied]
      exact stored
  | pipeline stages =>
      have first : ∀ {now : Bson} {current : Document}, DocId.tryFromBson now = some id →
          docId (withIdFirst now current) = some id ∧ (withIdFirst now current).head?.map Prod.fst = some idField := by
        intro now current own
        obtain ⟨rest, whole⟩ := @insertedAfter now current []
        rw [withIdFirst, whole, docId, getFirst]
        exact ⟨own,rfl⟩
      simp only [applyTo, applyPipeline] at applied
      obtain ⟨current, -, applied⟩ := bindOk applied
      rw [held] at applied
      cases found : current.get idField with
      | none =>
          rw [found] at applied
          cases applied
          exact (first is).imp_right fun head _ => head
      | some now =>
          have own : ¬(!bsonEq now was && !sameId was now) = true → DocId.tryFromBson now = some id := by
            intro admitted
            refine sameDocument is ?_
            by_contra neither
            rw [not_or] at neither
            exact admitted (by simp [neither.1, neither.2])
          rw [found] at applied
          simp only at applied
          split_ifs at applied with refused moved
          all_goals cases applied
          · exact (first (own refused)).imp_right fun head _ => head
          · refine ⟨?_,fun _ => not_not.mp moved⟩
            rw [docId, found]
            exact own refused

end

/- No filters, no arithmetic and no sorting; a stage sets the id to a fixed value. -/
def plainUpdates : UpdateLanguage Unit Unit Bson where
  parseArrayFilters _ := .ok []
  parseCondition _ := .error (.other "")
  parseSort _ := .error (.other "")
  parseStages stages := .ok stages
  matchesElement _ _ _ _ := .ok false
  matchesPullElement _ _ := .ok false
  compare _ _ _ := .eq
  arithmetic _ _ _ _ := .error (.other "")
  rawKey _ := []
  applyStage id doc := .ok [doc.insert idField id]

/- The same id of another type, from a pipeline, and a field beside it. -/
theorem updateKeepsIdentityOfOne :
    docId [("_id",.int64 1),("k",.null)] = some (.int64 1) ∧
      ((∀ operations : List (Operation Unit Unit), Update.pipeline [Bson.int64 1] ≠ .operators operations) →
        Option.map Prod.fst ([("_id",Bson.int64 1),("k",.null)] : Document).head? = some idField) :=
  @updateKeepsIdentity Unit Unit Bson plainUpdates [("k",.null),("_id",.int32 1)] [("_id",.int64 1),("k",.null)] 0
    (.pipeline [.int64 1]) (.inr ⟨[.int64 1],[],rfl⟩) (.int64 1) (by decide) false none (by rfl)

end Kimmy.Query
