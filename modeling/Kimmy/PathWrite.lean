import Kimmy.Store.Document

/-!
Writing at a dotted path (`path.rs`). A write has one destination: a segment is a field of a document, or a
position of an array. Both writers go through an array only from a document, so an array that stands in
another array is not gone through; what that costs is the condition of the main result.
-/
namespace Kimmy

/- `insert` keeps the place of a field that is there, and `remove` the order of the others. -/
def Document.insert (doc : Document) (key : String) (value : Bson) : Document :=
  match doc with
  | [] => [(key,value)]
  | (other,held) :: rest => if other = key then (other,value) :: rest else (other,held) :: Document.insert rest key value

def Document.remove (doc : Document) (key : String) : Document := doc.filter fun field => field.1 ≠ key

theorem Document.insertNew {doc : Document} {key : String} (new : key ∉ doc.map Prod.fst) (value : Bson) :
    doc.insert key value = doc ++ [(key,value)] := by
  induction doc with
  | nil => rfl
  | cons field rest ih =>
    obtain ⟨other,held⟩ := field
    have apart : key ≠ other := fun same => new (List.mem_cons.mpr (Or.inl same))
    rw [Document.insert, if_neg (Ne.symm apart), ih fun later => new (List.mem_cons_of_mem _ later)]
    rfl

/- The one refusal: an array has no position of that name. -/
structure NonNumeric where
  segment : String
  deriving DecidableEq

def pad (items : List Bson) (index : Nat) : List Bson := items ++ List.replicate (index + 1 - items.length) .null

/- The document as it is left, and the answer. A missing or scalar parent becomes a document. -/
def setInDocument (doc : Document) (segs : List String) (value : Bson) : Document × Except NonNumeric Unit :=
  match segs with
  | [] => (doc,.ok ())
  | [head] => (doc.insert head value,.ok ())
  | head :: next :: tail => match doc.get head with
      | some (.document child) =>
          let done := setInDocument child (next :: tail) value
          (doc.insert head (.document done.1),done.2)
      | some (.array items) => match parseUsize next with
          | none => (doc,.error ⟨next⟩)
          | some index => match tail with
              | [] => (doc.insert head (.array ((pad items index).set index value)),.ok ())
              | below :: rest =>
                  let child := match items[index]? with
                    | some (.document child) => child
                    | _ => []
                  let done := setInDocument child (below :: rest) value
                  (doc.insert head (.array ((pad items index).set index (.document done.1))),done.2)
      | _ =>
          let done := setInDocument [] (next :: tail) value
          (doc.insert head (.document done.1),done.2)

def setPath (doc : Document) (path : String) (value : Bson) : Document × Except NonNumeric Unit :=
  setInDocument doc (segments path) value

/- The document as it is left, and whether anything was removed. A position is emptied, not closed up. -/
def unsetInDocument (doc : Document) (segs : List String) : Document × Bool :=
  match segs with
  | [] => (doc,false)
  | [head] => (doc.remove head,(doc.get head).isSome)
  | head :: next :: tail => match doc.get head with
      | some (.document child) =>
          let done := unsetInDocument child (next :: tail)
          (doc.insert head (.document done.1),done.2)
      | some (.array items) => match parseUsize next with
          | none => (doc,false)
          | some index => match items[index]?, tail with
              | some _, [] => (doc.insert head (.array (items.set index .null)),true)
              | some (.document child), below :: rest =>
                  let done := unsetInDocument child (below :: rest)
                  (doc.insert head (.array (items.set index (.document done.1))),done.2)
              | _, _ => (doc,false)
      | _ => (doc,false)

def unsetPath (doc : Document) (path : String) : Document × Bool := unsetInDocument doc (segments path)

/-! Reading a path literally. -/

/- What one segment names in a value. -/
def childAt (value : Bson) (segment : String) : Option Bson :=
  match value with
  | .document doc => Document.get doc segment
  | .array items => (parseUsize segment).bind (items[·]?)
  | _ => none

def readAt (value : Bson) : List String → Option Bson
  | [] => some value
  | head :: rest => match childAt value head with
      | some next => readAt next rest
      | none => none

/- Two segments name one place: positions of an array are compared by number. -/
def SamePlace (value : Bson) (s t : String) : Prop :=
  match value with
  | .array _ => s = t ∨ ∃ n, parseUsize s = some n ∧ parseUsize t = some n
  | _ => s = t

/- Neither path leads to the other's end. -/
def Apart (value : Bson) : List String → List String → Prop
  | s :: rest, t :: other => ¬ SamePlace value s t ∨ Apart ((childAt value s).getD .null) rest other
  | _, _ => False

/- A position between the end of an array and one that is written. -/
def Fills (value : Bson) (s t : String) : Prop :=
  ∃ items n m, value = .array items ∧ parseUsize s = some n ∧ parseUsize t = some m ∧ items.length ≤ m ∧ m < n

/- Such a position on the way of the path. -/
def Padded (value : Bson) : List String → List String → Prop
  | s :: rest, t :: other =>
      (Fills value s t ∧ other = []) ∨ SamePlace value s t ∧ Padded ((childAt value s).getD .null) rest other
  | _, _ => False

/- Every path apart reads as before, padding aside. -/
def Frame (before after : Bson) (segs : List String) : Prop :=
  ∀ other, Apart before segs other →
    readAt after other = readAt before other ∨ Padded before segs other ∧ readAt after other = some .null

structure SetFaithful (doc : Document) (path : String) (value : Bson) : Prop where
  refused : ∀ error, (setPath doc path value).2 = .error error → (setPath doc path value).1 = doc
  reads : (setPath doc path value).2 = .ok () → readAt (.document (setPath doc path value).1) (segments path) = some value
  others : (setPath doc path value).2 = .ok () → Frame (.document doc) (.document (setPath doc path value).1) (segments path)

/- Nothing is read, or a null at a position of an array. -/
def Cleared (value : Bson) (segs : List String) : Prop :=
  readAt value segs = none ∨
    readAt value segs = some .null ∧ ∃ init last items, segs = init ++ [last] ∧ readAt value init = some (.array items)

structure UnsetFaithful (doc : Document) (path : String) : Prop where
  gone : Cleared (.document (unsetPath doc path).1) (segments path)
  others : ∀ other, Apart (.document doc) (segments path) other →
    readAt (.document (unsetPath doc path).1) other = readAt (.document doc) other

/-! Where a path comes to an array inside an array. -/

/- Nothing can be read off the path. -/
def Bare (value : Bson) (segs : List String) : Prop := ∀ other, Apart value segs other → readAt value other = none

/- `holds` of every array in an array that the walk comes to, with the rest of the path. -/
def Nested (holds : Bson → List String → Prop) (doc : Document) : List String → Prop
  | head :: next :: tail => match doc.get head with
      | some (.document child) => Nested holds child (next :: tail)
      | some (.array items) => match (parseUsize next).bind (items[·]?), tail with
          | some (.document child), below :: rest => Nested holds child (below :: rest)
          | some (.array inner), below :: rest => holds (.array inner) (below :: rest)
          | _, _ => True
      | _ => True
  | _ => True

attribute [local simp] setInDocument unsetInDocument Nested

/-! Fields and positions. -/

section
variable {doc : Document} {items : List Bson} {value before after new : Bson} {s t : String} {rest segs : List String}

theorem getInsert (key : String) : (doc.insert s value).get key = if key = s then some value else doc.get key := by
  induction doc with
  | nil =>
    by_cases here : key = s
    · simp [Document.insert, Document.get, here]
    · simp [Document.insert, Document.get, here, Ne.symm here]
  | cons field others ih =>
    obtain ⟨other, held⟩ := field
    unfold Document.get at ih ⊢
    rw [Document.insert]
    by_cases same : other = s
    · subst same
      by_cases here : key = other
      · simp [here]
      · simp [here, Ne.symm here]
    · rw [if_neg same]
      by_cases here : other = key
      · subst here
        simp [same]
      · rw [List.find?_cons_of_neg (by simpa using here), List.find?_cons_of_neg (by simpa using here)]
        exact ih

theorem insertHeld (held : doc.get s = some value) : doc.insert s value = doc := by
  induction doc with
  | nil => cases held
  | cons field others ih =>
    obtain ⟨other, kept⟩ := field
    rw [Document.insert]
    by_cases same : other = s
    · subst same
      simp only [Document.get, List.find?_cons, beq_self_eq_true, Option.map_some, Option.some.injEq] at held
      rw [if_pos rfl, held]
    · rw [if_neg same]
      congr 1
      refine ih ?_
      rw [Document.get, List.find?_cons_of_neg (by simpa using same)] at held
      exact held

theorem getRemove (key : String) : (doc.remove s).get key = if key = s then none else doc.get key := by
  unfold Document.remove Document.get
  rw [List.find?_filter]
  split_ifs with here
  · subst here
    rw [Option.map_eq_none_iff, List.find?_eq_none]
    simp
  · congr 2
    funext field
    by_cases same : field.1 = key
    · simp [same, here]
    · simp [same]

theorem getPad (index m : Nat) : (pad items index)[m]? =
    if m < items.length then items[m]? else if m ≤ index then some .null else none := by
  unfold pad
  rw [List.getElem?_append]
  split_ifs with inside upTo
  · rfl
  · rw [List.getElem?_replicate, if_pos (by omega)]
  · rw [List.getElem?_replicate, if_neg (by omega)]

theorem samePlaceRefl (value : Bson) (s : String) : SamePlace value s s := by
  cases value <;> simp [SamePlace]

theorem childSame (same : SamePlace value s t) : childAt value t = childAt value s := by
  cases value with
  | array items =>
    obtain rfl | ⟨n, first, second⟩ := same
    · rfl
    · simp [childAt, first, second]
  | _ =>
    cases same
    rfl

theorem apartSome {other : List String} (apart : Apart value segs other) : other ≠ [] := by
  rintro rfl
  cases segs <;> exact apart

/- A place that is missing reads like a null: both have nothing below them. -/
theorem readMissing (s : String) {other : List String} (some' : other ≠ []) :
    readAt value (s :: other) = readAt ((childAt value s).getD .null) other := by
  rw [readAt]
  cases childAt value s with
  | some next => rfl
  | none =>
    cases other with
    | nil => exact absurd rfl some'
    | cons => rfl

/-! One child replaced. -/

structure Put (before after : Bson) (s : String) (new : Bson) : Prop where
  here : ∀ t, SamePlace before s t → childAt after t = some new
  filled : ∀ t, Fills before s t → childAt after t = some .null
  away : ∀ t, ¬ SamePlace before s t → ¬ Fills before s t → childAt after t = childAt before t

theorem putDocument : Put (.document doc) (.document (doc.insert s new)) s new := by
  refine ⟨fun t same => ?_,fun t fills => ?_,fun t apart _ => ?_⟩
  · cases same
    simp [childAt, getInsert]
  · obtain ⟨_, _, _, is, _⟩ := fills
    cases is
  · simp only [childAt, getInsert]
    rw [if_neg fun same => apart same.symm]

theorem putArray {n : Nat} (numbered : parseUsize s = some n) :
    Put (.array items) (.array ((pad items n).set n new)) s new := by
  have long : n < (pad items n).length := by
    simp only [pad, List.length_append, List.length_replicate]
    omega
  have other {t : String} {m : Nat} (is : parseUsize t = some m) (apart : m ≠ n) :
      childAt (.array ((pad items n).set n new)) t = (pad items n)[m]? := by
    simp [childAt, is, List.getElem?_set, Ne.symm apart]
  refine ⟨fun t same => ?_,fun t fills => ?_,fun t apart open' => ?_⟩
  · have is : parseUsize t = some n := by
      obtain rfl | ⟨m, first, second⟩ := same
      · exact numbered
      · rw [second, ← first, numbered]
    simp [childAt, is, List.getElem?_set, long]
  · obtain ⟨list, k, m, is, isN, isM, beyond, before'⟩ := fills
    cases is
    cases numbered.symm.trans isN
    rw [other isM (by omega), getPad, if_neg (by omega), if_pos (by omega)]
  · cases is : parseUsize t with
    | none => simp [childAt, is]
    | some m =>
      have differ : m ≠ n := fun same => apart (Or.inr ⟨n,numbered,by rw [is, same]⟩)
      rw [other is differ, getPad]
      simp only [childAt, is, Option.bind_some]
      split_ifs with inside upTo
      · rfl
      · exact absurd ⟨items,n,m,rfl,numbered,is,by omega,by omega⟩ open'
      · rw [List.getElem?_eq_none (by omega)]

theorem readPut (put : Put before after s new) : readAt after (s :: rest) = readAt new rest := by
  rw [readAt, put.here s (samePlaceRefl before s)]

theorem frameChild (put : Put before after s new) :
    Frame before after (s :: rest) ↔ Frame ((childAt before s).getD .null) new rest := by
  have below {t : String} (same : SamePlace before s t) {other : List String}
      (apart : Apart ((childAt before s).getD .null) rest other) :
      readAt after (t :: other) = readAt new other ∧
        readAt before (t :: other) = readAt ((childAt before s).getD .null) other := by
    refine ⟨by rw [readAt, put.here t same],?_⟩
    rw [readMissing t (apartSome apart), childSame same]
  constructor
  · intro frame other apart
    obtain ⟨isAfter,isBefore⟩ := below (samePlaceRefl before s) apart
    rcases frame (s :: other) (Or.inr apart) with same | ⟨padded, null⟩
    · left
      rw [← isAfter, ← isBefore]
      exact same
    · right
      refine ⟨?_,by rw [← isAfter]; exact null⟩
      rcases padded with ⟨⟨_, n, m, _, first, second, _, less⟩, _⟩ | ⟨_, inside⟩
      · cases first.symm.trans second
        exact absurd less (lt_irrefl _)
      · exact inside
  · rintro frame (_ | ⟨t, other⟩) apart
    · exact absurd rfl (apartSome apart)
    · by_cases same : SamePlace before s t
      · have inside := apart.resolve_left (not_not.mpr same)
        obtain ⟨isAfter,isBefore⟩ := below same inside
        rw [isAfter, isBefore]
        exact (frame other inside).imp_right fun both => ⟨Or.inr ⟨same,both.1⟩,both.2⟩
      · by_cases fills : Fills before s t
        · cases other with
          | nil =>
            right
            exact ⟨Or.inl ⟨fills,rfl⟩,by simp only [readAt, put.filled t fills]⟩
          | cons u others =>
            left
            have none : childAt before t = none := by
              obtain ⟨items, n, m, rfl, _, second, beyond, _⟩ := fills
              simp [childAt, second, beyond]
            rw [readAt, put.filled t fills, readAt, none]
            rfl
        · left
          rw [readAt, readAt, put.away t same fills]

end

/-! Setting. -/

theorem setEmpty (value : Bson) : ∀ segs : List String, (setInDocument [] segs value).2 = .ok ()
  | [] => rfl
  | [_] => rfl
  | _ :: next :: tail => setEmpty value (next :: tail)

/- What is made where nothing was leads nowhere but along the path. -/
theorem chainApart {before value : Bson} : ∀ {segs other : List String}, Apart before segs other →
    readAt (.document (setInDocument [] segs value).1) other = none := by
  intro segs
  induction segs generalizing before with
  | nil => exact fun apart => absurd apart id
  | cons s rest ih =>
    intro other apart
    cases other with
    | nil => exact absurd rfl (apartSome apart)
    | cons t other =>
      have only (held : Bson) : Document.get [(s,held)] t = if t = s then some held else none := by
        by_cases here : t = s
        · simp [Document.get, here]
        · simp [Document.get, here, Ne.symm here]
      cases rest with
      | nil =>
        have differ : t ≠ s := by
          rintro rfl
          exact apart.elim (fun not => not (samePlaceRefl _ _)) id
        simp [setInDocument, Document.insert, readAt, childAt, only, differ]
      | cons next tail =>
        have made : (setInDocument [] (s :: next :: tail) value).1 =
            [(s,.document (setInDocument [] (next :: tail) value).1)] := rfl
        rw [made, readAt]
        simp only [childAt, only]
        by_cases same : t = s
        · rw [if_pos same]
          subst same
          exact ih (apart.resolve_left (not_not.mpr (samePlaceRefl _ _)))
        · rw [if_neg same]

/- So it frames exactly what has nothing off the path. -/
theorem frameChain {before value : Bson} {segs : List String} :
    Frame before (.document (setInDocument [] segs value).1) segs ↔ Bare before segs := by
  constructor
  · intro frame other apart
    have none := @chainApart _ value _ _ apart
    rcases frame other apart with same | ⟨_, null⟩
    · rw [← same]
      exact none
    · rw [none] at null
      cases null
  · intro bare other apart
    left
    rw [chainApart apart, bare other apart]

theorem readChain (value : Bson) : ∀ segs : List String, segs ≠ [] →
    readAt (.document (setInDocument [] segs value).1) segs = some value
  | [], some' => absurd rfl some'
  | [head], _ => by simp [setInDocument, Document.insert, readAt, childAt, Document.get]
  | head :: next :: tail, _ => by
      have made : (setInDocument [] (head :: next :: tail) value).1 =
          [(head,.document (setInDocument [] (next :: tail) value).1)] := rfl
      rw [made, readAt]
      simp only [childAt, Document.get, List.find?_singleton, beq_self_eq_true, if_true, Option.map_some]
      exact readChain value (next :: tail) (List.cons_ne_nil _ _)

/- A value with no children has nothing off any path. -/
theorem bareLeaf {before : Bson} {segs : List String} (leaf : ∀ s, childAt before s = none) : Bare before segs := by
  intro other apart
  cases other with
  | nil => exact absurd rfl (apartSome apart)
  | cons t other => rw [readAt, leaf]

theorem frameEnd (before after : Bson) : Frame before after [] := fun _ apart => absurd apart id

structure SetSpec (doc : Document) (segs : List String) (value : Bson) : Prop where
  refused : ∀ error, (setInDocument doc segs value).2 = .error error →
    (setInDocument doc segs value).1 = doc ∧ Nested Bare doc segs
  reads : (setInDocument doc segs value).2 = .ok () → readAt (.document (setInDocument doc segs value).1) segs = some value
  frame : (setInDocument doc segs value).2 = .ok () →
    (Frame (.document doc) (.document (setInDocument doc segs value).1) segs ↔ Nested Bare doc segs)

section
variable {doc : Document} {value : Bson} {head next : String} {tail : List String}

/- A field that is itself a document. -/
theorem setField {child : Document} (held : doc.get head = some (.document child))
    (inner : SetSpec child (next :: tail) value) : SetSpec doc (head :: next :: tail) value := by
  have made : setInDocument doc (head :: next :: tail) value =
      (doc.insert head (.document (setInDocument child (next :: tail) value).1),
        (setInDocument child (next :: tail) value).2) := by
    rw [setInDocument, held]
  have nested : Nested Bare doc (head :: next :: tail) ↔ Nested Bare child (next :: tail) := by
    rw [Nested, held]
  have put := @putDocument doc (.document (setInDocument child (next :: tail) value).1) head
  refine ⟨fun error is => ?_,fun is => ?_,fun is => ?_⟩
  · rw [made] at is ⊢
    obtain ⟨same,bare⟩ := inner.refused error is
    refine ⟨?_,nested.mpr bare⟩
    rw [same]
    exact insertHeld held
  · rw [made] at is ⊢
    rw [readPut put]
    exact inner.reads is
  · rw [made] at is ⊢
    rw [nested, frameChild put]
    simp only [childAt, held, Option.getD_some]
    exact inner.frame is

/- A field that is missing, or a scalar. -/
theorem setLeaf (noDocument : ∀ child, doc.get head ≠ some (.document child))
    (noArray : ∀ items, doc.get head ≠ some (.array items)) : SetSpec doc (head :: next :: tail) value := by
  have made : setInDocument doc (head :: next :: tail) value =
      (doc.insert head (.document (setInDocument [] (next :: tail) value).1),(setInDocument [] (next :: tail) value).2) := by
    rw [setInDocument]
    split
    · exact absurd ‹_› (noDocument _)
    · exact absurd ‹_› (noArray _)
    · rfl
  have nested : Nested Bare doc (head :: next :: tail) := by
    rw [Nested]
    split
    · exact absurd ‹_› (noDocument _)
    · exact absurd ‹_› (noArray _)
    · trivial
  have put := @putDocument doc (.document (setInDocument [] (next :: tail) value).1) head
  refine ⟨fun error is => ?_,fun _ => ?_,fun _ => ?_⟩
  · rw [made, setEmpty] at is
    cases is
  · rw [made, readPut put]
    exact readChain value _ (List.cons_ne_nil _ _)
  · rw [made, frameChild put, frameChain]
    refine iff_of_true (bareLeaf fun s => ?_) nested
    simp only [childAt]
    cases held : doc.get head with
    | none => rfl
    | some found =>
      cases found with
      | document child => exact absurd held (noDocument child)
      | array items => exact absurd held (noArray items)
      | _ => rfl

/- A position of an array in a field. -/
theorem setPosition {items : List Bson} {index : Nat} {new : Bson} (held : doc.get head = some (.array items))
    (numbered : parseUsize next = some index) {done : Except NonNumeric Unit}
    (made : setInDocument doc (head :: next :: tail) value = (doc.insert head (.array ((pad items index).set index new)),done)) :
    readAt (.document (setInDocument doc (head :: next :: tail) value).1) (head :: next :: tail) = readAt new tail ∧
    (Frame (.document doc) (.document (setInDocument doc (head :: next :: tail) value).1) (head :: next :: tail) ↔
      Frame ((items[index]?).getD .null) new tail) := by
  have outer := @putDocument doc (.array ((pad items index).set index new)) head
  have inner := @putArray items new _ _ numbered
  rw [made]
  refine ⟨by rw [readPut outer, readPut inner],?_⟩
  rw [frameChild outer]
  simp only [childAt, held, Option.getD_some]
  rw [frameChild inner]
  simp only [childAt, numbered, Option.bind_some]

/- A document at a position. -/
theorem setElement {items : List Bson} {index : Nat} {child : Document} (held : doc.get head = some (.array items))
    (numbered : parseUsize next = some index) (found : items[index]? = some (.document child)) (some' : tail ≠ [])
    (inner : SetSpec child tail value) : SetSpec doc (head :: next :: tail) value := by
  obtain ⟨below,rest,rfl⟩ := List.exists_cons_of_ne_nil some'
  have made : setInDocument doc (head :: next :: below :: rest) value =
      (doc.insert head (.array ((pad items index).set index (.document (setInDocument child (below :: rest) value).1))),
        (setInDocument child (below :: rest) value).2) := by
    rw [setInDocument, held]
    simp only [numbered, found]
  have nested : Nested Bare doc (head :: next :: below :: rest) ↔ Nested Bare child (below :: rest) := by
    rw [Nested, held]
    simp only [numbered, Option.bind_some, found]
  obtain ⟨reads,frame⟩ := setPosition held numbered made
  rw [found, Option.getD_some] at frame
  refine ⟨fun error is => ?_,fun is => ?_,fun is => ?_⟩
  · rw [made] at is ⊢
    obtain ⟨same,bare⟩ := inner.refused error is
    refine ⟨?_,nested.mpr bare⟩
    obtain ⟨inside,at'⟩ := List.getElem?_eq_some_iff.mp found
    have padded : pad items index = items := by
      have zero : index + 1 - items.length = 0 := by omega
      rw [pad, zero, List.replicate_zero, List.append_nil]
    have kept : items.set index (.document child) = items := by
      rw [← at']
      exact List.set_getElem_self inside
    rw [same, padded, kept]
    exact insertHeld held
  · rw [made] at is
    rw [reads]
    exact inner.reads is
  · rw [made] at is
    rw [frame, nested]
    exact inner.frame is

/- A position that holds no document, or is past the end: what was there goes. -/
theorem setFresh {items : List Bson} {index : Nat} (held : doc.get head = some (.array items))
    (numbered : parseUsize next = some index) (noDocument : ∀ child, items[index]? ≠ some (.document child))
    (some' : tail ≠ []) : SetSpec doc (head :: next :: tail) value := by
  obtain ⟨below,rest,rfl⟩ := List.exists_cons_of_ne_nil some'
  have made : setInDocument doc (head :: next :: below :: rest) value =
      (doc.insert head (.array ((pad items index).set index (.document (setInDocument [] (below :: rest) value).1))),
        .ok ()) := by
    rw [setInDocument, held]
    simp only [numbered, setEmpty]
  obtain ⟨reads,frame⟩ := setPosition held numbered made
  refine ⟨fun error is => ?_,fun _ => ?_,fun _ => ?_⟩
  · rw [made] at is
    cases is
  · rw [reads]
    exact readChain value _ some'
  · rw [frame, frameChain, Nested, held]
    simp only [numbered, Option.bind_some]
    cases found : items[index]? with
    | none => exact iff_of_true (bareLeaf fun _ => rfl) trivial
    | some there =>
      cases there with
      | document child => exact absurd found (noDocument child)
      | array inner => exact Iff.rfl
      | _ => exact iff_of_true (bareLeaf fun _ => rfl) trivial

end

theorem setSpec (value : Bson) : ∀ (segs : List String) (doc : Document), segs ≠ [] → SetSpec doc segs value
  | [], _, some' => absurd rfl some'
  | [head], doc, _ => by
      have put := @putDocument doc value head
      refine ⟨nofun,fun _ => ?_,fun _ => ?_⟩
      · rw [setInDocument, readPut put]
        rfl
      · rw [setInDocument, frameChild put]
        exact iff_of_true (frameEnd _ _) trivial
  | head :: next :: tail, doc, _ => by
      by_cases document : ∃ child, doc.get head = some (.document child)
      · obtain ⟨child,held⟩ := document
        exact setField held (setSpec value (next :: tail) child (List.cons_ne_nil _ _))
      by_cases array : ∃ items, doc.get head = some (.array items)
      · obtain ⟨items,held⟩ := array
        cases numbered : parseUsize next with
        | none =>
          have made : setInDocument doc (head :: next :: tail) value = (doc,.error ⟨next⟩) := by
            rw [setInDocument, held]
            simp only [numbered]
          have nested : Nested Bare doc (head :: next :: tail) := by
            rw [Nested, held]
            simp only [numbered, Option.bind_none]
          refine ⟨fun error is => ⟨by rw [made],nested⟩,fun is => ?_,fun is => ?_⟩
          · rw [made] at is
            cases is
          · rw [made] at is
            cases is
        | some index =>
          cases tail with
          | nil =>
            have made : setInDocument doc [head,next] value =
                (doc.insert head (.array ((pad items index).set index value)),.ok ()) := by
              rw [setInDocument, held]
              simp only [numbered]
            obtain ⟨reads,frame⟩ := setPosition held numbered made
            refine ⟨fun error is => ?_,fun _ => reads,fun _ => ?_⟩
            · rw [made] at is
              cases is
            · rw [frame, Nested, held]
              refine iff_of_true (frameEnd _ _) ?_
              simp only [numbered, Option.bind_some]
              cases items[index]? with
              | none => trivial
              | some there => cases there <;> trivial
          | cons below rest =>
            by_cases element : ∃ child, items[index]? = some (.document child)
            · obtain ⟨child,found⟩ := element
              exact setElement held numbered found (List.cons_ne_nil _ _)
                (setSpec value (below :: rest) child (List.cons_ne_nil _ _))
            · exact setFresh held numbered (fun child found => element ⟨child,found⟩) (List.cons_ne_nil _ _)
      · exact setLeaf (fun child held => document ⟨child,held⟩) fun items held => array ⟨items,held⟩

/-! Unsetting. -/

/- Every path apart reads as before. -/
def Kept (before after : Bson) (segs : List String) : Prop :=
  ∀ other, Apart before segs other → readAt after other = readAt before other

section
variable {before after new child : Bson} {s : String} {rest : List String}

theorem keptRefl (before : Bson) (segs : List String) : Kept before before segs := fun _ _ => rfl

theorem keptChild (held : childAt before s = some child) (here : ∀ t, SamePlace before s t → childAt after t = some new)
    (away : ∀ t, ¬ SamePlace before s t → childAt after t = childAt before t) (inner : Kept child new rest) :
    Kept before after (s :: rest) := by
  rintro (_ | ⟨t, other⟩) apart
  · exact absurd rfl (apartSome apart)
  · by_cases same : SamePlace before s t
    · have inside := apart.resolve_left (not_not.mpr same)
      rw [held, Option.getD_some] at inside
      rw [readAt, readAt, here t same, childSame same, held]
      exact inner other inside
    · rw [readAt, readAt, away t same]

theorem keptField {doc : Document} {new : Bson} (held : doc.get s = some child) (inner : Kept child new rest) :
    Kept (.document doc) (.document (doc.insert s new)) (s :: rest) := by
  have put := @putDocument doc new s
  refine keptChild held put.here (fun t apart => put.away t apart fun fills => ?_) inner
  obtain ⟨_, _, _, is, _⟩ := fills
  cases is

theorem keptPosition {items : List Bson} {index : Nat} (numbered : parseUsize s = some index)
    (held : items[index]? = some child) (inner : Kept child new rest) :
    Kept (.array items) (.array (items.set index new)) (s :: rest) := by
  obtain ⟨inside,_⟩ := List.getElem?_eq_some_iff.mp held
  refine keptChild (by simp [childAt, numbered, held]) (fun t same => ?_) (fun t apart => ?_) inner
  · have is : parseUsize t = some index := by
      obtain rfl | ⟨m, first, second⟩ := same
      · exact numbered
      · rw [second, ← first, numbered]
    simp [childAt, is, List.getElem?_set, inside]
  · cases is : parseUsize t with
    | none => simp [childAt, is]
    | some m =>
      have differ : index ≠ m := fun same => apart (Or.inr ⟨index,numbered,by rw [is, same]⟩)
      simp [childAt, is, List.getElem?_set, differ]

theorem clearedChild (held : childAt before s = some child) (some' : rest ≠ []) :
    Cleared before (s :: rest) ↔ Cleared child rest := by
  have below (segs : List String) : readAt before (s :: segs) = readAt child segs := by rw [readAt, held]
  unfold Cleared
  rw [below]
  refine or_congr_right (and_congr_right fun _ => ⟨?_,?_⟩)
  · rintro ⟨init, last, items, split, array⟩
    cases init with
    | nil =>
      rw [List.nil_append, List.cons.injEq] at split
      exact absurd split.2 some'
    | cons first init =>
      rw [List.cons_append, List.cons.injEq] at split
      obtain ⟨rfl,split⟩ := split
      rw [below] at array
      exact ⟨init,last,items,split,array⟩
  · rintro ⟨init, last, items, split, array⟩
    exact ⟨s :: init,last,items,by rw [split]; rfl,by rw [below]; exact array⟩

theorem clearedMissing (missing : childAt before s = none) : Cleared before (s :: rest) := by
  left
  rw [readAt, missing]

end

structure UnsetSpec (doc : Document) (segs : List String) : Prop where
  gone : Cleared (.document (unsetInDocument doc segs).1) segs ↔ Nested Cleared doc segs
  kept : Kept (.document doc) (.document (unsetInDocument doc segs).1) segs

section
variable {doc : Document} {head next : String} {tail : List String}

theorem unsetField {child : Document} (held : doc.get head = some (.document child))
    (inner : UnsetSpec child (next :: tail)) : UnsetSpec doc (head :: next :: tail) := by
  have made : unsetInDocument doc (head :: next :: tail) =
      (doc.insert head (.document (unsetInDocument child (next :: tail)).1),(unsetInDocument child (next :: tail)).2) := by
    rw [unsetInDocument, held]
  refine ⟨?_,?_⟩
  · have nested : Nested Cleared doc (head :: next :: tail) ↔ Nested Cleared child (next :: tail) := by
      rw [Nested, held]
    rw [made, nested, ← inner.gone]
    exact clearedChild (by simp [childAt, getInsert]) (List.cons_ne_nil _ _)
  · rw [made]
    exact keptField held inner.kept

theorem unsetSame {segs : List String} {removed : Bool} (made : unsetInDocument doc segs = (doc,removed))
    (gone : Cleared (.document doc) segs ↔ Nested Cleared doc segs) : UnsetSpec doc segs := by
  refine ⟨?_,?_⟩
  · rw [made]
    exact gone
  · rw [made]
    exact keptRefl _ _

/- A walk that ends at an array without a document to go into leaves everything. -/
theorem unsetNowhere {items : List Bson} (held : doc.get head = some (.array items)) (some' : tail ≠ [])
    (noDocument : ∀ child, childAt (.array items) next ≠ some (.document child)) :
    UnsetSpec doc (head :: next :: tail) := by
  obtain ⟨below,rest,rfl⟩ := List.exists_cons_of_ne_nil some'
  have made : unsetInDocument doc (head :: next :: below :: rest) = (doc,false) := by
    rw [unsetInDocument, held]
    simp only
    cases numbered : parseUsize next with
    | none => rfl
    | some index =>
      simp only
      cases found : items[index]? with
      | none => rfl
      | some there =>
        cases there with
        | document child => exact absurd (by simp [childAt, numbered, found]) (noDocument child)
        | _ => rfl
  refine unsetSame made ?_
  have field : childAt (.document doc) head = some (.array items) := held
  rw [Nested, held, clearedChild field (List.cons_ne_nil _ _)]
  simp only
  cases found : childAt (.array items) next with
  | none =>
    have missing : (parseUsize next).bind (items[·]?) = none := found
    rw [missing]
    exact iff_of_true (clearedMissing found) trivial
  | some there =>
    have present : (parseUsize next).bind (items[·]?) = some there := found
    rw [present, clearedChild found (List.cons_ne_nil _ _)]
    cases there with
    | document child => exact absurd found (noDocument child)
    | array inner => exact Iff.rfl
    | _ => exact iff_of_true (clearedMissing rfl) trivial

/- The position itself: a null is left there. -/
theorem unsetPosition {items : List Bson} (held : doc.get head = some (.array items)) : UnsetSpec doc [head,next] := by
  have field : childAt (.document doc) head = some (.array items) := held
  have nested : Nested Cleared doc [head,next] := by
    rw [Nested, held]
    simp only
    cases (parseUsize next).bind (items[·]?) with
    | none => trivial
    | some there => cases there <;> trivial
  cases found : childAt (.array items) next with
  | none =>
    have made : unsetInDocument doc [head,next] = (doc,false) := by
      rw [unsetInDocument, held]
      simp only
      cases numbered : parseUsize next with
      | none => rfl
      | some index =>
        have missing : items[index]? = none := by simpa [childAt, numbered] using found
        simp only [missing]
    exact unsetSame made (iff_of_true ((clearedChild field (List.cons_ne_nil _ _)).mpr (clearedMissing found)) nested)
  | some there =>
    obtain ⟨index,numbered,present⟩ := Option.bind_eq_some_iff.mp found
    obtain ⟨inside,_⟩ := List.getElem?_eq_some_iff.mp present
    have made : unsetInDocument doc [head,next] = (doc.insert head (.array (items.set index .null)),true) := by
      rw [unsetInDocument, held]
      simp only [numbered, present]
    have reads : readAt (.document (doc.insert head (.array (items.set index .null)))) [head] =
        some (.array (items.set index .null)) := by
      simp [readAt, childAt, getInsert]
    refine ⟨iff_of_true (Or.inr ⟨?_,[head],next,_,rfl,by rw [made]; exact reads⟩) nested,?_⟩
    · rw [made]
      simp [readAt, childAt, getInsert, numbered, List.getElem?_set, inside]
    · rw [made]
      exact keptField held (keptPosition numbered present fun _ apart => absurd apart id)

theorem unsetElement {items : List Bson} {index : Nat} {child : Document} (held : doc.get head = some (.array items))
    (numbered : parseUsize next = some index) (found : items[index]? = some (.document child)) (some' : tail ≠ [])
    (inner : UnsetSpec child tail) : UnsetSpec doc (head :: next :: tail) := by
  obtain ⟨below,rest,rfl⟩ := List.exists_cons_of_ne_nil some'
  obtain ⟨inside,_⟩ := List.getElem?_eq_some_iff.mp found
  have made : unsetInDocument doc (head :: next :: below :: rest) =
      (doc.insert head (.array (items.set index (.document (unsetInDocument child (below :: rest)).1))),
        (unsetInDocument child (below :: rest)).2) := by
    rw [unsetInDocument, held]
    simp only [numbered, found]
  have nested : Nested Cleared doc (head :: next :: below :: rest) ↔ Nested Cleared child (below :: rest) := by
    rw [Nested, held]
    simp only [numbered, Option.bind_some, found]
  refine ⟨?_,?_⟩
  · rw [made, nested, ← inner.gone, clearedChild (by simp [childAt, getInsert]; rfl) (List.cons_ne_nil _ _)]
    exact clearedChild (by simp [childAt, numbered, List.getElem?_set, inside]) (List.cons_ne_nil _ _)
  · rw [made]
    exact keptField held (keptPosition numbered found inner.kept)

end

theorem unsetSpec : ∀ (segs : List String) (doc : Document), segs ≠ [] → UnsetSpec doc segs
  | [], _, some' => absurd rfl some'
  | [head], doc, _ => by
      refine ⟨iff_of_true (clearedMissing ?_) trivial,?_⟩
      · simp [unsetInDocument, childAt, getRemove]
      · rintro (_ | ⟨t, other⟩) apart
        · exact absurd rfl (apartSome apart)
        · have differ : t ≠ head := fun same => apart.elim (fun not => not same.symm) id
          simp [unsetInDocument, readAt, childAt, getRemove, differ]
  | head :: next :: tail, doc, _ => by
      by_cases document : ∃ child, doc.get head = some (.document child)
      · obtain ⟨child,held⟩ := document
        exact unsetField held (unsetSpec (next :: tail) child (List.cons_ne_nil _ _))
      by_cases array : ∃ items, doc.get head = some (.array items)
      · obtain ⟨items,held⟩ := array
        cases tail with
        | nil => exact unsetPosition held
        | cons below rest =>
          by_cases element : ∃ index child, parseUsize next = some index ∧ items[index]? = some (.document child)
          · obtain ⟨index,child,numbered,found⟩ := element
            exact unsetElement held numbered found (List.cons_ne_nil _ _)
              (unsetSpec (below :: rest) child (List.cons_ne_nil _ _))
          · refine unsetNowhere held (List.cons_ne_nil _ _) fun child found => element ?_
            obtain ⟨index,numbered,there⟩ := Option.bind_eq_some_iff.mp found
            exact ⟨index,child,numbered,there⟩
      · have made : unsetInDocument doc (head :: next :: tail) = (doc,false) ∧ Nested Cleared doc (head :: next :: tail) ∧
            Cleared (.document doc) (head :: next :: tail) := by
          rw [unsetInDocument, Nested]
          cases held : doc.get head with
          | none => exact ⟨rfl,trivial,clearedMissing held⟩
          | some found =>
            have field : childAt (.document doc) head = some found := held
            cases found with
            | document child => exact absurd ⟨child,held⟩ document
            | array items => exact absurd ⟨items,held⟩ array
            | _ => exact ⟨rfl,trivial,(clearedChild field (List.cons_ne_nil _ _)).mpr (clearedMissing rfl)⟩
        exact unsetSame made.1 (iff_of_true made.2.2 made.2.1)

/-! Both writers. -/

theorem segmentsSome (path : String) : segments path ≠ [] := by
  unfold segments
  have some' (chars : List Char) : ∀ segment, splitDots chars segment ≠ [] := by
    induction chars with
    | nil => exact fun _ => List.cons_ne_nil _ _
    | cons c rest ih =>
      intro segment
      rw [splitDots]
      split_ifs
      · exact List.cons_ne_nil _ _
      · exact ih _
  exact some' _ _

/- A set keeps every other path exactly when no array in an array that it comes to holds anything off the path,
and an unset clears the path exactly when such an array holds nothing at its end. -/
theorem pathWritesKeep (doc : Document) (path : String) (value : Bson) :
    (SetFaithful doc path value ↔ Nested Bare doc (segments path)) ∧
    (UnsetFaithful doc path ↔ Nested Cleared doc (segments path)) := by
  have set := setSpec value (segments path) doc (segmentsSome path)
  have unset := unsetSpec (segments path) doc (segmentsSome path)
  refine ⟨⟨fun faithful => ?_,fun nested => ?_⟩,⟨fun faithful => ?_,fun nested => ?_⟩⟩
  · cases answer : (setInDocument doc (segments path) value).2 with
    | error error => exact (set.refused error answer).2
    | ok => exact (set.frame answer).mp (faithful.others answer)
  · exact ⟨fun error refused => (set.refused error refused).1,set.reads,fun done => (set.frame done).mpr nested⟩
  · exact unset.gone.mp faithful.gone
  · exact ⟨unset.gone.mpr nested,unset.kept⟩

/- Two numbers in an array of an array: setting the second loses the first, and it cannot be unset. -/
theorem nestedArrayLost :
    let doc : Document := [("a",.array [.array [.int32 1,.int32 2]])]
    ¬ SetFaithful doc "a.0.1" (.int32 9) ∧ ¬ UnsetFaithful doc "a.0.1" := by
  intro doc
  constructor
  · intro faithful
    have apart : Apart (.document doc) (segments "a.0.1") ["a","0","0"] := by
      have path : segments "a.0.1" = ["a","0","1"] := by decide
      rw [path]
      refine Or.inr (Or.inr (Or.inl ?_))
      rintro (same | ⟨n, one, zero⟩)
      · revert same
        decide
      · cases (show parseUsize "1" = some 1 by decide).symm.trans one
        revert zero
        decide
    rcases faithful.others (by decide) ["a","0","0"] apart with same | ⟨_, null⟩
    · revert same
      decide
    · revert null
      decide
  · intro faithful
    rcases faithful.gone with none | ⟨null, _⟩
    · revert none
      decide
    · revert null
      decide

end Kimmy
