import Kimmy.Store.Expiry

/-!
What a cycle of passes deletes. Dates are keyed in the order of time, one way round or the other, so the entry of a document
that is due lies inside every later pass's bounds; a pass examines it or leaves its cursor in front of it, and the cycle only
ends with no cursor left.
-/
namespace Kimmy.Store
open ByteOrder CanonicalCmp KeyEnc KeyOrder

/-! Times and dates. -/

theorem saturateBounds (x : Int) : (saturate x).toInt = max Int64.minValue.toInt (min Int64.maxValue.toInt x) := by
  have low : Int64.minValue.toInt = -9223372036854775808 := rfl
  have high : Int64.maxValue.toInt = 9223372036854775807 := rfl
  unfold saturate
  rw [low, high]
  split_ifs with under above
  · rw [low]
    omega
  · rw [high]
    omega
  · rw [Int64.toInt_ofInt_of_le (by omega) (by omega)]
    omega

theorem cutoffMono (index : TtlIndex) {now later : UInt64} (forward : now.toInt64.toInt ≤ later.toInt64.toInt) :
    (index.cutoff now).toInt ≤ (index.cutoff later).toInt := by
  unfold TtlIndex.cutoff
  rw [saturateBounds, saturateBounds (later.toInt64.toInt - _)]
  omega

theorem codesLe {o : Ordering} {k j : Bytes} (codes : Codes o k j) (least : o ≠ .gt) : k ≤ j := by
  cases o with
  | lt =>
    have below := belowLt (show Below k j from codes) []
    rw [List.append_nil] at below
    exact below.le
  | eq => exact le_of_eq codes
  | gt => exact absurd rfl least

/- Earlier dates come first, or last where the field is descending. -/
theorem dateKeyLe (descending : Bool) {x y : Int64} (order : if descending then y.toInt ≤ x.toInt else x.toInt ≤ y.toInt) :
    ∃ kx ky, dateKey x descending = some kx ∧ dateKey y descending = some ky ∧ kx ≤ ky := by
  obtain ⟨kx,ky,first,second,codes⟩ := @codesComponents [descending] [.dateTime x] [.dateTime y] rfl rfl
  refine ⟨kx,ky,first,second,codesLe codes ?_⟩
  have dates : canonicalCmp (.dateTime x) (.dateTime y) = compare x.toInt y.toInt := by
    unfold canonicalCmp
    rw [if_neg (by simp [typeRank])]
  have alone : cmpComponents [descending] [.dateTime x] [.dateTime y] =
      if descending then (compare x.toInt y.toInt).swap else compare x.toInt y.toInt := by
    simp only [cmpComponents, dates, Ordering.then_eq]
  rw [alone]
  cases descending with
  | false => exact compare_le_iff_le.mpr order
  | true =>
    rw [if_pos rfl, Std.OrientedOrd.eq_swap.symm]
    exact compare_le_iff_le.mpr order

/- The range of a cutoff, which takes in every date up to it. -/
theorem rangeTakes (index : TtlIndex) {millis cutoff : Int64} (due : millis.toInt ≤ cutoff.toInt) :
    ∃ lower upper key, index.expiredRange cutoff = some (lower,upper) ∧ dateKey millis index.field.descending = some key ∧
      lower ≤ key ∧ key ≤ upper := by
  have least : Int64.minValue.toInt ≤ millis.toInt := Int64.le_iff_toInt_le.mp (Int64.minValue_le millis)
  unfold TtlIndex.expiredRange
  cases down : index.field.descending with
  | false =>
    obtain ⟨oldest,key,first,own,low⟩ := @dateKeyLe false _ _ least
    obtain ⟨again,newest,same,last,high⟩ := @dateKeyLe false _ _ due
    obtain rfl : key = again := Option.some.inj (own.symm.trans same)
    rw [first, last]
    exact ⟨oldest,newest,key,rfl,own,low,high⟩
  | true =>
    obtain ⟨newest,key,first,own,low⟩ := @dateKeyLe true _ _ due
    obtain ⟨again,oldest,same,last,high⟩ := @dateKeyLe true _ _ least
    obtain rfl : key = again := Option.some.inj (own.symm.trans same)
    rw [first, last]
    exact ⟨newest,oldest,key,rfl,own,low,high⟩

/-! The entry of a document that is due. -/

theorem firstKept {value : Bson} {rest : List Bson} : value ∈ dedupValues (value :: rest) := List.mem_cons_self

/- The date a document is due by is a value it is keyed by. -/
theorem dueKey {index : TtlIndex} {doc : Document} {cutoff : Int64} (due : isExpired doc index.field.path cutoff = true)
    (selected : index.selects doc = true) (keyed : (documentKeys index.base doc).isUnkeyed = false) :
    ∃ millis key, millis.toInt ≤ cutoff.toInt ∧ dateKey millis index.field.descending = some key ∧
      key ∈ (documentKeys index.base doc).filed := by
  unfold isExpired at due
  obtain ⟨millis,first,early⟩ : ∃ millis, (resolve doc index.field.path).head? = some (.dateTime millis) ∧ millis ≤ cutoff := by
    split at due
    next millis is => exact ⟨millis,is,by simpa using due⟩
    · cases due
  obtain ⟨rest,resolved⟩ : ∃ rest, resolve doc index.field.path = .dateTime millis :: rest := List.head?_eq_some_iff.mp first
  have offers : Bson.dateTime millis ∈ fieldValues doc index.field.path := by
    unfold fieldValues
    rw [resolved]
    exact firstKept
  obtain ⟨key,_,own,_⟩ := @dateKeyLe index.field.descending millis millis (by split_ifs <;> exact le_rfl)
  refine ⟨millis,key,Int64.le_iff_toInt_le.mp early,own,?_⟩
  cases keys : documentKeys index.base doc with
  | unkeyed cause multikey =>
    rw [keys] at keyed
    cases keyed
  | keyed all multikey =>
    unfold documentKeys at keys
    have inside : ¬(index.base.selection.any fun filter => !filter.selects doc) = true := by
      unfold TtlIndex.selects at selected
      cases filter : index.base.selection with
      | none => simp
      | some filter' =>
        rw [filter] at selected
        simpa using selected
    rw [if_neg inside] at keys
    simp only [index.alone, List.length_singleton, lt_irrefl, decide_false, Bool.false_and, Bool.false_eq_true, if_false,
      List.map_cons, List.map_nil] at keys
    split at keys
    · cases keys
    next combined made =>
      split at keys
      · cases keys
      next encoded mapped =>
        cases keys
        -- one field: each of its values makes a key
        have among : [(Bson.dateTime millis,index.field.descending)] ∈ combined := by
          rw [combine] at made
          split_ifs at made
          cases made
          simpa using offers
        obtain ⟨bytes,member,is⟩ := Traverse.memMapM mapped _ among
        obtain rfl : key = bytes := Option.some.inj (own.symm.trans is)
        rw [DocumentKeys.filed, List.mem_dedup, List.mem_insertionSort]
        exact member

/-! The scan. -/

section
variable {rows : SortedMap IndexKey Unit} {coll : CollectionId} {index : IndexId} {lower upper : Bytes}
  {after : Option ExpiryCursor}

def ExpiryCursor.at (coll : CollectionId) (index : IndexId) (c : ExpiryCursor) : IndexKey := ⟨coll,index,c.key,c.doc⟩

/- Past the cursor, where there is one. -/
def Ahead (coll : CollectionId) (index : IndexId) (after : Option ExpiryCursor) (c : ExpiryCursor) : Prop :=
  ∀ cursor, after = some cursor → cursor.at coll index < c.at coll index

/- All that a scan without a limit would read. -/
theorem scanned : ∃ all : List ExpiryCursor,
    (∀ limit, keyedEntriesAfter rows coll index lower upper after limit = all.take limit) ∧
    (all.Pairwise fun x y => x.at coll index < y.at coll index) ∧
    ∀ c : ExpiryCursor, rows.get (c.at coll index) = some () → lower ≤ c.key → c.key ≤ upper → Ahead coll index after c → c ∈ all := by
  obtain ⟨found,is,sorted,start,atColl,atIndex,least,takes⟩ : ∃ found, resumed rows coll index lower after = found ∧
      (found.Pairwise fun x y => x.1 < y.1) ∧ ∃ start : IndexKey, start.collection = coll ∧ start.index = index ∧
        (∀ x ∈ found, start ≤ x.1) ∧ ∀ c : ExpiryCursor, rows.get (c.at coll index) = some () → lower ≤ c.key →
          Ahead coll index after c → (c.at coll index,()) ∈ found := by
    cases after with
    | some cursor =>
      refine ⟨_,rfl,rangeAfterSorted ..,cursor.at coll index,rfl,rfl,fun x member => (memRangeAfter.mp member).2.le,?_⟩
      exact fun c held _ ahead => memRangeAfter.mpr ⟨held,ahead cursor rfl⟩
    | none =>
      refine ⟨_,rfl,rows.rangeSorted _,⟨coll,index,lower,[]⟩,rfl,rfl,fun x member => (SortedMap.memRange.mp member).2,?_⟩
      refine fun c held low _ => SortedMap.memRange.mpr ⟨held,indexKeyLe.mpr (Or.inr ⟨rfl,Or.inr ⟨rfl,?_⟩⟩)⟩
      rcases lt_or_eq_of_le low with less | same
      · exact Or.inl less
      · exact Or.inr ⟨same,not_lt.mp (List.not_lt_nil c.doc)⟩
  have walk (x : IndexKey × Unit) := @SortedMap.memTakeWhile _ _ _ (fun k => k.collection = coll && k.index = index && k.key ≤ upper)
    found x sorted fun y member z _ below inside => by
      have inside : z.1.collection = coll ∧ z.1.index = index ∧ z.1.key ≤ upper := by
        simpa [and_assoc] using inside
      obtain ⟨sameColl,sameIndex,_,high⟩ := indexConvex (least y member) below.le (inside.1.trans atColl.symm)
        (inside.2.1.trans atIndex.symm)
      simpa [and_assoc] using ⟨sameColl.trans atColl,sameIndex.trans atIndex,high.trans inside.2.2⟩
  let inside := (found.takeWhile fun x => x.1.collection = coll && x.1.index = index && x.1.key ≤ upper).filter fun x => lower ≤ x.1.key
  have own : ∀ x ∈ inside, (⟨x.1.key,x.1.doc⟩ : ExpiryCursor).at coll index = x.1 := by
    intro x member
    obtain ⟨_,here⟩ := (walk x).mp (List.mem_filter.mp member).1
    obtain ⟨rfl,rfl,_⟩ : x.1.collection = coll ∧ x.1.index = index ∧ x.1.key ≤ upper := by simpa [and_assoc] using here
    rfl
  refine ⟨inside.map fun x => ⟨x.1.key,x.1.doc⟩,fun limit => ?_,?_,fun c held low high ahead => ?_⟩
  · rw [← List.map_take, keyedEntriesAfter, is]
  · refine List.pairwise_map.mpr ?_
    have ordered : inside.Pairwise fun x y => x.1 < y.1 :=
      (sorted.sublist (List.takeWhile_sublist _)).sublist List.filter_sublist
    refine ordered.imp_of_mem fun {x y} memberX memberY less => ?_
    rw [own x memberX, own y memberY]
    exact less
  · refine List.mem_map.mpr ⟨(c.at coll index,()),List.mem_filter.mpr ⟨(walk _).mpr ⟨takes c held low ahead,?_⟩,?_⟩,rfl⟩
    · simp [ExpiryCursor.at, high]
    · exact decide_eq_true low

/- An entry inside the bounds and past the cursor is among the candidates, or past where the cursor is left. -/
theorem scanReaches {c : ExpiryCursor} (held : rows.get (c.at coll index) = some ()) (low : lower ≤ c.key) (high : c.key ≤ upper)
    (ahead : Ahead coll index after c) (n : Nat) :
    let found := keyedEntriesAfter rows coll index lower upper after (n + 1)
    c ∈ found.take n ∨ n < found.length ∧ ∀ cursor, (found.take n).getLast? = some cursor → cursor.at coll index < c.at coll index := by
  intro found
  obtain ⟨all,taken,sorted,takes⟩ := @scanned rows coll index lower upper after
  have member := takes c held low high ahead
  have is : found = all.take (n + 1) := taken (n + 1)
  have shorter : found.take n = all.take n := by
    rw [is, List.take_take]
    congr 1
    omega
  rw [shorter]
  by_cases early : c ∈ all.take n
  · exact Or.inl early
  · have late : c ∈ all.drop n := by
      have whole := member
      rw [← List.take_append_drop n all] at whole
      exact (List.mem_append.mp whole).resolve_left early
    refine Or.inr ⟨?_,fun cursor last => ?_⟩
    · have some := List.length_pos_of_mem late
      rw [List.length_drop] at some
      rw [is, List.length_take]
      omega
    · have before : cursor ∈ all.take n := List.mem_of_getLast? last
      rw [← List.take_append_drop n all] at sorted
      exact (List.pairwise_append.mp sorted).2.2 cursor before c late

end

/-! What stands. -/

/- The index is defined for the collection; a write can set its multikey flag and nothing else. -/
def Standing (index : TtlIndex) (coll : CollectionId) (h : Holding) : Prop := ∃ i ∈ h.indexes coll, Flagged index.base i

theorem standingSettle {index : TtlIndex} {coll : CollectionId} {h : Holding} {c : CollectionId} {key : DocKey} {new : Option Document}
    (stands : Standing index coll h) : Standing index coll (h.settle c key new (h.applied c key new)) := by
  obtain ⟨i,member,flagged⟩ := stands
  by_cases here : coll = c
  · subst here
    cases defined : h.collections.get coll with
    | none =>
      rw [(@Holding.indexesUndefined h coll key new (h.applied coll key new) defined).1] at member
      cases member
    | some definition =>
      obtain ⟨before,after⟩ := Holding.settledIndexes key new (h.applied coll key new) defined
      rw [before] at member
      unfold Standing
      rw [after]
      refine ⟨_,List.mem_map_of_mem member,?_⟩
      split_ifs
      · exact flaggedTrans flagged (Or.inr rfl)
      · exact flagged
  · unfold Standing
    rw [Holding.indexesElsewhere here]
    exact ⟨i,member,flagged⟩

/- The entry of a document under one of its keys. -/
theorem standingEntry {index : TtlIndex} {coll : CollectionId} {h : Holding} (stands : Standing index coll h) (exact : h.ExactEntries)
    {doc : DocKey} {image : Document} (found : h.images ⟨coll,doc⟩ = some image) {key : Bytes}
    (filed : key ∈ (documentKeys index.base image).filed) : h.entries.get ⟨coll,index.base.id,key,doc⟩ = some () := by
  obtain ⟨i,member,flagged⟩ := stands
  have same : i.id = index.base.id ∧ documentKeys i image = documentKeys index.base image := by
    rcases flagged with rfl | rfl
    · exact ⟨rfl,rfl⟩
    · exact ⟨rfl,rfl⟩
  rw [← same.1]
  refine (exact coll i member key doc).mpr ?_
  unfold filedUnder Holding.view
  rw [found, Option.map_some, Option.getD_some, same.2]
  exact filed

/- A guarded delete takes out the one image its guard lets go. -/
theorem deletedImages (e : Engine) (coll : CollectionId) (key : DocKey) (approves : Document → Bool) :
    (e.step (.write (.delete coll key fun _ current => .ok (approves current)))).db.image =
      if (e.db.image ⟨coll,key⟩).any approves then Function.update e.db.image ⟨coll,key⟩ none else e.db.image := by
  cases held : e.db.image ⟨coll,key⟩ with
  | none =>
    have nothing : e.deleteInTxn coll key (fun _ current => .ok (approves current)) = .ok e := by
      unfold Engine.deleteInTxn
      split
      · rfl
      next record found =>
        split
        · rfl
        next image live =>
          rw [Tables.image, found, Option.bind_some, live] at held
          cases held
    rw [Engine.step, Engine.writeInTxn, nothing]
    rfl
  | some image =>
    obtain ⟨record,found,live⟩ := Option.bind_eq_some_iff.mp held
    rw [Option.any_some]
    cases approved : approves image with
    | false =>
      have kept : e.deleteInTxn coll key (fun _ current => .ok (approves current)) = .ok e := by
        simp only [Engine.deleteInTxn, found, live, approved]
        rfl
      rw [Engine.step, Engine.writeInTxn, kept]
      rfl
    | true =>
      -- maintenance of a delete refuses nothing
      let entry : OplogEntry := ⟨e.nextStamp,.delete,coll,some key,none⟩
      let t := e.db.putRecord ⟨coll,key⟩ entry.incoming
      let done := applyEntries t.entries coll (t.currentIndexes coll) (some image) none key
      have gone : e.deleteInTxn coll key (fun _ current => .ok (approves current)) =
          .ok { e.called [e.nextCall] with db := (t.settle coll done).appendOplog entry } := by
        simp only [Engine.deleteInTxn, found, live, approved]
        rfl
      have appended := congrArg Holding.images (holdingAppend (t.settle coll done) entry .raise)
      have put := imagePut e.db ⟨coll,key⟩ entry.incoming
      rw [incomingDocument] at put
      rw [Engine.step, Engine.writeInTxn, gone]
      exact appended.trans put

namespace Expirer
section
variable {index : TtlIndex} {coll : CollectionId}

/-! Only what is due. -/

theorem judgeRemoves {cutoff : Int64} {doc : Document} :
    index.judge cutoff doc = .removes ↔ isExpired doc index.field.path cutoff = true ∧ index.selects doc = true := by
  unfold TtlIndex.judge
  cases isExpired doc index.field.path cutoff <;> cases index.selects doc <;> simp

theorem removeImages {x : Expirer} {p : Pass} {own : DocKey} (passing : x.pass = some p) (held : p.inHand = some own) :
    (x.remove index coll).engine.db.image =
      if (x.engine.db.image ⟨coll,own⟩).any fun current => index.judge (index.cutoff p.now) current = .removes then
        Function.update x.engine.db.image ⟨coll,own⟩ none
      else x.engine.db.image := by
  have same : (x.remove index coll).engine = x.engine.step (.write (.delete coll own (guarded index (index.cutoff p.now)))) := by
    simp only [remove, passing, held]
  rw [same]
  exact deletedImages ..

theorem startEngine (x : Expirer) (now : UInt64) : (x.start index coll now).engine = x.engine := by
  unfold start
  split
  · rfl
  · split <;> rfl

theorem nextEngine (x : Expirer) : (x.next coll).engine = x.engine := by
  unfold next
  split
  · rfl
  · split_ifs
    · rfl
    · split
      · rfl
      · split_ifs <;> rfl

/- The steps of a pass change no image but one, which is due and selected as it stands in that very transaction. -/
theorem stepOnlyDue (x : Expirer) (step : ExpiryStep) (own : ∀ op, step ≠ .committed op) (a : Address)
    (changed : (x.step index coll step).engine.db.image a ≠ x.engine.db.image a) :
    ∃ p image, x.pass = some p ∧ a.collection = coll ∧ x.engine.db.image a = some image ∧
      (x.step index coll step).engine.db.image a = none ∧
      isExpired image index.field.path (index.cutoff p.now) = true ∧ index.selects image = true := by
  cases step with
  | committed op => exact absurd rfl (own op)
  | start now =>
    have same : (x.step index coll (.start now)).engine = x.engine := startEngine x now
    rw [same] at changed
    exact absurd rfl changed
  | next =>
    have same : (x.step index coll .next).engine = x.engine := nextEngine x
    rw [same] at changed
    exact absurd rfl changed
  | remove =>
    have is : x.step index coll .remove = x.remove index coll := rfl
    rw [is] at changed ⊢
    cases passing : x.pass with
    | none =>
      simp only [remove, passing, ne_eq, not_true_eq_false] at changed
    | some p =>
      cases held : p.inHand with
      | none =>
        simp only [remove, passing, held, ne_eq, not_true_eq_false] at changed
      | some key =>
        rw [removeImages passing held] at changed ⊢
        split_ifs at changed ⊢ with approved
        · by_cases here : a = ⟨coll,key⟩
          · subst here
            cases found : x.engine.db.image ⟨coll,key⟩ with
            | none =>
              rw [found] at approved
              cases approved
            | some image =>
              rw [found, Option.any_some, decide_eq_true_eq] at approved
              obtain ⟨due,selected⟩ := judgeRemoves.mp approved
              exact ⟨p,image,rfl,rfl,rfl,Function.update_self ..,due,selected⟩
          · rw [Function.update_of_ne here] at changed
            exact absurd rfl changed
        · exact absurd rfl changed

/-! All of what is due. -/

theorem expiredLater {doc : Document} {path : String} {since cutoff : Int64} (due : isExpired doc path since = true)
    (later : since.toInt ≤ cutoff.toInt) : isExpired doc path cutoff = true := by
  unfold isExpired at *
  split at due
  next millis is =>
    have early : millis ≤ since := by simpa using due
    exact decide_eq_true (Int64.le_iff_toInt_le.mpr ((Int64.le_iff_toInt_le.mp early).trans later))
  · cases due

/- A document that is due, selected and keyed, stored under its own id. -/
structure Sought (index : TtlIndex) (since : Int64) (key : DocKey) (doc : Document) : Prop where
  due : isExpired doc index.field.path since = true
  selected : index.selects doc = true
  keyed : (documentKeys index.base doc).isUnkeyed = false
  own : doc.docKey = some key

variable {since : Int64} {key : DocKey} {doc : Document}

theorem Sought.judged (sought : Sought index since key doc) {cutoff : Int64} (later : since.toInt ≤ cutoff.toInt) :
    index.judge cutoff doc = .removes := judgeRemoves.mpr ⟨expiredLater sought.due later,sought.selected⟩

/- An entry of the document that lies inside the bounds of every pass from then on. -/
def Inside (index : TtlIndex) (since : Int64) (doc : Document) (entry : Bytes) : Prop :=
  entry ∈ (documentKeys index.base doc).filed ∧ ∀ cutoff : Int64, since.toInt ≤ cutoff.toInt →
    ∃ lower upper, index.expiredRange cutoff = some (lower,upper) ∧ lower ≤ entry ∧ entry ≤ upper

theorem Sought.inside (sought : Sought index since key doc) : ∃ entry, Inside index since doc entry := by
  obtain ⟨millis,entry,early,own,filed⟩ := dueKey sought.due sought.selected sought.keyed
  refine ⟨entry,filed,fun cutoff later => ?_⟩
  obtain ⟨lower,upper,again,range,same,low,high⟩ := rangeTakes index (early.trans later)
  obtain rfl : entry = again := Option.some.inj (own.symm.trans same)
  exact ⟨lower,upper,range,low,high⟩

/- Where the document still has to come: in the pass's hand, among its candidates, or past the cursor. -/
def Waiting (index : TtlIndex) (coll : CollectionId) (since : Int64) (entry : ExpiryCursor) (x : Expirer) : Prop :=
  let beyond := x.cursor.isSome = true ∧ Ahead coll index.base.id x.cursor entry
  match x.pass with
  | none => beyond
  | some p => since.toInt ≤ (index.cutoff p.now).toInt ∧
      (p.inHand = some entry.doc ∨ (entry.doc ∉ p.seen ∧ ∃ c ∈ p.candidates, c.doc = entry.doc) ∨ beyond)

structure Tracked (index : TtlIndex) (coll : CollectionId) (since : Int64) (doc : Document) (entry : ExpiryCursor) (x : Expirer) : Prop where
  exact : x.engine.db.holding.ExactEntries
  stands : Standing index coll x.engine.db.holding
  here : x.engine.db.image ⟨coll,entry.doc⟩ = none ∨
    x.engine.db.image ⟨coll,entry.doc⟩ = some doc ∧ Waiting index coll since entry x

variable {entry : ExpiryCursor} {x : Expirer}

/- A scan from the front, or from before the document's entry. -/
theorem startWaiting (exact : x.engine.db.holding.ExactEntries) (stands : Standing index coll x.engine.db.holding)
    (found : x.engine.db.image ⟨coll,entry.doc⟩ = some doc) (inside : Inside index since doc entry.key) {now : UInt64}
    (later : since.toInt ≤ (index.cutoff now).toInt) (idle : x.pass = none) (ahead : Ahead coll index.base.id x.cursor entry) :
    Waiting index coll since entry (x.start index coll now) := by
  obtain ⟨lower,upper,range,low,high⟩ := inside.2 _ later
  have held : x.engine.db.entries.get (entry.at coll index.base.id) = some () := standingEntry stands exact found inside.1
  have reached := scanReaches held low high ahead maxExpiredPerPass
  simp only [start, idle, range, Waiting]
  generalize keyedEntriesAfter x.engine.db.entries coll index.base.id lower upper x.cursor (maxExpiredPerPass + 1) = scan at *
  refine ⟨later,Or.inr ?_⟩
  rcases reached with among | ⟨more,past⟩
  · exact Or.inl ⟨List.not_mem_nil,entry,among,rfl⟩
  · rw [if_pos (decide_eq_true more)]
    refine Or.inr ⟨?_,past⟩
    have full : (scan.take maxExpiredPerPass).length = maxExpiredPerPass := by
      rw [List.length_take]
      omega
    have some : scan.take maxExpiredPerPass ≠ [] := List.ne_nil_of_length_pos (by rw [full]; exact Nat.succ_pos _)
    rw [List.getLast?_eq_getLast_of_ne_nil some]
    rfl

/- The next candidate: the document comes into the hand, or it waits on. -/
theorem nextWaiting (sought : Sought index since entry.doc doc) (found : x.engine.db.image ⟨coll,entry.doc⟩ = some doc)
    (waiting : Waiting index coll since entry x) : Waiting index coll since entry (x.next coll) := by
  cases passing : x.pass with
  | none =>
    have same : x.next coll = x := by simp only [next, passing]
    rw [same]
    exact waiting
  | some p =>
    simp only [Waiting, passing] at waiting
    obtain ⟨later,place⟩ := waiting
    cases held : p.inHand with
    | some own =>
      have same : x.next coll = x := by simp [next, passing, held]
      rw [same]
      simp only [Waiting, passing]
      exact ⟨later,place⟩
    | none =>
      rw [held] at place
      have place := place.resolve_left nofun
      cases candidates : p.candidates with
      | nil =>
        rw [candidates] at place
        have past := place.resolve_left fun ⟨_,c,member,_⟩ => List.not_mem_nil member
        have answers : x.next coll = { x with pass := none, answer := some p.outcome } := by
          simp [next, passing, held, candidates]
        rw [answers]
        exact past
      | cons candidate rest =>
        rw [candidates] at place
        by_cases again : candidate.doc ∈ p.seen
        · have passed : x.next coll = { x with pass := some { p with candidates := rest } } := by
            simp [next, passing, held, candidates, again]
          rw [passed]
          refine ⟨later,Or.inr (place.imp_left fun ⟨unseen,c,member,same⟩ => ⟨unseen,c,?_,same⟩)⟩
          refine (List.mem_cons.mp member).resolve_left fun is => unseen ?_
          rw [← same, is]
          exact again
        · have read : x.next coll = { x with pass := some { p with
              candidates := rest
              seen := candidate.doc :: p.seen
              inHand := (x.engine.db.image ⟨coll,candidate.doc⟩).bind Document.docKey } } := by
            simp [next, passing, held, candidates, again]
          rw [read]
          by_cases here : candidate.doc = entry.doc
          · refine ⟨later,Or.inl ?_⟩
            simp only [here, found, Option.bind_some, sought.own]
          · refine ⟨later,Or.inr (place.imp_left fun ⟨unseen,c,member,same⟩ => ⟨?_,c,?_,same⟩)⟩
            · exact fun seen => (List.mem_cons.mp seen).elim (fun is => here is.symm) unseen
            · exact (List.mem_cons.mp member).resolve_left fun is => here (is ▸ same)

/- The delete of the document in the hand takes it out; that of another one leaves it where it was. -/
theorem removeWaiting (sought : Sought index since entry.doc doc) (found : x.engine.db.image ⟨coll,entry.doc⟩ = some doc)
    (waiting : Waiting index coll since entry x) :
    (x.remove index coll).engine.db.image ⟨coll,entry.doc⟩ = none ∨
      (x.remove index coll).engine.db.image ⟨coll,entry.doc⟩ = some doc ∧ Waiting index coll since entry (x.remove index coll) := by
  cases passing : x.pass with
  | none =>
    have same : x.remove index coll = x := by simp only [remove, passing]
    rw [same]
    exact Or.inr ⟨found,waiting⟩
  | some p =>
    cases held : p.inHand with
    | none =>
      have same : x.remove index coll = x := by simp only [remove, passing, held]
      rw [same]
      exact Or.inr ⟨found,waiting⟩
    | some own =>
      rw [removeImages passing held]
      simp only [Waiting, passing] at waiting
      obtain ⟨later,place⟩ := waiting
      by_cases here : own = entry.doc
      · subst here
        refine Or.inl ?_
        rw [found, Option.any_some, if_pos (decide_eq_true (sought.judged later))]
        exact Function.update_self ..
      · refine Or.inr ⟨?_,?_⟩
        · have apart : (⟨coll,entry.doc⟩ : Address) ≠ ⟨coll,own⟩ := fun is => here (congrArg Address.key is).symm
          split_ifs
          · rw [Function.update_of_ne apart]
            exact found
          · exact found
        · rw [held] at place
          have place := place.resolve_left fun is => here (Option.some.inj is)
          simp only [remove, passing, held, Waiting]
          exact ⟨later,Or.inr place⟩

/- One step: a commit that leaves the document alone, or a step of a pass no earlier than the cycle's first. -/
theorem Tracked.step (sought : Sought index since entry.doc doc) (inside : Inside index since doc entry.key)
    (tracked : Tracked index coll since doc entry x) {step : ExpiryStep}
    (unwritten : ∀ op, step = .committed op → (x.engine.step op).db.image ⟨coll,entry.doc⟩ = x.engine.db.image ⟨coll,entry.doc⟩)
    (later : ∀ now, step = .start now → since.toInt ≤ (index.cutoff now).toInt) :
    Tracked index coll since doc entry (x.step index coll step) := by
  obtain ⟨exact,stands,here⟩ := tracked
  cases step with
  | committed op =>
    refine ⟨settledStep Holding.exactSettle exact,settledStep standingSettle stands,?_⟩
    have same : (x.step index coll (.committed op)).engine.db.image ⟨coll,entry.doc⟩ = x.engine.db.image ⟨coll,entry.doc⟩ :=
      unwritten op rfl
    rw [same]
    exact here
  | start now =>
    have same : (x.step index coll (.start now)).engine = x.engine := startEngine x now
    refine ⟨by rw [same]; exact exact,by rw [same]; exact stands,?_⟩
    rw [same]
    refine here.imp_right fun ⟨found,waiting⟩ => ⟨found,?_⟩
    cases passing : x.pass with
    | none =>
      simp only [Waiting, passing] at waiting
      exact startWaiting exact stands found inside (later now rfl) passing waiting.2
    | some p =>
      have still : x.step index coll (.start now) = x := by simp only [Expirer.step, start, passing]
      rw [still]
      exact waiting
  | next =>
    have same : (x.step index coll .next).engine = x.engine := nextEngine x
    refine ⟨by rw [same]; exact exact,by rw [same]; exact stands,?_⟩
    rw [same]
    exact here.imp_right fun ⟨found,waiting⟩ => ⟨found,nextWaiting sought found waiting⟩
  | remove =>
    have kept : (x.step index coll .remove).engine = x.engine ∨ ∃ op, (x.step index coll .remove).engine = x.engine.step op := by
      cases passing : x.pass with
      | none => exact Or.inl (by simp only [Expirer.step, remove, passing])
      | some p =>
        cases held : p.inHand with
        | none => exact Or.inl (by simp only [Expirer.step, remove, passing, held])
        | some own =>
          refine Or.inr ⟨.write (.delete coll own (guarded index (index.cutoff p.now))),?_⟩
          simp only [Expirer.step, remove, passing, held]
    have entries : (x.step index coll .remove).engine.db.holding.ExactEntries := by
      rcases kept with same | ⟨op,same⟩
      · rw [same]
        exact exact
      · rw [same]
        exact settledStep Holding.exactSettle exact
    have standing : Standing index coll (x.step index coll .remove).engine.db.holding := by
      rcases kept with same | ⟨op,same⟩
      · rw [same]
        exact stands
      · rw [same]
        exact settledStep standingSettle stands
    refine ⟨entries,standing,?_⟩
    rcases here with gone | ⟨found,waiting⟩
    · refine Or.inl ?_
      by_contra back
      obtain ⟨_,_,_,_,found,_⟩ := @stepOnlyDue index coll x .remove nofun ⟨coll,entry.doc⟩ (by rw [gone]; exact back)
      rw [gone] at found
      cases found
    · exact removeWaiting sought found waiting

/- The times of the passes begun. -/
def startTimes : List ExpiryStep → List UInt64 := List.filterMap fun
  | .start now => some now
  | _ => none

/- No commit in between changes what stands at the address. -/
def Unwritten (index : TtlIndex) (coll : CollectionId) (a : Address) : Expirer → List ExpiryStep → Prop
  | _, [] => True
  | x, step :: rest => (∀ op, step = .committed op → (x.engine.step op).db.image a = x.engine.db.image a) ∧
      Unwritten index coll a (x.step index coll step) rest

theorem Tracked.run (sought : Sought index since entry.doc doc) (inside : Inside index since doc entry.key)
    (steps : List ExpiryStep) : ∀ {x : Expirer}, Tracked index coll since doc entry x →
      Unwritten index coll ⟨coll,entry.doc⟩ x steps → (∀ now ∈ startTimes steps, since.toInt ≤ (index.cutoff now).toInt) →
      Tracked index coll since doc entry (x.run index coll steps) := by
  induction steps with
  | nil => exact fun tracked _ _ => tracked
  | cons step rest ih =>
    intro x tracked ⟨unwritten,others⟩ later
    refine ih (tracked.step sought inside unwritten fun now is => ?_) others fun now member => ?_
    · subst is
      exact later now List.mem_cons_self
    · refine later now ?_
      cases step with
      | start first => exact List.mem_cons_of_mem _ member
      | committed op => exact member
      | next => exact member
      | remove => exact member

end
end Expirer

/- Every document a pass deletes is due and selected in the transaction that deletes it; and in a run from a start at the front
until a pass has come to the end, every document that was due, selected and keyed at the start and is not written is deleted. -/
theorem expiresDue (index : TtlIndex) (coll : CollectionId) (x : Expirer) (steps : List ExpiryStep) :
    (∀ before step after, steps = before ++ step :: after → (∀ op, step ≠ .committed op) →
      let y := x.run index coll before
      ∀ a, (y.step index coll step).engine.db.image a ≠ y.engine.db.image a →
        ∃ p image, y.pass = some p ∧ a.collection = coll ∧ y.engine.db.image a = some image ∧
          (y.step index coll step).engine.db.image a = none ∧
          isExpired image index.field.path (index.cutoff p.now) = true ∧ index.selects image = true) ∧
    (x.engine.db.holding.ExactEntries → Standing index coll x.engine.db.holding → x.pass = none → x.cursor = none →
      ∀ now rest, steps = .start now :: rest →
      (Expirer.startTimes steps).Pairwise (fun s t => s.toInt64.toInt ≤ t.toInt64.toInt) →
      (x.run index coll steps).pass = none → (x.run index coll steps).cursor = none →
      ∀ key doc, x.engine.db.image ⟨coll,key⟩ = some doc → Expirer.Sought index (index.cutoff now) key doc →
        Expirer.Unwritten index coll ⟨coll,key⟩ x steps → (x.run index coll steps).engine.db.image ⟨coll,key⟩ = none) := by
  refine ⟨fun before step after _ own a changed => Expirer.stepOnlyDue (x.run index coll before) step own a changed,?_⟩
  intro exact stands idle front now rest rfl times ended through key doc found sought unwritten
  obtain ⟨bytes,inside⟩ := sought.inside
  let entry : ExpiryCursor := ⟨bytes,key⟩
  have engine : (x.step index coll (.start now)).engine = x.engine := Expirer.startEngine x now
  have ahead : Ahead coll index.base.id x.cursor entry := by
    rw [front]
    exact nofun
  have begun : Expirer.Tracked index coll (index.cutoff now) doc entry (x.step index coll (.start now)) := by
    refine ⟨by rw [engine]; exact exact,by rw [engine]; exact stands,Or.inr ⟨by rw [engine]; exact found,?_⟩⟩
    exact Expirer.startWaiting exact stands found inside le_rfl idle ahead
  have all := begun.run sought inside rest unwritten.2 fun later member => cutoffMono index ((List.pairwise_cons.mp times).1 later member)
  rcases all.here with gone | ⟨_,waiting⟩
  · exact gone
  · have final : Expirer.run index coll (x.step index coll (.start now)) rest = x.run index coll (.start now :: rest) := rfl
    rw [final] at waiting
    simp only [Expirer.Waiting, ended, through] at waiting
    cases waiting.1

/- A session whose date is in an array of documents, under a descending index. -/
def sessions : TtlIndex := ⟨⟨3,"at_-1",[⟨"log.at",true⟩],false,false,none⟩,⟨"log.at",true⟩,rfl,60⟩

def session : Document :=
  [("_id",.int32 1),("log",.array [.document [("at",.dateTime 5)],.document [("at",.dateTime 900000)]])]

theorem expiresDueHere :
    let key := (session.docKey).getD []
    let start := (Engine.opened 0 (fun _ => 0) (SortedMap.empty.insert 0 ⟨[sessions.base],List.pairwise_singleton ..⟩)).run
      [.write (.insert 0 ⟨key,session,true⟩)]
    let steps := [.start 60005,.next,.remove,.next]
    let x : Expirer := ⟨start,none,none,none⟩
    start.db.image ⟨0,key⟩ = some session ∧ (x.run sessions 0 steps).engine.db.image ⟨0,key⟩ = none := by
  intro key start steps x
  have exact : start.db.holding.ExactEntries :=
    (soundRun [.write (.insert 0 ⟨key,session,true⟩)] (soundFresh rfl)).exact
  have found : start.db.image ⟨0,key⟩ = some session := by decide +kernel
  refine ⟨found,(expiresDue sessions 0 x steps).2 exact ?_ rfl rfl 60005 _ rfl (by decide) (by decide +kernel) (by decide +kernel)
    key session found ?_ ?_⟩
  · exact ⟨{ sessions.base with multikey := true },by decide +kernel,Or.inr rfl⟩
  · exact ⟨by decide +kernel,rfl,by decide +kernel,by decide +kernel⟩
  · exact ⟨nofun,nofun,nofun,nofun,trivial⟩

end Kimmy.Store
