import Kimmy.Window.Faithful

/-!
The sliders that keep the window's rows in rank order. Rows that rank equal are told apart by the number of their
arrival, and a window slid to has other numbers than one filled afresh; only their order counts.
-/
namespace Kimmy.Window
open CanonicalCmp KeyOrder

/-! The orders. -/

/- The least key, the empty array, and everything else. -/
def keyRank (v : Bson) : Nat := if isMinKey v then 0 else if emptyArray v then 1 else 2

theorem isMinKeyIs {v : Bson} (is : isMinKey v = true) : v = .minKey := by
  unfold isMinKey at is
  split at is
  · rfl
  · cases is

theorem emptyArrayIs {v : Bson} (is : emptyArray v = true) : v = .array [] := by
  unfold emptyArray at is
  split at is
  · rfl
  · cases is

theorem minKeyLeast {v : Bson} (apart : isMinKey v = false) : canonicalCmp .minKey v = .lt := by
  have below : compare (typeRank .minKey) (typeRank v) = .lt := by
    cases v with
    | minKey => cases apart
    | _ => rfl
  have differ : typeRank .minKey ≠ typeRank v := by
    intro same
    rw [← same] at below
    cases below
  rw [cmpRanks differ]
  exact below

theorem keyCmpLex (a b : Bson) : keyCmp a b = compareLex (compareOn keyRank) canonicalCmp a b := by
  unfold keyCmp compareLex compareOn keyRank
  cases ea : emptyArray a with
  | true =>
    have isA := emptyArrayIs ea
    subst isA
    cases eb : emptyArray b with
    | true =>
      have isB := emptyArrayIs eb
      subst isB
      exact (cmpRefl (.array [])).symm
    | false => cases mb : isMinKey b <;> rfl
  | false =>
    cases eb : emptyArray b with
    | true =>
      have isB := emptyArrayIs eb
      subst isB
      cases ma : isMinKey a <;> rfl
    | false =>
      cases ma : isMinKey a with
      | true =>
        have isA := isMinKeyIs ma
        subst isA
        cases mb : isMinKey b with
        | true => rfl
        | false => exact minKeyLeast mb
      | false =>
        cases mb : isMinKey b with
        | true =>
          have isB := isMinKeyIs mb
          subst isB
          rw [cmpSwap, minKeyLeast ma]
          rfl
        | false => rfl

instance keyTrans : Std.TransCmp keyCmp := by
  have same : keyCmp = compareLex (compareOn keyRank) canonicalCmp := funext fun a => funext fun b => keyCmpLex a b
  rw [same]
  infer_instance

theorem keysSwap (flip : Bool) : ∀ (dirs : List Bool) (as bs : List Bson),
    cmpKeys flip dirs as bs = (cmpKeys flip dirs bs as).swap := by
  intro dirs
  induction dirs with
  | nil => intro as bs; rfl
  | cons d dirs ih =>
    intro as bs
    cases as with
    | nil => cases bs <;> rfl
    | cons a as =>
      cases bs with
      | nil => rfl
      | cons b bs =>
        have heads : directed keyCmp (d != flip) a b = (directed keyCmp (d != flip) b a).swap := Std.OrientedCmp.eq_swap
        change (directed keyCmp (d != flip) a b).then (cmpKeys flip dirs as bs) =
          ((directed keyCmp (d != flip) b a).then (cmpKeys flip dirs bs as)).swap
        rw [Ordering.swap_then, ← heads, ← ih]

theorem keysTrans (flip : Bool) : ∀ {dirs : List Bool} {as bs cs : List Bson}, as.length = dirs.length →
    bs.length = dirs.length → cs.length = dirs.length → (cmpKeys flip dirs as bs).isLE = true →
    (cmpKeys flip dirs bs cs).isLE = true → (cmpKeys flip dirs as cs).isLE = true := by
  intro dirs
  induction dirs with
  | nil => exact fun _ _ _ _ _ => rfl
  | cons d dirs ih =>
    intro as bs cs la lb lc first second
    obtain ⟨a,as,rfl⟩ := List.exists_cons_of_length_eq_add_one la
    obtain ⟨b,bs,rfl⟩ := List.exists_cons_of_length_eq_add_one lb
    obtain ⟨c,cs,rfl⟩ := List.exists_cons_of_length_eq_add_one lc
    simp only [List.length_cons, Nat.add_right_cancel_iff] at la lb lc
    change ((directed keyCmp (d != flip) a b).then (cmpKeys flip dirs as bs)).isLE = true at first
    change ((directed keyCmp (d != flip) b c).then (cmpKeys flip dirs bs cs)).isLE = true at second
    change ((directed keyCmp (d != flip) a c).then (cmpKeys flip dirs as cs)).isLE = true
    rw [Ordering.isLE_then_iff_or] at first second ⊢
    rcases first with below | ⟨same,rest⟩
    · rcases second with below' | ⟨same',_⟩
      · exact Or.inl (Std.TransCmp.lt_trans below below')
      · exact Or.inl (Std.TransCmp.lt_of_lt_of_eq below same')
    · rcases second with below' | ⟨same',rest'⟩
      · exact Or.inl (Std.TransCmp.lt_of_eq_of_lt same below')
      · exact Or.inr ⟨Std.TransCmp.eq_trans same same',ih la lb lc rest rest'⟩

instance rowKeysTrans (flip : Bool) (dirs : List Bool) :
    Std.TransCmp fun x y : Row dirs => cmpKeys flip dirs x.keys y.keys where
  eq_swap {x y} := keysSwap flip dirs x.keys y.keys
  isLE_trans {x y z} := keysTrans flip x.sized y.sized z.sized

instance rowTrans (flip : Bool) (dirs : List Bool) : Std.TransCmp (Row.cmpRank flip : Row dirs → Row dirs → Ordering) :=
  inferInstanceAs (Std.TransCmp (compareLex (fun x y : Row dirs => cmpKeys flip dirs x.keys y.keys) (compareOn Row.seq)))

instance bestTrans (max : Bool) : Std.TransCmp (Best.cmp max) := by
  have values : Std.TransCmp fun x y : Best => directed canonicalCmp max x.value y.value :=
    { eq_swap := Std.OrientedCmp.eq_swap, isLE_trans := Std.TransCmp.isLE_trans }
  exact inferInstanceAs
    (Std.TransCmp (compareLex (fun x y : Best => directed canonicalCmp max x.value y.value) (compareOn Best.seq)))

/-! Rows. -/

section
variable {δ β : Type}

/- A numbering from another start. -/
theorem filedShift (read : δ → Option β) (start : Nat) : ∀ (i : Nat) (docs : List δ),
    filed read (start + i) docs = (filed read i docs).map fun x => (start + x.1,x.2) := by
  intro i docs
  induction docs generalizing i with
  | nil => rfl
  | cons doc rest ih =>
    rw [filed, filed, List.map_append, Nat.add_assoc, ih]
    simp

theorem numberedFrom (read : δ → Option β) (start : Nat) (docs : List δ) :
    filed read start docs = (filed read 0 docs).map fun x => (start + x.1,x.2) := filedShift read start 0 docs

variable (e : Operand δ) (sort : List (SortKey δ)) (bottom : Bool)

/- The row of a document with its number. -/
def rowOf (x : Nat × δ × Bson) : Row (dirsOf sort bottom) :=
  ⟨sort.map (·.key x.2.1),by simp [dirsOf],x.2.2,x.1⟩

def rowRead (doc : δ) : Option (δ × Bson) := (e.eval doc).map fun v => (doc,v)

structure RankRun (docs : List δ) (st : RankState (Row (dirsOf sort bottom))) (span : Nat × Nat) : Prop where
  readable : Readable e.eval (slice docs span)
  numbered : ∃ start, st.fifo = (filed (rowRead e) start (slice docs span)).map (rowOf sort bottom) ∧
    st.seq = start + (slice docs span).length
  ranked : Ranking.Ranked (Row.cmpRank false) st.set
  held : st.set.Perm st.fifo

theorem RankRun.empty (docs : List δ) (i seq : Nat) : RankRun e sort bottom docs ⟨[],[],seq⟩ (i,i) := by
  refine ⟨?_,⟨seq,?_,?_⟩,List.Pairwise.nil,List.Perm.refl _⟩
  · rw [sliceEmpty]
    nofun
  · rw [sliceEmpty]
    rfl
  · rw [sliceEmpty]
    rfl

theorem seqApart {dirs : List Bool} {x y : Row dirs} (apart : x.seq ≠ y.seq) : x.cmpRank false y ≠ .eq := by
  intro same
  unfold Row.cmpRank at same
  rw [Ordering.then_eq_eq] at same
  exact apart (Nat.compare_eq_eq.mp same.2)

variable {e sort bottom}

theorem RankRun.add {docs : List δ} {st : RankState (Row (dirsOf sort bottom))} {lo hi : Nat} {doc : δ} {v : Bson}
    (run : RankRun e sort bottom docs st (lo,hi)) (order : lo ≤ hi) (found : docs[hi]? = some doc) (is : e.eval doc = some v) :
    RankRun e sort bottom docs ⟨Ranking.place (Row.cmpRank false) (rowOf sort bottom (st.seq,doc,v)) st.set,
      st.fifo ++ [rowOf sort bottom (st.seq,doc,v)],st.seq + 1⟩ (lo,hi + 1) := by
  obtain ⟨start,fifo,seq⟩ := run.numbered
  have whole := sliceSnoc order found
  have apart : ∀ y ∈ st.set, Row.cmpRank false (rowOf sort bottom (st.seq,doc,v)) y ≠ .eq := by
    intro y member
    have queued := run.held.subset member
    rw [fifo] at queued
    obtain ⟨x,there,rfl⟩ := List.mem_map.mp queued
    have earlier : x.1 < st.seq := filedBefore seq.ge x there
    exact seqApart earlier.ne'
  refine ⟨?_,⟨start,?_,?_⟩,Ranking.placeRanked run.ranked,?_⟩
  · rw [whole]
    exact run.readable.snoc (by rw [is]; rfl)
  · rw [whole, filedSnoc, List.map_append, ← fifo, ← seq, rowRead, is]
    rfl
  · rw [whole, List.length_append, seq]
    rfl
  · have placed := Ranking.placePerm apart
    refine placed.trans ((run.held.cons _).trans ?_)
    exact (List.perm_append_singleton _ _).symm

theorem RankRun.remove {docs : List δ} {st : RankState (Row (dirsOf sort bottom))} {lo hi : Nat}
    (run : RankRun e sort bottom docs st (lo,hi)) (order : lo < hi) (inside : hi ≤ docs.length) :
    ∃ row fifo, st.fifo = row :: fifo ∧
      RankRun e sort bottom docs { st with set := Ranking.takeOut (Row.cmpRank false) row st.set, fifo := fifo } (lo + 1,hi) := by
  obtain ⟨doc,found⟩ : ∃ doc, docs[lo]? = some doc := ⟨_,List.getElem?_eq_getElem (by omega)⟩
  have whole := sliceCons order found
  have readable := run.readable
  rw [whole] at readable
  obtain ⟨v,is⟩ := Option.isSome_iff_exists.mp (readable doc List.mem_cons_self)
  obtain ⟨start,fifo,seq⟩ := run.numbered
  have first : st.fifo = rowOf sort bottom (start,doc,v) ::
      (filed (rowRead e) (start + 1) (slice docs (lo + 1,hi))).map (rowOf sort bottom) := by
    rw [fifo, whole, filed, rowRead, is]
    rfl
  have held := run.held
  rw [first] at held
  have member := held.symm.subset List.mem_cons_self
  refine ⟨_,_,first,?_,⟨start + 1,rfl,?_⟩,Ranking.takeOutRanked run.ranked,?_⟩
  · exact fun other later => readable other (List.mem_cons_of_mem doc later)
  · rw [whole, List.length_cons] at seq
    simp only
    omega
  · exact ((Ranking.takeOutPerm run.ranked member).trans held).cons_inv

theorem RankRun.outputs {docs others : List δ} {st other : RankState (Row (dirsOf sort bottom))} {span place : Nat × Nat}
    (run : RankRun e sort bottom docs st span) (second : RankRun e sort bottom others other place)
    (same : slice docs span = slice others place) (n : Nat) :
    (if bottom then (st.set.take n).mergeSort fun x y => (x.cmpRank true y).isLE else st.set.take n).map Row.output =
      (if bottom then (other.set.take n).mergeSort fun x y => (x.cmpRank true y).isLE else other.set.take n).map Row.output := by
  obtain ⟨start,fifo,_⟩ := run.numbered
  obtain ⟨again,queue,_⟩ := second.numbered
  have held := run.held
  have held' := second.held
  rw [fifo, numberedFrom, List.map_map] at held
  rw [queue, ← same, numberedFrom, List.map_map] at held'
  -- the numbers move together, so the comparisons stay
  have keeps (flip : Bool) (start' : Nat) (x y : Nat × δ × Bson) :
      Row.cmpRank flip (rowOf sort bottom (start' + x.1,x.2)) (rowOf sort bottom (start' + y.1,y.2)) =
        Row.cmpRank flip (rowOf sort bottom x) (rowOf sort bottom y) := by
    unfold Row.cmpRank rowOf
    simp only
    congr 1
    simp only [Nat.compare_eq_ite_lt, Nat.add_lt_add_iff_left]
  obtain ⟨core,one,two⟩ := Ranking.renumbered run.ranked second.ranked held held' fun x y => by
    rw [Function.comp_apply, Function.comp_apply, keeps, Function.comp_apply, Function.comp_apply, keeps]
  rw [one, two]
  have answer (start' : Nat) : (if bottom then ((core.map (rowOf sort bottom ∘ fun x => (start' + x.1,x.2))).take n).mergeSort
      fun x y => (x.cmpRank true y).isLE else (core.map (rowOf sort bottom ∘ fun x => (start' + x.1,x.2))).take n).map Row.output =
      (if bottom then (core.take n).mergeSort fun x y => (Row.cmpRank true (rowOf sort bottom x) (rowOf sort bottom y)).isLE
        else core.take n).map fun x => x.2.2 := by
    rw [← List.map_take]
    split_ifs
    · rw [← List.map_mergeSort (r := fun x y => (Row.cmpRank true (rowOf sort bottom x) (rowOf sort bottom y)).isLE)
        fun x _ y _ => by rw [Function.comp_apply, Function.comp_apply, keeps], List.map_map]
      rfl
    · rw [List.map_map]
      rfl
  rw [answer, answer]

def rankedFaithful (e : Operand δ) (sort : List (SortKey δ)) (bottom : Bool) (size : RankSize) :
    (rankedSlider e sort bottom size).Faithful where
  reads doc := (e.eval doc).isSome
  Holds := RankRun e sort bottom
  start docs := RankRun.empty e sort bottom docs 0 0
  starts := rfl
  reset docs st i := RankRun.empty e sort bottom docs i _
  read run := run.readable
  add {docs st lo hi doc} run order found := by
    cases is : e.eval doc with
    | none => simp [rankedSlider, found, is]
    | some v =>
      refine ⟨_,?_,run.add order found is⟩
      simp only [rankedSlider, found, is, Option.bind_eq_bind, Option.bind_some]
      rfl
  remove {docs st lo hi} run order inside := by
    obtain ⟨row,fifo,first,next⟩ := run.remove order inside
    refine ⟨_,?_,next⟩
    simp only [rankedSlider, first]
  value {docs st span others other place} run second same := by
    have outputs := run.outputs second same size.limit
    simp only [rankedSlider]
    rw [outputs]

/-! Values. -/

/- A value with its number. -/
def bestOf (x : Nat × Bson) : Best := ⟨x.2,x.1⟩

def bestRead (e : Operand δ) (doc : δ) : Option (Option Bson) :=
  (e.eval doc).map fun v => if v = .null ∨ v = .undefined then none else some v

structure BestRun (e : Operand δ) (max : Bool) (docs : List δ) (st : BestState) (span : Nat × Nat) : Prop where
  places : FiledRun (bestRead e) docs (st.fifo.map fun x => (x.1,x.2.value)) span
  numbered : ∃ start, st.fifo.map Prod.snd = (filed some start (st.fifo.map fun x => x.2.value)).map bestOf ∧
    st.seq = start + st.fifo.length
  ranked : Ranking.Ranked (Best.cmp max) st.set
  held : st.set.Perm (st.fifo.map Prod.snd)

theorem BestRun.empty (e : Operand δ) (max : Bool) (docs : List δ) (i seq : Nat) : BestRun e max docs ⟨[],[],seq⟩ (i,i) :=
  ⟨FiledRun.empty _ docs i,⟨seq,rfl,rfl⟩,List.Pairwise.nil,List.Perm.refl _⟩

variable {max : Bool}

theorem bestApart {x y : Best} (apart : x.seq ≠ y.seq) : Best.cmp max x y ≠ .eq := by
  intro same
  unfold Best.cmp at same
  rw [Ordering.then_eq_eq] at same
  exact apart (Nat.compare_eq_eq.mp same.2)

theorem BestRun.add {docs : List δ} {st : BestState} {lo hi : Nat} {doc : δ} {v : Bson} (run : BestRun e max docs st (lo,hi))
    (order : lo ≤ hi) (found : docs[hi]? = some doc) (is : e.eval doc = some v) :
    BestRun e max docs (if v = .null ∨ v = .undefined then st else
      ⟨Ranking.place (Best.cmp max) ⟨v,st.seq⟩ st.set,st.fifo ++ [(hi,⟨v,st.seq⟩)],st.seq + 1⟩) (lo,hi + 1) := by
  have read : bestRead e doc = some (if v = .null ∨ v = .undefined then none else some v) := by
    rw [bestRead, is]
    rfl
  have places := run.places.add order found read
  split_ifs at places ⊢ with absent
  · rw [Option.toList_none, List.map_nil, List.append_nil] at places
    exact ⟨places,run.numbered,run.ranked,run.held⟩
  · obtain ⟨start,fifo,seq⟩ := run.numbered
    have apart : ∀ y ∈ st.set, Best.cmp max ⟨v,st.seq⟩ y ≠ .eq := by
      intro y member
      have queued := run.held.subset member
      rw [fifo] at queued
      obtain ⟨x,there,rfl⟩ := List.mem_map.mp queued
      have earlier : x.1 < st.seq := by
        refine filedBefore ?_ x there
        rw [List.length_map]
        exact seq.ge
      exact bestApart earlier.ne'
    refine ⟨?_,⟨start,?_,?_⟩,Ranking.placeRanked run.ranked,?_⟩
    · rw [List.map_append]
      exact places
    · rw [List.map_append, List.map_append, List.map_singleton, List.map_singleton, filedSnoc, List.map_append, ← fifo,
        List.length_map, ← seq]
      rfl
    · rw [List.length_append, seq]
      rfl
    · rw [List.map_append]
      refine (Ranking.placePerm apart).trans ((run.held.cons _).trans ?_)
      exact (List.perm_append_singleton _ _).symm

/- The queue gives up its head where that is the document that leaves. -/
def BestState.leave (max : Bool) (st : BestState) (i : Nat) : BestState :=
  match st.fifo with
  | (j,best) :: fifo =>
      if j = i then { st with set := Ranking.takeOut (Best.cmp max) best st.set, fifo := fifo } else st
  | [] => st

theorem BestRun.remove {docs : List δ} {st : BestState} {lo hi : Nat} (run : BestRun e max docs st (lo,hi)) (order : lo < hi)
    (inside : hi ≤ docs.length) : BestRun e max docs (st.leave max lo) (lo + 1,hi) := by
  have places := run.places.remove order inside
  unfold BestState.leave
  split
  · rename_i j best fifo queue
    split_ifs with here
    · obtain ⟨start,numbers,seq⟩ := run.numbered
      rw [queue, List.map_cons, popAt, if_pos here] at places
      rw [queue] at seq
      have held := run.held
      rw [queue, List.map_cons, List.map_cons, filed, List.map_append] at numbers
      rw [queue, List.map_cons] at held
      have member := held.symm.subset List.mem_cons_self
      obtain ⟨_,rest⟩ := List.cons.inj numbers
      refine ⟨places,⟨start + 1,rest,?_⟩,Ranking.takeOutRanked run.ranked,?_⟩
      · rw [List.length_cons] at seq
        simp only
        omega
      · exact ((Ranking.takeOutPerm run.ranked member).trans held).cons_inv
    · rw [queue, List.map_cons, popAt, if_neg here, ← List.map_cons (f := fun x : Nat × Best => (x.1,x.2.value)), ← queue]
        at places
      exact ⟨places,run.numbered,run.ranked,run.held⟩
  · rename_i queue
    rw [queue] at places
    refine ⟨?_,run.numbered,run.ranked,run.held⟩
    rw [queue]
    exact places

theorem BestRun.values {docs others : List δ} {st other : BestState} {span place : Nat × Nat}
    (run : BestRun e max docs st span) (second : BestRun e max others other place)
    (same : slice docs span = slice others place) : st.set.map Best.value = other.set.map Best.value := by
  have held : st.fifo.map (fun x => x.2.value) = other.fifo.map fun x => x.2.value := by
    have first := congrArg (List.map Prod.snd) run.places.queue
    have next := congrArg (List.map Prod.snd) second.places.queue
    rw [filedValues, List.map_map] at first next
    rw [same] at first
    exact first.trans next.symm
  obtain ⟨start,fifo,_⟩ := run.numbered
  obtain ⟨again,queue,_⟩ := second.numbered
  have inSet := run.held
  have inOther := second.held
  rw [fifo, numberedFrom, List.map_map] at inSet
  rw [queue, ← held, numberedFrom, List.map_map] at inOther
  have keeps (start' : Nat) (x y : Nat × Bson) : Best.cmp max (bestOf (start' + x.1,x.2)) (bestOf (start' + y.1,y.2)) =
      Best.cmp max (bestOf x) (bestOf y) := by
    unfold Best.cmp bestOf
    simp only
    congr 1
    simp only [Nat.compare_eq_ite_lt, Nat.add_lt_add_iff_left]
  obtain ⟨core,one,two⟩ := Ranking.renumbered run.ranked second.ranked inSet inOther fun x y => by
    rw [Function.comp_apply, Function.comp_apply, keeps, Function.comp_apply, Function.comp_apply, keeps]
  rw [one, two, List.map_map, List.map_map]
  rfl

def bestFaithful (e : Operand δ) (max : Bool) (n : Nat) : (bestSlider e max n).Faithful where
  reads doc := (bestRead e doc).isSome
  Holds := BestRun e max
  start docs := BestRun.empty e max docs 0 0
  starts := rfl
  reset docs st i := BestRun.empty e max docs i _
  read run := run.places.readable
  add {docs st lo hi doc} run order found := by
    have reading := bindFound found e.eval
    cases is : e.eval doc with
    | none =>
      rw [is] at reading
      simp [bestSlider, bestRead, is, reading]
    | some v =>
      have good : (bestRead e doc).isSome = true := by
        rw [bestRead, is]
        rfl
      rw [is] at reading
      rw [if_pos good]
      refine ⟨_,?_,run.add order found is⟩
      simp only [bestSlider, reading, Option.bind_eq_bind, Option.bind_some]
  remove {docs st lo hi} run order inside := by
    exact ⟨_,rfl,run.remove order inside⟩
  value {docs st span others other place} run second same := by
    have values := run.values second same
    simp only [bestSlider, List.map_take, values]

end

end Kimmy.Window
