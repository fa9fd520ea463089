import Kimmy.Window.Sliders

/-!
What a slider answers for each window of a partition. Its state stands for a run of positions, and the loop moves
that run: forward, never back. The answer is the one of the documents in that run, applied afresh, which are the
documents of the window as long as no window steps back.
-/
namespace Kimmy.Window

section
variable {δ : Type}

/- The documents of a run of positions. -/
def slice (docs : List δ) (span : Nat × Nat) : List δ := (docs.drop span.1).take (span.2 - span.1)

theorem sliceLength {docs : List δ} {span : Nat × Nat} (inside : span.2 ≤ docs.length) :
    (slice docs span).length = span.2 - span.1 := by
  rw [slice, List.length_take, List.length_drop]
  omega

theorem sliceAll (docs : List δ) : slice docs (0,docs.length) = docs := by simp [slice]

theorem sliceEmpty (docs : List δ) (i : Nat) : slice docs (i,i) = [] := by simp [slice]

theorem sliceSnoc {docs : List δ} {lo hi : Nat} {doc : δ} (order : lo ≤ hi) (found : docs[hi]? = some doc) :
    slice docs (lo,hi + 1) = slice docs (lo,hi) ++ [doc] := by
  have last : (docs.drop lo)[hi - lo]? = some doc := by
    rw [List.getElem?_drop, Nat.add_sub_cancel' order, found]
  have step : hi + 1 - lo = hi - lo + 1 := by omega
  rw [slice, slice, step, List.take_add_one, last]
  rfl

theorem sliceCons {docs : List δ} {lo hi : Nat} {doc : δ} (order : lo < hi) (found : docs[lo]? = some doc) :
    slice docs (lo,hi) = doc :: slice docs (lo + 1,hi) := by
  obtain ⟨short,is⟩ := List.getElem?_eq_some_iff.mp found
  have step : hi - lo = (hi - (lo + 1)) + 1 := by omega
  rw [slice, List.drop_eq_getElem_cons short, step, List.take_succ_cons, is]
  rfl

theorem sliceAppend {docs : List δ} {lo mid hi : Nat} (first : lo ≤ mid) (second : mid ≤ hi) :
    slice docs (lo,hi) = slice docs (lo,mid) ++ slice docs (mid,hi) := by
  have step : hi - lo = (mid - lo) + (hi - mid) := by omega
  have start : lo + (mid - lo) = mid := by omega
  rw [slice, slice, slice, step, List.take_add, List.drop_drop, start]

/-! What the loop needs of a slider. -/

/- A state stands for a run of the documents, and the answer depends on these documents alone. -/
structure Slider.Faithful (S : Slider δ) where
  reads : δ → Bool
  Holds : List δ → S.State → Nat × Nat → Prop
  start : ∀ docs, Holds docs S.new (0,0)
  starts : (S.value S.new).isSome
  reset : ∀ docs st i, Holds docs (S.reset st i) (i,i)
  read : ∀ {docs st span}, Holds docs st span → ∀ doc ∈ slice docs span, reads doc = true
  add : ∀ {docs st lo hi doc}, Holds docs st (lo,hi) → lo ≤ hi → docs[hi]? = some doc →
    if reads doc then ∃ next, S.add docs st hi = some next ∧ Holds docs next (lo,hi + 1) else S.add docs st hi = none
  remove : ∀ {docs st lo hi}, Holds docs st (lo,hi) → lo < hi → hi ≤ docs.length →
    ∃ next, S.remove docs st lo = some next ∧ Holds docs next (lo + 1,hi)
  value : ∀ {docs st span others other run}, Holds docs st span → Holds others other run →
    slice docs span = slice others run → S.value st = S.value other

namespace Slider
variable {S : Slider δ}

/- The answer over some documents, from a new slider. -/
def answer (S : Slider δ) (docs : List δ) : Option Bson := do
  let st ← S.addUpTo docs S.new 0 docs.length
  S.value st

theorem addUpToSucc (docs : List δ) (st : S.State) {start stop : Nat} (order : start < stop) :
    S.addUpTo docs st start stop = (S.add docs st start).bind fun st => S.addUpTo docs st (start + 1) stop := by
  have step : stop - start = (stop - (start + 1)) + 1 := by omega
  rw [addUpTo, step, List.range'_succ]
  rfl

theorem addUpToNone (docs : List δ) (st : S.State) {start stop : Nat} (order : stop ≤ start) :
    S.addUpTo docs st start stop = some st := by
  rw [addUpTo, Nat.sub_eq_zero_of_le order]
  rfl

theorem removeUpToNone (docs : List δ) (st : S.State) {start stop : Nat} (order : stop ≤ start) :
    S.removeUpTo docs st start stop = some st := by
  rw [removeUpTo, Nat.sub_eq_zero_of_le order]
  rfl

namespace Faithful
variable (F : S.Faithful)

/- Documents that can all be read enter; one that cannot fails the stage. -/
theorem addAll {docs : List δ} {lo stop : Nat} (inside : stop ≤ docs.length) : ∀ {hi : Nat} {st : S.State},
    F.Holds docs st (lo,hi) → lo ≤ hi → hi ≤ stop →
    if (slice docs (hi,stop)).all F.reads then ∃ next, S.addUpTo docs st hi stop = some next ∧ F.Holds docs next (lo,stop)
    else S.addUpTo docs st hi stop = none := by
  intro hi
  -- on how many are still to enter
  induction left : stop - hi generalizing hi with
  | zero =>
    intro st holds order before
    obtain rfl : hi = stop := by omega
    rw [sliceEmpty, addUpToNone docs st le_rfl]
    exact ⟨st,rfl,holds⟩
  | succ n ih =>
    intro st holds order before
    have room : hi < stop := by omega
    obtain ⟨doc,found⟩ : ∃ doc, docs[hi]? = some doc := ⟨_,List.getElem?_eq_getElem (by omega)⟩
    have one := F.add holds order found
    rw [sliceCons room found, addUpToSucc docs st room, List.all_cons]
    cases good : F.reads doc with
    | false =>
      rw [good] at one
      have failed : S.add docs st hi = none := one
      rw [failed]
      rfl
    | true =>
      rw [good] at one
      obtain ⟨next,is,holdsNext⟩ := one
      rw [is]
      exact ih (by omega) holdsNext (by omega) (by omega)

theorem removeAll {docs : List δ} {hi stop : Nat} (inside : hi ≤ docs.length) (short : stop ≤ hi) :
    ∀ {lo : Nat} {st : S.State}, F.Holds docs st (lo,hi) → lo ≤ stop →
    ∃ next, S.removeUpTo docs st lo stop = some next ∧ F.Holds docs next (stop,hi) := by
  intro lo
  induction left : stop - lo generalizing lo with
  | zero =>
    intro st holds order
    obtain rfl : lo = stop := by omega
    exact ⟨st,removeUpToNone docs st le_rfl,holds⟩
  | succ n ih =>
    intro st holds order
    obtain ⟨next,is,holdsNext⟩ := F.remove holds (by omega) inside
    obtain ⟨last,rest,holdsLast⟩ := ih (by omega) holdsNext (by omega)
    refine ⟨last,?_,holdsLast⟩
    have step : stop - lo = (stop - (lo + 1)) + 1 := by omega
    rw [removeUpTo, step, List.range'_succ, List.foldlM_cons, is]
    exact rest

/- The documents of any state, applied afresh. -/
theorem answerOf {docs : List δ} {st : S.State} {span : Nat × Nat} (holds : F.Holds docs st span) :
    S.answer (slice docs span) = S.value st := by
  have all := F.addAll (le_refl (slice docs span).length) (F.start (slice docs span)) le_rfl (Nat.zero_le _)
  have readable : (slice (slice docs span) (0,(slice docs span).length)).all F.reads = true := by
    rw [sliceAll, List.all_eq_true]
    exact F.read holds
  rw [if_pos readable] at all
  obtain ⟨fresh,is,holdsFresh⟩ := all
  unfold answer
  rw [is]
  exact F.value holdsFresh holds (sliceAll _)

theorem answerFails {docs : List δ} (unreadable : docs.all F.reads = false) : S.answer docs = none := by
  have all := F.addAll (le_refl docs.length) (F.start docs) le_rfl (Nat.zero_le _)
  rw [sliceAll, if_neg (by simp [unreadable])] at all
  unfold answer
  rw [all]
  rfl

end Faithful

/-! The loop. -/

/- The run of positions the loop holds after a window. -/
def moved (span window : Nat × Nat) : Nat × Nat :=
  if span.2 ≤ window.1 then window else (max span.1 window.1,max span.2 window.2)

/- A run inside the partition. -/
structure Fits (n : Nat) (span : Nat × Nat) : Prop where
  order : span.1 ≤ span.2
  inside : span.2 ≤ n

theorem movedFits {n : Nat} {span window : Nat × Nat} (held : Fits n span) (next : Fits n window) :
    Fits n (moved span window) := by
  obtain ⟨order,inside⟩ := held
  obtain ⟨forward,within⟩ := next
  unfold moved
  split_ifs with past
  · exact ⟨forward,within⟩
  · refine ⟨?_,?_⟩
    · simp only
      omega
    · simp only
      omega

theorem movedAgain {n : Nat} {span window : Nat × Nat} (next : Fits n window) :
    moved (moved span window) window = moved span window := by
  obtain ⟨s,e⟩ := window
  obtain ⟨a,b⟩ := span
  obtain ⟨forward,_⟩ := next
  simp only at forward
  unfold moved
  simp only
  split_ifs with past again beyond
  · rfl
  · exact Prod.ext (max_self s) (max_self e)
  · exact absurd ((le_max_left b e).trans beyond) past
  · exact Prod.ext (by simp only; omega) (by simp only; omega)

structure Sliding.Holds (F : S.Faithful) (docs : List δ) (x : S.Sliding) : Prop where
  state : F.Holds docs x.state x.span
  fits : Fits docs.length x.span
  previous : ∀ window v, x.previous = some (window,v) → moved x.span window = x.span ∧ S.answer (slice docs x.span) = some v

/- Documents enter up to the end of the window and leave up to its start. -/
def advance (S : Slider δ) (docs : List δ) (st : S.State) (span window : Nat × Nat) : Option S.State := do
  let st ← S.addUpTo docs st span.2 window.2
  S.removeUpTo docs st span.1 window.1

theorem removedTo (F : S.Faithful) {docs : List δ} {st : S.State} {lo hi start : Nat} (holds : F.Holds docs st (lo,hi))
    (inside : hi ≤ docs.length) (short : start ≤ hi) :
    ∃ next, S.removeUpTo docs st lo start = some next ∧ F.Holds docs next (max lo start,hi) := by
  rcases le_total start lo with behind | ahead
  · rw [max_eq_left behind]
    exact ⟨st,removeUpToNone docs st behind,holds⟩
  · rw [max_eq_right ahead]
    exact F.removeAll inside short holds ahead

theorem advanceHolds (F : S.Faithful) {docs : List δ} {st : S.State} {span window : Nat × Nat}
    (holds : F.Holds docs st span) (held : Fits docs.length span) (fits : Fits docs.length window)
    (meets : window.1 ≤ span.2) :
    (∃ next, S.advance docs st span window = some next ∧
      F.Holds docs next (max span.1 window.1,max span.2 window.2)) ∨
    (S.advance docs st span window = none ∧ S.answer (slice docs (max span.1 window.1,max span.2 window.2)) = none) := by
  obtain ⟨a,b⟩ := span
  obtain ⟨s,e⟩ := window
  obtain ⟨order,inside⟩ := held
  obtain ⟨forward,within⟩ := fits
  simp only at order inside forward within meets ⊢
  unfold advance
  rcases le_total e b with shorter | longer
  · obtain ⟨next,is,holdsNext⟩ := removedTo F holds inside meets
    refine Or.inl ⟨next,?_,?_⟩
    · rw [addUpToNone docs st shorter]
      exact is
    · rw [max_eq_left shorter]
      exact holdsNext
  · rw [max_eq_right longer]
    have all := F.addAll within holds order longer
    split_ifs at all with readable
    · obtain ⟨more,entered,holdsMore⟩ := all
      obtain ⟨next,is,holdsNext⟩ := removedTo F holdsMore within forward
      refine Or.inl ⟨next,?_,holdsNext⟩
      simp only at entered ⊢
      rw [entered]
      exact is
    · refine Or.inr ⟨?_,F.answerFails ?_⟩
      · simp only at all ⊢
        rw [all]
        rfl
      · have split : slice docs (max a s,e) = slice docs (max a s,b) ++ slice docs (b,e) :=
          sliceAppend (max_le order meets) longer
        rw [split, List.all_append, Bool.eq_false_iff.mpr readable, Bool.and_false]

/- One window: whatever it is, the answer is the one of the run that is now held. -/
theorem slideStepAnswer (F : S.Faithful) {docs : List δ} {x : S.Sliding} (holds : x.Holds F docs) {window : Nat × Nat}
    (fits : Fits docs.length window) :
    match S.answer (slice docs (moved x.span window)) with
    | some v => ∃ y, S.slideStep docs x window = some (y,v) ∧ y.Holds F docs ∧ y.span = moved x.span window
    | none => S.slideStep docs x window = none := by
  cases again : x.previous.filter (·.1 = window) with
  | some found =>
    obtain ⟨same,v⟩ := found
    obtain ⟨is,here⟩ := Option.filter_eq_some_iff.mp again
    obtain rfl : same = window := by simpa using here
    obtain ⟨stays,answered⟩ := holds.previous same v is
    have step : S.slideStep docs x same = some (x,v) := by
      unfold slideStep
      rw [again]
    rw [stays, answered]
    exact ⟨x,step,holds,rfl⟩
  | none =>
    -- the state the documents enter: as it is, or held from the start of the window
    obtain ⟨st,span,started,holdsStart,fitsStart,meets,same⟩ : ∃ (st : S.State) (span : Nat × Nat),
        (if x.span.2 ≤ window.1 then (S.reset x.state window.1,(window.1,window.1)) else (x.state,x.span)) = (st,span) ∧
        F.Holds docs st span ∧ Fits docs.length span ∧ window.1 ≤ span.2 ∧
        (max span.1 window.1,max span.2 window.2) = moved x.span window := by
      by_cases past : x.span.2 ≤ window.1
      · refine ⟨_,_,if_pos past,F.reset docs x.state window.1,⟨le_rfl,fits.order.trans fits.inside⟩,le_rfl,?_⟩
        rw [moved, if_pos past]
        exact Prod.ext (max_self _) (max_eq_right fits.order)
      · refine ⟨_,_,if_neg past,holds.state,holds.fits,by omega,?_⟩
        rw [moved, if_neg past]
    have step : S.slideStep docs x window = (S.advance docs st span window).bind fun st => (S.value st).map fun v =>
        (⟨st,moved x.span window,some (window,v)⟩,v) := by
      unfold slideStep
      rw [again]
      simp only [started, ← same, advance, Option.bind_eq_bind, Option.bind_assoc, Option.map_eq_bind]
      rfl
    rw [step]
    rcases advanceHolds F holdsStart fitsStart fits meets with ⟨next,is,holdsNext⟩ | ⟨failed,answered⟩
    · rw [same] at holdsNext
      rw [is, F.answerOf holdsNext]
      cases answered : S.value next with
      | none =>
        rw [Option.bind_some, answered]
        rfl
      | some v =>
        refine ⟨⟨next,moved x.span window,some (window,v)⟩,?_,⟨holdsNext,movedFits holds.fits fits,?_⟩,rfl⟩
        · rw [Option.bind_some, answered]
          rfl
        · intro other w is
          cases is
          exact ⟨movedAgain fits,(F.answerOf holdsNext).trans answered⟩
    · rw [← same, answered, failed]
      rfl

/- The runs held along some windows. -/
def spans (span : Nat × Nat) : List (Nat × Nat) → List (Nat × Nat)
  | [] => []
  | window :: rest => moved span window :: spans (moved span window) rest

theorem slideFromAnswers (F : S.Faithful) {docs : List δ} : ∀ {ends : List (Nat × Nat)} {x : S.Sliding}, x.Holds F docs →
    (∀ window ∈ ends, Fits docs.length window) →
    S.slideFrom docs x ends = (spans x.span ends).mapM fun span => (S.answer (slice docs span)).map some := by
  intro ends
  induction ends with
  | nil => intro x _ _; rfl
  | cons window rest ih =>
    intro x holds fits
    have one := slideStepAnswer F holds (fits window List.mem_cons_self)
    unfold slideFrom spans
    rw [List.mapM_cons]
    cases answered : S.answer (slice docs (moved x.span window)) with
    | none =>
      rw [answered] at one
      rw [show S.slideStep docs x window = none from one]
      rfl
    | some v =>
      rw [answered] at one
      obtain ⟨y,is,holdsNext,span⟩ := one
      rw [is, ← span]
      have more := ih holdsNext fun window member => fits window (List.mem_cons_of_mem _ member)
      simp only [Option.bind_eq_bind, Option.bind_some, Option.map_some, more]
      rfl

theorem newHolds (F : S.Faithful) (docs : List δ) : Sliding.Holds F docs ⟨S.new,(0,0),none⟩ :=
  ⟨F.start docs,⟨le_rfl,Nat.zero_le _⟩,nofun⟩

end Slider

end

end Kimmy.Window
