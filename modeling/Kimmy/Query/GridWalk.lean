import Kimmy.Query.GridLife

/-!
The walk over all partitions. Each partition keeps its own cursor, so what the walk puts out for one of them is that
partition's life whatever stands between.
-/
namespace Kimmy.Query.Densify
open CanonicalCmp StableSort

def ofPart (p : Nat) (plan : List Emit) : List Emit := plan.filter fun e => e.part = p

theorem ofPartAppend (p : Nat) (a b : List Emit) : ofPart p (a ++ b) = ofPart p a ++ ofPart p b := List.filter_append ..

theorem rowsOfAppend (p : Nat) (a b : List Row) : rowsOf p (a ++ b) = rowsOf p a ++ rowsOf p b := List.filter_append ..

theorem ofPartMine {p : Nat} {plan : List Emit} (mine : ∀ e ∈ plan, e.part = p) : ofPart p plan = plan :=
  List.filter_eq_self.mpr fun e member => decide_eq_true (mine e member)

theorem ofPartOther {p q : Nat} {plan : List Emit} (mine : ∀ e ∈ plan, e.part = q) (other : p ≠ q) : ofPart p plan = [] :=
  List.filter_eq_nil_iff.mpr fun e member is => other ((of_decide_eq_true is).symm.trans (mine e member))

theorem getSet {cursors : Cursors} {p q : Nat} {cursor : Cursor} (inside : q < cursors.length) :
    (cursors.set q (some cursor)).getD p none = if p = q then some cursor else cursors.getD p none := by
  rw [List.getD_eq_getElem?_getD, List.getElem?_set, List.getD_eq_getElem?_getD]
  split_ifs with same same'
  · rfl
  · exact absurd same.symm same'
  · rename_i same'
    exact absurd same'.symm same
  · rfl

theorem setHeld {cursors : Cursors} {p : Nat} {cursor : Cursor} (held : cursors.getD p none = some cursor) :
    cursors.set p (some cursor) = cursors := by
  refine List.ext_getElem? fun q => ?_
  rw [List.getElem?_set]
  split_ifs with same inside
  · subst same
    rw [List.getD_eq_getElem?_getD, List.getElem?_eq_getElem inside, Option.getD_some] at held
    rw [List.getElem?_eq_getElem inside, held]
  · subst same
    exact (List.getElem?_eq_none (not_lt.mp inside)).symm
  · rfl

theorem takeEq {σ : Type} {grid : Grid} {sink : Sink σ} {spans : List (Option Span)} {cursors : Cursors} {row : Row} {span : Span}
    {cursor : Cursor} (held : spans.getD row.part none = some span) (stands : cursors.getD row.part none = some cursor) (s : σ) :
    take grid sink spans (cursors,s) row =
      takeOne grid sink span cursor row s >>= fun x => .ok (cursors.set row.part (some x.1),x.2) := by
  unfold take takeOne
  simp only [held, stands]
  by_cases above : (canonicalCmp row.value span.lo).isGE = true
  · rw [if_pos above, if_pos above]
    simp only [bind_assoc]
    rfl
  · rw [if_neg above, if_neg above]
    simp only [bind_assoc]
    refine congrArg _ (funext fun s => ?_)
    show _ = Except.ok _
    rw [setHeld stands]

/- The spans hold integers. -/
structure Spanned (grid : Grid) (n : Nat) (spans : List (Option Span)) (ranges : Nat → Range) : Prop where
  each : ∀ p < n, ∃ span, spans.getD p none = some span ∧ Reads grid span (ranges p)

/- Each partition by itself. -/
structure Inv (n : Nat) (ranges : Nat → Range) (done : List Row) (plan : List Emit) (cursors : Cursors) : Prop where
  length : cursors.length = n
  docs : rowsIn plan = done
  each : ∀ p < n, ∃ cursor c, cursors.getD p none = some cursor ∧ intOf cursor.next = some c ∧
    Kept (ranges p) c cursor.done (rowsOf p done) (ofPart p plan)

/- The rows to come are not below what their partitions have had. -/
def Ready (plan : List Emit) (batch : List Row) : Prop :=
  ∀ row ∈ batch, (∀ e ∈ ofPart row.part plan, e.at' ≤ at' row.value) ∧
    ∀ g ∈ pointsIn (ofPart row.part plan), g < at' row.value

section
variable {grid : Grid} {n : Nat} {spans : List (Option Span)} {ranges : Nat → Range} {done : List Row} {plan : List Emit}
  {cursors : Cursors}

theorem takeStep (spanned : Spanned grid n spans ranges) (inv : Inv n ranges done plan cursors) {row : Row} (inside : row.part < n)
    (integer : (intOf row.value).isSome) (ready : Ready plan [row]) : ∃ emits cursors',
      Emits (fun _ sink s => take grid sink spans (cursors,s) row) emits cursors' ∧
      Inv n ranges (done ++ [row]) (plan ++ emits) cursors' ∧ (∀ e ∈ emits, e.part = row.part) ∧
      (∀ e ∈ emits, e.at' ≤ at' row.value) ∧ ∀ g ∈ pointsIn emits, g < at' row.value := by
  obtain ⟨span,held,reads⟩ := spanned.each row.part inside
  obtain ⟨cursor,c,stands,is,kept⟩ := inv.each row.part inside
  obtain ⟨v,isV⟩ := Option.isSome_iff_exists.mp integer
  have here : at' row.value = v := by rw [at', isV]; rfl
  obtain ⟨above,off⟩ := ready row List.mem_cons_self
  rw [here] at above off
  obtain ⟨emits,cursor',c',taken,run⟩ := takeKept reads is isV kept above off
  have long : row.part < cursors.length := inv.length ▸ inside
  refine ⟨emits,cursors.set row.part (some cursor'),fun σ sink s => ?_,⟨?_,?_,fun p small => ?_⟩,taken.mine,taken.most,taken.below⟩
  · have one : takeOne grid sink span cursor row s = _ := run σ sink s
    show take grid sink spans (cursors,s) row = _
    rw [takeEq held stands, one, bind_assoc]
    rfl
  · rw [List.length_set, inv.length]
  · rw [rowsAppend, inv.docs, taken.docs]
  · rw [getSet long, rowsOfAppend, ofPartAppend]
    split_ifs with same
    · subst same
      rw [ofPartMine taken.mine]
      refine ⟨cursor',c',rfl,taken.reads,?_⟩
      have one : rowsOf row.part [row] = [row] := by simp [rowsOf]
      rw [one]
      exact taken.kept
    · rw [ofPartOther taken.mine same]
      have none : rowsOf p [row] = [] := by simp [rowsOf, Ne.symm same]
      rw [none, List.append_nil, List.append_nil]
      exact inv.each p small

theorem takeAll (spanned : Spanned grid n spans ranges) : ∀ {batch done : List Row} {plan : List Emit} {cursors : Cursors},
    Inv n ranges done plan cursors → (∀ row ∈ batch, row.part < n ∧ (intOf row.value).isSome) → Ready plan batch →
    batch.Pairwise (fun x y => at' x.value ≤ at' y.value) → ∃ emits cursors',
      Emits (fun _ sink s => batch.foldlM (take grid sink spans) (cursors,s)) emits cursors' ∧
      Inv n ranges (done ++ batch) (plan ++ emits) cursors' ∧ ∀ e ∈ emits, ∃ row ∈ batch, e.part = row.part := by
  intro batch
  induction batch with
  | nil =>
    intro done plan cursors inv _ _ _
    refine ⟨[],cursors,fun _ _ _ => rfl,?_,nofun⟩
    rw [List.append_nil, List.append_nil]
    exact inv
  | cons row batch ih =>
    intro done plan cursors inv rows ready order
    obtain ⟨least,tail⟩ := List.pairwise_cons.mp order
    obtain ⟨inside,integer⟩ := rows row List.mem_cons_self
    have now : Ready plan [row] := fun other member => by
      rw [List.mem_singleton.mp member]
      exact ready row List.mem_cons_self
    obtain ⟨first,cursors',run,inv',mine,most,below⟩ := takeStep spanned inv inside integer now
    have next : Ready (plan ++ first) batch := by
      intro later member
      obtain ⟨above,off⟩ := ready later (List.mem_cons_of_mem _ member)
      have after := least later member
      rw [ofPartAppend, pointsAppend]
      refine ⟨fun e held => ?_,fun g held => ?_⟩
      · rcases List.mem_append.mp held with old | new
        · exact above e old
        · exact (most e (List.mem_of_mem_filter new)).trans after
      · rcases List.mem_append.mp held with old | new
        · exact off g old
        · obtain ⟨v,there,rfl⟩ := List.mem_map.mp new
          obtain ⟨e,inside,is⟩ := List.mem_filterMap.mp there
          have point : at' v ∈ pointsIn first :=
            List.mem_map.mpr ⟨v,List.mem_filterMap.mpr ⟨e,List.mem_of_mem_filter inside,is⟩,rfl⟩
          exact (below _ point).trans_le after
    obtain ⟨rest,last,run',inv'',from'⟩ := ih inv' (fun row member => rows row (List.mem_cons_of_mem _ member)) next tail
    refine ⟨first ++ rest,last,fun σ sink s => ?_,?_,fun e member => ?_⟩
    · have one : take grid sink spans (cursors,s) row = _ := run σ sink s
      show (row :: batch).foldlM (take grid sink spans) (cursors,s) = _
      rw [List.foldlM_cons, one, List.foldlM_append, bind_assoc, bind_assoc]
      exact congrArg _ (funext fun s => run' σ sink s)
    · rw [List.append_cons done, ← List.append_assoc]
      exact inv''
    · rcases List.mem_append.mp member with here | there
      · exact ⟨row,List.mem_cons_self,mine e here⟩
      · obtain ⟨other,held,is⟩ := from' e there
        exact ⟨other,List.mem_cons_of_mem _ held,is⟩

/- The partition has its points. -/
def Filled (ranges : Nat → Range) (done : List Row) (plan : List Emit) (p : Nat) : Prop :=
  ∀ g, g ∈ pointsIn (ofPart p plan) ↔ (ranges p).OnGrid g ∧ (ranges p).Within g ∧ g ∉ valuesOf (rowsOf p done)

theorem Filled.stays {p : Nat} (filled : Filled ranges done plan p) {more : List Row} {emits : List Emit}
    (others : ∀ e ∈ emits, e.part ≠ p) (elsewhere : ∀ row ∈ more, row.part ≠ p) : Filled ranges (done ++ more) (plan ++ emits) p := by
  have none : ofPart p emits = [] := List.filter_eq_nil_iff.mpr fun e member is => others e member (of_decide_eq_true is)
  have absent : rowsOf p more = [] := List.filter_eq_nil_iff.mpr fun row member is => elsewhere row member (of_decide_eq_true is)
  unfold Filled
  rw [ofPartAppend, rowsOfAppend, none, absent, List.append_nil, List.append_nil]
  exact filled

theorem finishStep (spanned : Spanned grid n spans ranges) (inv : Inv n ranges done plan cursors) {p : Nat} (inside : p < n) :
    ∃ emits cursors', Emits (fun _ sink s => finish grid sink spans (cursors,s) p) emits cursors' ∧
      Inv n ranges done (plan ++ emits) cursors' ∧ (∀ e ∈ emits, e.part = p) ∧ Filled ranges done (plan ++ emits) p := by
  obtain ⟨span,held,reads⟩ := spanned.each p inside
  obtain ⟨cursor,c,stands,is,kept⟩ := inv.each p inside
  obtain ⟨gens,cursor',c',caught,run⟩ := finishKept reads is kept p
  have long : p < cursors.length := inv.length ▸ inside
  refine ⟨gens,cursors.set p (some cursor'),fun σ sink s => ?_,⟨?_,?_,fun q small => ?_⟩,caught.mine,fun g => ?_⟩
  · have one : catchUp grid sink span none p cursor s = _ := run σ sink s
    show finish grid sink spans (cursors,s) p = _
    unfold finish
    simp only [held, stands, one, bind_assoc]
    rfl
  · rw [List.length_set, inv.length]
  · rw [rowsAppend, inv.docs, caught.docless, List.append_nil]
  · rw [getSet long, ofPartAppend]
    split_ifs with same
    · subst same
      rw [ofPartMine caught.mine]
      exact ⟨cursor',c',rfl,caught.reads,caught.kept⟩
    · rw [ofPartOther caught.mine same, List.append_nil]
      exact inv.each q small
  · rw [ofPartAppend, ofPartMine caught.mine]
    exact caught.filled g

theorem finishAll (spanned : Spanned grid n spans ranges) : ∀ {order : List Nat} {plan : List Emit} {cursors : Cursors},
    Inv n ranges done plan cursors → (∀ p ∈ order, p < n) → order.Nodup → ∃ emits cursors',
      Emits (fun _ sink s => order.foldlM (finish grid sink spans) (cursors,s)) emits cursors' ∧
      Inv n ranges done (plan ++ emits) cursors' ∧ (∀ e ∈ emits, e.part ∈ order) ∧
      ∀ p ∈ order, Filled ranges done (plan ++ emits) p := by
  intro order
  induction order with
  | nil =>
    intro plan cursors inv _ _
    refine ⟨[],cursors,fun _ _ _ => rfl,?_,nofun,nofun⟩
    rw [List.append_nil]
    exact inv
  | cons p order ih =>
    intro plan cursors inv small nodup
    obtain ⟨fresh,nodup⟩ := List.nodup_cons.mp nodup
    obtain ⟨first,cursors',run,inv',mine,filled⟩ := finishStep spanned inv (small p List.mem_cons_self)
    obtain ⟨rest,last,run',inv'',from',others⟩ := ih inv' (fun q member => small q (List.mem_cons_of_mem _ member)) nodup
    refine ⟨first ++ rest,last,fun σ sink s => ?_,?_,fun e member => ?_,fun q member => ?_⟩
    · have one : finish grid sink spans (cursors,s) p = _ := run σ sink s
      show (p :: order).foldlM (finish grid sink spans) (cursors,s) = _
      rw [List.foldlM_cons, one, List.foldlM_append, bind_assoc, bind_assoc]
      exact congrArg _ (funext fun s => run' σ sink s)
    · rw [← List.append_assoc]
      exact inv''
    · rcases List.mem_append.mp member with here | there
      · rw [mine e here]
        exact List.mem_cons_self
      · exact List.mem_cons_of_mem _ (from' e there)
    · rw [← List.append_assoc]
      rcases List.mem_cons.mp member with rfl | later
      · have stays := @Filled.stays ranges done (plan ++ first) q filled [] rest (fun e held same => fresh (same ▸ from' e held)) nofun
        rwa [List.append_nil] at stays
      · exact others q later

/- One partition after another. -/
theorem groupedAll (spanned : Spanned grid n spans ranges) {rows : List Row} (fits : ∀ row ∈ rows, row.part < n ∧ (intOf row.value).isSome)
    (ascends : rows.Pairwise fun x y => at' x.value ≤ at' y.value) :
    ∀ {order : List Nat} {done : List Row} {plan : List Emit} {cursors : Cursors},
      Inv n ranges done plan cursors → (∀ p ∈ order, p < n) → order.Nodup → (∀ e ∈ plan, e.part ∉ order) → ∃ emits cursors',
        Emits (fun _ sink s => order.foldlM (fun acc p => do
          let acc ← (rowsOf p rows).foldlM (take grid sink spans) acc
          finish grid sink spans acc p) (cursors,s)) emits cursors' ∧
        Inv n ranges (done ++ order.flatMap (rowsOf · rows)) (plan ++ emits) cursors' ∧ (∀ e ∈ emits, e.part ∈ order) ∧
        ∀ p ∈ order, Filled ranges (done ++ order.flatMap (rowsOf · rows)) (plan ++ emits) p := by
  have partIs {p : Nat} {row : Row} (member : row ∈ rowsOf p rows) : row.part = p := of_decide_eq_true (List.mem_filter.mp member).2
  intro order
  induction order with
  | nil =>
    intro done plan cursors inv _ _ _
    refine ⟨[],cursors,fun _ _ _ => rfl,?_,nofun,nofun⟩
    rw [List.flatMap_nil, List.append_nil, List.append_nil]
    exact inv
  | cons p order ih =>
    intro done plan cursors inv small nodup apart
    obtain ⟨fresh,nodup⟩ := List.nodup_cons.mp nodup
    -- the partition has had nothing yet
    have none : ofPart p plan = [] :=
      List.filter_eq_nil_iff.mpr fun e member is => apart e member (of_decide_eq_true is ▸ List.mem_cons_self)
    have ready : Ready plan (rowsOf p rows) := by
      intro row member
      rw [partIs member, none]
      exact ⟨nofun,nofun⟩
    obtain ⟨docs,middle,run,inv',mine⟩ := takeAll spanned inv (fun row member => fits row (List.mem_of_mem_filter member)) ready
      (ascends.sublist List.filter_sublist)
    have mine : ∀ e ∈ docs, e.part = p := fun e member => by
      obtain ⟨row,held,is⟩ := mine e member
      exact is.trans (partIs held)
    obtain ⟨tail,cursors',run',inv'',mine',filled⟩ := finishStep spanned inv' (small p List.mem_cons_self)
    have apart' : ∀ e ∈ plan ++ docs ++ tail, e.part ∉ order := by
      intro e member
      rcases List.mem_append.mp member with before | after
      · rcases List.mem_append.mp before with old | doc
        · exact fun later => apart e old (List.mem_cons_of_mem _ later)
        · rw [mine e doc]
          exact fresh
      · rw [mine' e after]
        exact fresh
    obtain ⟨rest,last,run'',onward,from',others⟩ :=
      ih inv'' (fun q member => small q (List.mem_cons_of_mem _ member)) nodup apart'
    have whole : plan ++ (docs ++ tail ++ rest) = plan ++ docs ++ tail ++ rest := by simp only [List.append_assoc]
    rw [List.flatMap_cons, ← List.append_assoc]
    refine ⟨docs ++ tail ++ rest,last,fun σ sink s => ?_,?_,fun e member => ?_,fun q member => ?_⟩
    · have one : (rowsOf p rows).foldlM (take grid sink spans) (cursors,s) = _ := run σ sink s
      have two (s : σ) : finish grid sink spans (middle,s) p = _ := run' σ sink s
      show (p :: order).foldlM _ (cursors,s) = _
      rw [List.foldlM_cons, one, List.foldlM_append, List.foldlM_append]
      simp only [bind_assoc]
      refine congrArg _ (funext fun s => ?_)
      show (finish grid sink spans (middle,s) p >>= _) = _
      rw [two, bind_assoc]
      exact congrArg _ (funext fun s => run'' σ sink s)
    · rw [whole]
      exact onward
    · rcases List.mem_append.mp member with here | there
      · rcases List.mem_append.mp here with doc | gen
        · exact mine e doc ▸ List.mem_cons_self
        · exact mine' e gen ▸ List.mem_cons_self
      · exact List.mem_cons_of_mem _ (from' e there)
    · rw [whole]
      rcases List.mem_cons.mp member with rfl | later
      · refine filled.stays (fun e held same => fresh (same ▸ from' e held)) fun row held same => ?_
        obtain ⟨r,inside,there⟩ := List.mem_flatMap.mp held
        exact fresh (same ▸ partIs there ▸ inside)
      · exact others q later

theorem groupedPerm (rows : List Row) : ∀ {order : List Nat}, order.Nodup →
    (order.flatMap (rowsOf · rows)).Perm (rows.filter fun row => row.part ∈ order) := by
  intro order
  induction order with
  | nil => simp
  | cons p order ih =>
    intro nodup
    obtain ⟨fresh,nodup⟩ := List.nodup_cons.mp nodup
    have halves := List.filter_append_perm (fun row : Row => decide (row.part = p)) (rows.filter fun row => row.part ∈ p :: order)
    rw [List.filter_filter, List.filter_filter] at halves
    rw [List.flatMap_cons]
    refine List.Perm.trans (List.Perm.append ?_ ((ih nodup).trans ?_)) halves
    · refine List.Perm.of_eq (List.filter_congr fun row _ => ?_)
      by_cases same : row.part = p <;> simp [same]
    · refine List.Perm.of_eq (List.filter_congr fun row _ => ?_)
      by_cases same : row.part = p
      · simp [same, fresh]
      · simp [same]

theorem rowsGrouped (rows : List Row) (p : Nat) : ∀ {order : List Nat}, order.Nodup →
    rowsOf p (order.flatMap (rowsOf · rows)) = if p ∈ order then rowsOf p rows else [] := by
  intro order
  induction order with
  | nil => exact fun _ => rfl
  | cons q order ih =>
    intro nodup
    obtain ⟨fresh,nodup⟩ := List.nodup_cons.mp nodup
    rw [List.flatMap_cons, rowsOfAppend, ih nodup]
    unfold rowsOf
    rw [List.filter_filter]
    by_cases same : p = q
    · subst same
      simp [fresh]
    · have none : (rows.filter fun row => decide (row.part = p) && decide (row.part = q)) = [] := by
        refine List.filter_eq_nil_iff.mpr fun row _ both => ?_
        simp only [Bool.and_eq_true, decide_eq_true_eq] at both
        exact same (both.1.symm.trans both.2)
      simp [none, same]

/- What is put out for one partition. -/
structure Laid (r : Range) (rows : List Row) (plan : List Emit) : Prop where
  docs : rowsIn plan = rows
  order : plan.Pairwise fun x y => x.at' ≤ y.at'
  points : ∀ g, g ∈ pointsIn plan ↔ r.OnGrid g ∧ r.Within g ∧ g ∉ valuesOf rows
  once : (pointsIn plan).Pairwise (· < ·)

theorem laid {p : Nat} (inv : Inv n ranges done plan cursors) (small : p < n) (filled : Filled ranges done plan p) :
    Laid (ranges p) (rowsOf p done) (ofPart p plan) := by
  obtain ⟨cursor,c,_,_,kept⟩ := inv.each p small
  exact ⟨kept.docs,kept.order,filled,kept.once⟩

theorem startInv (spanned : Spanned grid n spans ranges) (length : spans.length = n) :
    Inv n ranges [] [] (spans.map fun span => span.map fun span => ⟨span.lo,false⟩) := by
  refine ⟨by rw [List.length_map, length],rfl,fun p small => ?_⟩
  obtain ⟨span,held,reads⟩ := spanned.each p small
  refine ⟨⟨span.lo,false⟩,(ranges p).lo,?_,reads.lo,keptNil _⟩
  rw [List.getD_eq_getElem?_getD] at held ⊢
  rw [List.getElem?_map]
  cases is : spans[p]? with
  | none =>
    rw [is] at held
    cases held
  | some span' =>
    rw [is, Option.getD_some] at held
    rw [held]
    rfl

theorem walkPlan (spanned : Spanned grid n spans ranges) (length : spans.length = n) {rows : List Row}
    (fits : ∀ row ∈ rows, row.part < n ∧ (intOf row.value).isSome) (ascends : rows.Pairwise fun x y => at' x.value ≤ at' y.value)
    {order : List Nat} (all : order.Perm (List.range n)) (bounds : Bounds) : ∃ plan,
      (∀ (σ : Type) (sink : Sink σ) (s : σ), walk grid sink bounds rows order spans s = plan.foldlM (feed sink) s) ∧
      (rowsIn plan).Perm rows ∧ (∀ e ∈ plan, e.part < n) ∧ ∀ p < n, Laid (ranges p) (rowsOf p rows) (ofPart p plan) := by
  have start := startInv spanned length
  have nodup : order.Nodup := all.nodup_iff.mpr List.nodup_range
  have inside (p : Nat) : p ∈ order ↔ p < n := all.mem_iff.trans List.mem_range
  have grouped (other : bounds ≠ .full) : ∃ plan,
      (∀ (σ : Type) (sink : Sink σ) (s : σ), walk grid sink bounds rows order spans s = plan.foldlM (feed sink) s) ∧
      (rowsIn plan).Perm rows ∧ (∀ e ∈ plan, e.part < n) ∧ ∀ p < n, Laid (ranges p) (rowsOf p rows) (ofPart p plan) := by
    obtain ⟨plan,cursors,run,inv,from',filled⟩ := groupedAll spanned fits ascends start (fun p member => (inside p).mp member) nodup nofun
    rw [List.nil_append, List.nil_append] at inv
    have perm := groupedPerm rows nodup
    have every : (rows.filter fun row => row.part ∈ order) = rows :=
      List.filter_eq_self.mpr fun row member => decide_eq_true ((inside row.part).mpr (fits row member).1)
    rw [every] at perm
    refine ⟨plan,fun σ sink s => ?_,inv.docs ▸ perm,fun e member => (inside _).mp (from' e member),fun p small => ?_⟩
    · have one := run σ sink s
      have last : (plan.foldlM (feed sink) s >>= fun s => .ok (cursors,s)) >>= (fun x => .ok x.2) = plan.foldlM (feed sink) s := by
        rw [bind_assoc]
        exact bind_pure _
      cases bounds with
      | full => exact absurd rfl other
      | grouped => exact (congrArg (· >>= fun x => .ok x.2) one).trans last
      | explicit lo hi => exact (congrArg (· >>= fun x => .ok x.2) one).trans last
    · have done := filled p ((inside p).mpr small)
      rw [List.nil_append, List.nil_append] at done
      have result := laid inv small done
      rwa [rowsGrouped rows p nodup, if_pos ((inside p).mpr small)] at result
  cases bounds with
  | full =>
    obtain ⟨docs,middle,run,inv,mine⟩ := takeAll spanned start fits (fun row member => ⟨nofun,nofun⟩) ascends
    obtain ⟨tail,last,run',inv',from',filled⟩ := finishAll spanned inv (fun p member => (inside p).mp member) nodup
    simp only [List.nil_append] at inv' filled
    have parts : ∀ e ∈ docs ++ tail, e.part < n := by
      intro e member
      rcases List.mem_append.mp member with doc | gen
      · obtain ⟨row,held,is⟩ := mine e doc
        exact is ▸ (fits row held).1
      · exact (inside _).mp (from' e gen)
    refine ⟨docs ++ tail,fun σ sink s => ?_,inv'.docs ▸ List.Perm.refl _,parts,
      fun p small => laid inv' small (filled p ((inside p).mpr small))⟩
    have one : rows.foldlM (take grid sink spans) (_,s) = _ := run σ sink s
    have two (s : σ) : order.foldlM (finish grid sink spans) (middle,s) = _ := run' σ sink s
    simp only [walk, one, bind_assoc]
    rw [List.foldlM_append]
    refine congrArg _ (funext fun s => ?_)
    show (order.foldlM (finish grid sink spans) (middle,s) >>= _) = _
    rw [two, bind_assoc]
    exact bind_pure _
  | grouped => exact grouped nofun
  | explicit lo hi => exact grouped nofun

end

end Kimmy.Query.Densify
