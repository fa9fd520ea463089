import Kimmy.Leading
import Kimmy.SortedMap
import Mathlib.Data.Prod.Lex

/-!
The best hits of a vector search (`search.rs`), with the cap of each document applied as they arrive. What is held is
the answer to the hits offered so far: one turned away could not come back, whatever is offered later.
-/
namespace Kimmy.Vector
open Leading

section
variable {ι σ κ : Type} [LinearOrder σ] [LinearOrder κ]

/- One search result. The id is the document's, not the chunk's; a higher score is better. -/
structure Hit (ι σ : Type) where
  id : ι
  score : σ
  chunk : Nat
  text : String

structure SearchOptions where
  k : Nat
  perDocument : Nat

/- Where a hit stands: its score, then the key of its document and its chunk. -/
structure Standing (σ κ : Type) where
  score : σ
  doc : κ
  chunk : Nat

namespace Standing

/- The worst standing is the least: a lower score, and among equal scores the larger key. -/
def order (s : Standing σ κ) : σ ×ₗ κᵒᵈ ×ₗ Natᵒᵈ :=
  toLex (s.score,toLex (OrderDual.toDual s.doc,OrderDual.toDual s.chunk))

omit [LinearOrder σ] [LinearOrder κ] in
theorem orderInjective : Function.Injective (order : Standing σ κ → σ ×ₗ κᵒᵈ ×ₗ Natᵒᵈ) := by
  rintro ⟨score,doc,chunk⟩ ⟨score',doc',chunk'⟩ same
  obtain ⟨rfl,rest⟩ := Prod.mk.inj (congrArg ofLex same)
  obtain ⟨rfl,rfl⟩ := Prod.mk.inj (congrArg ofLex rest)
  rfl

instance : LinearOrder (Standing σ κ) := LinearOrder.lift' order orderInjective

theorem lowerScore {s t : Standing σ κ} (less : s.score < t.score) : s < t :=
  Prod.Lex.toLex_lt_toLex.mpr (Or.inl less)

end Standing

/-! The bounded set. -/

structure TopK (ι σ κ : Type) [LinearOrder σ] [LinearOrder κ] where
  k : Nat
  perDocument : Nat
  ranked : SortedMap (Standing σ κ) (Hit ι σ)
  perDoc : SortedMap κ (SortedMap (Standing σ κ) Unit)

namespace TopK

def new (options : SearchOptions) : TopK ι σ κ := ⟨options.k,max options.perDocument 1,.empty,.empty⟩

def insert (t : TopK ι σ κ) (standing : Standing σ κ) (hit : Hit ι σ) : TopK ι σ κ :=
  { t with
    perDoc := t.perDoc.insert standing.doc (((t.perDoc.get standing.doc).getD .empty).insert standing ())
    ranked := t.ranked.insert standing hit }

/- A document that holds nothing more is forgotten. -/
def remove (t : TopK ι σ κ) (standing : Standing σ κ) : TopK ι σ κ :=
  let t := { t with ranked := t.ranked.remove standing }
  match t.perDoc.get standing.doc with
  | none => t
  | some mine =>
      let mine := mine.remove standing
      { t with perDoc := if mine.size = 0 then t.perDoc.remove standing.doc else t.perDoc.insert standing.doc mine }

variable (sourceKey : ι → κ)

def standingOf (hit : Hit ι σ) : Standing σ κ := ⟨hit.score,sourceKey hit.id,hit.chunk⟩

/- `none` is a set that should hold something and is empty. -/
def offer (t : TopK ι σ κ) (hit : Hit ι σ) : Option (TopK ι σ κ) :=
  if t.k = 0 then some t
  -- before the key is rendered: a full set whose worst outscores the hit
  else if t.k ≤ t.ranked.size ∧ t.ranked.first.any fun worst => hit.score < worst.1.score then some t
  else
    let standing := standingOf sourceKey hit
    match (t.perDoc.get standing.doc).filter fun mine => t.perDocument ≤ mine.size with
    | some mine => do
        let (ownWorst,_) ← mine.first
        some (if standing ≤ ownWorst then t else (t.remove ownWorst).insert standing hit)
    | none =>
        if t.k ≤ t.ranked.size then do
          let (worst,_) ← t.ranked.first
          some (if standing ≤ worst then t else (t.remove worst).insert standing hit)
        else some (t.insert standing hit)

/- Best first. -/
def intoHits (t : TopK ι σ κ) : List (Hit ι σ) := t.ranked.values.reverse

end TopK

def rankHits (sourceKey : ι → κ) (options : SearchOptions) (hits : List (Hit ι σ)) : Option (List (Hit ι σ)) :=
  (hits.foldlM (TopK.offer sourceKey) (.new options)).map TopK.intoHits

/-! The answer, said of all the hits at once. -/

/- The hits of a document after the first `cap` of it are dropped. -/
def withinCap (sourceKey : ι → κ) (cap : Nat) : List (Hit ι σ) → List (Hit ι σ) → List (Hit ι σ)
  | _, [] => []
  | kept, hit :: rest =>
      if (kept.filter fun other => sourceKey other.id = sourceKey hit.id).length < cap then
        hit :: withinCap sourceKey cap (kept ++ [hit]) rest
      else withinCap sourceKey cap kept rest

def bestHits (sourceKey : ι → κ) (options : SearchOptions) (hits : List (Hit ι σ)) : List (Hit ι σ) :=
  let sorted := hits.mergeSort fun a b => TopK.standingOf sourceKey b ≤ TopK.standingOf sourceKey a
  (withinCap sourceKey (max options.perDocument 1) [] sorted).take options.k

/-! What the set holds. -/

namespace TopK
variable {sourceKey : ι → κ} {t : TopK ι σ κ} {s : Standing σ κ} {hit : Hit ι σ}

/- The standings held, and for each document its own among them. -/
def Mirrors (t : TopK ι σ κ) : Prop :=
  ∀ d, ((t.perDoc.get d).getD .empty).keys = ofKind Standing.doc d t.ranked.keys

theorem insertMirrors (mirrors : t.Mirrors) : (t.insert s hit).Mirrors := by
  intro d
  show ((SortedMap.get (t.perDoc.insert _ _) d).getD .empty).keys = ofKind Standing.doc d (t.ranked.insert s hit).keys
  rw [SortedMap.getInsert, SortedMap.keysInsert, ofKindInsert]
  by_cases own : d = s.doc
  · subst own
    rw [if_pos rfl, if_pos rfl, Option.getD_some, SortedMap.keysInsert, mirrors]
  · rw [if_neg own, if_neg (Ne.symm own), mirrors]

theorem removeRanked : (t.remove s).ranked = t.ranked.remove s := by
  unfold remove
  simp only
  split <;> rfl

theorem removeMirrors (mirrors : t.Mirrors) : (t.remove s).Mirrors := by
  intro d
  have before := mirrors d
  rw [removeRanked, SortedMap.keysRemove, ofKindErase, ← before]
  unfold remove
  simp only
  cases found : t.perDoc.get s.doc with
  | none =>
    simp only
    refine (Finset.erase_eq_of_notMem fun inside => ?_).symm
    rw [before] at inside
    obtain ⟨held,own⟩ := memOfKind.mp inside
    have there := mirrors s.doc
    rw [found] at there
    exact absurd (there.symm ▸ memOfKind.mpr ⟨held,rfl⟩ : s ∈ (SortedMap.empty : SortedMap (Standing σ κ) Unit).keys) (by simp [SortedMap.keys, SortedMap.empty])
  | some mine =>
    simp only
    by_cases own : d = s.doc
    · subst own
      rw [found, Option.getD_some, ← SortedMap.keysRemove]
      split_ifs with none
      · rw [SortedMap.getRemove, if_pos rfl]
        have nothing := SortedMap.sizeKeys (mine.remove s)
        rw [none] at nothing
        exact (Finset.card_eq_zero.mp nothing.symm).symm
      · rw [SortedMap.getInsert, if_pos rfl, Option.getD_some]
    · have kept : s ∉ ((t.perDoc.get d).getD .empty).keys := by
        rw [before]
        exact fun inside => own (memOfKind.mp inside).2.symm
      rw [Finset.erase_eq_of_notMem kept]
      split_ifs
      · rw [SortedMap.getRemove, if_neg own]
      · rw [SortedMap.getInsert, if_neg own]

structure Sound (sourceKey : ι → κ) (cap k : Nat) (offered : List (Hit ι σ)) (t : TopK ι σ κ) : Prop where
  most : t.k = k
  share : t.perDocument = cap
  mirrors : t.Mirrors
  entries : ∀ s hit, t.ranked.get s = some hit → hit ∈ offered ∧ standingOf sourceKey hit = s
  held : Held cap k Standing.doc (offered.map (standingOf sourceKey)).toFinset t.ranked.keys

theorem newSound (sourceKey : ι → κ) (options : SearchOptions) :
    Sound sourceKey (max options.perDocument 1) options.k [] (new options : TopK ι σ κ) := by
  refine ⟨rfl,rfl,fun _ => rfl,?_,Held.empty _ _ _⟩
  intro s hit held
  cases held

variable {cap k : Nat} {offered : List (Hit ι σ)}

theorem Sound.offeredOne (hit : Hit ι σ) : ((offered ++ [hit]).map (standingOf sourceKey)).toFinset =
    Insert.insert (standingOf sourceKey hit) (offered.map (standingOf sourceKey)).toFinset := by
  ext s
  simp

/- A hit that is turned away. -/
theorem Sound.without (sound : Sound sourceKey cap k offered t)
    (held : Held cap k Standing.doc (Insert.insert (standingOf sourceKey hit) (offered.map (standingOf sourceKey)).toFinset)
      t.ranked.keys) : Sound sourceKey cap k (offered ++ [hit]) t := by
  refine ⟨sound.most,sound.share,sound.mirrors,fun s other found => ?_,?_⟩
  · obtain ⟨member,is⟩ := sound.entries s other found
    exact ⟨List.mem_append_left _ member,is⟩
  · rw [Sound.offeredOne]
    exact held

/- A hit that is taken in, after some removals. -/
theorem Sound.taking (sound : Sound sourceKey cap k offered t) {u : TopK ι σ κ} (most : u.k = t.k)
    (share : u.perDocument = t.perDocument) (mirrors : u.Mirrors)
    (fewer : ∀ s other, u.ranked.get s = some other → t.ranked.get s = some other)
    (held : Held cap k Standing.doc (Insert.insert (standingOf sourceKey hit) (offered.map (standingOf sourceKey)).toFinset)
      (Insert.insert (standingOf sourceKey hit) u.ranked.keys)) :
    Sound sourceKey cap k (offered ++ [hit]) (u.insert (standingOf sourceKey hit) hit) := by
  refine ⟨most.trans sound.most,share.trans sound.share,insertMirrors mirrors,fun s other found => ?_,?_⟩
  · have found' : (u.ranked.insert (standingOf sourceKey hit) hit).get s = some other := found
    rw [SortedMap.getInsert] at found'
    split_ifs at found' with same
    · cases found'
      exact ⟨List.mem_append_right _ List.mem_cons_self,same.symm⟩
    · obtain ⟨member,is⟩ := sound.entries s other (fewer s other found')
      exact ⟨List.mem_append_left _ member,is⟩
  · rw [Sound.offeredOne]
    show Held cap k Standing.doc _ (u.ranked.insert _ hit).keys
    rw [SortedMap.keysInsert]
    exact held

theorem removeBounds : (t.remove s).k = t.k ∧ (t.remove s).perDocument = t.perDocument := by
  unfold remove
  simp only
  split <;> exact ⟨rfl,rfl⟩

theorem removeFewer (s' : Standing σ κ) (other : Hit ι σ) (found : (t.remove s).ranked.get s' = some other) :
    t.ranked.get s' = some other := by
  rw [removeRanked, SortedMap.getRemove] at found
  split_ifs at found
  exact found

/- The same after the removal of one. -/
theorem Sound.swapping (sound : Sound sourceKey cap k offered t) {w : Standing σ κ}
    (held : Held cap k Standing.doc (Insert.insert (standingOf sourceKey hit) (offered.map (standingOf sourceKey)).toFinset)
      (Insert.insert (standingOf sourceKey hit) (t.ranked.keys.erase w))) :
    Sound sourceKey cap k (offered ++ [hit]) ((t.remove w).insert (standingOf sourceKey hit) hit) := by
  refine sound.taking removeBounds.1 removeBounds.2 (removeMirrors sound.mirrors) removeFewer ?_
  rw [removeRanked, SortedMap.keysRemove]
  exact held

theorem offerSound (positive : 0 < cap) (sound : Sound sourceKey cap k offered t)
    (fresh : standingOf sourceKey hit ∉ offered.map (standingOf sourceKey)) :
    ∃ next, t.offer sourceKey hit = some next ∧ Sound sourceKey cap k (offered ++ [hit]) next := by
  have held := sound.held
  have new : standingOf sourceKey hit ∉ (offered.map (standingOf sourceKey)).toFinset := by
    rwa [List.mem_toFinset]
  have most := held.most
  have size := t.ranked.sizeKeys
  have strict {y w : Standing σ κ} (below : standingOf sourceKey hit ≤ w) (above : w ≤ y) (member : y ∈ t.ranked.keys) :
      standingOf sourceKey hit < y := by
    refine lt_of_le_of_ne (below.trans above) fun same => new ?_
    rw [same]
    exact held.sub member
  unfold offer
  rw [sound.most, sound.share]
  by_cases zero : k = 0
  · subst zero
    have none : t.ranked.keys = ∅ := Finset.card_eq_zero.mp (Nat.le_zero.mp most)
    rw [if_pos rfl]
    refine ⟨t,rfl,sound.without (held.turnAway positive new (by omega) ?_)⟩
    rw [none]
    nofun
  rw [if_neg zero]
  by_cases worse : k ≤ t.ranked.size ∧ t.ranked.first.any fun worst => hit.score < worst.1.score
  · obtain ⟨full,outscored⟩ := worse
    rw [if_pos ⟨full,outscored⟩]
    obtain ⟨worst,is,less⟩ := (Option.any_eq_true _ _).mp outscored
    refine ⟨t,rfl,sound.without (held.turnAway positive new (by omega) fun y member => ?_)⟩
    have lower : standingOf sourceKey hit < worst.1 := Standing.lowerScore (of_decide_eq_true less)
    exact lower.trans_le ((SortedMap.firstLeast is).2 y member)
  rw [if_neg worse]
  simp only
  have own := sound.mirrors (standingOf sourceKey hit).doc
  cases mine : (t.perDoc.get (standingOf sourceKey hit).doc).filter fun mine => cap ≤ mine.size with
  | some mine =>
    -- the document has its share: its own worst is what the hit is held against
    obtain ⟨found,enough⟩ := Option.filter_eq_some_iff.mp mine
    have enough := of_decide_eq_true enough
    rw [found, Option.getD_some] at own
    obtain ⟨⟨w,_⟩,first⟩ := SortedMap.firstSome (positive.trans_le enough)
    obtain ⟨member,least⟩ := SortedMap.firstLeast first
    rw [SortedMap.sizeKeys, own] at enough
    rw [own] at member least
    simp only [first, Option.bind_eq_bind, Option.bind_some]
    refine ⟨_,rfl,?_⟩
    split_ifs with below
    · refine sound.without (held.turnOwn (not_lt.mpr enough) fun y inside => ?_)
      exact strict below (least y inside) (memOfKind.mp inside).1
    · exact sound.swapping (held.swapOwn new (not_lt.mpr enough) member least (not_le.mp below))
  | none =>
    have share : (ofKind Standing.doc (standingOf sourceKey hit).doc t.ranked.keys).card < cap := by
      rw [← own, ← SortedMap.sizeKeys]
      cases found : t.perDoc.get (standingOf sourceKey hit).doc with
      | none => exact positive
      | some mine' =>
        rw [found] at mine
        simpa [Option.filter] using mine
    simp only
    by_cases full : k ≤ t.ranked.size
    · rw [if_pos full]
      obtain ⟨⟨w,_⟩,first⟩ := SortedMap.firstSome (show 0 < t.ranked.size by omega)
      obtain ⟨member,least⟩ := SortedMap.firstLeast first
      simp only [first, Option.bind_eq_bind, Option.bind_some]
      refine ⟨_,rfl,?_⟩
      split_ifs with below
      · refine sound.without (held.turnAway positive new (by omega) fun y inside => ?_)
        exact strict below (least y inside) inside
      · exact sound.swapping (held.swap positive new share (by omega) member least (not_le.mp below))
    · rw [if_neg full]
      exact ⟨_,rfl,sound.taking rfl rfl sound.mirrors (fun _ _ found => found) (held.add share (by omega))⟩

theorem offersSound (positive : 0 < cap) : ∀ {hits offered : List (Hit ι σ)} {t : TopK ι σ κ},
    Sound sourceKey cap k offered t → ((offered ++ hits).map (standingOf sourceKey)).Nodup →
    ∃ last, hits.foldlM (offer sourceKey) t = some last ∧ Sound sourceKey cap k (offered ++ hits) last := by
  intro hits
  induction hits with
  | nil =>
    intro offered t sound _
    exact ⟨t,rfl,by rwa [List.append_nil]⟩
  | cons hit rest ih =>
    intro offered t sound distinct
    have fresh : standingOf sourceKey hit ∉ offered.map (standingOf sourceKey) := by
      rw [List.map_append, List.nodup_append] at distinct
      exact fun member => distinct.2.2 _ member _ (by simp) rfl
    obtain ⟨next,is,sound⟩ := offerSound positive sound fresh
    rw [List.append_cons] at distinct
    obtain ⟨last,more,sound⟩ := ih sound distinct
    rw [List.foldlM_cons, is, List.append_cons]
    exact ⟨last,more,sound⟩

end TopK

/-! The answer. -/

variable {sourceKey : ι → κ} {options : SearchOptions} {hits : List (Hit ι σ)}
open TopK

omit [LinearOrder σ] in
theorem withinCapMap (cap : Nat) : ∀ {list kept : List (Hit ι σ)},
    (withinCap sourceKey cap kept list).map (standingOf sourceKey) =
      withinShare cap Standing.doc (kept.map (standingOf sourceKey)) (list.map (standingOf sourceKey)) := by
  intro list
  induction list with
  | nil => exact fun {kept} => rfl
  | cons hit rest ih =>
    intro kept
    have count : ((kept.map (standingOf sourceKey)).filter fun y => y.doc = (standingOf sourceKey hit).doc).length =
        (kept.filter fun other => sourceKey other.id = sourceKey hit.id).length := by
      rw [List.filter_map, List.length_map]
      rfl
    rw [withinCap, List.map_cons, withinShare, count]
    split_ifs
    · rw [List.map_cons, ih, List.map_append]
      rfl
    · exact ih

omit [LinearOrder σ] in
theorem withinCapSub (cap : Nat) : ∀ {list kept : List (Hit ι σ)}, (withinCap sourceKey cap kept list).Sublist list := by
  intro list
  induction list with
  | nil => exact fun {kept} => List.Sublist.refl _
  | cons hit rest ih =>
    intro kept
    unfold withinCap
    split_ifs
    · exact ih.cons_cons hit
    · exact ih.cons hit

/- Hits are told apart by document and chunk. -/
def Distinct (sourceKey : ι → κ) (hits : List (Hit ι σ)) : Prop := (hits.map fun hit => (sourceKey hit.id,hit.chunk)).Nodup

omit [LinearOrder σ] [LinearOrder κ] in
theorem Distinct.standings (distinct : Distinct sourceKey hits) : (hits.map (standingOf sourceKey)).Nodup := by
  refine List.Nodup.of_map (fun s : Standing σ κ => (s.doc,s.chunk)) ?_
  rw [List.map_map]
  exact distinct

theorem sortedStandings (distinct : Distinct sourceKey hits) :
    ((hits.mergeSort fun a b => standingOf sourceKey b ≤ standingOf sourceKey a).map (standingOf sourceKey)).Pairwise (· > ·) := by
  have perm := List.mergeSort_perm hits fun a b => standingOf sourceKey b ≤ standingOf sourceKey a
  have sorted := @List.pairwise_mergeSort _ (fun a b : Hit ι σ => decide (standingOf sourceKey b ≤ standingOf sourceKey a))
    (fun a b c first second => decide_eq_true ((of_decide_eq_true second).trans (of_decide_eq_true first)))
    (fun a b => by simpa using le_total _ _) hits
  have apart := ((perm.map (standingOf sourceKey)).nodup_iff).mpr distinct.standings
  rw [List.pairwise_map]
  refine (sorted.and (List.pairwise_map.mp apart)).imp fun {a b} both => ?_
  exact lt_of_le_of_ne (of_decide_eq_true both.1) (Ne.symm both.2)

theorem sortedUnique {other : List (Hit ι σ)} (distinct : Distinct sourceKey other) (distinct' : Distinct sourceKey hits)
    (perm : other.Perm hits) : (other.mergeSort fun a b => standingOf sourceKey b ≤ standingOf sourceKey a) =
      hits.mergeSort fun a b => standingOf sourceKey b ≤ standingOf sourceKey a := by
  have first := List.pairwise_map.mp (sortedStandings distinct)
  have second := List.pairwise_map.mp (sortedStandings distinct')
  refine List.Perm.eq_of_pairwise (fun _ _ _ _ above below => absurd below (lt_asymm above)) first second ?_
  exact (List.mergeSort_perm other _).trans (perm.trans (List.mergeSort_perm hits _).symm)

theorem intoHitsStandings {cap k : Nat} {t : TopK ι σ κ} (sound : Sound sourceKey cap k hits t) :
    t.intoHits.map (standingOf sourceKey) = (t.ranked.entries.map Prod.fst).reverse := by
  rw [intoHits, List.map_reverse, SortedMap.values, List.map_map]
  congr 1
  refine List.map_congr_left fun x member => ?_
  exact (sound.entries x.1 x.2 (SortedMap.memEntry.mp member)).2

theorem rankedHits {t : TopK ι σ κ} (distinct : Distinct sourceKey hits)
    (sound : Sound sourceKey (max options.perDocument 1) options.k hits t) : t.intoHits = bestHits sourceKey options hits := by
  have order := sortedStandings distinct
  have perm := List.mergeSort_perm hits fun a b => standingOf sourceKey b ≤ standingOf sourceKey a
  have held := @heldList (Standing σ κ) κ _ _ (max options.perDocument 1) options.k Standing.doc _ order
  rw [(List.toFinset_eq_of_perm _ _ (perm.map (standingOf sourceKey)))] at held
  have keys := sound.held.unique held
  -- both are in order, best first, and hold the same standings
  have standings : t.intoHits.map (standingOf sourceKey) = (bestHits sourceKey options hits).map (standingOf sourceKey) := by
    have spec : (bestHits sourceKey options hits).map (standingOf sourceKey) = (withinShare (max options.perDocument 1)
        Standing.doc [] ((hits.mergeSort fun a b => standingOf sourceKey b ≤ standingOf sourceKey a).map
          (standingOf sourceKey))).take options.k := by
      rw [bestHits, List.map_take, withinCapMap]
      rfl
    rw [spec, intoHitsStandings sound]
    have first : ((t.ranked.entries.map Prod.fst).reverse).Pairwise (· > ·) :=
      List.pairwise_reverse.mpr (List.pairwise_map.mpr t.ranked.sorted)
    have second := (order.sublist (@withinShareSub _ _ _ (max options.perDocument 1) Standing.doc [] _)).sublist
      (List.take_sublist options.k _)
    refine List.Perm.eq_of_pairwise (fun _ _ _ _ above below => absurd below (lt_asymm above)) first second ?_
    refine List.perm_of_nodup_nodup_toFinset_eq (first.imp fun above => above.ne') (second.imp fun above => above.ne') ?_
    rw [List.toFinset_reverse]
    exact keys
  have inside : ∀ hit ∈ t.intoHits, hit ∈ hits := by
    intro hit member
    obtain ⟨s,found⟩ := SortedMap.memValues.mp (List.mem_reverse.mp member)
    exact (sound.entries s hit found).1
  have inside' : ∀ hit ∈ bestHits sourceKey options hits, hit ∈ hits := by
    intro hit member
    exact perm.mem_iff.mp ((withinCapSub _).subset (List.mem_of_mem_take member))
  have apart := List.inj_on_of_nodup_map distinct.standings
  refine List.ext_getElem (by simpa using congrArg List.length standings) fun i short short' => ?_
  refine apart (inside _ (List.getElem_mem short)) (inside' _ (List.getElem_mem short')) ?_
  have same := congrArg (fun list => list[i]?) standings
  simpa [List.getElem?_map, List.getElem?_eq_getElem short, List.getElem?_eq_getElem short'] using same

theorem rankHitsExact (distinct : Distinct sourceKey hits) :
    rankHits sourceKey options hits = some (bestHits sourceKey options hits) ∧
    (∀ other, other.Perm hits → rankHits sourceKey options other = rankHits sourceKey options hits) ∧
    ∀ part, part <+: hits → ∃ t, part.foldlM (offer sourceKey) (.new options) = some t ∧ t.ranked.size ≤ options.k := by
  have positive : 0 < max options.perDocument 1 := by omega
  have run {list : List (Hit ι σ)} (distinct : Distinct sourceKey list) :
      ∃ t, list.foldlM (offer sourceKey) (.new options) = some t ∧
        Sound sourceKey (max options.perDocument 1) options.k list t :=
    offersSound positive (newSound sourceKey options) distinct.standings
  have answer {list : List (Hit ι σ)} (distinct : Distinct sourceKey list) :
      rankHits sourceKey options list = some (bestHits sourceKey options list) := by
    obtain ⟨t,is,sound⟩ := run distinct
    rw [rankHits, is, Option.map_some, rankedHits distinct sound]
  refine ⟨answer distinct,fun other perm => ?_,fun part front => ?_⟩
  · have distinct' : Distinct sourceKey other := (perm.map _).nodup_iff.mpr distinct
    rw [answer distinct, answer distinct', bestHits, bestHits, sortedUnique distinct' distinct perm]
  · have distinct' : Distinct sourceKey part := distinct.sublist (front.sublist.map _)
    obtain ⟨t,is,sound⟩ := run distinct'
    exact ⟨t,is,by rw [SortedMap.sizeKeys]; exact sound.held.most⟩

end

/- Two chunks of one document and one of another. -/
def threeHits : List (Hit Nat Nat) := [⟨1,5,0,"a"⟩,⟨1,7,1,"b"⟩,⟨2,6,0,"c"⟩]

theorem rankHitsThree : Distinct (fun i : Nat => i) threeHits ∧ rankHits (fun i : Nat => i) ⟨2,1⟩ threeHits =
    some (bestHits (fun i : Nat => i) ⟨2,1⟩ threeHits) :=
  ⟨by unfold Distinct; decide,(rankHitsExact (by unfold Distinct; decide)).1⟩

end Kimmy.Vector
