import Kimmy.Vector.CutOff

/-!
The heads of a bridge: one in each weakly connected component of the cut-off points, and one that no other cut-off
point leads to where the component has such a point.
-/
namespace Kimmy.Vector.Bridge
open OrderedForest

section
variable {ν δ : Type} {graph : Hnsw ν δ}

/- An edge between two cut-off points. -/
def Link (graph : Hnsw ν δ) (a b : Nat) : Prop := CutOff graph a ∧ CutOff graph b ∧ a ≠ b ∧ Leads graph a b

def Together (graph : Hnsw ν δ) : Nat → Nat → Prop := Relation.EqvGen (Link graph)

def Fed (graph : Hnsw ν δ) (i : Nat) : Prop := ∃ a, Link graph a i

/-! The forest of components. -/

theorem rootSpec : ∀ {fuel here : Nat} {parent : Nat → Nat}, Below parent → here ≤ fuel →
    (root fuel parent here).2 = top parent here ∧ Below (root fuel parent here).1 ∧
      ∀ j, top (root fuel parent here).1 j = top parent j
  | 0, here, parent, below, enough => by
      have fixed : parent here = here := Nat.le_antisymm (below here) (by omega)
      exact ⟨(topSelf fixed).symm,below,fun _ => rfl⟩
  | fuel + 1, here, parent, below, enough => by
      simp only [root]
      split_ifs with moves
      · have less : parent here < here := lt_of_le_of_ne (below here) moves
        have halved : halve parent here here = parent (parent here) := Function.update_self ..
        have lower := below (parent here)
        obtain ⟨found,kept,same⟩ := rootSpec (halveBelow below here) (show halve parent here here ≤ fuel by omega)
        refine ⟨?_,kept,fun j => (same j).trans (halveTop below here j)⟩
        rw [found, halveTop below, halved, topParent below, topParent below]
      · exact ⟨(topSelf (not_not.mp moves)).symm,below,fun _ => rfl⟩

/- The forest stands for the links made so far, and the fed points are those a link made leads to. -/
def Components.Holds (state : Components) (links : Nat → Nat → Prop) : Prop :=
  Stands state.parent links ∧ ∀ j, state.fed j = true ↔ ∃ i, links i j

theorem Components.Holds.congr {state : Components} {links made : Nat → Nat → Prop} (holds : state.Holds links)
    (same : ∀ i j, links i j ↔ made i j) : state.Holds made := by
  have is : links = made := funext fun i => funext fun j => propext (same i j)
  exact is ▸ holds

theorem joinHolds {state : Components} {links : Nat → Nat → Prop} (holds : state.Holds links) (here there : Nat) :
    (joinEnds state here there).Holds fun i j => links i j ∨ i = here ∧ j = there := by
  obtain ⟨stands,fed⟩ := holds
  obtain ⟨isA,belowA,sameA⟩ := rootSpec stands.1 (Nat.le_refl here)
  obtain ⟨isB,belowB,sameB⟩ := rootSpec belowA (Nat.le_refl there)
  rw [sameA] at isB
  have tops : ∀ j, top (root there (root here state.parent here).1 there).1 j = top state.parent j :=
    fun j => (sameB j).trans (sameA j)
  have fixed : ∀ j, (root there (root here state.parent here).1 there).1 (top state.parent j) = top state.parent j :=
    fun j => by rw [← tops]; exact topFixed belowB j
  have marked : ∀ j, Function.update state.fed there true j = true ↔ ∃ i, links i j ∨ i = here ∧ j = there := by
    intro j
    rw [markOne, fed]
    constructor
    · rintro (⟨i,link⟩ | rfl)
      · exact ⟨i,.inl link⟩
      · exact ⟨here,.inr ⟨rfl,rfl⟩⟩
    · rintro ⟨i,link | ⟨_,rfl⟩⟩
      · exact .inl ⟨i,link⟩
      · exact .inr rfl
  simp only [joinEnds, isA, isB]
  generalize (root there (root here state.parent here).1 there).1 = parent at belowB tops fixed
  split_ifs with apart
  · -- The higher of the two tops is hung under the lower.
    have less : min (top state.parent here) (top state.parent there) <
        max (top state.parent here) (top state.parent there) := by omega
    have low : parent (min (top state.parent here) (top state.parent there)) =
        min (top state.parent here) (top state.parent there) := by
      rcases min_choice (top state.parent here) (top state.parent there) with is | is <;> rw [is] <;> exact fixed _
    have high : parent (max (top state.parent here) (top state.parent there)) =
        max (top state.parent here) (top state.parent there) := by
      rcases max_choice (top state.parent here) (top state.parent there) with is | is <;> rw [is] <;> exact fixed _
    have hung := fun j => hangTop belowB less low high j
    simp only [tops] at hung
    refine ⟨stands.link (hangBelow belowB less) ?_ (fun i j same => ?_) fun i j same => ?_,marked⟩
    · rw [hung, hung]
      split_ifs <;> omega
    · rw [hung, hung, same]
    · rw [hung, hung] at same
      split_ifs at same <;> omega
  · have same : top state.parent here = top state.parent there := not_not.mp apart
    refine ⟨stands.link belowB ?_ (fun i j is => ?_) fun i j is => .inl ?_,marked⟩
    · rw [tops, tops, same]
    · rw [tops, tops, is]
    · rwa [tops, tops] at is

/- A loop each round of which makes its own links. -/
theorem linkEach {α : Type} {body : Components → α → Components} (made : α → Nat → Nat → Prop)
    (one : ∀ {state links} x, Components.Holds state links → (body state x).Holds fun i j => links i j ∨ made x i j) :
    ∀ {list : List α} {state : Components} {links : Nat → Nat → Prop}, state.Holds links →
      (list.foldl body state).Holds fun i j => links i j ∨ ∃ x ∈ list, made x i j
  | [], _, _, holds => holds.congr fun i j => by simp
  | x :: rest, _, _, holds => (linkEach made one (one x holds)).congr fun i j => by
      simp only [List.mem_cons, exists_eq_or_imp, or_assoc]

theorem componentsHold (graph : Hnsw ν δ) : (components (Layer0.read graph)).Holds (Link graph) := by
  have edge : ∀ (here : Nat) {state : Components} {links : Nat → Nat → Prop} (there : Nat), state.Holds links →
      Components.Holds (if there < (Layer0.read graph).size ∧ there ≠ here ∧
        (Layer0.read graph).cutOff.contains there = true then joinEnds state here there else state) fun i j =>
          links i j ∨ (there < graph.size ∧ there ≠ here ∧ CutOff graph there) ∧ i = here ∧ j = there := by
    intro here state links there holds
    have same : (there < (Layer0.read graph).size ∧ there ≠ here ∧ (Layer0.read graph).cutOff.contains there = true) ↔
        there < graph.size ∧ there ≠ here ∧ CutOff graph there := by
      rw [readSize, List.contains_iff_mem, cutOffIff]
    by_cases taken : there < graph.size ∧ there ≠ here ∧ CutOff graph there
    · rw [if_pos (same.mpr taken)]
      exact (joinHolds holds here there).congr fun i j => by simp [taken]
    · rw [if_neg (mt same.mp taken)]
      exact holds.congr fun i j => by simp [taken]
  have start : Components.Holds ⟨id,fun _ => false⟩ fun _ _ => False := ⟨standsNone,fun j => by simp⟩
  have all : (components (Layer0.read graph)).Holds fun i j => False ∨ ∃ here ∈ (Layer0.read graph).cutOff,
      ∃ there ∈ (Layer0.read graph).edges here,
        (there < graph.size ∧ there ≠ here ∧ CutOff graph there) ∧ i = here ∧ j = there := by
    refine linkEach (fun here i j => ∃ there ∈ (Layer0.read graph).edges here,
      (there < graph.size ∧ there ≠ here ∧ CutOff graph there) ∧ i = here ∧ j = there) (fun here holds => ?_) start
    exact linkEach (fun there i j => (there < graph.size ∧ there ≠ here ∧ CutOff graph there) ∧ i = here ∧ j = there)
      (edge here) holds
  refine all.congr fun i j => ?_
  constructor
  · rintro (no | ⟨_,cut,_,edge,⟨less,apart,also⟩,rfl,rfl⟩)
    · exact no.elim
    · have first := cutOffIff.mp cut
      rw [readEdges first.1] at edge
      exact ⟨first,also,Ne.symm apart,leadsIff.mpr ⟨less,edge⟩⟩
  · rintro ⟨first,also,apart,leads⟩
    obtain ⟨less,edge⟩ := leadsIff.mp leads
    rw [← readEdges first.1] at edge
    exact .inr ⟨i,cutOffIff.mpr first,j,edge,⟨less,Ne.symm apart,also⟩,rfl,rfl⟩

/-! Choosing the heads. -/

/- After the points of a list: every component met has a head among them, fed only if all of them are. -/
structure Chosen (tops : Nat → Nat) (fed : Nat → Bool) (done : List Nat) (state : (Nat → Nat) × SortedMap Nat Nat) :
    Prop where
  below : Below state.1
  same : ∀ i, top state.1 i = tops i
  head : ∀ c h, state.2.get c = some h → h ∈ done ∧ tops h = c
  best : ∀ c h, state.2.get c = some h → fed h = true → ∀ i ∈ done, tops i = c → fed i = true
  met : ∀ i ∈ done, ∃ h, state.2.get (tops i) = some h

/- The head of the point's own component: the one it has, or the point where it has none or a fed one. -/
def headAfter (fed : Nat → Bool) (held : Option Nat) (point : Nat) : Nat :=
  if fed (held.getD point) = true ∧ fed point = false then point else held.getD point

theorem chooseGet {fed : Nat → Bool} {parent : Nat → Nat} {headOf : SortedMap Nat Nat} {point c : Nat}
    (is : (root point parent point).2 = c) :
    (chooseHead fed (parent,headOf) point).1 = (root point parent point).1 ∧
      ∀ j, (chooseHead fed (parent,headOf) point).2.get j =
        if j = c then some (headAfter fed (headOf.get c) point) else headOf.get j := by
  simp only [chooseHead, is, SortedMap.getOrInsert, if_true]
  unfold headAfter
  split_ifs with worse
  · refine ⟨rfl,fun j => ?_⟩
    rw [SortedMap.getInsert, SortedMap.getOrInsert]
    split_ifs <;> rfl
  · exact ⟨rfl,fun j => SortedMap.getOrInsert ..⟩

theorem Chosen.point {tops : Nat → Nat} {fed : Nat → Bool} {done : List Nat} {state : (Nat → Nat) × SortedMap Nat Nat}
    (chosen : Chosen tops fed done state) (point : Nat) : Chosen tops fed (done ++ [point]) (chooseHead fed state point) := by
  obtain ⟨parent,headOf⟩ := state
  obtain ⟨is,below,same⟩ := rootSpec chosen.below (Nat.le_refl point)
  rw [chosen.same] at is
  obtain ⟨first,gets⟩ := @chooseGet fed parent headOf point _ is
  have inside : ∀ i ∈ done, i ∈ done ++ [point] := fun i => List.mem_append_left [point]
  have last : point ∈ done ++ [point] := List.mem_append_right done List.mem_cons_self
  -- The component's head so far, or the point itself.
  have before : ∀ h, (headOf.get (tops point)).getD point = h →
      (h ∈ done ++ [point] ∧ tops h = tops point) ∧
        (fed h = true → ∀ i ∈ done, tops i = tops point → fed i = true) := by
    intro h is
    cases held : headOf.get (tops point) with
    | some head =>
      rw [held, Option.getD_some] at is
      subst is
      obtain ⟨member,own⟩ := chosen.head _ _ held
      exact ⟨⟨inside _ member,own⟩,chosen.best _ _ held⟩
    | none =>
      rw [held, Option.getD_none] at is
      subst is
      refine ⟨⟨last,rfl⟩,fun _ i member own => ?_⟩
      obtain ⟨h,found⟩ := chosen.met i member
      rw [own, held] at found
      exact absurd found (Option.some_ne_none h).symm
  obtain ⟨⟨member,own⟩,best⟩ := before _ rfl
  refine ⟨first ▸ below,fun i => ?_,fun c h found => ?_,fun c h found isFed i there tree => ?_,fun i there => ?_⟩
  · rw [first, same, chosen.same]
  · rw [gets] at found
    split_ifs at found with here
    · cases Option.some.inj found
      unfold headAfter
      split_ifs
      · exact ⟨last,here.symm⟩
      · exact ⟨member,own.trans here.symm⟩
    · obtain ⟨old,tree⟩ := chosen.head c h found
      exact ⟨inside h old,tree⟩
  · rw [gets] at found
    split_ifs at found with here
    · cases Option.some.inj found
      subst here
      unfold headAfter at isFed
      split_ifs at isFed with worse
      · exact absurd (isFed.symm.trans worse.2) Bool.false_ne_true.symm
      · rcases List.mem_append.mp there with old | new
        · exact best isFed i old tree
        · rw [List.mem_singleton.mp new]
          by_contra unfed
          exact worse ⟨isFed,Bool.eq_false_iff.mpr unfed⟩
    · rcases List.mem_append.mp there with old | new
      · exact chosen.best c h found isFed i old tree
      · rw [List.mem_singleton.mp new] at tree
        exact absurd tree.symm here
  · rw [gets]
    split_ifs with here
    · exact ⟨_,rfl⟩
    · rcases List.mem_append.mp there with old | new
      · exact chosen.met i old
      · exact absurd (congrArg tops (List.mem_singleton.mp new)) here

theorem Chosen.list {tops : Nat → Nat} {fed : Nat → Bool} : ∀ {list done : List Nat} {state : (Nat → Nat) × SortedMap Nat Nat},
    Chosen tops fed done state → Chosen tops fed (done ++ list) (list.foldl (chooseHead fed) state)
  | [], _, _, chosen => by simpa using chosen
  | point :: rest, done, _, chosen => by
      have all := @Chosen.list _ _ rest _ _ (chosen.point point)
      simpa using all

/- The heads, over the graph's own notions. -/
structure Heads (graph : Hnsw ν δ) (heads : List Nat) : Prop where
  once : heads.Nodup
  cut : ∀ h ∈ heads, CutOff graph h
  each : ∀ i, CutOff graph i → ∃ h ∈ heads, Together graph h i
  one : ∀ h ∈ heads, ∀ k ∈ heads, Together graph h k → h = k
  unfed : ∀ h ∈ heads, Fed graph h → ∀ i, CutOff graph i → Together graph h i → Fed graph i

theorem headsSpec (graph : Hnsw ν δ) : Heads graph (heads (Layer0.read graph)) := by
  obtain ⟨stands,fed⟩ := componentsHold graph
  have start : Chosen (top (components (Layer0.read graph)).parent) (components (Layer0.read graph)).fed []
      ((components (Layer0.read graph)).parent,.empty) :=
    ⟨stands.1,fun _ => rfl,by simp,by simp,by simp⟩
  have chosen := @Chosen.list _ _ (Layer0.read graph).cutOff _ _ start
  rw [List.nil_append] at chosen
  have memHeads : ∀ {h}, h ∈ heads (Layer0.read graph) ↔ ∃ c, ((Layer0.read graph).cutOff.foldl
      (chooseHead (components (Layer0.read graph)).fed) ((components (Layer0.read graph)).parent,.empty)).2.get c = some h :=
    SortedMap.memValues
  have cut : ∀ h ∈ heads (Layer0.read graph), CutOff graph h := fun h member => by
    obtain ⟨c,found⟩ := memHeads.mp member
    exact cutOffIff.mp (chosen.head c h found).1
  refine ⟨?_,cut,fun i lost => ?_,fun h first k second same => ?_,fun h member isFed i lost same => ?_⟩
  · -- Two entries with one head would have one component, and so one key.
    refine List.pairwise_map.mpr ((SortedMap.sorted _).imp_of_mem fun {x y} inX inY less same => ?_)
    have first := (chosen.head x.1 x.2 (SortedMap.memEntry.mp inX)).2
    have second := (chosen.head y.1 y.2 (SortedMap.memEntry.mp inY)).2
    rw [same] at first
    exact absurd (first.symm.trans second) (ne_of_lt less)
  · obtain ⟨h,found⟩ := chosen.met i (cutOffIff.mpr lost)
    exact ⟨h,memHeads.mpr ⟨_,found⟩,(stands.2 h i).mp (chosen.head _ h found).2⟩
  · obtain ⟨c,found⟩ := memHeads.mp first
    obtain ⟨d,found'⟩ := memHeads.mp second
    have tops := (stands.2 h k).mpr same
    rw [(chosen.head c h found).2, (chosen.head d k found').2] at tops
    rw [tops, found'] at found
    exact (Option.some.inj found).symm
  · obtain ⟨c,found⟩ := memHeads.mp member
    have tree := (stands.2 h i).mpr same
    rw [(chosen.head c h found).2] at tree
    exact (fed i).mp (chosen.best c h found ((fed h).mpr isFed) i (cutOffIff.mpr lost) tree.symm)

end

end Kimmy.Vector.Bridge
