import Kimmy.Vector.Layer0
import Mathlib.Data.Finset.Card

/-!
What a graph's layer 0 says of its points. The entry point is the first of those at the top level; a point is cut off
when no path of edges leads to it from there, or when no other point has an edge into it. Reading the layer finds
exactly these points.
-/
namespace Kimmy.Vector.Bridge

section
variable {ν δ : Type} {graph : Hnsw ν δ}

def Leads (graph : Hnsw ν δ) (a b : Nat) : Prop :=
  b < graph.size ∧ ∃ point ∈ graph.points, point.origin = a ∧ b ∈ point.neighbours.map Prod.fst

def Entry (graph : Hnsw ν δ) (e : Nat) : Prop :=
  ∃ point ∈ graph.points, point.origin = e ∧
    ∀ other ∈ graph.points, other.level < point.level ∨ other.level = point.level ∧ e ≤ other.origin

def Reached (graph : Hnsw ν δ) (i : Nat) : Prop := ∃ e, Entry graph e ∧ Relation.ReflTransGen (Leads graph) e i

def LedInto (graph : Hnsw ν δ) (i : Nat) : Prop := Entry graph i ∨ ∃ a, a ≠ i ∧ Leads graph a i

def CutOff (graph : Hnsw ν δ) (i : Nat) : Prop := i < graph.size ∧ (¬Reached graph i ∨ ¬LedInto graph i)

/-! Points by id. -/

theorem originsNodup (graph : Hnsw ν δ) : (graph.points.map Point.origin).Nodup :=
  graph.dense.nodup_iff.mpr List.nodup_range

theorem originLess {point : Point ν δ} (member : point ∈ graph.points) : point.origin < graph.size :=
  List.mem_range.mp (graph.dense.mem_iff.mp (List.mem_map_of_mem member))

theorem pointAt {i : Nat} (less : i < graph.size) : ∃ point ∈ graph.points, point.origin = i := by
  have listed : i ∈ graph.points.map Point.origin := graph.dense.mem_iff.mpr (List.mem_range.mpr less)
  exact List.mem_map.mp listed

/- A loop that sets one entry of a vector for each point leaves the last it set. -/
theorem setEach {α β : Type} {slot : α → Nat} {entry : α → β} (p : α → Prop) [DecidablePred p] :
    ∀ {list : List α} {vec : Nat → β}, (list.map slot).Nodup →
      (∀ x ∈ list, p x → list.foldl (fun vec x => if p x then Function.update vec (slot x) (entry x) else vec) vec (slot x) =
        entry x) ∧
      ∀ i, (∀ x ∈ list, p x → slot x ≠ i) →
        list.foldl (fun vec x => if p x then Function.update vec (slot x) (entry x) else vec) vec i = vec i := by
  intro list
  induction list with
  | nil => exact fun _ => ⟨fun x no => absurd no List.not_mem_nil,fun i _ => rfl⟩
  | cons y rest ih =>
    intro vec nodup
    obtain ⟨fresh,nodup⟩ := List.nodup_cons.mp nodup
    obtain ⟨sets,keeps⟩ := @ih (if p y then Function.update vec (slot y) (entry y) else vec) nodup
    refine ⟨fun x member holds => ?_,fun i apart => ?_⟩
    · rw [List.foldl_cons]
      rcases List.mem_cons.mp member with rfl | later
      · have later : ∀ z ∈ rest, p z → slot z ≠ slot x :=
          fun z there _ same => fresh (List.mem_map.mpr ⟨z,there,same⟩)
        rw [keeps _ later, if_pos holds, Function.update_self]
      · exact sets x later holds
    · rw [List.foldl_cons, keeps i fun x there => apart x (List.mem_cons_of_mem y there)]
      split_ifs with holds
      · exact Function.update_of_ne (Ne.symm (apart y List.mem_cons_self holds)) _ _
      · rfl

theorem placedEq {α : Type} (entry : Point ν δ → α) (unset : α) : placed graph entry unset =
    graph.points.foldl (fun vec point =>
      if point.origin < graph.size then Function.update vec point.origin (entry point) else vec) fun _ => unset := by
  unfold placed
  congr 1
  funext vec point
  by_cases less : point.origin < graph.size
  · rw [if_pos less, if_neg (by omega)]
  · rw [if_neg less, if_pos (by omega)]

theorem placedAt {α : Type} {entry : Point ν δ → α} {unset : α} {point : Point ν δ} (member : point ∈ graph.points) :
    placed graph entry unset point.origin = entry point := by
  rw [placedEq]
  exact (setEach (fun point => point.origin < graph.size) (originsNodup graph)).1 point member (originLess member)

theorem placedPast {α : Type} {entry : Point ν δ → α} {unset : α} {i : Nat} (past : graph.size ≤ i) :
    placed graph entry unset i = unset := by
  rw [placedEq]
  refine (setEach (fun point => point.origin < graph.size) (originsNodup graph)).2 i fun point member less same => ?_
  omega

theorem memEdgesOf {a b : Nat} : b ∈ edgesOf graph a ↔
    ∃ point ∈ graph.points, point.origin = a ∧ b ∈ point.neighbours.map Prod.fst := by
  constructor
  · intro member
    by_cases less : a < graph.size
    · obtain ⟨point,there,rfl⟩ := pointAt less
      rw [edgesOf, placedAt there] at member
      exact ⟨point,there,rfl,member⟩
    · rw [edgesOf, placedPast (by omega)] at member
      exact absurd member List.not_mem_nil
  · rintro ⟨point,there,rfl,member⟩
    rw [edgesOf, placedAt there]
    exact member

theorem leadsIff {a b : Nat} : Leads graph a b ↔ b < graph.size ∧ b ∈ edgesOf graph a := by
  rw [memEdgesOf]
  exact Iff.rfl

/-! Flags. -/

/- A loop each round of which sets the flags it marks and no other. -/
theorem markEach {α : Type} {body : (Nat → Bool) → α → Nat → Bool} (marks : α → Nat → Prop)
    (one : ∀ vec x i, body vec x i = true ↔ vec i = true ∨ marks x i) {list : List α} {vec : Nat → Bool} {i : Nat} :
    list.foldl body vec i = true ↔ vec i = true ∨ ∃ x ∈ list, marks x i := by
  induction list generalizing vec with
  | nil => simp
  | cons x rest ih =>
    rw [List.foldl_cons, ih, one, or_assoc]
    simp only [List.mem_cons, exists_eq_or_imp]

theorem markOne {vec : Nat → Bool} {a i : Nat} : Function.update vec a true i = true ↔ vec i = true ∨ a = i := by
  rw [Function.update_apply]
  split_ifs with is
  · simp [is]
  · simp [Ne.symm is]

theorem linkedIntoIff {size i : Nat} {edges : Nat → List Nat} :
    linkedInto size edges i = true ↔ ∃ a < size, a ≠ i ∧ i < size ∧ i ∈ edges a := by
  have edge : ∀ (a : Nat) (vec : Nat → Bool) there i,
      (if there ≠ a ∧ there < size then Function.update vec there true else vec) i = true ↔
        vec i = true ∨ (there ≠ a ∧ there < size) ∧ there = i := by
    intro a vec there i
    split_ifs with holds
    · rw [markOne]
      simp [holds]
    · simp [holds]
  have all : linkedInto size edges i = true ↔ false = true ∨
      ∃ a ∈ List.range size, ∃ there ∈ edges a, (there ≠ a ∧ there < size) ∧ there = i := by
    refine markEach (fun a i => ∃ there ∈ edges a, (there ≠ a ∧ there < size) ∧ there = i) fun vec a i => ?_
    exact markEach (fun there i => (there ≠ a ∧ there < size) ∧ there = i) (edge a)
  rw [all]
  constructor
  · rintro (no | ⟨a,inside,_,member,⟨apart,less⟩,rfl⟩)
    · exact absurd no Bool.false_ne_true
    · exact ⟨a,List.mem_range.mp inside,Ne.symm apart,less,member⟩
  · rintro ⟨a,inside,apart,less,member⟩
    exact Or.inr ⟨a,List.mem_range.mpr inside,i,member,⟨Ne.symm apart,less⟩,rfl⟩

/-! The entry point. -/

theorem foldMax : ∀ {list : List Nat} {least : Nat},
    least ≤ list.foldl max least ∧ (∀ x ∈ list, x ≤ list.foldl max least) ∧
      (list.foldl max least = least ∨ list.foldl max least ∈ list)
  | [], least => ⟨Nat.le_refl least,fun x no => absurd no List.not_mem_nil,.inl rfl⟩
  | y :: rest, least => by
      obtain ⟨start,bound,is⟩ := @foldMax rest (max least y)
      rw [List.foldl_cons]
      refine ⟨by omega,fun x member => ?_,?_⟩
      · rcases List.mem_cons.mp member with rfl | later
        · omega
        · exact bound x later
      · rcases is with same | member
        · rcases Nat.le_total least y with low | high
          · exact .inr (by rw [same, Nat.max_eq_right low]; exact List.mem_cons_self)
          · exact .inl (by rw [same, Nat.max_eq_left high])
        · exact .inr (List.mem_cons_of_mem y member)

theorem levelAt {point : Point ν δ} (member : point ∈ graph.points) : levels graph point.origin = point.level :=
  placedAt member

theorem levelLe {point : Point ν δ} (member : point ∈ graph.points) : point.level ≤ topLevel graph := by
  rw [← levelAt member]
  exact foldMax.2.1 _ (List.mem_map_of_mem (List.mem_range.mpr (originLess member)))

theorem topHeld (some : 0 < graph.size) : ∃ point ∈ graph.points, point.level = topLevel graph := by
  have held : topLevel graph = 0 ∨ topLevel graph ∈ (List.range graph.size).map (levels graph) := foldMax.2.2
  rcases held with none | listed
  · obtain ⟨point,member,_⟩ := pointAt some
    exact ⟨point,member,by have := levelLe member; omega⟩
  · obtain ⟨i,inside,is⟩ := List.mem_map.mp listed
    obtain ⟨point,member,rfl⟩ := pointAt (List.mem_range.mp inside)
    exact ⟨point,member,by rw [← levelAt member, is]⟩

theorem entrySpec {e : Nat} (found : entryPoint graph = some e) : Entry graph e := by
  obtain ⟨is,before,after,split,none⟩ := List.find?_eq_some_iff_append.mp found
  have inside : e < graph.size := by
    rw [← List.mem_range, split]
    exact List.mem_append_right before List.mem_cons_self
  obtain ⟨point,member,rfl⟩ := pointAt inside
  have high : point.level = topLevel graph := by
    rw [← levelAt member]
    exact beq_iff_eq.mp is
  refine ⟨point,member,rfl,fun other there => ?_⟩
  rcases Nat.lt_or_ge other.level point.level with low | reaches
  · exact .inl low
  · have same : other.level = point.level := Nat.le_antisymm (high ▸ levelLe there) reaches
    refine .inr ⟨same,Nat.le_of_not_lt fun less => ?_⟩
    -- An earlier id at the top level would have been found first.
    have listed : other.origin ∈ before := by
      have sorted : (before ++ point.origin :: after).Pairwise (· < ·) := split ▸ List.pairwise_lt_range
      have somewhere : other.origin ∈ before ++ point.origin :: after :=
        split ▸ List.mem_range.mpr (originLess there)
      rcases List.mem_append.mp somewhere with here | later
      · exact here
      · have tail := (List.pairwise_append.mp sorted).2.1
        rcases List.mem_cons.mp later with is | beyond
        · omega
        · have := (List.pairwise_cons.mp tail).1 _ beyond
          omega
    have apart := none _ listed
    rw [levelAt there, same, high] at apart
    simp at apart

theorem entryUnique {a b : Nat} (first : Entry graph a) (second : Entry graph b) : a = b := by
  obtain ⟨p,inP,rfl,most⟩ := first
  obtain ⟨q,inQ,rfl,most'⟩ := second
  have here := most q inQ
  have there := most' p inP
  omega

theorem entryFound (some : 0 < graph.size) : ∃ e, entryPoint graph = .some e := by
  obtain ⟨point,member,high⟩ := topHeld some
  refine Option.isSome_iff_exists.mp (List.find?_isSome.mpr ⟨point.origin,?_,?_⟩)
  · exact List.mem_range.mpr (originLess member)
  · rw [levelAt member, high]
    exact beq_self_eq_true _

/-! The walk. -/

/- The points below the size that the walk has not reached. -/
def unreached (size : Nat) (reached : Nat → Bool) : Finset Nat := (Finset.range size).filter fun i => reached i = false

/- What pushing the edges of a point does: the reached are those before and the edges' ends; the new ones are stacked. -/
structure Pushed (size : Nat) (edges : List Nat) (start state : List Nat × (Nat → Bool)) : Prop where
  reached : ∀ i, state.2 i = true ↔ start.2 i = true ∨ i < size ∧ i ∈ edges
  kept : ∀ i ∈ start.1, i ∈ state.1
  stacked : ∀ i ∈ state.1, i ∈ start.1 ∨ state.2 i = true
  fresh : ∀ i, state.2 i = true → start.2 i = true ∨ i ∈ state.1
  room : state.1.length + (unreached size state.2).card = start.1.length + (unreached size start.2).card

theorem pushOne {size there : Nat} {state : List Nat × (Nat → Bool)} : Pushed size [there] state (push size state there) := by
  unfold push
  split_ifs with holds
  · obtain ⟨less,not⟩ := holds
    have inside : there ∈ unreached size state.2 := Finset.mem_filter.mpr ⟨Finset.mem_range.mpr less,not⟩
    have fewer : unreached size (Function.update state.2 there true) = (unreached size state.2).erase there := by
      ext i
      simp only [unreached, Finset.mem_filter, Finset.mem_erase, Finset.mem_range, Function.update_apply]
      split_ifs with is
      · simp [is]
      · simp [is]
    refine ⟨fun i => ?_,fun i => List.mem_cons_of_mem there,fun i member => ?_,fun i marked => ?_,?_⟩
    · rw [markOne, List.mem_singleton]
      constructor
      · rintro (before | rfl)
        · exact .inl before
        · exact .inr ⟨less,rfl⟩
      · rintro (before | ⟨_,rfl⟩)
        · exact .inl before
        · exact .inr rfl
    · rcases List.mem_cons.mp member with rfl | before
      · exact .inr (Function.update_self ..)
      · exact .inl before
    · rcases markOne.mp marked with before | rfl
      · exact .inl before
      · exact .inr List.mem_cons_self
    · have counted := Finset.card_erase_of_mem inside
      have positive := Finset.card_pos.mpr ⟨there,inside⟩
      rw [fewer, List.length_cons]
      omega
  · refine ⟨fun i => ⟨Or.inl,?_⟩,fun i => id,fun i => Or.inl,fun i => Or.inl,rfl⟩
    rintro (before | ⟨less,member⟩)
    · exact before
    · rw [List.mem_singleton] at member
      subst member
      simpa [less] using holds

theorem pushAll {size : Nat} : ∀ {edges : List Nat} {state : List Nat × (Nat → Bool)},
    Pushed size edges state (edges.foldl (push size) state)
  | [], state => ⟨by simp,fun _ => id,fun _ => .inl,fun _ => .inl,rfl⟩
  | there :: rest, state => by
      have one := @pushOne size there state
      have all := @pushAll size rest (push size state there)
      rw [List.foldl_cons]
      refine ⟨fun i => ?_,fun i member => all.kept i (one.kept i member),fun i member => ?_,fun i marked => ?_,?_⟩
      · rw [all.reached, one.reached, List.mem_singleton, List.mem_cons]
        tauto
      · rcases all.stacked i member with before | marked
        · rcases one.stacked i before with held | marked
          · exact .inl held
          · exact .inr ((all.reached i).mpr (.inl marked))
        · exact .inr marked
      · rcases all.fresh i marked with before | stacked
        · rcases one.fresh i before with held | stacked
          · exact .inl held
          · exact .inr (all.kept i stacked)
        · exact .inr stacked
      · rw [all.room, one.room]

/- The walk has reached only what a path leads to, and every edge of what it has reached unless that waits its turn. -/
structure Walking (size : Nat) (edges : Nat → List Nat) (entry : Nat) (state : List Nat × (Nat → Bool)) : Prop where
  sound : ∀ i, state.2 i = true → Relation.ReflTransGen (fun a b => b < size ∧ b ∈ edges a) entry i
  started : state.2 entry = true
  stacked : ∀ i ∈ state.1, state.2 i = true
  closed : ∀ a, state.2 a = true → a ∉ state.1 → ∀ b ∈ edges a, b < size → state.2 b = true

theorem Walking.round {size entry here : Nat} {edges : Nat → List Nat} {rest : List Nat} {reached : Nat → Bool}
    (walking : Walking size edges entry (here :: rest,reached)) :
    Walking size edges entry ((edges here).foldl (push size) (rest,reached)) := by
  have pushed := @pushAll size (edges here) (rest,reached)
  have marked : ∀ i, reached i = true → ((edges here).foldl (push size) (rest,reached)).2 i = true :=
    fun i before => (pushed.reached i).mpr (.inl before)
  refine ⟨fun i now => ?_,marked _ walking.started,fun i member => ?_,fun a now waits b edge less => ?_⟩
  · rcases (pushed.reached i).mp now with before | ⟨less,edge⟩
    · exact walking.sound i before
    · exact (walking.sound here (walking.stacked here List.mem_cons_self)).tail ⟨less,edge⟩
  · rcases pushed.stacked i member with before | now
    · exact marked i (walking.stacked i (List.mem_cons_of_mem here before))
    · exact now
  · by_cases is : a = here
    · subst is
      exact (pushed.reached b).mpr (.inr ⟨less,edge⟩)
    · have before : reached a = true := (pushed.fresh a now).resolve_right waits
      refine marked b (walking.closed a before (fun member => ?_) b edge less)
      rcases List.mem_cons.mp member with same | later
      · exact is same
      · exact waits (pushed.kept a later)

theorem walkEmpties {size entry : Nat} {edges : Nat → List Nat} : ∀ {fuel : Nat} {state : List Nat × (Nat → Bool)},
    Walking size edges entry state → state.1.length + (unreached size state.2).card ≤ fuel →
      Walking size edges entry (walk size edges fuel state) ∧ (walk size edges fuel state).1 = []
  | 0, (stack,reached), walking, enough => by
      have empty : stack = [] := List.eq_nil_of_length_eq_zero (by simp only at enough; omega)
      subst empty
      exact ⟨walking,rfl⟩
  | fuel + 1, ([],reached), walking, _ => ⟨walking,rfl⟩
  | fuel + 1, (here :: rest,reached), walking, enough => by
      have room := (@pushAll size (edges here) (rest,reached)).room
      simp only [List.length_cons] at enough room
      have done : _ ∧ (walk size edges fuel _).1 = [] := walkEmpties walking.round (by omega)
      exact done

/- At its end the walk has reached exactly what a path leads to. -/
theorem walkSpec {size entry i : Nat} {edges : Nat → List Nat} (less : entry < size) :
    (walk size edges size ([entry],Function.update (fun _ => false) entry true)).2 i = true ↔
      Relation.ReflTransGen (fun a b => b < size ∧ b ∈ edges a) entry i := by
  have first : ∀ a, Function.update (fun _ => false) entry true a = true → entry = a := by
    intro a marked
    rcases markOne.mp marked with no | is
    · exact absurd no Bool.false_ne_true
    · exact is
  have start : Walking size edges entry ([entry],Function.update (fun _ => false) entry true) := by
    refine ⟨fun a marked => first a marked ▸ .refl,by simp,fun a member => ?_,fun a marked waits => ?_⟩
    · rw [List.mem_singleton.mp member]
      simp
    · exact absurd (List.mem_singleton.mpr (first a marked).symm) waits
  have room : [entry].length + (unreached size (Function.update (fun _ => false) entry true)).card ≤ size := by
    have inside : unreached size (Function.update (fun _ => false) entry true) ⊆ (Finset.range size).erase entry := by
      intro a member
      obtain ⟨below,not⟩ := Finset.mem_filter.mp member
      refine Finset.mem_erase.mpr ⟨fun is => ?_,below⟩
      rw [is, Function.update_self] at not
      exact Bool.false_ne_true not.symm
    have counted := Finset.card_le_card inside
    rw [Finset.card_erase_of_mem (Finset.mem_range.mpr less), Finset.card_range] at counted
    simp only [List.length_singleton]
    omega
  obtain ⟨done,empty⟩ := walkEmpties start room
  refine ⟨done.sound i,fun path => ?_⟩
  induction path with
  | refl => exact done.started
  | tail _ edge ih => exact done.closed _ ih (by rw [empty]; exact List.not_mem_nil) _ edge.2 edge.1

/-! The layer read. -/

theorem entryLess {e : Nat} (entry : Entry graph e) : e < graph.size := by
  obtain ⟨point,member,rfl,_⟩ := entry
  exact originLess member

theorem reachedIff {e i : Nat} (entry : Entry graph e) : Reached graph i ↔
    Relation.ReflTransGen (fun a b => b < graph.size ∧ b ∈ edgesOf graph a) e i := by
  have same : Leads graph = fun a b => b < graph.size ∧ b ∈ edgesOf graph a := by
    funext a b
    exact propext leadsIff
  rw [← same]
  refine ⟨fun reached => ?_,fun path => ⟨e,entry,path⟩⟩
  obtain ⟨other,also,path⟩ := reached
  rw [entryUnique entry also]
  exact path

theorem leadsLess {a b : Nat} (leads : Leads graph a b) : a < graph.size := by
  obtain ⟨_,point,member,rfl,_⟩ := leads
  exact originLess member

theorem readSize (graph : Hnsw ν δ) : (Layer0.read graph).size = graph.size := by
  simp only [Layer0.read]
  split_ifs with none
  · exact none.symm
  · split <;> rfl

theorem readEdges {a : Nat} (less : a < graph.size) : (Layer0.read graph).edges a = edgesOf graph a := by
  simp only [Layer0.read]
  rw [if_neg (by omega)]
  split <;> rfl

theorem readFlags {i : Nat} (less : i < graph.size) :
    ((Layer0.read graph).outside i = true ↔ ¬Reached graph i) ∧ ((Layer0.read graph).noEdgeIn i = true ↔ ¬LedInto graph i) := by
  obtain ⟨e,found⟩ := @entryFound _ _ graph (by omega)
  have entry := entrySpec found
  simp only [Layer0.read, found]
  rw [if_neg (by omega)]
  constructor
  · rw [reachedIff entry, ← walkSpec (entryLess entry)]
    simp
  · have led : Function.update (linkedInto graph.size (edgesOf graph)) e true i = true ↔ LedInto graph i := by
      rw [markOne, linkedIntoIff]
      constructor
      · rintro (⟨a,_,apart,below,edge⟩ | rfl)
        · exact .inr ⟨a,apart,leadsIff.mpr ⟨below,edge⟩⟩
        · exact .inl entry
      · rintro (also | ⟨a,apart,leads⟩)
        · exact .inr (entryUnique entry also)
        · exact .inl ⟨a,leadsLess leads,apart,leadsIff.mp leads⟩
    rw [← led]
    simp

theorem cutOffIff {i : Nat} : i ∈ (Layer0.read graph).cutOff ↔ CutOff graph i := by
  unfold Layer0.cutOff CutOff
  rw [List.mem_filter, List.mem_range, readSize, Bool.or_eq_true]
  constructor
  · rintro ⟨less,flagged⟩
    rw [(readFlags less).1, (readFlags less).2] at flagged
    exact ⟨less,flagged.symm⟩
  · rintro ⟨less,cut⟩
    rw [(readFlags less).1, (readFlags less).2]
    exact ⟨less,cut.symm⟩

end

end Kimmy.Vector.Bridge
