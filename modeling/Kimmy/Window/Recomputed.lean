import Kimmy.Window.SlidSums

/-!
When sliding gives what computing afresh gives. Every accumulator answers for the run of positions the loop holds, so
the two agree wherever that run is the window; it is, as long as no window steps back from an earlier one.
-/
namespace Kimmy.Window
open Slider

section
variable {δ : Type}

theorem makeFaithful {acc : Accumulator δ} {S : Slider δ} (is : makeSlider acc = some S) : Nonempty S.Faithful := by
  cases acc with
  | sum e => cases is; exact ⟨sumFaithful e false⟩
  | avg e => cases is; exact ⟨sumFaithful e true⟩
  | min e => cases is; exact ⟨extremeFaithful e false⟩
  | max e => cases is; exact ⟨extremeFaithful e true⟩
  | first e => cases is
  | last e => cases is
  | push e => cases is; exact ⟨queueFaithful e .push⟩
  | addToSet e => cases is; exact ⟨setFaithful e⟩
  | count => cases is
  | firstN e n => cases is; exact ⟨queueFaithful e (.first n)⟩
  | lastN e n => cases is; exact ⟨queueFaithful e (.last n)⟩
  | maxN e n => cases is; exact ⟨bestFaithful e true n⟩
  | minN e n => cases is; exact ⟨bestFaithful e false n⟩
  | top e sort => cases is; exact ⟨rankedFaithful e sort false .single⟩
  | bottom e sort => cases is; exact ⟨rankedFaithful e sort true .single⟩
  | topN e sort n => cases is; exact ⟨rankedFaithful e sort false (.many n)⟩
  | bottomN e sort n => cases is; exact ⟨rankedFaithful e sort true (.many n)⟩

/-! Windows that do not step back. -/

/- A window that starts and ends no earlier than the run held, or an empty one where nothing is held. -/
def Moves (span window : Nat × Nat) : Prop :=
  span.1 ≤ window.1 ∧ span.2 ≤ window.2 ∨ span.1 = span.2 ∧ window.1 = window.2

theorem movesSlice (docs : List δ) {n : Nat} {span window : Nat × Nat} (fits : Fits n window) (moves : Moves span window) :
    slice docs (moved span window) = slice docs window := by
  obtain ⟨a,b⟩ := span
  obtain ⟨s,e⟩ := window
  have order := fits.order
  simp only [Moves] at moves order
  unfold moved
  simp only
  split_ifs with past
  · rfl
  · rcases moves with ⟨starts,stops⟩ | ⟨held,window⟩
    · rw [max_eq_right starts, max_eq_right stops]
    · subst held
      subst window
      have behind : s ≤ a := by omega
      rw [max_eq_left behind, sliceEmpty, sliceEmpty]

/- The run held is the window, along all of them. -/
def Chained : Nat × Nat → List (Nat × Nat) → Prop
  | _, [] => True
  | span, window :: rest => Moves span window ∧ Chained (moved span window) rest

theorem chainedAnswers {β : Type} (docs : List δ) {n : Nat} (answer : List δ → Option β) : ∀ {ends : List (Nat × Nat)}
    {span : Nat × Nat}, (∀ window ∈ ends, Fits n window) → Chained span ends →
    (spans span ends).mapM (fun span => answer (slice docs span)) = ends.mapM fun window => answer (slice docs window) := by
  intro ends
  induction ends with
  | nil => intro span _ _; rfl
  | cons window rest ih =>
    intro span fits chained
    obtain ⟨moves,later⟩ := chained
    rw [spans, List.mapM_cons, List.mapM_cons, movesSlice docs (fits window List.mem_cons_self) moves,
      ih (fun other member => fits other (List.mem_cons_of_mem _ member)) later]

theorem chainedSnoc (window : Nat × Nat) : ∀ {ends : List (Nat × Nat)} {span : Nat × Nat},
    Chained span (ends ++ [window]) ↔ Chained span ends ∧ Moves (ends.foldl moved span) window := by
  intro ends
  induction ends with
  | nil => intro span; simp [Chained]
  | cons first rest ih =>
    intro span
    rw [List.cons_append, Chained, Chained, ih, List.foldl_cons, and_assoc]

/- Componentwise. -/
def NotBefore (u w : Nat × Nat) : Prop := u.1 ≤ w.1 ∧ u.2 ≤ w.2

/- No window that covers something starts or ends before an earlier one does, and none right after such a one. -/
def Advancing (ends : List (Nat × Nat)) : Prop :=
  ∀ j k u w, j < k → ends[j]? = some u → ends[k]? = some w → (w.1 < w.2 ∨ j + 1 = k ∧ u.1 < u.2) → NotBefore u w

theorem advancingSnoc {ends : List (Nat × Nat)} {w : Nat × Nat} : Advancing (ends ++ [w]) ↔ Advancing ends ∧
    (w.1 < w.2 → ∀ u ∈ ends, NotBefore u w) ∧ ∀ u, ends.getLast? = some u → u.1 < u.2 → NotBefore u w := by
  constructor
  · intro advancing
    refine ⟨fun j k u v order first second => ?_,fun covers u member => ?_,fun u last covers => ?_⟩
    · have inside := (List.getElem?_eq_some_iff.mp second).1
      refine advancing j k u v order ?_ ?_
      · rw [List.getElem?_append_left (by omega)]
        exact first
      · rw [List.getElem?_append_left inside]
        exact second
    · obtain ⟨j,inside,rfl⟩ := List.getElem_of_mem member
      refine advancing j ends.length _ w inside ?_ List.getElem?_concat_length (Or.inl covers)
      rw [List.getElem?_append_left inside]
      exact List.getElem?_eq_getElem inside
    · obtain ⟨front,rfl⟩ := List.getLast?_eq_some_iff.mp last
      refine advancing front.length (front ++ [u]).length u w ?_ ?_ List.getElem?_concat_length (Or.inr ⟨?_,covers⟩)
      · simp
      · rw [List.getElem?_append_left (by simp)]
        exact List.getElem?_concat_length
      · simp
  · rintro ⟨advancing,covering,following⟩ j k u v order first second covers
    have inside := (List.getElem?_eq_some_iff.mp second).1
    rw [List.length_append, List.length_singleton] at inside
    have before : j < ends.length := by omega
    rw [List.getElem?_append_left before] at first
    rcases Nat.lt_or_ge k ends.length with earlier | last
    · rw [List.getElem?_append_left earlier] at second
      exact advancing j k u v order first second covers
    · obtain rfl : k = ends.length := by omega
      rw [List.getElem?_concat_length] at second
      cases second
      rcases covers with here | ⟨next,there⟩
      · exact covering here u (List.mem_of_getElem? first)
      · refine following u ?_ there
        rw [List.getLast?_eq_getElem?, ← next]
        exact first

/- The run held after some windows: the last of them, unless that covers nothing, and then one that covers nothing. -/
structure HeldAfter (ends : List (Nat × Nat)) (span : Nat × Nat) : Prop where
  order : span.1 ≤ span.2
  bounds : ∀ u ∈ ends, NotBefore u span
  origin : span = (0,0) ∨ span ∈ ends
  last : ∀ u, ends.getLast? = some u → u.1 < u.2 → u = span
  covers : span.1 < span.2 → ends.getLast? = some span

theorem heldMoves {ends : List (Nat × Nat)} {span w : Nat × Nat} (held : HeldAfter ends span) (order : w.1 ≤ w.2) :
    Moves span w ↔ (w.1 < w.2 → ∀ u ∈ ends, NotBefore u w) ∧ ∀ u, ends.getLast? = some u → u.1 < u.2 → NotBefore u w := by
  constructor
  · intro moves
    refine ⟨fun covers u member => ?_,fun u last covers => ?_⟩
    · rcases moves with ⟨starts,stops⟩ | ⟨_,empty⟩
      · obtain ⟨low,high⟩ := held.bounds u member
        exact ⟨low.trans starts,high.trans stops⟩
      · omega
    · obtain rfl := held.last u last covers
      rcases moves with forward | ⟨empty,_⟩
      · exact forward
      · omega
  · rintro ⟨covering,following⟩
    rcases Nat.eq_or_lt_of_le order with empty | covers
    · rcases Nat.eq_or_lt_of_le held.order with nothing | something
      · exact Or.inr ⟨nothing,empty⟩
      · exact Or.inl (following span (held.covers something) something)
    · rcases held.origin with zero | member
      · rw [zero]
        exact Or.inl ⟨Nat.zero_le _,Nat.zero_le _⟩
      · exact Or.inl (covering covers span member)

theorem heldStep {ends : List (Nat × Nat)} {span w : Nat × Nat} (held : HeldAfter ends span) (order : w.1 ≤ w.2)
    (moves : Moves span w) : HeldAfter (ends ++ [w]) (moved span w) := by
  obtain ⟨a,b⟩ := span
  obtain ⟨s,e⟩ := w
  have below := held.order
  simp only [Moves] at moves order below
  -- either the window is what is held now, or it covers nothing and nothing was held
  have cases : moved (a,b) (s,e) = (s,e) ∨ moved (a,b) (s,e) = (a,b) ∧ a = b ∧ s = e ∧ s ≤ a := by
    unfold moved
    simp only
    split_ifs with past
    · exact Or.inl rfl
    · rcases moves with ⟨starts,stops⟩ | ⟨nothing,empty⟩
      · rw [max_eq_right starts, max_eq_right stops]
        exact Or.inl rfl
      · refine Or.inr ⟨?_,nothing,empty,by omega⟩
        rw [max_eq_left (by omega), max_eq_left (by omega)]
  rcases cases with is | ⟨is,nothing,empty,behind⟩
  · rw [is]
    refine ⟨order,fun u member => ?_,Or.inr (by simp),fun u last _ => ?_,fun _ => List.getLast?_concat⟩
    · rcases List.mem_append.mp member with earlier | here
      · obtain ⟨low,high⟩ := held.bounds u earlier
        have next : a ≤ s ∧ b ≤ e := by
          unfold moved at is
          simp only at is
          split_ifs at is with past
          · omega
          · obtain ⟨starts,stops⟩ := Prod.mk.inj is
            omega
        exact ⟨low.trans next.1,high.trans next.2⟩
      · rw [List.mem_singleton.mp here]
        exact ⟨le_rfl,le_rfl⟩
    · rw [List.getLast?_concat] at last
      exact (Option.some.inj last).symm
  · rw [is]
    refine ⟨below,fun u member => ?_,held.origin.imp_right fun member => List.mem_append_left _ member,fun u last covers => ?_,
      fun covers => absurd covers (by simp only; omega)⟩
    · rcases List.mem_append.mp member with earlier | here
      · exact held.bounds u earlier
      · rw [List.mem_singleton.mp here]
        exact ⟨behind,by simp only; omega⟩
    · rw [List.getLast?_concat] at last
      cases last
      simp only at covers
      omega

theorem chainedIff {ends : List (Nat × Nat)} (order : ∀ w ∈ ends, w.1 ≤ w.2) : Chained (0,0) ends ↔ Advancing ends := by
  have both : (Chained (0,0) ends ↔ Advancing ends) ∧ (Chained (0,0) ends → HeldAfter ends (ends.foldl moved (0,0))) := by
    induction ends using List.reverseRecOn with
    | nil => exact ⟨⟨fun _ => by simp [Advancing],fun _ => trivial⟩,fun _ => ⟨le_rfl,nofun,Or.inl rfl,nofun,nofun⟩⟩
    | append_singleton rest w ih =>
      obtain ⟨same,held⟩ := ih fun u member => order u (List.mem_append_left _ member)
      have forward := order w (by simp)
      rw [chainedSnoc, advancingSnoc, List.foldl_append]
      refine ⟨⟨fun ⟨chained,moves⟩ => ?_,fun ⟨advancing,rest⟩ => ?_⟩,fun ⟨chained,moves⟩ => ?_⟩
      · exact ⟨same.mp chained,(heldMoves (held chained) forward).mp moves⟩
      · have chained := same.mpr advancing
        exact ⟨chained,(heldMoves (held chained) forward).mpr rest⟩
      · exact heldStep (held chained) forward moves
  exact both.1

end

end Kimmy.Window
