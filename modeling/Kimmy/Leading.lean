import Mathlib.Data.Finset.Card
import Mathlib.Data.Finset.Filter
import Mathlib.Data.Finset.Max
import Mathlib.Data.List.Sort
import Mathlib.Order.Basic

/-!
The best of a set, at most so many of it, and the best of each kind in it. What one more member changes is read off
from what is held, so members that were turned away never have to be looked at again.
-/
namespace Kimmy.Leading
variable {α κ : Type} [LinearOrder α] [DecidableEq κ]

/- The best `n` of a set, or the set where it has no more. -/
structure Leads (n : Nat) (all best : Finset α) : Prop where
  sub : best ⊆ all
  most : best.card ≤ n
  full : best = all ∨ best.card = n
  above : ∀ x ∈ all, x ∉ best → ∀ y ∈ best, x < y

namespace Leads
variable {n : Nat} {all best : Finset α} {x w : α}

theorem empty (n : Nat) : Leads n (∅ : Finset α) ∅ := ⟨subset_rfl,Nat.zero_le n,Or.inl rfl,nofun⟩

theorem unique {other : Finset α} (first : Leads n all best) (second : Leads n all other) : best = other := by
  have inside {a b : Finset α} (one : Leads n all a) (two : Leads n all b) : a ⊆ b := by
    intro x member
    by_contra missing
    have size : b.card = n := two.full.resolve_left fun whole => missing (whole ▸ one.sub member)
    -- every member of `b` is above `x`, and so in `a` too
    have more : b ⊆ a.erase x := by
      intro y held
      have above := two.above x (one.sub member) missing y held
      refine Finset.mem_erase.mpr ⟨above.ne',?_⟩
      by_contra out
      exact lt_asymm above (one.above y (two.sub held) out x member)
    have room := Finset.card_le_card more
    have less := Finset.card_erase_lt_of_mem member
    have most := one.most
    omega
  exact Finset.Subset.antisymm (inside first second) (inside second first)

theorem whole (leads : Leads n all best) (room : best.card < n) : best = all :=
  leads.full.resolve_right room.ne

/- There is room for one more. -/
theorem add (leads : Leads n all best) (room : best.card < n) : Leads n (insert x all) (insert x best) := by
  have same := leads.whole room
  subst same
  exact ⟨subset_rfl,(Finset.card_insert_le x best).trans room,Or.inl rfl,fun y member out => absurd member out⟩

/- One below everything held changes nothing. -/
theorem keep (leads : Leads n all best) (size : best.card = n) (below : ∀ y ∈ best, x < y) :
    Leads n (insert x all) best := by
  refine ⟨leads.sub.trans (Finset.subset_insert x all),size.le,Or.inr size,fun y member out z held => ?_⟩
  rcases Finset.mem_insert.mp member with rfl | old
  · exact below z held
  · exact leads.above y old out z held

/- One above the worst held takes its place. -/
theorem swap (leads : Leads n all best) (new : x ∉ all) (size : best.card = n) (held : w ∈ best)
    (worst : ∀ y ∈ best, w ≤ y) (above : w < x) : Leads n (insert x all) (insert x (best.erase w)) := by
  have out : x ∉ best.erase w := fun member => new (leads.sub (Finset.mem_of_mem_erase member))
  have count : (insert x (best.erase w)).card = n := by
    rw [Finset.card_insert_of_notMem out, Finset.card_erase_add_one held, size]
  refine ⟨?_,count.le,Or.inr count,fun y member away z kept => ?_⟩
  · exact Finset.insert_subset_insert x ((Finset.erase_subset w best).trans leads.sub)
  · rw [Finset.mem_insert, not_or, Finset.mem_erase, not_and] at away
    have old := (Finset.mem_insert.mp member).resolve_left away.1
    -- what is not kept was not held before, or is the one that left
    have least : y ≤ w := by
      by_cases same : y = w
      · exact same.le
      · exact (leads.above y old (away.2 same) w held).le
    rcases Finset.mem_insert.mp kept with rfl | before
    · exact least.trans_lt above
    · obtain ⟨apart,before⟩ := Finset.mem_erase.mp before
      exact least.trans_lt (lt_of_le_of_ne (worst z before) (Ne.symm apart))

/- One goes out of the set and a better one comes in. -/
theorem exchange (leads : Leads n all best) (new : x ∉ all) (held : w ∈ best) (above : w < x) :
    Leads n (insert x (all.erase w)) (insert x (best.erase w)) := by
  have out : x ∉ best.erase w := fun member => new (leads.sub (Finset.mem_of_mem_erase member))
  have count : (insert x (best.erase w)).card = best.card := by
    rw [Finset.card_insert_of_notMem out, Finset.card_erase_add_one held]
  refine ⟨Finset.insert_subset_insert x (Finset.erase_subset_erase w leads.sub),count.trans_le leads.most,?_,?_⟩
  · rcases leads.full with rfl | size
    · exact Or.inl rfl
    · exact Or.inr (count.trans size)
  · intro y member away z kept
    rw [Finset.mem_insert, not_or, Finset.mem_erase, not_and] at away
    obtain ⟨apart,old⟩ := Finset.mem_erase.mp ((Finset.mem_insert.mp member).resolve_left away.1)
    have under := leads.above y old (away.2 apart)
    rcases Finset.mem_insert.mp kept with rfl | before
    · exact (under w held).trans above
    · exact under z (Finset.mem_of_mem_erase before)

/- One that is not held goes out of the set. -/
theorem drop (leads : Leads n all best) (out : w ∉ best) : Leads n (all.erase w) best := by
  refine ⟨fun y held => Finset.mem_erase.mpr ⟨fun same => out (same ▸ held),leads.sub held⟩,leads.most,?_,?_⟩
  · rcases leads.full with rfl | size
    · exact Or.inl (Finset.erase_eq_of_notMem out).symm
    · exact Or.inr size
  · exact fun y member => leads.above y (Finset.mem_of_mem_erase member)

end Leads

/-! At most so many of each kind. -/

/- The members of one kind. -/
def ofKind (kind : α → κ) (d : κ) (s : Finset α) : Finset α := s.filter fun x => kind x = d

/- The best `cap` of each kind. -/
def Capped (cap : Nat) (kind : α → κ) (all held : Finset α) : Prop :=
  ∀ d, Leads cap (ofKind kind d all) (ofKind kind d held)

section
variable {cap n : Nat} {kind : α → κ} {all held best : Finset α} {x w : α}

omit [LinearOrder α] in
theorem memOfKind {d : κ} {s : Finset α} : x ∈ ofKind kind d s ↔ x ∈ s ∧ kind x = d := Finset.mem_filter

theorem ofKindInsert (d : κ) (s : Finset α) :
    ofKind kind d (insert x s) = if kind x = d then insert x (ofKind kind d s) else ofKind kind d s :=
  Finset.filter_insert ..

theorem ofKindErase (d : κ) (s : Finset α) : ofKind kind d (s.erase w) = (ofKind kind d s).erase w :=
  Finset.filter_erase ..

theorem Capped.sub (capped : Capped cap kind all held) : held ⊆ all := by
  intro y member
  exact (memOfKind.mp ((capped (kind y)).sub (memOfKind.mpr ⟨member,rfl⟩))).1

theorem Capped.unique {other : Finset α} (first : Capped cap kind all held) (second : Capped cap kind all other) :
    held = other := by
  ext y
  have same := (first (kind y)).unique (second (kind y))
  have member := Finset.ext_iff.mp same y
  rwa [memOfKind, memOfKind, and_iff_left rfl, and_iff_left rfl] at member

/- What one more member of the kind does to the kind, it does to the whole. -/
theorem Capped.lift (capped : Capped cap kind all held) {next : Finset α}
    (own : Leads cap (insert x (ofKind kind (kind x) all)) (ofKind kind (kind x) next))
    (others : ∀ d, d ≠ kind x → ofKind kind d next = ofKind kind d held) : Capped cap kind (insert x all) next := by
  intro d
  rw [ofKindInsert]
  by_cases same : kind x = d
  · subst same
    rw [if_pos rfl]
    exact own
  · rw [if_neg same, others d (Ne.symm same)]
    exact capped d

theorem Capped.add (capped : Capped cap kind all held) (room : (ofKind kind (kind x) held).card < cap) :
    Capped cap kind (insert x all) (insert x held) := by
  refine capped.lift ?_ fun d apart => ?_
  · rw [ofKindInsert, if_pos rfl]
    exact (capped (kind x)).add room
  · rw [ofKindInsert, if_neg (Ne.symm apart)]

theorem Capped.keep (capped : Capped cap kind all held) (size : (ofKind kind (kind x) held).card = cap)
    (below : ∀ y ∈ ofKind kind (kind x) held, x < y) : Capped cap kind (insert x all) held :=
  capped.lift ((capped (kind x)).keep size below) fun _ _ => rfl

theorem Capped.swap (capped : Capped cap kind all held) (new : x ∉ all) (size : (ofKind kind (kind x) held).card = cap)
    (member : w ∈ ofKind kind (kind x) held) (worst : ∀ y ∈ ofKind kind (kind x) held, w ≤ y) (above : w < x) :
    Capped cap kind (insert x all) (insert x (held.erase w)) := by
  refine capped.lift ?_ fun d apart => ?_
  · rw [ofKindInsert, if_pos rfl, ofKindErase]
    exact (capped (kind x)).swap (fun inside => new (memOfKind.mp inside).1) size member worst above
  · rw [ofKindInsert, if_neg (Ne.symm apart), ofKindErase]
    refine Finset.erase_eq_of_notMem fun inside => apart ?_
    rw [← (memOfKind.mp inside).2, (memOfKind.mp member).2]

/-! The best of all, of which no kind has more than its share. -/

/- The best `n` of what is left when each kind is cut to its best `cap`. -/
def Held (cap n : Nat) (kind : α → κ) (all best : Finset α) : Prop :=
  ∃ held, Capped cap kind all held ∧ Leads n held best

theorem Held.empty (cap n : Nat) (kind : α → κ) : Held cap n kind (∅ : Finset α) ∅ :=
  ⟨∅,fun _ => Leads.empty cap,Leads.empty n⟩

theorem Held.unique {other : Finset α} (first : Held cap n kind all best) (second : Held cap n kind all other) :
    best = other := by
  obtain ⟨a,cappedA,leadsA⟩ := first
  obtain ⟨b,cappedB,leadsB⟩ := second
  rw [cappedA.unique cappedB] at leadsA
  exact leadsA.unique leadsB

/- The share of a kind is used up: the worst of the kind. -/
theorem Capped.leastOf (capped : Capped cap kind all held) (positive : 0 < cap) {d : κ}
    (full : ¬ (ofKind kind d held).card < cap) :
    (ofKind kind d held).card = cap ∧ ∃ w ∈ ofKind kind d held, ∀ y ∈ ofKind kind d held, w ≤ y := by
  have size := le_antisymm (capped d).most (not_lt.mp full)
  have some : (ofKind kind d held).Nonempty := Finset.card_pos.mp (by omega)
  exact ⟨size,_,Finset.min'_mem _ some,fun y member => Finset.min'_le _ y member⟩

/- One below everything held, where there is no room, is turned away. -/
theorem Held.turnAway (state : Held cap n kind all best) (positive : 0 < cap) (new : x ∉ all) (size : best.card = n)
    (below : ∀ y ∈ best, x < y) : Held cap n kind (insert x all) best := by
  obtain ⟨held,capped,leads⟩ := state
  have outside : x ∉ held := fun member => new (capped.sub member)
  by_cases room : (ofKind kind (kind x) held).card < cap
  · exact ⟨_,capped.add room,leads.keep size below⟩
  · obtain ⟨own,w,member,worst⟩ := capped.leastOf positive room
    rcases lt_trichotomy x w with under | same | above
    · exact ⟨_,capped.keep own fun y inside => under.trans_le (worst y inside),leads⟩
    · exact absurd (same ▸ (memOfKind.mp member).1) outside
    · have out : w ∉ best := fun inside => lt_asymm above (below w inside)
      exact ⟨_,capped.swap new own member worst above,(leads.drop out).keep size below⟩

/- There is room, and nothing was cut. -/
theorem Held.add (state : Held cap n kind all best) (share : (ofKind kind (kind x) best).card < cap) (room : best.card < n) :
    Held cap n kind (insert x all) (insert x best) := by
  obtain ⟨held,capped,leads⟩ := state
  have same := leads.whole room
  subst same
  exact ⟨_,capped.add share,leads.add room⟩

omit [LinearOrder α] in
theorem ofKindLe (kind : α → κ) (d : κ) {s t : Finset α} (sub : s ⊆ t) : (ofKind kind d s).card ≤ (ofKind kind d t).card :=
  Finset.card_le_card (Finset.filter_subset_filter _ sub)

/- The worst of all gives way. -/
theorem Held.swap (state : Held cap n kind all best) (positive : 0 < cap) (new : x ∉ all)
    (share : (ofKind kind (kind x) best).card < cap) (size : best.card = n) (held : w ∈ best) (worst : ∀ y ∈ best, w ≤ y)
    (above : w < x) : Held cap n kind (insert x all) (insert x (best.erase w)) := by
  obtain ⟨kept,capped,leads⟩ := state
  have outside : x ∉ kept := fun member => new (capped.sub member)
  by_cases room : (ofKind kind (kind x) kept).card < cap
  · exact ⟨_,capped.add room,leads.swap outside size held worst above⟩
  · obtain ⟨own,v,member,least⟩ := capped.leastOf positive room
    -- the worst of the kind is not among the best, or the whole kind would be
    have out : v ∉ best := by
      intro inside
      have all : ofKind kind (kind x) kept ⊆ ofKind kind (kind x) best := by
        intro y there
        by_contra away
        have missing : y ∉ best := fun inside => away (memOfKind.mpr ⟨inside,(memOfKind.mp there).2⟩)
        exact absurd (leads.above y (memOfKind.mp there).1 missing v inside) (not_lt.mpr (least y there))
      have count := Finset.card_le_card all
      omega
    have under := leads.above v (memOfKind.mp member).1 out w held
    have fresh : x ∉ kept.erase v := fun inside => outside (Finset.mem_of_mem_erase inside)
    exact ⟨_,capped.swap new own member least (under.trans above),(leads.drop out).swap fresh size held worst above⟩

/- The whole share of the kind is among the best. -/
theorem Capped.share (capped : Capped cap kind all held) (leads : Leads n held best) {d : κ}
    (full : ¬ (ofKind kind d best).card < cap) : ofKind kind d best = ofKind kind d held ∧ (ofKind kind d held).card = cap := by
  have most := (capped d).most
  have less := ofKindLe kind d leads.sub
  have same : ofKind kind d best = ofKind kind d held :=
    Finset.eq_of_subset_of_card_le (Finset.filter_subset_filter _ leads.sub) (by omega)
  exact ⟨same,by rw [← same]; omega⟩

/- One below its kind's own worst, where the kind has its share, is turned away. -/
theorem Held.turnOwn (state : Held cap n kind all best) (full : ¬ (ofKind kind (kind x) best).card < cap)
    (below : ∀ y ∈ ofKind kind (kind x) best, x < y) : Held cap n kind (insert x all) best := by
  obtain ⟨held,capped,leads⟩ := state
  obtain ⟨same,size⟩ := capped.share leads full
  exact ⟨held,capped.keep size (by rwa [← same]),leads⟩

/- The kind's own worst gives way. -/
theorem Held.swapOwn (state : Held cap n kind all best) (new : x ∉ all) (full : ¬ (ofKind kind (kind x) best).card < cap)
    (member : w ∈ ofKind kind (kind x) best) (worst : ∀ y ∈ ofKind kind (kind x) best, w ≤ y) (above : w < x) :
    Held cap n kind (insert x all) (insert x (best.erase w)) := by
  obtain ⟨held,capped,leads⟩ := state
  obtain ⟨same,size⟩ := capped.share leads full
  have outside : x ∉ held := fun inside => new (capped.sub inside)
  have held' := (memOfKind.mp member).1
  rw [same] at member worst
  exact ⟨_,capped.swap new size member worst above,leads.exchange outside held' above⟩

theorem Held.sub (state : Held cap n kind all best) : best ⊆ all := by
  obtain ⟨_,capped,leads⟩ := state
  exact leads.sub.trans capped.sub

theorem Held.most (state : Held cap n kind all best) : best.card ≤ n := by
  obtain ⟨_,_,leads⟩ := state
  exact leads.most

end

/-! As lists, best first. -/

/- Each one that its kind still has room for. -/
def withinShare (cap : Nat) (kind : α → κ) : List α → List α → List α
  | _, [] => []
  | kept, x :: rest =>
      if (kept.filter fun y => kind y = kind x).length < cap then x :: withinShare cap kind (kept ++ [x]) rest
      else withinShare cap kind kept rest

attribute [local simp] withinShare

section
variable {cap n : Nat} {kind : α → κ}

omit [LinearOrder α] in
theorem withinShareSub : ∀ {kept list : List α}, (withinShare cap kind kept list).Sublist list := by
  intro kept list
  induction list generalizing kept with
  | nil => exact List.Sublist.refl _
  | cons x rest ih =>
    unfold withinShare
    split_ifs
    · exact ih.cons_cons x
    · exact ih.cons x

theorem withinShareCapped : ∀ {list kept done : List α}, (done ++ list).Pairwise (· > ·) → kept.Sublist done →
    Capped cap kind done.toFinset kept.toFinset →
    Capped cap kind (done ++ list).toFinset (kept ++ withinShare cap kind kept list).toFinset := by
  intro list
  induction list with
  | nil =>
    intro kept done _ _ capped
    simpa [withinShare] using capped
  | cons x rest ih =>
    intro kept done order sub capped
    have fresh (list : List α) : (list.filter fun y => kind y = kind x).toFinset = ofKind kind (kind x) list.toFinset := by
      rw [List.toFinset_filter]
      simp [ofKind]
    obtain ⟨ordered,_,above⟩ := List.pairwise_append.mp order
    have distinct : kept.Nodup := (ordered.sublist sub).imp fun above => above.ne'
    have count : (ofKind kind (kind x) kept.toFinset).card = (kept.filter fun y => kind y = kind x).length := by
      rw [← fresh, List.toFinset_card_of_nodup (distinct.filter _)]
    have one : insert x done.toFinset = (done ++ [x]).toFinset := by
      ext y
      simp
    rw [List.append_cons] at order ⊢
    unfold withinShare
    split_ifs with room
    · have next := capped.add (x := x) (by rw [count]; exact room)
      have two : insert x kept.toFinset = (kept ++ [x]).toFinset := by
        ext y
        simp
      rw [one, two] at next
      rw [List.append_cons kept]
      exact ih order (sub.append (List.Sublist.refl [x])) next
    · have size : (ofKind kind (kind x) kept.toFinset).card = cap :=
        le_antisymm (capped (kind x)).most (by rw [count]; exact not_lt.mp room)
      have next := capped.keep size fun y member => by
        have inside := sub.subset (List.mem_toFinset.mp (memOfKind.mp member).1)
        exact above y inside x List.mem_cons_self
      rw [one] at next
      exact ih order (sub.trans (List.sublist_append_left done [x])) next

theorem takeLeads {list : List α} (order : list.Pairwise (· > ·)) (n : Nat) : Leads n list.toFinset (list.take n).toFinset := by
  have distinct : list.Nodup := order.imp fun above => above.ne'
  have size : (list.take n).toFinset.card = min n list.length := by
    rw [List.toFinset_card_of_nodup (distinct.sublist (List.take_sublist n list)), List.length_take]
  refine ⟨fun y member => ?_,by omega,?_,fun x member out y held => ?_⟩
  · exact List.mem_toFinset.mpr (List.mem_of_mem_take (List.mem_toFinset.mp member))
  · rcases Nat.le_total list.length n with short | long
    · rw [List.take_of_length_le short]
      exact Or.inl rfl
    · exact Or.inr (by omega)
  · rw [← List.take_append_drop n list] at order member
    obtain ⟨_,_,above⟩ := List.pairwise_append.mp order
    rw [List.mem_toFinset] at out held
    have later := (List.mem_append.mp (List.mem_toFinset.mp member)).resolve_left out
    exact above y held x later

theorem heldList {list : List α} (order : list.Pairwise (· > ·)) :
    Held cap n kind list.toFinset ((withinShare cap kind [] list).take n).toFinset := by
  refine ⟨(withinShare cap kind [] list).toFinset,?_,takeLeads (order.sublist withinShareSub) n⟩
  have capped := @withinShareCapped α κ _ _ cap kind list [] [] order (List.Sublist.refl _) fun _ => Leads.empty cap
  exact capped

end

end Kimmy.Leading
