import Kimmy.Vector.Heads
import Mathlib.Data.List.Perm.Subperm

/-!
Bridging reconnects a graph. Edges are only ever added, so no path is lost; each head is joined to points that are
not cut off, and there is one, the entry point.
-/
namespace Kimmy.Vector.Bridge

section
variable {ν δ : Type} (metric : Metric ν δ) {graph : Hnsw ν δ}

/-! More edges, and nothing else. -/

structure Widens (graph wider : Hnsw ν δ) : Prop where
  size : wider.size = graph.size
  entry : ∀ e, Entry graph e → Entry wider e
  leads : ∀ a b, Leads graph a b → Leads wider a b

theorem Widens.refl (graph : Hnsw ν δ) : Widens graph graph := ⟨rfl,fun _ => id,fun _ _ => id⟩

theorem Widens.trans {first second third : Hnsw ν δ} (one : Widens first second) (two : Widens second third) :
    Widens first third :=
  ⟨two.size.trans one.size,fun e is => two.entry e (one.entry e is),fun a b leads => two.leads a b (one.leads a b leads)⟩

theorem Widens.reached {wider : Hnsw ν δ} (widens : Widens graph wider) {i : Nat} (reached : Reached graph i) :
    Reached wider i := by
  obtain ⟨e,entry,path⟩ := reached
  exact ⟨e,widens.entry e entry,Relation.ReflTransGen.mono widens.leads _ _ path⟩

theorem Widens.ledInto {wider : Hnsw ν δ} (widens : Widens graph wider) {i : Nat} (led : LedInto graph i) :
    LedInto wider i := by
  rcases led with entry | ⟨a,apart,leads⟩
  · exact .inl (widens.entry i entry)
  · exact .inr ⟨a,apart,widens.leads a i leads⟩

theorem Widens.cutOff {wider : Hnsw ν δ} (widens : Widens graph wider) {i : Nat} (cut : CutOff wider i) : CutOff graph i := by
  obtain ⟨less,lost⟩ := cut
  refine ⟨widens.size ▸ less,lost.imp ?_ ?_⟩
  · exact mt widens.reached
  · exact mt widens.ledInto

/- A map over the points that keeps each point's id and level and drops no edge. -/
theorem widensMap {points : List (Point ν δ)} {dense} {extend : Point ν δ → Point ν δ}
    (is : points = graph.points.map extend) (origin : ∀ p, (extend p).origin = p.origin)
    (level : ∀ p, (extend p).level = p.level)
    (edges : ∀ p, ∀ b ∈ p.neighbours.map Prod.fst, b ∈ (extend p).neighbours.map Prod.fst) :
    Widens graph ⟨points,dense⟩ := by
  subst is
  have size : (Hnsw.mk (graph.points.map extend) dense).size = graph.size := List.length_map _
  refine ⟨size,fun e entry => ?_,fun a b leads => ?_⟩
  · obtain ⟨point,member,own,most⟩ := entry
    refine ⟨extend point,List.mem_map_of_mem member,(origin point).trans own,fun other there => ?_⟩
    obtain ⟨before,was,rfl⟩ := List.mem_map.mp there
    rw [level, level, origin]
    exact most before was
  · obtain ⟨less,point,member,own,edge⟩ := leads
    exact ⟨size ▸ less,extend point,List.mem_map_of_mem member,(origin point).trans own,edges point b edge⟩

/-! Adding an edge. -/

theorem vectorFold {head : Nat} : ∀ {points : List (Point ν δ)} {found : Option ν},
    (found.isSome = true ∨ ∃ point ∈ points, point.origin = head) →
      (points.foldl (fun found point => if point.origin = head then some point.vector else found) found).isSome = true
  | [], found, known => by simpa using known
  | point :: rest, found, known => by
      rw [List.foldl_cons]
      refine vectorFold ?_
      by_cases here : point.origin = head
      · simp [here]
      · simpa [here] using known

theorem vectorKnown {i : Nat} (less : i < graph.size) : ∃ vector, vectorOf graph i = some vector :=
  Option.isSome_iff_exists.mp (vectorFold (.inr (pointAt less)))

theorem extendedKeeps {edge : Nat × Nat} {distance : δ} {point : Point ν δ} :
    (extended metric edge distance point).level = point.level ∧
      ∀ b ∈ point.neighbours.map Prod.fst, b ∈ (extended metric edge distance point).neighbours.map Prod.fst := by
  unfold extended
  split_ifs
  · exact ⟨rfl,fun _ => id⟩
  · refine ⟨rfl,fun b member => ?_⟩
    obtain ⟨x,there,rfl⟩ := List.mem_map.mp member
    exact List.mem_map_of_mem (List.mem_mergeSort.mpr (List.mem_append_left _ there))

theorem extendedLeads {edge : Nat × Nat} {distance : δ} {point : Point ν δ} (own : point.origin = edge.1) :
    edge.2 ∈ (extended metric edge distance point).neighbours.map Prod.fst := by
  unfold extended
  split_ifs with present
  · rcases present with other | listed
    · exact absurd own other
    · exact List.contains_iff_mem.mp listed
  · exact List.mem_map.mpr ⟨_,List.mem_mergeSort.mpr (List.mem_append_right _ List.mem_cons_self),rfl⟩

theorem edgeAdded (graph : Hnsw ν δ) (edge : Nat × Nat) : Widens graph (addEdge metric graph edge) ∧
    (edge.1 < graph.size → edge.2 < graph.size → edge.1 ≠ edge.2 → Leads (addEdge metric graph edge) edge.1 edge.2) := by
  unfold addEdge
  split_ifs with self
  · exact ⟨.refl graph,fun _ _ apart => absurd self apart⟩
  split
  case h_2 unknown =>
    refine ⟨.refl graph,fun first second _ => ?_⟩
    obtain ⟨source,is⟩ := vectorKnown first
    obtain ⟨target,is'⟩ := vectorKnown second
    exact (unknown source target is is').elim
  case h_1 source target _ _ =>
    refine ⟨widensMap rfl (fun p => extendedOrigin ..) (fun p => (extendedKeeps metric).1) fun p => (extendedKeeps metric).2,
      fun first second _ => ?_⟩
    obtain ⟨point,member,own⟩ := pointAt first
    refine ⟨?_,_,List.mem_map_of_mem member,(extendedOrigin ..).trans own,extendedLeads metric own⟩
    exact lt_of_lt_of_eq second (List.length_map _).symm

theorem edgesAdded : ∀ {edges : List (Nat × Nat)} {graph : Hnsw ν δ}, Widens graph (addLayer0Edges metric graph edges) ∧
    ∀ edge ∈ edges, edge.1 < graph.size → edge.2 < graph.size → edge.1 ≠ edge.2 →
      Leads (addLayer0Edges metric graph edges) edge.1 edge.2
  | [], graph => ⟨.refl graph,fun edge no => absurd no List.not_mem_nil⟩
  | first :: rest, graph => by
      obtain ⟨widens,leads⟩ := edgeAdded metric graph first
      obtain ⟨further,each⟩ := @edgesAdded rest (addEdge metric graph first)
      refine ⟨widens.trans further,fun edge member less less' apart => ?_⟩
      rcases List.mem_cons.mp member with rfl | later
      · exact further.leads _ _ (leads less less' apart)
      · exact each edge later (widens.size ▸ less) (widens.size ▸ less') apart

/-! The nearest linked points of a head. -/

section
variable {lost : Nat → Bool} {size : Nat} {vector : ν}

theorem scoredLinked {near : List (δ × Nat)} {point : Point ν δ} (linked : ∀ x ∈ near, x.2 < size ∧ lost x.2 = false) :
    ∀ x ∈ scored metric vector lost size near point, x.2 < size ∧ lost x.2 = false := by
  unfold scored
  split_ifs with passed
  · exact linked
  · have more : ∀ x ∈ near ++ [(metric.eval vector point.vector,point.origin)], x.2 < size ∧ lost x.2 = false := by
      intro x member
      rcases List.mem_append.mp member with before | new
      · exact linked x before
      · rw [List.mem_singleton.mp new]
        simpa using passed
    dsimp only
    split_ifs
    · exact fun x member => more x (List.mem_mergeSort.mp (List.mem_of_mem_take member))
    · exact more

theorem scoredSome {near : List (δ × Nat)} {point : Point ν δ}
    (known : near ≠ [] ∨ point.origin < size ∧ lost point.origin = false) :
    scored metric vector lost size near point ≠ [] := by
  unfold scored
  split_ifs with passed
  · rcases known with held | ⟨less,is⟩
    · exact held
    · exact absurd passed (by simp [less, is])
  · dsimp only
    split_ifs with full
    · intro none
      have counted := congrArg List.length none
      simp [linkEdges] at counted
    · simp

theorem nearFold : ∀ {points : List (Point ν δ)} {near : List (δ × Nat)}, (∀ x ∈ near, x.2 < size ∧ lost x.2 = false) →
    (∀ x ∈ points.foldl (scored metric vector lost size) near, x.2 < size ∧ lost x.2 = false) ∧
      ((near ≠ [] ∨ ∃ point ∈ points, point.origin < size ∧ lost point.origin = false) →
        points.foldl (scored metric vector lost size) near ≠ [])
  | [], near, linked => ⟨linked,fun known => by simpa using known⟩
  | point :: rest, near, linked => by
      have linked' := @scoredLinked _ _ metric lost size vector near point linked
      obtain ⟨all,some⟩ := @nearFold rest _ linked'
      refine ⟨all,fun known => some ?_⟩
      rcases known with held | ⟨other,member,is⟩
      · exact .inl (scoredSome metric (.inl held))
      · rcases List.mem_cons.mp member with rfl | later
        · exact .inl (scoredSome metric (.inr is))
        · exact .inr ⟨other,later,is⟩

end

theorem nearestLinked {head : Nat} (cut : CutOff graph head) :
    ∃ near ∈ nearest metric graph (fun i => (Layer0.read graph).cutOff.contains i) (Layer0.read graph).size head,
      near.2 < graph.size ∧ ¬CutOff graph near.2 := by
  obtain ⟨e,found⟩ := entryFound (Nat.zero_lt_of_lt cut.1)
  have entry := entrySpec found
  obtain ⟨point,member,own⟩ := pointAt (entryLess entry)
  -- The entry point is never cut off, so one linked point is read.
  have standing : point.origin < (Layer0.read graph).size ∧ (Layer0.read graph).cutOff.contains point.origin = false := by
    refine ⟨readSize graph ▸ originLess member,Bool.eq_false_iff.mpr fun listed => ?_⟩
    rw [List.contains_iff_mem, cutOffIff, own] at listed
    rcases listed.2 with lost | alone
    · exact lost ⟨e,entry,.refl⟩
    · exact alone (.inl entry)
  obtain ⟨vector,known⟩ := vectorKnown cut.1
  obtain ⟨all,some⟩ := @nearFold _ _ metric (fun i => (Layer0.read graph).cutOff.contains i) (Layer0.read graph).size vector
    graph.points [] (fun x no => absurd no List.not_mem_nil)
  unfold nearest
  simp only [known]
  obtain ⟨near,listed⟩ := List.exists_mem_of_ne_nil _ (some (.inr ⟨point,member,standing⟩))
  obtain ⟨less,apart⟩ := all near listed
  refine ⟨near,listed,readSize graph ▸ less,fun lost => ?_⟩
  rw [← cutOffIff, ← List.contains_iff_mem] at lost
  exact Bool.false_ne_true (apart.symm.trans lost)

/-! One bridging. -/

theorem bridgedWidens (graph : Hnsw ν δ) : Widens graph (bridged metric graph) := (edgesAdded metric).1

theorem headLinked {head : Nat} (member : head ∈ heads (Layer0.read graph)) : ¬CutOff (bridged metric graph) head := by
  have cut := (headsSpec graph).cut head member
  obtain ⟨near,listed,less,linked⟩ := nearestLinked metric cut
  have apart : near.2 ≠ head := fun is => linked (is ▸ cut)
  have edge : (near.2,head) ∈ bridges metric graph (Layer0.read graph) :=
    List.mem_flatMap.mpr ⟨head,member,List.mem_flatMap.mpr ⟨near,listed,List.mem_cons_self⟩⟩
  have leads : Leads (bridged metric graph) near.2 head := (edgesAdded metric).2 _ edge less cut.1 apart
  have reached : Reached graph near.2 := by
    by_contra lost
    exact linked ⟨less,.inl lost⟩
  rintro ⟨_,lost | alone⟩
  · obtain ⟨e,entry,path⟩ := (bridgedWidens metric graph).reached reached
    exact lost ⟨e,entry,path.tail leads⟩
  · exact alone (.inr ⟨near.2,apart,leads⟩)

theorem cutOffNodup (graph : Hnsw ν δ) : (Layer0.read graph).cutOff.Nodup := List.nodup_range.filter _

/- One point fewer for each component. -/
theorem fewerCut (graph : Hnsw ν δ) : (Layer0.read (bridged metric graph)).cutOff.length + (heads (Layer0.read graph)).length ≤
    (Layer0.read graph).cutOff.length := by
  have spec := headsSpec graph
  have apart : ∀ i ∈ (Layer0.read (bridged metric graph)).cutOff, ∀ h ∈ heads (Layer0.read graph), i ≠ h :=
    fun i cut h member same => headLinked metric member (same ▸ cutOffIff.mp cut)
  have once : ((Layer0.read (bridged metric graph)).cutOff ++ heads (Layer0.read graph)).Nodup :=
    List.nodup_append.mpr ⟨cutOffNodup _,spec.once,apart⟩
  rw [← List.length_append]
  refine (once.subperm fun i member => ?_).length_le
  rcases List.mem_append.mp member with still | head
  · exact cutOffIff.mpr ((bridgedWidens metric graph).cutOff (cutOffIff.mp still))
  · exact cutOffIff.mpr (spec.cut i head)

/- As many rounds as there are points cut off leave none. -/
theorem roundsLink : ∀ {rounds : Nat} {graph : Hnsw ν δ}, (Layer0.read graph).cutOff.length ≤ rounds →
    (Layer0.read ((bridged metric)^[rounds] graph)).cutOff = []
  | 0, graph, enough => List.eq_nil_of_length_eq_zero (Nat.le_zero.mp enough)
  | rounds + 1, graph, enough => by
      rw [Function.iterate_succ_apply]
      refine roundsLink ?_
      have fewer := fewerCut metric graph
      rcases Nat.eq_zero_or_pos (Layer0.read graph).cutOff.length with none | some
      · omega
      · obtain ⟨i,cut⟩ := List.exists_mem_of_length_pos some
        obtain ⟨h,member,_⟩ := (headsSpec graph).each i (cutOffIff.mp cut)
        have := List.length_pos_of_mem member
        omega

/- The points read as cut off are those that are. Each component of them has one head, which no other of its points
leads to unless every one is led to; bridging cuts off nothing more, links every head, and again and again links all. -/
theorem bridgesReconnect (graph : Hnsw ν δ) :
    (∀ i, i ∈ (Layer0.read graph).cutOff ↔ CutOff graph i) ∧
    (heads (Layer0.read graph)).Nodup ∧ (∀ h ∈ heads (Layer0.read graph), CutOff graph h) ∧
    (∀ i, CutOff graph i → ∃! h, h ∈ heads (Layer0.read graph) ∧ Together graph h i) ∧
    (∀ h ∈ heads (Layer0.read graph), (∃ i, CutOff graph i ∧ Together graph h i ∧ ¬Fed graph i) → ¬Fed graph h) ∧
    (bridged metric graph).size = graph.size ∧
    (∀ i, CutOff (bridged metric graph) i → CutOff graph i) ∧
    (∀ h ∈ heads (Layer0.read graph), ¬CutOff (bridged metric graph) h) ∧
    (Layer0.read (bridged metric graph)).cutOff.length + (heads (Layer0.read graph)).length ≤
      (Layer0.read graph).cutOff.length ∧
    ∀ rounds, (Layer0.read graph).cutOff.length ≤ rounds →
      ∀ i, ¬CutOff ((bridged metric)^[rounds] graph) i := by
  have spec := headsSpec graph
  have widens := bridgedWidens metric graph
  refine ⟨fun i => cutOffIff,spec.once,spec.cut,fun i cut => ?_,fun h member unfed fed => ?_,widens.size,
    fun i => widens.cutOff,fun h => headLinked metric,fewerCut metric graph,fun rounds enough i cut => ?_⟩
  · obtain ⟨h,member,same⟩ := spec.each i cut
    refine ⟨h,⟨member,same⟩,fun k other => ?_⟩
    exact spec.one k other.1 h member (other.2.trans _ _ _ (same.symm _ _))
  · obtain ⟨i,cut,same,not⟩ := unfed
    exact not (spec.unfed h member fed i cut same)
  · rw [← cutOffIff, roundsLink metric enough] at cut
    exact absurd cut List.not_mem_nil

end

end Kimmy.Vector.Bridge
