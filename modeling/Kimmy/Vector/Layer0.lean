import Kimmy.OrderedForest
import Kimmy.SortedMap

/-!
The bottom layer of a vector graph (`index.rs`), the points it has lost and the edges that bridge them. A vector of
flags or of numbers is a function of the graph id; the code indexes none of them at or past its length.
-/
namespace Kimmy.Vector.Bridge

/- `Point`: the id it was inserted under, the layer it stands in up to, and its edges at layer 0 with their lengths. -/
structure Point (ν δ : Type) where
  origin : Nat
  level : Nat
  vector : ν
  neighbours : List (Nat × δ)

/- `Hnsw`, with its points in the order its iterator has them. The ids are dense. -/
structure Hnsw (ν δ : Type) where
  points : List (Point ν δ)
  dense : (points.map Point.origin).Perm (List.range points.length)

/- `D` and `total_cmp`. Nothing is asked of either. -/
structure Metric (ν δ : Type) where
  eval : ν → ν → δ
  cmp : δ → δ → Ordering

section
variable {ν δ : Type}

def Hnsw.size (graph : Hnsw ν δ) : Nat := graph.points.length

/-! Reading layer 0. -/

structure Layer0 where
  size : Nat
  noEdgeIn : Nat → Bool
  outside : Nat → Bool
  edges : Nat → List Nat

/- One entry per point, at its id; an id past the number of points is passed over. -/
def placed {α : Type} (graph : Hnsw ν δ) (entry : Point ν δ → α) (unset : α) : Nat → α :=
  graph.points.foldl (fun vec point =>
    if graph.size ≤ point.origin then vec else Function.update vec point.origin (entry point)) fun _ => unset

def levels (graph : Hnsw ν δ) : Nat → Nat := placed graph Point.level 0

def edgesOf (graph : Hnsw ν δ) : Nat → List Nat := placed graph (fun point => point.neighbours.map Prod.fst) []

/- The points an edge of another leads into. -/
def linkedInto (size : Nat) (edges : Nat → List Nat) : Nat → Bool :=
  (List.range size).foldl (fun into here => (edges here).foldl (fun into there =>
    if there ≠ here ∧ there < size then Function.update into there true else into) into) fun _ => false

def topLevel (graph : Hnsw ν δ) : Nat := ((List.range graph.size).map (levels graph)).foldl max 0

def entryPoint (graph : Hnsw ν δ) : Option Nat :=
  (List.range graph.size).find? fun i => levels graph i == topLevel graph

/- The body of the walk: each edge to a point not reached yet marks it and pushes it. -/
def push (size : Nat) (state : List Nat × (Nat → Bool)) (there : Nat) : List Nat × (Nat → Bool) :=
  if there < size ∧ state.2 there = false then (there :: state.1,Function.update state.2 there true) else state

/- The walk over the stack. A point is pushed once, so as many rounds as there are points empty it (`walkEmpties`). -/
def walk (size : Nat) (edges : Nat → List Nat) : Nat → List Nat × (Nat → Bool) → List Nat × (Nat → Bool)
  | 0, state => state
  | fuel + 1, (stack,reached) => match stack with
      | [] => ([],reached)
      | here :: rest => walk size edges fuel ((edges here).foldl (push size) (rest,reached))

def Layer0.read (graph : Hnsw ν δ) : Layer0 :=
  let size := graph.size
  if size = 0 then ⟨0,fun _ => false,fun _ => false,fun _ => []⟩ else
  let edges := edgesOf graph
  let into := linkedInto size edges
  match entryPoint graph with
  | none => ⟨size,fun i => !into i,fun _ => true,edges⟩
  | some entry =>
    -- The entry point needs no edge into it: every search starts there.
    let into := Function.update into entry true
    let reached := Function.update (fun _ => false) entry true
    let reached := (walk size edges size ([entry],reached)).2
    ⟨size,fun i => !into i,fun i => !reached i,edges⟩

def Layer0.cutOff (layer0 : Layer0) : List Nat :=
  (List.range layer0.size).filter fun i => layer0.noEdgeIn i || layer0.outside i

/-! The bridge. -/

/- `root`: halves the path on its way up. Each round goes strictly down, so the id itself bounds them (`rootSpec`). -/
def root : Nat → (Nat → Nat) → Nat → (Nat → Nat) × Nat
  | 0, parent, here => (parent,here)
  | fuel + 1, parent, here =>
      if parent here ≠ here then
        let parent := OrderedForest.halve parent here
        root fuel parent (parent here)
      else (parent,here)

/- The forest over the cut-off points, and which of them another leads into. -/
structure Components where
  parent : Nat → Nat
  fed : Nat → Bool

def joinEnds (state : Components) (here there : Nat) : Components :=
  let fed := Function.update state.fed there true
  let (parent,a) := root here state.parent here
  let (parent,b) := root there parent there
  if a ≠ b then ⟨Function.update parent (max a b) (min a b),fed⟩ else ⟨parent,fed⟩

def components (layer0 : Layer0) : Components :=
  let cut := layer0.cutOff
  let lost := fun i => cut.contains i
  cut.foldl (fun state here => (layer0.edges here).foldl (fun state there =>
    if there < layer0.size ∧ there ≠ here ∧ lost there = true then joinEnds state here there else state) state)
    ⟨id,fun _ => false⟩

/- A component's head is its first point, until one that nothing leads into takes over from one that something does. -/
def chooseHead (fed : Nat → Bool) (state : (Nat → Nat) × SortedMap Nat Nat) (point : Nat) :
    (Nat → Nat) × SortedMap Nat Nat :=
  let (parent,component) := root point state.1 point
  let headOf := state.2.orInsert component point
  match headOf.get component with
  | none => (parent,headOf)
  | some head => if fed head ∧ fed point = false then (parent,headOf.insert component point) else (parent,headOf)

def heads (layer0 : Layer0) : List Nat :=
  let found := components layer0
  (layer0.cutOff.foldl (chooseHead found.fed) (found.parent,.empty)).2.values

def linkEdges : Nat := 2

variable (metric : Metric ν δ)

/- By distance, then by id. -/
def nearer (a b : δ × Nat) : Bool := ((metric.cmp a.1 b.1).then (compare a.2 b.2)).isLE

/- What one point read does to a head's nearest. -/
def scored (vector : ν) (lost : Nat → Bool) (size : Nat) (near : List (δ × Nat)) (point : Point ν δ) : List (δ × Nat) :=
  if size ≤ point.origin ∨ lost point.origin = true then near else
  let near := near ++ [(metric.eval vector point.vector,point.origin)]
  if linkEdges < near.length then (near.mergeSort (nearer metric)).take linkEdges else near

/- The vector of a head, read off the points. -/
def vectorOf (graph : Hnsw ν δ) (head : Nat) : Option ν :=
  graph.points.foldl (fun found point => if point.origin = head then some point.vector else found) none

def nearest (graph : Hnsw ν δ) (lost : Nat → Bool) (size head : Nat) : List (δ × Nat) :=
  match vectorOf graph head with
  | none => []
  | some vector => graph.points.foldl (scored metric vector lost size) []

def bridges (graph : Hnsw ν δ) (layer0 : Layer0) : List (Nat × Nat) :=
  let cut := layer0.cutOff
  (heads layer0).flatMap fun head =>
    (nearest metric graph (fun i => cut.contains i) layer0.size head).flatMap fun near =>
      [(near.2,head),(head,near.2)]

/-! Adding edges. -/

/- What the point the edge leaves becomes: its list with the edge, by distance. An edge already present is skipped. -/
def extended (edge : Nat × Nat) (distance : δ) (point : Point ν δ) : Point ν δ :=
  if point.origin ≠ edge.1 ∨ (point.neighbours.map Prod.fst).contains edge.2 = true then point
  else { point with
    neighbours := (point.neighbours ++ [(edge.2,distance)]).mergeSort fun a b => (metric.cmp a.2 b.2).isLE }

theorem extendedOrigin (edge : Nat × Nat) (distance : δ) (point : Point ν δ) :
    (extended metric edge distance point).origin = point.origin := by
  unfold extended
  split_ifs <;> rfl

/- A pair naming an unknown id, or a point and itself, is skipped too; nothing is displaced. -/
def addEdge (graph : Hnsw ν δ) (edge : Nat × Nat) : Hnsw ν δ :=
  if edge.1 = edge.2 then graph else
  match vectorOf graph edge.1, vectorOf graph edge.2 with
  | some source, some target =>
      { points := graph.points.map (extended metric edge (metric.eval source target))
        dense := by
          rw [List.map_map, List.length_map]
          simpa only [Function.comp_def, extendedOrigin] using graph.dense }
  | _, _ => graph

def addLayer0Edges (graph : Hnsw ν δ) (edges : List (Nat × Nat)) : Hnsw ν δ := edges.foldl (addEdge metric) graph

/- One bridging of what stands cut off. -/
def bridged (graph : Hnsw ν δ) : Hnsw ν δ := addLayer0Edges metric graph (bridges metric graph (Layer0.read graph))

end

end Kimmy.Vector.Bridge
