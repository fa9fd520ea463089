import Kimmy.SortedPairs
import Kimmy.Store.Document

/-!
Documents as the store holds them: each name once, at every depth. Under that a lookup and membership say the same.
-/
namespace Kimmy
open SortedPairs

mutual

/- A document holds each name once, at every depth. -/
def Distinct : Bson → Prop
  | .document fields => (fields.map Prod.fst).Nodup ∧ FieldsDistinct fields
  | .array items => ItemsDistinct items
  | _ => True

def FieldsDistinct : List (String × Bson) → Prop
  | [] => True
  | (_,v) :: rest => Distinct v ∧ FieldsDistinct rest

def ItemsDistinct : List Bson → Prop
  | [] => True
  | v :: rest => Distinct v ∧ ItemsDistinct rest

end

theorem getMem {y : Document} (once : (y.map Prod.fst).Nodup) {k : String} {w : Bson} : y.get k = some w ↔ (k,w) ∈ y := by
  unfold Document.get
  constructor
  · intro found
    obtain ⟨field,is,rfl⟩ := Option.map_eq_some_iff.mp found
    have name := List.find?_some is
    rw [← beq_iff_eq.mp name]
    exact List.mem_of_find?_eq_some is
  · intro member
    cases found : y.find? fun field => field.1 == k with
    | none => exact absurd (List.find?_eq_none.mp found _ member) (by simp)
    | some field =>
      have name : field.1 = k := by simpa using List.find?_some found
      have listed := List.mem_of_find?_eq_some found
      rw [← Prod.mk.eta (p := field), name] at listed
      exact congrArg some (valueOnce once listed member)

theorem fieldDistinct {y : List (String × Bson)} (each : FieldsDistinct y) {k : String} {w : Bson} (member : (k,w) ∈ y) : Distinct w := by
  induction y with
  | nil => cases member
  | cons p rest ih =>
    rcases List.mem_cons.mp member with rfl | later
    · exact each.1
    · exact ih each.2 later

end Kimmy
