import Kimmy.Merge.Writer
import Mathlib.Logic.Function.Basic

/-!
Any number of writers over one document. Every state a writer has ever held stays in a pool
and may be delivered to any writer, at any time and any number of times; so may a single
loss record of such a state. Beside the writers a run keeps what no writer can read: the
log of accepted writes with the causal past of each, the writes every state has
incorporated, and the loss records each writer has reported.
-/
namespace Kimmy.Merge

/- An accepted write: what its writer had incorporated, what it logged, the assignments it
made, and its writer's state right after it, before normalisation. -/
structure Entry where
  ctx : Finset MStamp
  record : WriteRecord
  cells : Fields
  made : State

abbrev Log := MStamp → Option Entry

structure Node where
  writer : Writer
  past : Finset MStamp
  reported : List LossKey

/- `clock` is the run's clock: the highest any writer's has been. -/
structure Sys where
  nodes : WriterId → Node
  pool : List (State × Finset MStamp)
  log : Log
  clock : Hlc

inductive Op where
  | insert (fields : Fields)
  | upsertInc (path : String) (n : Int64)
  | set (path : String) (v : Value)
  | unset (path : String)
  | inc (path : String) (n : Int64)
  | replace (doc : Fields)
  | delete

def Op.draft (w : Writer) (o : JoinOptions) (skew : Skew) : Op → Option Draft
  | .insert fields => w.insert o fields skew
  | .upsertInc path n => w.upsertInc o path n skew
  | .set path v => w.writeSet o path v skew
  | .unset path => w.writeUnset o path skew
  | .inc path n => w.writeInc o path n skew
  | .replace doc => w.writeReplace o doc skew
  | .delete => w.writeDelete o skew

inductive Action where
  | write (id : WriterId) (op : Op) (skew : Skew)
  | upsertSoi (id : WriterId) (fields : Fields) (incPath : String) (n : Int64) (sets : Fields) (skew : Skew)
  | receive (id : WriterId) (held : Nat)
  | receiveLoss (id : WriterId) (held : Nat) (key : LossKey)

namespace Sys

def init : Sys := ⟨fun id => ⟨.new id,∅,[]⟩,[(.empty,∅)],fun _ => none,.zero⟩

/- A node takes a new state, which joins the pool. -/
def hold (sys : Sys) (id : WriterId) (node : Node) : Sys :=
  { sys with
    nodes := Function.update sys.nodes id node
    pool := sys.pool ++ [(node.writer.state,node.past)]
    clock := max sys.clock node.writer.clock }

def commit (sys : Sys) (o : JoinOptions) (id : WriterId) (d : Draft) : Sys :=
  let node := sys.nodes id
  { sys.hold id ⟨d.finish o,insert d.stamp node.past,node.reported⟩ with
    log := Function.update sys.log d.stamp (some ⟨node.past,d.record,d.cells,d.writer.state⟩) }

/- One action; `none` when it is refused. An upsert with `$setOnInsert` fields is two writes of
one writer, the creation and the increment on the life it made. -/
def act (sys : Sys) (o : JoinOptions) : Action → Option Sys
  | .write id op skew => (op.draft (sys.nodes id).writer o skew).map (sys.commit o id)
  | .upsertSoi id fields incPath n sets skew =>
      ((sys.nodes id).writer.upsertSoiCreate o fields incPath sets skew).map fun d =>
        let created := sys.commit o id d
        (((created.nodes id).writer.upsertIncOn o d.stamp incPath n skew).map (created.commit o id)).getD created
  | .receive id held => do
      let m ← sys.pool[held]?
      let node := sys.nodes id
      let (w, fresh) := node.writer.receive o m.1
      some (sys.hold id ⟨w,node.past ∪ m.2,node.reported ++ SortedMap.elements fresh⟩)
  | .receiveLoss id held key => do
      let m ← sys.pool[held]?
      let val ← m.1.losses.get key
      let node := sys.nodes id
      let w ← node.writer.receiveLoss o key val
      some (sys.hold id ⟨w,node.past,node.reported ++ [key]⟩)

def step (o : JoinOptions) (sys : Sys) (a : Action) : Sys := (sys.act o a).getD sys

def run (o : JoinOptions) (actions : List Action) : Sys := actions.foldl (step o) init

/- A retention longer than the run's clock. -/
def Retained (sys : Sys) (o : JoinOptions) : Prop := sys.clock.wallMs < o.retention

/- No stamp has reached the end of the clock, where `tick` saturates. -/
def Unsaturated (sys : Sys) : Prop := sys.clock.wallMs.val < 2 ^ 64 - 1

instance (sys : Sys) (o : JoinOptions) : Decidable (sys.Retained o) :=
  inferInstanceAs (Decidable (_ < _))

instance (sys : Sys) : Decidable sys.Unsaturated := inferInstanceAs (Decidable (_ < _))

/- A node after absorbing a pooled state, and after taking one record of it. -/
def received (sys : Sys) (o : JoinOptions) (id : WriterId) (m : State × Finset MStamp) : Sys :=
  let node := sys.nodes id
  sys.hold id ⟨(node.writer.receive o m.1).1,node.past ∪ m.2,
    node.reported ++ SortedMap.elements (node.writer.receive o m.1).2⟩

def recorded (sys : Sys) (id : WriterId) (w : Writer) (key : LossKey) : Sys :=
  sys.hold id ⟨w,(sys.nodes id).past,(sys.nodes id).reported ++ [key]⟩

/- What holds initially and is kept by every kind of step holds along every run. The
increment of an upsert follows the creation it belongs to at once, so its case may use what
held before that. -/
theorem runRule {o : JoinOptions} {P : Sys → Prop} (start : P init)
    (write : ∀ sys id op skew d, P sys → Op.draft (sys.nodes id).writer o skew op = some d →
      P (sys.commit o id d))
    (create : ∀ sys id fields incPath sets skew d, P sys →
      (sys.nodes id).writer.upsertSoiCreate o fields incPath sets skew = some d → P (sys.commit o id d))
    (incOn : ∀ sys id fields incPath sets skew d n d', P sys →
      (sys.nodes id).writer.upsertSoiCreate o fields incPath sets skew = some d → P (sys.commit o id d) →
      ((sys.commit o id d).nodes id).writer.upsertIncOn o d.stamp incPath n skew = some d' →
      P ((sys.commit o id d).commit o id d'))
    (receive : ∀ sys id m, P sys → m ∈ sys.pool → P (sys.received o id m))
    (receiveLoss : ∀ sys id m key val w, P sys → m ∈ sys.pool → m.1.losses.get key = some val →
      (sys.nodes id).writer.receiveLoss o key val = some w → P (sys.recorded id w key))
    (actions : List Action) : P (run o actions) := by
  have move (sys a) (holds : P sys) : P (step o sys a) := by
    unfold step
    cases acted : sys.act o a with
    | none => exact holds
    | some sys' =>
        cases a with
        | write id op skew =>
            obtain ⟨d, accepted, rfl⟩ := Option.map_eq_some_iff.mp acted
            exact write sys id op skew d holds accepted
        | upsertSoi id fields incPath n sets skew =>
            obtain ⟨d, accepted, rfl⟩ := Option.map_eq_some_iff.mp acted
            have created := create sys id fields incPath sets skew d holds accepted
            cases second : ((sys.commit o id d).nodes id).writer.upsertIncOn o d.stamp incPath n skew with
            | none => simpa [second] using created
            | some d' =>
                simpa [second] using incOn sys id fields incPath sets skew d n d' holds accepted created second
        | receive id held =>
            obtain ⟨m, found, rest⟩ := Option.bind_eq_some_iff.mp acted
            cases rest
            exact receive sys id m holds (List.mem_of_getElem? found)
        | receiveLoss id held key =>
            obtain ⟨m, found, rest⟩ := Option.bind_eq_some_iff.mp acted
            obtain ⟨val, record, rest⟩ := Option.bind_eq_some_iff.mp rest
            obtain ⟨w, taken, rest⟩ := Option.bind_eq_some_iff.mp rest
            cases rest
            exact receiveLoss sys id m key val w holds (List.mem_of_getElem? found) record taken
  have along (sys) (holds : P sys) : P (actions.foldl (step o) sys) := by
    induction actions generalizing sys with
    | nil => exact holds
    | cons a rest ih => exact ih (step o sys a) (move sys a holds)
  exact along init start

end Sys
end Kimmy.Merge
