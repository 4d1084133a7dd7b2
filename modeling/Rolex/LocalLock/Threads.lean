import Rolex.LocalLock.Node
import Rolex.Lib.Ticket

/-!
This module contains the threads and coroutines of one compute node that call `insert`, `update` and
`search` with write combining and read delegation, one atomic access to a lock node at a time and in
any order. Of the remote memory it has the record of each key: the READ by which an operation finds
the key and the WRITE that changes its record are one step each.
-/

namespace Rolex

namespace LocalLock

inductive OpKind where
  | insert
  | update
  | search
  deriving DecidableEq

/-- A call of the index. A search does not use the value. -/
structure Request where
  kind : OpKind
  key : Key
  value : Value

def Request.side (c : Request) : Side := if c.kind = .search then .read else .write

def Request.node (c : Request) : Nat := getHashedLocalLockIndex c.key

/-- What a call has yet to do between acquire and release. -/
inductive Stage where
  /-- `_search`, or the READs of an insert under the lock of the leaf. -/
  | find
  /-- `get_combining_value` -/
  | combine
  /-- The WRITE of the record. -/
  | write (v : Value)
  | done (r : Option Value)

/-- Where a thread is. `held` says that acquire returned with `second = false`. -/
inductive Pc where
  | idle
  | casKey (c : Request)
  | deposit (c : Request)
  | takeTicket (c : Request)
  | spin (c : Request) (ticket : BitVec 8)
  | loadKey (c : Request)
  | leaveWindow (c : Request)
  | advance (c : Request)
  | enter (c : Request)
  | body (c : Request) (held : Bool) (stage : Stage)
  | exchange (c : Request) (r : Option Value)
  | loadTicket (c : Request)
  | loadCurrent (c : Request) (ticket : BitVec 8)
  | startWindow (c : Request) (ticket current : BitVec 8)
  | setHandover (c : Request) (ticket current : BitVec 8)
  | leave (c : Request)
  | returned (c : Request)

/-- Where a call goes on that has read the record `r` of its key. -/
def Request.found (c : Request) (held : Bool) (r : Option Value) : Pc :=
  match c.kind, r with
  | .insert, _ => .body c held .combine
  -- the key is not found
  | .update, none => .returned c
  | .update, some _ => .body c held .combine
  | .search, r => .body c held (.done r)

/-- The record of the key after the WRITE, where an insert leaves an existing key as it is. -/
def Request.written (c : Request) (v : Value) (r : Option Value) : Option Value :=
  if c.kind = .insert ∧ r ≠ none then r else some v

inductive Event where
  /-- Acquire returns with `second = false`. -/
  | acquired
  /-- The last access of the release. -/
  | released
  | returned
  deriving DecidableEq

/-- The compute node with the remote records and the history of the run. -/
structure State (ι : Type) where
  nodes : Nat → LocalLockNode
  remote : Key → Option Value
  pc : ι → Pc
  /-- How many tickets were taken, and how many left behind, in each queue. -/
  taken : Nat → Side → Nat
  left : Nat → Side → Nat
  trace : List (ι × Event)

namespace State

variable {ι : Type} [DecidableEq ι]

def init (nodes : Nat → LocalLockNode) (remote : Key → Option Value) : State ι where
  nodes := nodes
  remote := remote
  pc := fun _ => .idle
  taken := fun _ _ => 0
  left := fun _ _ => 0
  trace := []

variable (S : State ι) (i : ι)

def goto (pc : Pc) : State ι := { S with pc := Function.update S.pc i pc }

def setNode (n : Nat) (node : LocalLockNode) : State ι :=
  { S with nodes := Function.update S.nodes n node }

def log (e : Event) : State ι := { S with trace := S.trace ++ [(i, e)] }

/-- A counter of one queue goes up by one. -/
def count (f : Nat → Side → Nat) (c : Request) : Nat → Side → Nat :=
  Function.update f c.node (Function.update (f c.node) c.side (f c.node c.side + 1))

/-- The next atomic access of thread `i`, if it is working on a call. -/
def step : Option (State ι) :=
  match S.pc i with
  | .idle => none
  | .casKey c =>
    let res := (S.nodes c.node).casKey c.side c.key
    let next := if c.side = .write then .deposit c else .takeTicket c
    -- conflict keys are worked on without a lock
    some ((S.setNode c.node res.2).goto i (if res.1 then next else .body c false .find))
  | .deposit c =>
    some ((S.setNode c.node { S.nodes c.node with wcBuffer := c.value }).goto i (.takeTicket c))
  | .takeTicket c =>
    let ticket := ((S.nodes c.node).queue c.side).ticket
    let S := S.setNode c.node ((S.nodes c.node).takeTicket c.side)
    some { S.goto i (.spin c ticket) with taken := count S.taken c }
  | .spin c ticket =>
    let current := ((S.nodes c.node).queue c.side).current
    some (S.goto i (if ticket = current then .loadKey c else .spin c ticket))
  | .loadKey c =>
    let uniqueKey := ((S.nodes c.node).queue c.side).uniqueKey
    some (S.goto i (if uniqueKey = some c.key then .enter c else .leaveWindow c))
  | .leaveWindow c =>
    some ((S.setNode c.node ((S.nodes c.node).leaveWindow c.side)).goto i (.advance c))
  | .advance c =>
    let S := S.setNode c.node ((S.nodes c.node).advance c.side)
    some { S.goto i (.body c false .find) with left := count S.left c }
  | .enter c =>
    let res := (S.nodes c.node).enter c.side
    let next := if res.1 then .exchange c none else .body c true .find
    some (((S.setNode c.node res.2).log i .acquired).goto i next)
  | .body c held .find => some (S.goto i (c.found held (S.remote c.key)))
  | .body c held .combine =>
    let v := (S.nodes c.node).getCombiningValue c.key c.value
    some (S.goto i (.body c held (.write v)))
  | .body c held (.write v) =>
    let remote := Function.update S.remote c.key (c.written v (S.remote c.key))
    some ({ S with remote := remote }.goto i (.body c held (.done none)))
  | .body c held (.done r) => some (S.goto i (if held then .exchange c r else .returned c))
  | .exchange c r =>
    let node := if c.side = .read then ((S.nodes c.node).exchange r).2 else S.nodes c.node
    some ((S.setNode c.node node).goto i (.loadTicket c))
  | .loadTicket c => some (S.goto i (.loadCurrent c ((S.nodes c.node).queue c.side).ticket))
  | .loadCurrent c ticket =>
    some (S.goto i (.startWindow c ticket ((S.nodes c.node).queue c.side).current))
  | .startWindow c ticket current =>
    some ((S.setNode c.node ((S.nodes c.node).startWindow c.side ticket current)).goto i
      (.setHandover c ticket current))
  | .setHandover c ticket current =>
    some ((S.setNode c.node ((S.nodes c.node).setHandover c.side ticket current)).goto i (.leave c))
  | .leave c =>
    let S := S.setNode c.node (((S.nodes c.node).leaveWindow c.side).advance c.side)
    some { (S.goto i (.returned c)).log i .released with left := count S.left c }
  | .returned _ => some ((S.goto i .idle).log i .returned)

end State

/-- The runs in which every access of a thread meets `ok` in the state before it. -/
inductive Run {ι : Type} [DecidableEq ι] (ok : State ι → ι → Prop) : State ι → Prop
  | init (result : Nat → Option Value) (wcBuffer : Nat → Value) (remote : Key → Option Value) :
      Run ok (State.init (fun n => .init (result n) (wcBuffer n)) remote)
  | call {S : State ι} (i : ι) (c : Request) (h : Run ok S) (hidle : S.pc i = .idle) :
      Run ok (S.goto i (.casKey c))
  | step {S T : State ι} (i : ι) (h : Run ok S) (hok : ok S i) (hstep : S.step i = some T) : Run ok T
  /-- Another compute node changes records. -/
  | remote {S : State ι} (remote : Key → Option Value) (h : Run ok S)
      (hkeep : ∀ k, S.remote k ≠ none → remote k ≠ none) :
      Run ok { S with remote := remote }

/-- The calls (`some c`) and the accesses of the threads in the order given, if they are possible and meet `ok`. -/
def State.schedule {ι : Type} [DecidableEq ι] (ok : State ι → ι → Prop) [∀ S i, Decidable (ok S i)] (S : State ι)
    : List (ι × Option Request) → Option (State ι)
  | [] => some S
  | (i, some c) :: rest =>
    match S.pc i with
    | .idle => (S.goto i (.casKey c)).schedule ok rest
    | _ => none
  | (i, none) :: rest => if ok S i then (S.step i).bind (fun T => T.schedule ok rest) else none

theorem Run.schedule {ι : Type} [DecidableEq ι] {ok : State ι → ι → Prop} [∀ S i, Decidable (ok S i)]
    {S T : State ι} {l : List (ι × Option Request)} (h : Run ok S) (hl : S.schedule ok l = some T)
    : Run ok T := by
  induction l generalizing S with
  | nil =>
    cases hl
    exact h
  | cons x l ih =>
    obtain ⟨i, _ | c⟩ := x
    . rw [State.schedule] at hl
      split at hl
      . next hok =>
        obtain ⟨U, hstep, hl⟩ := Option.bind_eq_some_iff.mp hl
        exact ih (h.step i hok hstep) hl
      . cases hl
    . rw [State.schedule] at hl
      split at hl
      . next hidle => exact ih (h.call i c hidle) hl
      . cases hl

end LocalLock

end Rolex
