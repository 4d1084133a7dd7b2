import Rolex.Common
import Mathlib.Logic.Function.Basic

/-!
This module contains the lock nodes of `LocalLockTable.h`: the waiting queues for reads and for
writes on one compute node, whose holders hand results over to those that wait behind them.
-/

namespace Rolex

inductive Side where
  | read
  | write
  deriving DecidableEq

def Side.other : Side → Side
  | .read => .write
  | .write => .read

theorem Side.other_ne (s : Side) : s.other ≠ s := by cases s <;> decide

/-- What `LocalLockNode` has once for reads and once for writes. -/
structure WaitQueue where
  current : BitVec 8
  ticket : BitVec 8
  handover : Bool
  window : BitVec 8
  uniqueKey : Option Key
  deriving DecidableEq

def WaitQueue.init : WaitQueue := ⟨0, 0, false, 0, none⟩

/-- `((1UL << 8) + ticket - current) % (1UL << 8)` -/
def windowSize (ticket current : BitVec 8) : BitVec 8 :=
  BitVec.ofNat 8 ((2 ^ 8 + ticket.toNat - current.toNat) % 2 ^ 8)

/-- `LocalLockNode`. The result stands for `res` with `ret_value`. -/
structure LocalLockNode where
  queue : Side → WaitQueue
  windowStart : Bool
  result : Option Value
  wcBuffer : Value

namespace LocalLockNode

/-- The constructor, which leaves `res`, `ret_value` and `wc_buffer` as they are. -/
def init (result : Option Value) (wcBuffer : Value) : LocalLockNode where
  queue := fun _ => .init
  windowStart := false
  result := result
  wcBuffer := wcBuffer

variable (node : LocalLockNode) (s : Side)

def setQueue (q : WaitQueue) : LocalLockNode := { node with queue := Function.update node.queue s q }

/-- The CAS on `unique_key`, and whether the key is not in conflict with the one there. -/
def casKey (k : Key) : Bool × LocalLockNode :=
  match (node.queue s).uniqueKey with
  | none => (true, node.setQueue s { node.queue s with uniqueKey := some k })
  | some key => (decide (key = k), node)

/-- `ticket.fetch_add(1)` -/
def takeTicket : LocalLockNode :=
  node.setQueue s { node.queue s with ticket := (node.queue s).ticket + 1 }

/-- One caller less is left in the window. -/
def leaveWindow : LocalLockNode :=
  if (node.queue s).window = 0 then
    node
  else
    let node := node.setQueue s { node.queue s with window := (node.queue s).window - 1 }
    if (node.queue s).window = 0 ∧ (node.queue s.other).window = 0 then
      { node with windowStart := false }
    else
      node

/-- `current.fetch_add(1)` -/
def advance : LocalLockNode :=
  node.setQueue s { node.queue s with current := (node.queue s).current + 1 }

/-- The last lines of an acquire. The result is the `handover` it returns. -/
def enter : Bool × LocalLockNode :=
  let node :=
    if (node.queue s).window = 0 then
      node.setQueue s { node.queue s with handover := false }
    else
      node
  ((node.queue s).handover, node)

/-- The losers accept the result of the winner. -/
def exchange (r : Option Value) : Option Value × LocalLockNode :=
  if (node.queue .read).handover then
    (node.result, node)
  else
    (r, { node with result := r })

/-- The winner begins a time window, unless one is running. -/
def startWindow (ticket current : BitVec 8) : LocalLockNode :=
  if (node.queue s).handover = false ∧ node.windowStart = false then
    let node := { node with windowStart := true }
    let node := node.setQueue s { node.queue s with window := windowSize ticket current }
    let q := node.queue s.other
    node.setQueue s.other { q with window := windowSize q.ticket q.current }
  else
    node

/-- Whether somebody waits to whom the lock is handed over. -/
def setHandover (ticket current : BitVec 8) : LocalLockNode :=
  let handover := decide (ticket ≠ current + 1)
  let uniqueKey := if handover then (node.queue s).uniqueKey else none
  node.setQueue s { node.queue s with handover, uniqueKey }

/-- The release of a lock from the load of the ticket on. -/
def release : LocalLockNode :=
  let ticket := (node.queue s).ticket
  let current := (node.queue s).current
  let node := node.startWindow s ticket current
  let node := node.setHandover s ticket current
  let node := node.leaveWindow s
  node.advance s

def getCombiningValue (k : Key) (v : Value) : Value :=
  if (node.queue .write).uniqueKey = some k then node.wcBuffer else v

end LocalLockNode

def kLocalLockNum : Nat := 4 * 1024 * 1024

def getHashedLocalLockIndex (k : Key) : Nat := key2int k % kLocalLockNum

end Rolex
