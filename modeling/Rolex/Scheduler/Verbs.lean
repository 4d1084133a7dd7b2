import Mathlib.Data.List.Basic

/-!
This module contains what the code of a coroutine does to the completion queue of its thread and to
`busy_waiting_queue`: the verbs of the DSM, the two wait loops, the index operations made of them and
the loop of `coro_worker`. What the code reads from the memory only decides which of them come next.
-/

namespace Rolex

namespace Scheduler

/-- What `sink->get()` returns: the id the worker was called with. -/
abbrev CoroPull := Nat

inductive Action where
  /-- One `ibv_post_send` of a chain of work requests, which of them are signaled and their `wr_id`. -/
  | post (signaled : List Bool) (wrId : Nat)
  | push (id : Nat)
  /-- The call `(*sink)()`. -/
  | yield
  | pollWithCq (n : Nat)
  /-- A failed assertion. -/
  | abort
  deriving DecidableEq, Repr

section Verbs

/-- The flags of the work requests that `rdmaReadBatch` and `rdmaWriteBatch` chain. -/
def batchFlags (k : Nat) (isSignaled : Bool) : List Bool :=
  (List.range k).map (fun i => i == k - 1 && isSignaled)

/-- The common body of the verbs: without a coroutine `wr_id` keeps its default. -/
def verb (flags : Bool → List Bool) (signal : Bool) : Option CoroPull → List Action
  | none => [.post (flags signal) 0]
  | some id => [.post (flags true) id, .yield]

/-- The end of the verbs whose name ends in `_sync`. -/
def sync (n : Nat) : Option CoroPull → List Action
  | none => [.pollWithCq n]
  | some _ => []

variable (sink : Option CoroPull)

def read (signal : Bool) : List Action := verb ([·]) signal sink

def readSync : List Action := read sink true ++ sync 1 sink

def write (signal : Bool) : List Action := verb ([·]) signal sink

def writeSync : List Action := write sink true ++ sync 1 sink

def casMask (signal : Bool) : List Action := verb ([·]) signal sink

def casMaskSync : List Action := casMask sink true ++ sync 1 sink

def readBatch (k : Nat) (signal : Bool) : List Action := verb (batchFlags k) signal sink

def readBatchSync (k : Nat) : List Action := readBatch sink k true ++ sync 1 sink

def writeBatch (k : Nat) (signal : Bool) : List Action := verb (batchFlags k) signal sink

def writeBatchSync (k : Nat) : List Action := writeBatch sink k true ++ sync 1 sink

/-- `each_rs[node].emplace_back(r)` on the sizes of the vectors, in the order of the map. -/
def emplaceBack (node : Nat) : List (Nat × Nat) → List (Nat × Nat)
  | [] => [(node, 1)]
  | (m, k) :: rest =>
    if node < m then
      (node, 1) :: (m, k) :: rest
    else if node = m then
      (m, k + 1) :: rest
    else
      (m, k) :: emplaceBack node rest

def eachRs (nodes : List Nat) : List (Nat × Nat) := nodes.foldl (fun m node => emplaceBack node m) []

/-- `nodes` are the memory nodes of the regions. -/
def readBatchesSync (nodes : List Nat) : List Action :=
  (eachRs nodes).flatMap (fun p => readBatch sink p.2 true) ++ sync (eachRs nodes).length sink

def writeBatchesSync (nodes : List Nat) : List Action :=
  (eachRs nodes).flatMap (fun p => writeBatch sink p.2 true) ++ sync (eachRs nodes).length sink

end Verbs

section Operations

variable (sink : Option CoroPull)

/-- Where the code gives way to the other coroutines until its turn in the queue comes. -/
def giveWay : List Action :=
  match sink with
  | none => []
  | some id => [.push id, .yield]

/-- `lock_node` when the first `failures` attempts find the node locked. -/
def lockNode (failures : Nat) : List Action :=
  reAcquire 0 failures
where
  reAcquire (cnt : Nat) : Nat → List Action
    | 0 => casMaskSync sink
    | failures + 1 =>
      casMaskSync sink
        ++ if cnt > 10000000 then [.abort] else giveWay sink ++ reAcquire (cnt + 1) failures

def unlockNode (async : Bool) : List Action := if async then write sink false else writeSync sink

/-- The wait loop of `acquire_local_read_lock` that finds another ticket served `rounds` times. -/
def acquireLocalReadLock (rounds : Nat) : List Action := (List.replicate rounds (giveWay sink)).flatten

def acquireLocalWriteLock (rounds : Nat) : List Action := (List.replicate rounds (giveWay sink)).flatten

/-- The nodes of each batch that `range_query` reads, again if it was inconsistent. It has no `sink`. -/
def rangeQuery (batches : List (List Nat)) : List Action := batches.flatMap (readBatchesSync none)

end Operations

/-- What an index operation calls on its way, with what the call finds. -/
inductive Call where
  | readSync
  | writeSync
  | readBatchSync (k : Nat) (hk : 0 < k)
  | writeBatchSync (k : Nat) (hk : 0 < k)
  | readBatchesSync (nodes : List Nat)
  | writeBatchesSync (nodes : List Nat)
  | lockNode (failures : Nat)
  | unlockNode (async : Bool)
  | acquireLocalReadLock (rounds : Nat)
  | acquireLocalWriteLock (rounds : Nat)
  | rangeQuery (batches : List (List Nat))

def Call.actions (sink : Option CoroPull) : Call → List Action
  | readSync => Scheduler.readSync sink
  | writeSync => Scheduler.writeSync sink
  | readBatchSync k _ => Scheduler.readBatchSync sink k
  | writeBatchSync k _ => Scheduler.writeBatchSync sink k
  | readBatchesSync nodes => Scheduler.readBatchesSync sink nodes
  | writeBatchesSync nodes => Scheduler.writeBatchesSync sink nodes
  | lockNode failures => Scheduler.lockNode sink failures
  | unlockNode async => Scheduler.unlockNode sink async
  | acquireLocalReadLock rounds => Scheduler.acquireLocalReadLock sink rounds
  | acquireLocalWriteLock rounds => Scheduler.acquireLocalWriteLock sink rounds
  | rangeQuery batches => Scheduler.rangeQuery batches

/-- The calls of one `work_func`. -/
def workFunc (sink : Option CoroPull) (calls : List Call) : List Action := calls.flatMap (Call.actions sink)

/-- One turn of the loop of the coroutine `id`, for a request of `gen->next()`. -/
def coroWorker (id : CoroPull) (calls : List Call) : List Action :=
  workFunc (some id) calls ++ [.push id, .yield]

/-- One signaled work request, sent with `wr_id` 0 by a verb that has no coroutine. -/
def Action.IsScanPost : Action → Prop
  | .post signaled wrId => signaled.count true = 1 ∧ wrId = 0
  | _ => False

/--
The code of the coroutine `id` that starts with nothing to wait for: before each yield it posts one
signaled request with its id or enters the queue once, and it polls as many completions as it posted
requests without a yield.
-/
inductive Ready (id : CoroPull) : List Action → Prop
  | nil : Ready id []
  | post {signaled : List Bool} {rest : List Action} (hone : signaled.count true = 1)
      (hrest : Ready id rest) : Ready id (.post signaled id :: .yield :: rest)
  | push {rest : List Action} (hrest : Ready id rest) : Ready id (.push id :: .yield :: rest)
  | scan {posts rest : List Action} (hposts : ∀ a ∈ posts, a.IsScanPost) (hrest : Ready id rest) :
      Ready id (posts ++ .pollWithCq posts.length :: rest)
  | abort (rest : List Action) : Ready id (.abort :: rest)

namespace Ready

variable {id : CoroPull}

theorem append {code rest : List Action} (h : Ready id code) (hrest : Ready id rest)
    : Ready id (code ++ rest) := by
  induction h with
  | nil => exact hrest
  | post hone _ ih => exact .post hone ih
  | push _ ih => exact .push ih
  | scan hposts _ ih =>
    rw [List.append_assoc, List.cons_append]
    exact .scan hposts ih
  | abort r => exact .abort (r ++ rest)

theorem flatMap {α : Type} {l : List α} {f : α → List Action} (h : ∀ a ∈ l, Ready id (f a))
    : Ready id (l.flatMap f) := by
  induction l with
  | nil => exact .nil
  | cons a l ih =>
    rw [List.flatMap_cons]
    exact (h a List.mem_cons_self).append (ih (fun b hb => h b (List.mem_cons_of_mem a hb)))

theorem count_batchFlags {k : Nat} (hk : 0 < k) : (batchFlags k true).count true = 1 := by
  cases k with
  | zero => exact absurd hk (Nat.lt_irrefl 0)
  | succ k =>
    unfold batchFlags
    rw [List.range_succ, List.map_append, List.count_append]
    have hfalse : ((List.range k).map (fun i => i == k + 1 - 1 && true)).count true = 0 := by
      rw [List.count_eq_zero]
      intro hmem
      rw [List.mem_map] at hmem
      obtain ⟨i, hi, heq⟩ := hmem
      rw [List.mem_range] at hi
      simp at heq
      omega
    rw [hfalse]
    simp

theorem verb {flags : Bool → List Bool} (hone : (flags true).count true = 1) (signal : Bool)
    : Ready id (Scheduler.verb flags signal (some id)) :=
  .post hone .nil

theorem sync (n : Nat) : Ready id (Scheduler.sync n (some id)) := .nil

theorem giveWay : Ready id (Scheduler.giveWay (some id)) := .push .nil

theorem casMaskSync : Ready id (Scheduler.casMaskSync (some id)) := (verb rfl true).append (sync 1)

theorem reAcquire (cnt failures : Nat) : Ready id (lockNode.reAcquire (some id) cnt failures) := by
  induction failures generalizing cnt with
  | zero => exact casMaskSync
  | succ failures ih =>
    apply casMaskSync.append
    split
    . exact .abort []
    . exact giveWay.append (ih (cnt + 1))

theorem emplaceBack_pos {node : Nat} {m : List (Nat × Nat)} (h : ∀ p ∈ m, 0 < p.2)
    : ∀ p ∈ emplaceBack node m, 0 < p.2 := by
  induction m with
  | nil => simp [emplaceBack]
  | cons q rest ih =>
    obtain ⟨hq, hrest⟩ := List.forall_mem_cons.mp h
    unfold emplaceBack
    split
    . exact List.forall_mem_cons.mpr ⟨Nat.one_pos, h⟩
    . split
      . exact List.forall_mem_cons.mpr ⟨Nat.succ_pos _, hrest⟩
      . exact List.forall_mem_cons.mpr ⟨hq, ih hrest⟩

theorem eachRs_pos (nodes : List Nat) : ∀ p ∈ eachRs nodes, 0 < p.2 := by
  unfold eachRs
  have hfold : ∀ m : List (Nat × Nat), (∀ p ∈ m, 0 < p.2)
      → ∀ p ∈ nodes.foldl (fun m node => emplaceBack node m) m, 0 < p.2 := by
    induction nodes with
    | nil => exact fun m hm => hm
    | cons node nodes ih => exact fun m hm => ih _ (emplaceBack_pos hm)
  exact hfold [] (by simp)

theorem batches (nodes : List Nat) (n : Nat)
    : Ready id ((eachRs nodes).flatMap (fun p => Scheduler.verb (batchFlags p.2) true (some id))
        ++ Scheduler.sync n (some id)) := by
  apply append
  . exact flatMap (fun p hp => verb (count_batchFlags (eachRs_pos nodes p hp)) true)
  . exact sync n

theorem readBatchesSync_none (nodes : List Nat) : Ready id (readBatchesSync none nodes) := by
  have hlen : ((eachRs nodes).flatMap (fun p => readBatch none p.2 true)).length = (eachRs nodes).length := by
    simp [readBatch, Scheduler.verb]
  unfold readBatchesSync Scheduler.sync
  rw [← hlen]
  apply scan _ .nil
  intro a ha
  rw [List.mem_flatMap] at ha
  obtain ⟨p, hp, ha⟩ := ha
  rw [readBatch, Scheduler.verb, List.mem_singleton] at ha
  rw [ha]
  exact ⟨count_batchFlags (eachRs_pos nodes p hp), rfl⟩

theorem call (c : Call) : Ready id (c.actions (some id)) := by
  cases c with
  | readSync => exact (verb rfl true).append (sync 1)
  | writeSync => exact (verb rfl true).append (sync 1)
  | readBatchSync k hk => exact (verb (count_batchFlags hk) true).append (sync 1)
  | writeBatchSync k hk => exact (verb (count_batchFlags hk) true).append (sync 1)
  | readBatchesSync nodes => exact batches nodes _
  | writeBatchesSync nodes => exact batches nodes _
  | lockNode failures => exact reAcquire 0 failures
  | unlockNode async =>
    cases async with
    | false => exact (verb rfl true).append (sync 1)
    | true => exact .post (by rfl) .nil
  | acquireLocalReadLock rounds => exact waits rounds
  | acquireLocalWriteLock rounds => exact waits rounds
  | rangeQuery batches => exact flatMap (fun nodes _ => readBatchesSync_none nodes)
where
  waits (rounds : Nat) : Ready id (List.replicate rounds (Scheduler.giveWay (some id))).flatten := by
    induction rounds with
    | zero => exact .nil
    | succ rounds ih => exact giveWay.append ih

theorem coroWorker (calls : List Call) : Ready id (coroWorker id calls) := by
  apply append
  . exact flatMap (fun c _ => call c)
  . exact .push .nil

end Ready

end Scheduler

end Rolex
