import Rolex.LocalLock.Line
import Rolex.Lib.Ticket

/-!
This module contains the coroutines of one compute node that update, or that search, one key. A
coroutine is only interrupted where the code yields: while it waits for its ticket and at its remote
operations, of which the READ that finds the record of the key and the WRITE of the record matter.
-/

namespace Rolex

namespace Coroutine

/-- Where a coroutine yields. `held` says that acquire returned with `second = false`. -/
inductive Pc where
  | idle
  | wait (v : Value) (ticket : BitVec 8)
  /-- At the READ of the record. -/
  | find (v : Value) (held : Bool)
  /-- Behind the READ, which gave `r`. -/
  | found (v : Value) (held : Bool) (r : Option Value)
  /-- At the WRITE of `v`. -/
  | write (v : Value) (held : Bool)
  /-- Behind the WRITE. -/
  | written (held : Bool)

inductive Event (ι : Type) where
  | call (i : ι) (v : Value)
  /-- A coroutine writes `v` to the record. -/
  | write (v : Value)
  /-- Another client changes the record. -/
  | store (r : Option Value)
  /-- A call returns, through the handover path or not, a search with its result. -/
  | ret (i : ι) (handover : Bool) (r : Option Value)

/-- The lock node of the key, its remote record and the history, the last event first. -/
structure State (ι : Type) where
  node : LocalLockNode
  record : Option Value
  pc : ι → Pc
  taken : Nat
  left : Nat
  trace : List (Event ι)

namespace State

variable {ι : Type} [DecidableEq ι] (s : Side) (k : Key) (S : State ι) (i : ι)

def init (node : LocalLockNode) (record : Option Value) : State ι :=
  ⟨node, record, fun _ => .idle, 0, 0, []⟩

def goto (pc : Pc) : State ι := { S with pc := Function.update S.pc i pc }

theorem goto_pc_self (pc : Pc) : (S.goto i pc).pc i = pc := Function.update_self _ _ _

theorem goto_pc_of_ne {j : ι} (pc : Pc) (h : j ≠ i) : (S.goto i pc).pc j = S.pc j :=
  Function.update_of_ne h _ _

def leave (held handover : Bool) (r : Option Value) : State ι :=
  if held then
    let res := if s = .read then S.node.exchange r else (r, S.node)
    let S := S.goto i .idle
    { S with node := res.2.release s, left := S.left + 1, trace := .ret i handover res.1 :: S.trace }
  else
    let S := S.goto i .idle
    { S with trace := .ret i handover r :: S.trace }

/-- The part of a call that follows on its wait for the ticket. -/
def turn (v : Value) : State ι :=
  if (S.node.queue s).uniqueKey = some k then
    let res := S.node.enter s
    let S := { S with node := res.2 }
    if res.1 then
      -- the lock was handed over
      S.leave s i true true none
    else
      S.goto i (.find v true)
  else
    let S := S.goto i (.find v false)
    { S with node := (S.node.leaveWindow s).advance s, left := S.left + 1 }

/-- A call up to its first yield. -/
def arrive (v : Value) : State ι :=
  let S := { S with trace := .call i v :: S.trace }
  let res := S.node.casKey s k
  if res.1 then
    let node := if s = .write then { res.2 with wcBuffer := v } else res.2
    let ticket := (node.queue s).ticket
    let S := { S with node := node.takeTicket s, taken := S.taken + 1 }
    if ticket = (S.node.queue s).current then
      S.turn s k i v
    else
      S.goto i (.wait v ticket)
  else
    S.goto i (.find v false)

/-- The way of a call from its READ to the next yield. -/
def resume (v : Value) (held : Bool) (r : Option Value) : State ι :=
  match s, r with
  | .read, r => S.leave s i held false r
  -- an update that does not find its key returns
  | .write, none =>
    let S := S.goto i .idle
    { S with trace := .ret i false none :: S.trace }
  | .write, some _ => S.goto i (.write (S.node.getCombiningValue k v) held)

end State

/-- The runs of updates (`s = .write`) or searches of `k` whose calls are made in states that meet `ok`. -/
inductive Run {ι : Type} [DecidableEq ι] (s : Side) (k : Key) (ok : State ι → Prop) (record : Option Value)
    : State ι → Prop
  | init (result : Option Value) (wcBuffer : Value) :
      Run s k ok record (State.init (.init result wcBuffer) record)
  | call {S : State ι} (i : ι) (v : Value) (h : Run s k ok record S) (hok : ok S)
      (hpc : S.pc i = .idle) :
      Run s k ok record (S.arrive s k i v)
  | wake {S : State ι} (i : ι) {v : Value} {t : BitVec 8} (h : Run s k ok record S)
      (hpc : S.pc i = .wait v t) (hturn : t = (S.node.queue s).current) :
      Run s k ok record (S.turn s k i v)
  | find {S : State ι} (i : ι) {v : Value} {held : Bool} (h : Run s k ok record S)
      (hpc : S.pc i = .find v held) :
      Run s k ok record (S.goto i (.found v held S.record))
  | resume {S : State ι} (i : ι) {v : Value} {held : Bool} {r : Option Value}
      (h : Run s k ok record S) (hpc : S.pc i = .found v held r) :
      Run s k ok record (S.resume s k i v held r)
  | write {S : State ι} (i : ι) {v : Value} {held : Bool} (h : Run s k ok record S)
      (hpc : S.pc i = .write v held) :
      Run s k ok record { S.goto i (.written held) with
        record := some v
        trace := .write v :: S.trace }
  | finish {S : State ι} (i : ι) {held : Bool} (h : Run s k ok record S)
      (hpc : S.pc i = .written held) :
      Run s k ok record (S.leave s i held false none)
  | store {S : State ι} (r : Option Value) (h : Run s k ok record S)
      (hkeep : S.record ≠ none → r ≠ none) :
      Run s k ok record { S with record := r, trace := .store r :: S.trace }

section Trace

variable {ι : Type} [DecidableEq ι]

/-- The last call of `i`: the events after it, its value and the events before it. -/
def since (i : ι) : List (Event ι) → Option (List (Event ι) × Value × List (Event ι))
  | [] => none
  | e :: trace =>
    match e with
    | .call j v =>
      if j = i then
        some ([], v, trace)
      else
        (since i trace).map (fun p => (e :: p.1, p.2))
    | _ => (since i trace).map (fun p => (e :: p.1, p.2))

/-- The content of the record after the events. -/
def content (record : Option Value) : List (Event ι) → Option Value
  | [] => record
  | .write v :: _ => some v
  | .store r :: _ => r
  | _ :: trace => content record trace

theorem since_cons_of_ne {e : Event ι} {i : ι} (h : ∀ v, e ≠ .call i v) (trace : List (Event ι))
    : since i (e :: trace) = (since i trace).map (fun p => (e :: p.1, p.2)) := by
  cases e with
  | call j v =>
    have hne : j ≠ i := by
      rintro rfl
      exact h v rfl
    exact if_neg hne
  | write v => rfl
  | store r => rfl
  | ret j handover r => rfl

theorem since_call (i : ι) (v : Value) (trace : List (Event ι))
    : since i (.call i v :: trace) = some ([], v, trace) := if_pos rfl

/-- What holds of the last call of `i`. -/
def Since (P : List (Event ι) → Value → List (Event ι) → Prop) (i : ι) (trace : List (Event ι)) : Prop :=
  ∃ after v before, since i trace = some (after, v, before) ∧ P after v before

theorem Since.call {P : List (Event ι) → Value → List (Event ι) → Prop} {i : ι} {v : Value}
    {trace : List (Event ι)} (h : P [] v trace)
    : Since P i (.call i v :: trace) := ⟨[], v, trace, since_call i v trace, h⟩

theorem Since.cons {P Q : List (Event ι) → Value → List (Event ι) → Prop} {i : ι} {e : Event ι}
    {trace : List (Event ι)} (h : Since P i trace) (he : ∀ v, e ≠ .call i v)
    (hQ : ∀ after v before, P after v before → Q (e :: after) v before)
    : Since Q i (e :: trace) := by
  obtain ⟨after, v, before, hsince, hP⟩ := h
  refine ⟨e :: after, v, before, ?_, hQ after v before hP⟩
  rw [since_cons_of_ne he, hsince]
  rfl

end Trace

namespace Pc

/-- The call has a ticket and is behind its wait. -/
def holds : Pc → Bool
  | .find _ held | .found _ held _ | .write _ held | .written held => held
  | _ => false

def waits : Pc → Bool
  | .wait _ _ => true
  | _ => false

/-- The call runs without a ticket. -/
def bare : Pc → Bool
  | .find _ held | .found _ held _ | .write _ held | .written held => !held
  | _ => false

end Pc

/-- The tickets of those that wait or hold the lock. -/
def owned {ι : Type} (pc : ι → Pc) (num : ι → Nat) (i : ι) : Option Nat :=
  if (pc i).waits || (pc i).holds then some (num i) else none

/-- The lock node and the tickets of the calls. `num` tells the tickets, `mark` is as in `WaitingLine`. -/
structure LineInv {ι : Type} (s : Side) (k : Key) (S : State ι) (num : ι → Nat) (mark : Nat) : Prop where
  line : WaitingLine s k S.node S.left S.taken mark (∃ i, (S.pc i).holds)
  queue : Ticket.Queue S.left S.taken (owned S.pc num)
  wait : ∀ {i v t}, S.pc i = .wait v t → t = BitVec.ofNat 8 (num i)
  holds : ∀ {i}, (S.pc i).holds → num i = S.left
  bare : ∀ i, (S.pc i).bare = false

section LineInv

variable {ι : Type} {s : Side} {k : Key} {S : State ι} {num : ι → Nat} {mark : Nat} {i j : ι}
  {v : Value} {t : BitVec 8} {r : Option Value}

theorem owned_update [DecidableEq ι] (pc : Pc) (num : ι → Nat) (x : Nat)
    : owned (Function.update S.pc i pc) (Function.update num i x)
        = Function.update (owned S.pc num) i (if pc.waits || pc.holds then some x else none) := by
  funext j
  unfold owned
  rcases eq_or_ne j i with rfl | hne
  . rw [Function.update_self, Function.update_self, Function.update_self]
  . rw [Function.update_of_ne hne, Function.update_of_ne hne, Function.update_of_ne hne]

theorem exists_holds_update [DecidableEq ι] {pc : Pc} (h : pc.holds = (S.pc i).holds)
    : (∃ j, (Function.update S.pc i pc j).holds) ↔ ∃ j, (S.pc j).holds := by
  have hsame : ∀ j, (Function.update S.pc i pc j).holds = (S.pc j).holds := by
    intro j
    rcases eq_or_ne j i with rfl | hne
    . rw [Function.update_self, h]
    . rw [Function.update_of_ne hne]
  simp only [hsame]

theorem owned_wait (hpc : S.pc i = .wait v t) : owned S.pc num i = some (num i) := by
  rw [owned, hpc]
  rfl

theorem owned_holds (h : (S.pc i).holds) : owned S.pc num i = some (num i) := by
  rw [owned, h, Bool.or_true, if_pos rfl]

namespace LineInv

theorem init (s : Side) (k : Key) (result : Option Value) (wcBuffer : Value) (record : Option Value)
    (num : ι → Nat)
    : LineInv s k (State.init (.init result wcBuffer) record) num 0 where
  line := by
    have hbusy : (∃ i : ι, ((State.init (.init result wcBuffer) record).pc i).holds) ↔ False := by
      simp [State.init, Pc.holds]
    rw [hbusy]
    apply WaitingLine.init
  queue := Ticket.Queue.empty
  wait := nofun
  holds := nofun
  bare := fun _ => rfl

theorem holds_unique (h : LineInv s k S num mark) (hi : (S.pc i).holds) (hj : (S.pc j).holds)
    : j = i := by
  apply h.queue.inj (owned_holds hj)
  rw [owned_holds hi, h.holds hi, h.holds hj]

/-- Nobody holds the lock while the ticket of a caller that waits is served. -/
theorem free (h : LineInv s k S num mark) (hpc : S.pc i = .wait v t) (hnum : num i = S.left)
    : ¬∃ j, (S.pc j).holds := by
  rintro ⟨j, hj⟩
  have heq : j = i := by
    apply h.queue.inj (owned_holds hj)
    rw [owned_wait hpc, hnum, h.holds hj]
  rw [heq, hpc] at hj
  cases hj

theorem turn_num (h : LineInv s k S num mark) (hpc : S.pc i = .wait v t)
    (hturn : t = (S.node.queue s).current)
    : num i = S.left := by
  have hfew := h.line.few
  apply h.queue.eq_served (m := 2 ^ 8) (by omega) (owned_wait hpc)
  rw [h.wait hpc, h.line.current] at hturn
  have := congrArg BitVec.toNat hturn
  rwa [BitVec.toNat_ofNat, BitVec.toNat_ofNat] at this

theorem congr {T : State ι} (h : LineInv s k S num mark) (hqueue : T.node.queue = S.node.queue)
    (hstart : T.node.windowStart = S.node.windowStart) (hpc : T.pc = S.pc) (htaken : T.taken = S.taken)
    (hleft : T.left = S.left)
    : LineInv s k T num mark := by
  obtain ⟨hline, h2, h3, h4, h5⟩ := h
  constructor
  . rw [hpc, htaken, hleft]
    exact hline.congr hqueue hstart
  all_goals
    simp only [hpc, htaken, hleft]
    assumption

variable [DecidableEq ι]

theorem update {T : State ι} {x mark' : Nat} (pc : Pc) (h : LineInv s k S num mark)
    (hpc : T.pc = Function.update S.pc i pc)
    (hline : WaitingLine s k T.node T.left T.taken mark' (∃ j, (T.pc j).holds))
    (hqueue : Ticket.Queue T.left T.taken
      (Function.update (owned S.pc num) i (if pc.waits || pc.holds then some x else none)))
    (hwait : ∀ {v t}, pc = .wait v t → t = BitVec.ofNat 8 x) (hholds : pc.holds → x = T.left)
    (hothers : ∀ {j}, j ≠ i → (S.pc j).holds → num j = T.left) (hbare : pc.bare = false)
    : LineInv s k T (Function.update num i x) mark' where
  line := hline
  queue := by
    rw [hpc, owned_update]
    exact hqueue
  wait := by
    intro j v t hj
    rw [hpc] at hj
    rcases eq_or_ne j i with rfl | hne
    . rw [Function.update_self] at hj
      rw [Function.update_self]
      exact hwait hj
    . rw [Function.update_of_ne hne] at hj
      rw [Function.update_of_ne hne]
      exact h.wait hj
  holds := by
    intro j hj
    rw [hpc] at hj
    rcases eq_or_ne j i with rfl | hne
    . rw [Function.update_self] at hj
      rw [Function.update_self]
      exact hholds hj
    . rw [Function.update_of_ne hne] at hj
      rw [Function.update_of_ne hne]
      exact hothers hne hj
  bare := by
    intro j
    rw [hpc]
    rcases eq_or_ne j i with rfl | hne
    . rw [Function.update_self]
      exact hbare
    . rw [Function.update_of_ne hne]
      exact h.bare j

theorem update_num {T : State ι} {mark' : Nat} (h : LineInv s k T (Function.update num i (num i)) mark')
    : LineInv s k T num mark' := by
  rwa [Function.update_eq_self] at h

theorem goto {pc : Pc} (h : LineInv s k S num mark) (hi : (S.pc i).holds) (hholds : pc.holds)
    (hwaits : pc.waits = false) (hbare : pc.bare = false)
    : LineInv s k (S.goto i pc) num mark := by
  have hbusy : ∃ j, (S.pc j).holds := ⟨i, hi⟩
  have hbusy' : ∃ j, ((S.goto i pc).pc j).holds := ⟨i, by rw [State.goto_pc_self, hholds]⟩
  apply update_num (i := i)
  apply h.update pc rfl
  . rw [iff_true_intro hbusy']
    rw [← iff_true_intro hbusy]
    exact h.line
  . rw [hholds, Bool.or_true, if_pos rfl, ← owned_holds hi, Function.update_eq_self]
    exact h.queue
  . intro v t hpc
    rw [hpc] at hwaits
    cases hwaits
  . intro _
    exact h.holds hi
  . intro j _ hj
    exact h.holds hj
  . exact hbare

theorem enter {T : State ι} (h : LineInv s k S num mark) (hpc : S.pc i = .wait v t)
    (hnum : num i = S.left) (hpc' : T.pc = Function.update S.pc i (.find v true))
    (hleft : T.left = S.left) (htaken : T.taken = S.taken)
    (hline : WaitingLine s k T.node S.left S.taken mark True)
    : LineInv s k T num mark := by
  have hbusy : ∃ j, (T.pc j).holds := ⟨i, by rw [hpc', Function.update_self]; rfl⟩
  apply update_num (i := i)
  apply h.update _ hpc'
  . rw [iff_true_intro hbusy, hleft, htaken]
    exact hline
  . rw [hleft, htaken]
    show Ticket.Queue _ _ (Function.update _ i (some (num i)))
    rw [← owned_wait hpc, Function.update_eq_self]
    exact h.queue
  . nofun
  . rw [hleft]
    exact fun _ => hnum
  . intro j _ hj
    exact absurd ⟨j, hj⟩ (h.free hpc hnum)
  . rfl

theorem leave {T : State ι} {mark' : Nat} (h : LineInv s k S num mark)
    (howned : owned S.pc num i = some (num i)) (hnum : num i = S.left)
    (hfree : ∀ j, (S.pc j).holds → j = i) (hpc : T.pc = Function.update S.pc i .idle)
    (hleft : T.left = S.left + 1) (htaken : T.taken = S.taken)
    (hline : WaitingLine s k T.node (S.left + 1) S.taken mark' False)
    : LineInv s k T num mark' := by
  have hbusy : ¬∃ j, (T.pc j).holds := by
    rintro ⟨j, hj⟩
    rw [hpc] at hj
    rcases eq_or_ne j i with rfl | hne
    . rw [Function.update_self] at hj
      cases hj
    . rw [Function.update_of_ne hne] at hj
      exact hne (hfree j hj)
  apply update_num (i := i)
  apply h.update _ hpc
  . rw [iff_false_intro hbusy, hleft, htaken]
    exact hline
  . rw [hleft, htaken]
    apply h.queue.leave
    rw [howned, hnum]
  . nofun
  . nofun
  . intro j hne hj
    exact absurd (hfree j hj) hne
  . rfl

end LineInv

variable [DecidableEq ι]

/-- A call of a state whose lock is not about to wrap takes a ticket and waits, or enters. -/
theorem arrive_spec (h : LineInv s k S num mark) (hpc : S.pc i = .idle) (hroom : S.taken - S.left < 255)
    : ∃ pc, (pc = .find v true ∨ ∃ t, pc = .wait v t)
        ∧ LineInv s k (S.arrive s k i v) (Function.update num i S.taken) mark
        ∧ (S.arrive s k i v).pc = Function.update S.pc i pc
        ∧ (S.arrive s k i v).trace = .call i v :: S.trace
        ∧ (S.arrive s k i v).record = S.record
        ∧ (S.arrive s k i v).node.handed
          = (S.node.result, if s = .write then v else S.node.wcBuffer) := by
  have hle := h.line.le
  obtain ⟨hkey, hself, hother, hstart⟩ := h.line.casKey
  have hhanded := S.node.casKey_handed s k
  generalize hnode : (if s = .write then { (S.node.casKey s k).2 with wcBuffer := v }
    else (S.node.casKey s k).2) = node
  have hqueue : node.queue = (S.node.casKey s k).2.queue := by
    rw [← hnode]
    split <;> rfl
  have hstart' : node.windowStart = S.node.windowStart := by
    rw [← hstart, ← hnode]
    split <;> rfl
  have hhanded' : node.handed = (S.node.result, if s = .write then v else S.node.wcBuffer) := by
    have hresult : (S.node.casKey s k).2.result = S.node.result := congrArg Prod.fst hhanded
    have hbuffer : (S.node.casKey s k).2.wcBuffer = S.node.wcBuffer := congrArg Prod.snd hhanded
    rw [← hnode, ← hresult, ← hbuffer]
    split <;> rfl
  rw [← hqueue] at hself hother
  generalize htake : node.takeTicket s = node'
  have hself' : node'.queue s = { S.node.queue s with
      uniqueKey := some k
      ticket := (S.node.queue s).ticket + 1 } := by
    rw [← htake, LocalLockNode.takeTicket, WaitingLine.setQueue_self, hself]
  have hother' : node'.queue s.other = S.node.queue s.other := by
    rw [← htake, LocalLockNode.takeTicket, WaitingLine.setQueue_other, hother]
  have hstart'' : node'.windowStart = S.node.windowStart := by
    rw [← hstart', ← htake]
    rfl
  have hhanded'' : node'.handed = node.handed := by
    rw [← htake]
    rfl
  rw [hhanded'] at hhanded''
  have hticket : (node.queue s).ticket = BitVec.ofNat 8 S.taken := by
    rw [hself]
    exact h.line.ticket
  have hcurrent : (node'.queue s).current = BitVec.ofNat 8 S.left := by
    rw [hself']
    exact h.line.current
  have harrive : S.arrive s k i v
      = if (node.queue s).ticket = (node'.queue s).current then
          { S with node := node', taken := S.taken + 1, trace := .call i v :: S.trace }.turn s k i v
        else
          { S with node := node', taken := S.taken + 1, trace := .call i v :: S.trace }.goto i
            (.wait v (node.queue s).ticket) := by
    unfold State.arrive
    dsimp only
    rw [if_pos hkey, hnode, htake]
  rw [hticket, hcurrent] at harrive
  rcases Nat.eq_or_lt_of_le hle with heq | hlt
  . -- nobody waits
    obtain ⟨henter, hline⟩ := h.line.joinEmpty hself' hother' hstart'' heq
    rw [if_pos (by rw [heq]), State.turn, if_pos (by rw [hself'])] at harrive
    dsimp only at harrive
    rw [henter] at harrive
    dsimp only at harrive
    rw [if_neg Bool.false_ne_true] at harrive
    rw [harrive]
    refine ⟨.find v true, .inl rfl, ?_, rfl, rfl, rfl, hhanded''⟩
    apply h.update (.find v true) rfl
    . have hbusy : ∃ j, (Function.update S.pc i (.find v true) j).holds :=
        ⟨i, by rw [Function.update_self]; rfl⟩
      dsimp only [State.goto]
      rw [iff_true_intro hbusy]
      exact hline
    . exact h.queue.draw
    . nofun
    . intro _
      exact heq.symm
    . intro j _ hj
      exact h.holds hj
    . rfl
  . have hne : BitVec.ofNat 8 S.taken ≠ BitVec.ofNat 8 S.left := by
      intro heq
      have := congrArg BitVec.toNat heq
      simp only [BitVec.toNat_ofNat] at this
      omega
    rw [if_neg hne] at harrive
    rw [harrive]
    refine ⟨.wait v (BitVec.ofNat 8 S.taken), .inr ⟨_, rfl⟩, ?_, rfl, rfl, rfl, hhanded''⟩
    apply h.update (.wait v (BitVec.ofNat 8 S.taken)) rfl
    . dsimp only [State.goto]
      rw [exists_holds_update (by rw [hpc]; rfl)]
      exact h.line.join hself' hother' hstart'' hroom hlt
    . exact h.queue.draw
    . intro v t hwait
      cases hwait
      rfl
    . nofun
    . intro j _ hj
      exact h.holds hj
    . rfl

theorem turn_spec (h : LineInv s k S num mark) (hpc : S.pc i = .wait v t)
    (hturn : t = (S.node.queue s).current)
    : LineInv s k (S.turn s k i v) num mark
        ∧ (S.turn s k i v).record = S.record
        ∧ (S.turn s k i v).node.handed = S.node.handed
        ∧ ((mark ≤ S.left
            ∧ (S.turn s k i v).pc = Function.update S.pc i (.find v true)
            ∧ (S.turn s k i v).trace = S.trace)
          ∨ (num i < mark
            ∧ (S.turn s k i v).pc = Function.update S.pc i .idle
            ∧ (S.turn s k i v).trace
              = .ret i true (if s = .read then S.node.result else none) :: S.trace)) := by
  have hnum := h.turn_num hpc hturn
  have hfree := h.free hpc hnum
  have hlt : S.left < S.taken := by
    have howned : owned S.pc num i = some (num i) := owned_wait hpc
    have := h.queue.bounds howned
    omega
  have hkey : (S.node.queue s).uniqueKey = some k := by
    rw [h.line.uniqueKey, if_pos hlt]
  rcases Nat.lt_or_ge S.left mark with hmark | hmark
  . have hhandover := h.line.handover.mpr ⟨hlt, hfree⟩
    have hres : (if s = .read then S.node.exchange none else (none, S.node))
        = (if s = .read then S.node.result else none, S.node) := by
      split
      . next hread =>
        rw [hread] at hhandover
        rw [LocalLockNode.exchange, if_pos hhandover]
      . rfl
    have heq : S.turn s k i v = { S.goto i .idle with
        node := S.node.release s
        left := S.left + 1
        trace := .ret i true (if s = .read then S.node.result else none) :: S.trace } := by
      unfold State.turn
      rw [if_pos hkey]
      dsimp only
      rw [h.line.lose hmark hfree]
      dsimp only
      rw [if_pos rfl, State.leave, if_pos rfl]
      dsimp only
      rw [hres]
      rfl
    rw [heq]
    refine ⟨?_, rfl, S.node.release_handed s, .inr ⟨by omega, rfl, rfl⟩⟩
    refine h.leave (owned_wait hpc) hnum ?_ rfl rfl rfl (h.line.release_loser hmark hfree)
    intro j hj
    exact absurd ⟨j, hj⟩ hfree
  . obtain ⟨henter, hline⟩ := h.line.win hlt hmark
    have heq : S.turn s k i v = { S with
        node := S.node.setQueue s { S.node.queue s with handover := false } }.goto i (.find v true) := by
      unfold State.turn
      rw [if_pos hkey]
      dsimp only
      rw [henter]
      exact if_neg Bool.false_ne_true
    rw [heq]
    refine ⟨?_, rfl, rfl, .inl ⟨hmark, rfl, rfl⟩⟩
    exact h.enter hpc hnum rfl rfl rfl hline

theorem leave_spec (h : LineInv s k S num mark) (hholds : (S.pc i).holds) (r : Option Value)
    : LineInv s k (S.leave s i true false r) num S.taken
        ∧ (S.leave s i true false r).pc = Function.update S.pc i .idle
        ∧ (S.leave s i true false r).trace = .ret i false r :: S.trace
        ∧ (S.leave s i true false r).record = S.record
        ∧ (S.leave s i true false r).node.handed
          = (if s = .read then r else S.node.result, S.node.wcBuffer) := by
  have hbusy : ∃ j, (S.pc j).holds := ⟨i, hholds⟩
  have hhandover : (S.node.queue s).handover = false := by
    rw [Bool.eq_false_iff, Ne, h.line.handover]
    exact fun hand => hand.2 hbusy
  have hres : (if s = .read then S.node.exchange r else (r, S.node))
      = (r, { S.node with result := if s = .read then r else S.node.result }) := by
    split
    . next hread =>
      rw [hread] at hhandover
      rw [LocalLockNode.exchange, hhandover]
      rfl
    . rfl
  have heq : S.leave s i true false r = { S.goto i .idle with
      node := LocalLockNode.release { S.node with result := if s = .read then r else S.node.result } s
      left := S.left + 1
      trace := .ret i false r :: S.trace } := by
    unfold State.leave
    rw [if_pos rfl, hres]
    rfl
  rw [heq]
  refine ⟨?_, rfl, rfl, rfl, LocalLockNode.release_handed _ s⟩
  have hline : WaitingLine s k { S.node with result := if s = Side.read then r else S.node.result } S.left S.taken mark
      (∃ j, (S.pc j).holds) := h.line.congr rfl rfl
  exact h.leave (owned_holds hholds) (h.holds hholds) (fun j hj => h.holds_unique hholds hj) rfl rfl rfl
    (hline.release_winner hbusy)

end LineInv

end Coroutine

end Rolex
