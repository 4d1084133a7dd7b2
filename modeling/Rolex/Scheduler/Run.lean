import Mathlib.Data.List.Perm.Basic
import Rolex.Scheduler.Thread

/-!
This module contains what each suspended coroutine of a thread waits for, and that `run_coroutine` resumes
it once and not earlier.
-/

namespace Rolex

namespace Scheduler

/-- How far a running coroutine is, from its outstanding requests, its entries in the queue and its code. -/
inductive Phase (i : Nat) (own : List Posted) (queued : Nat) (code : List Action) : Prop
  | ready (hown : own = []) (hqueued : queued = 0) (hready : Ready i code)
  | armed {rest : List Action} (hcode : code = .yield :: rest) (hready : Ready i rest)
      (hwaits : WaitsOnce i own queued)
  | scanning {posts rest : List Action} {n : Nat} (hcode : code = posts ++ .pollWithCq n :: rest)
      (hposts : ∀ a ∈ posts, a.IsScanPost) (hready : Ready i rest)
      (hlen : posts.length + own.length = n) (hqueued : queued = 0)

/-- What holds of each coroutine at any time. -/
def Fine (i : Nat) (own : List Posted) (queued : Nat) (w : Worker) : Prop :=
  match w.status with
  | .fresh => (own = [] ∧ queued = 0) ∧ Ready i w.code
  | .running => Phase i own queued w.code
  | .suspended => WaitsOnce i own queued ∧ Ready i w.code
  | .finished => own = [] ∧ queued = 0

section Perm

variable {i queued : Nat} {own own' : List Posted} (hperm : own.Perm own')
include hperm

theorem WaitsOnce.perm (h : WaitsOnce i own queued) : WaitsOnce i own' queued := by
  cases h with
  | inl h => exact .inl ⟨List.perm_singleton.mp (h.1 ▸ hperm.symm), h.2⟩
  | inr h => exact .inr ⟨List.nil_perm.mp (h.1 ▸ hperm), h.2⟩

theorem Phase.perm {code : List Action} (h : Phase i own queued code) : Phase i own' queued code := by
  cases h with
  | ready hown hqueued hready => exact .ready (List.nil_perm.mp (hown ▸ hperm)) hqueued hready
  | armed hcode hready hwaits => exact .armed hcode hready (hwaits.perm hperm)
  | scanning hcode hposts hready hlen hqueued =>
    exact .scanning hcode hposts hready (hperm.length_eq ▸ hlen) hqueued

theorem Fine.perm {w : Worker} (h : Fine i own queued w) : Fine i own' queued w := by
  unfold Fine at h ⊢
  cases hstatus : w.status with
  | fresh =>
    rw [hstatus] at h
    exact ⟨⟨List.nil_perm.mp (h.1.1 ▸ hperm), h.1.2⟩, h.2⟩
  | running =>
    rw [hstatus] at h
    exact Phase.perm hperm h
  | suspended =>
    rw [hstatus] at h
    exact ⟨h.1.perm hperm, h.2⟩
  | finished =>
    rw [hstatus] at h
    exact ⟨List.nil_perm.mp (h.1 ▸ hperm), h.2⟩

end Perm

namespace Thread

variable {T T' : Thread} {c : Nat}

structure Inv (T : Thread) : Prop where
  fine : ∀ i, Fine i (T.own i) (T.busyWaitingQueue.count i) (T.worker i)
  running_iff : ∀ i, (T.worker i).status = .running ↔ T.running = some i
  bound : ∀ i, (T.worker i).status = .running ∨ (T.worker i).status = .suspended → i < T.coroCnt
  starting : ∀ k, T.turn = .start k → ∀ j, k ≤ j → (T.worker j).status = .fresh

theorem Inv.suspended (h : T.Inv) {i : Nat} (hi : T.Suspended i)
    : WaitsOnce i (T.own i) (T.busyWaitingQueue.count i) ∧ Ready i (T.worker i).code := by
  have hfine := h.fine i
  unfold Suspended at hi
  unfold Fine at hfine
  rw [hi] at hfine
  exact hfine

theorem Inv.phase (h : T.Inv) (hc : T.running = some c)
    : Phase c (T.own c) (T.busyWaitingQueue.count c) (T.worker c).code := by
  have hfine := h.fine c
  unfold Fine at hfine
  rw [(h.running_iff c).mpr hc] at hfine
  exact hfine

/-- A step that only concerns the coroutine `c`. -/
structure Moves (c : Nat) (T T' : Thread) : Prop where
  coroCnt : T'.coroCnt = T.coroCnt
  before : ∀ j, j ≠ c → T.running ≠ some j
  after : ∀ j, j ≠ c → T'.running ≠ some j
  own : ∀ j, j ≠ c → T'.own j = T.own j
  count : ∀ j, j ≠ c → T'.busyWaitingQueue.count j = T.busyWaitingQueue.count j
  worker : ∀ j, j ≠ c → T'.worker j = T.worker j

theorem Inv.move (h : T.Inv) (hmoves : Moves c T T') (hbound : c < T.coroCnt)
    (hfine : Fine c (T'.own c) (T'.busyWaitingQueue.count c) (T'.worker c))
    (hrunning : (T'.worker c).status = .running ↔ T'.running = some c)
    (hstarting : ∀ k, T'.turn = .start k → ∀ j, k ≤ j → j ≠ c ∧ (T.worker j).status = .fresh)
    : T'.Inv := by
  constructor
  . intro j
    by_cases hj : j = c
    . rw [hj]
      exact hfine
    . rw [hmoves.own j hj, hmoves.count j hj, hmoves.worker j hj]
      exact h.fine j
  . intro j
    by_cases hj : j = c
    . rw [hj]
      exact hrunning
    . rw [hmoves.worker j hj, h.running_iff j]
      exact iff_of_false (hmoves.before j hj) (hmoves.after j hj)
  . intro j hstatus
    rw [hmoves.coroCnt]
    by_cases hj : j = c
    . rw [hj]
      exact hbound
    . rw [hmoves.worker j hj] at hstatus
      exact h.bound j hstatus
  . intro k hturn j hj
    obtain ⟨hne, hfresh⟩ := hstarting k hturn j hj
    rw [hmoves.worker j hne]
    exact hfresh

theorem setWorker_self (w : Worker) : (T.setWorker c w).worker c = w := Function.update_self ..

theorem setWorker_of_ne {j : Nat} (w : Worker) (hj : j ≠ c) : (T.setWorker c w).worker j = T.worker j :=
  Function.update_of_ne hj ..

theorem own_eq (T : Thread) (i : Nat)
    : T.own i = T.inFlight.filter (fun r => r.owner = i) ++ T.cq.filter (fun r => r.owner = i) :=
  List.filter_append ..

theorem complete_own_perm {k : Nat} (hstep : T.complete k = some T') (i : Nat) : (T.own i).Perm (T'.own i) := by
  unfold complete at hstep
  split at hstep
  . next r hr =>
    cases hstep
    apply List.Perm.filter
    obtain ⟨hlt, hget⟩ := List.getElem?_eq_some_iff.mp hr
    have hcons : T.inFlight.Perm (r :: T.inFlight.eraseIdx k) := by
      rw [← hget]
      exact (List.getElem_cons_eraseIdx_perm hlt).symm
    calc T.inFlight ++ T.cq
      _ |>.Perm (r :: T.inFlight.eraseIdx k ++ T.cq) := hcons.append_right T.cq
      _ |>.Perm (T.inFlight.eraseIdx k ++ r :: T.cq) := List.perm_middle.symm
      _ |>.Perm (T.inFlight.eraseIdx k ++ (T.cq ++ [r])) := (List.perm_append_singleton r T.cq).symm.append_left _
  . cases hstep

theorem Inv.complete {k : Nat} (h : T.Inv) (hstep : T.complete k = some T') : T'.Inv := by
  have hperm := complete_own_perm hstep
  unfold Thread.complete at hstep
  split at hstep
  . cases hstep
    exact ⟨fun i => (h.fine i).perm (hperm i), h.running_iff, h.bound, h.starting⟩
  . cases hstep

section Act

variable (hc : T.running = some c)
include hc

theorem before_of_running (j : Nat) (hj : j ≠ c) : T.running ≠ some j := by
  rw [hc]
  exact fun heq => hj (Option.some.inj heq).symm

theorem moves_setWorker (w : Worker) (running : Option Nat) (hafter : ∀ j, j ≠ c → running ≠ some j)
    : Moves c T { T.setWorker c w with running } where
  coroCnt := rfl
  before := before_of_running hc
  after := hafter
  own _ _ := rfl
  count _ _ := rfl
  worker _ hj := setWorker_of_ne w hj

theorem moves_take (w : Worker) (taken : Nat → Nat) : Moves c T { T.setWorker c w with taken } where
  coroCnt := rfl
  before := before_of_running hc
  after := before_of_running hc
  own _ _ := rfl
  count _ _ := rfl
  worker _ hj := setWorker_of_ne w hj

theorem moves_post (w : Worker) (n wrId : Nat)
    : Moves c T { T.setWorker c w with inFlight := T.inFlight ++ List.replicate n ⟨c, wrId⟩ } where
  coroCnt := rfl
  before := before_of_running hc
  after := before_of_running hc
  own j hj := by
    have hnone : (List.replicate n (⟨c, wrId⟩ : Posted)).filter (fun r => r.owner = j) = [] := by
      simp [hj.symm]
    rw [own_eq, own_eq]
    simp only [List.filter_append, hnone, List.append_nil]
    rfl
  count _ _ := rfl
  worker _ hj := setWorker_of_ne w hj

theorem moves_push (w : Worker)
    : Moves c T { T.setWorker c w with busyWaitingQueue := T.busyWaitingQueue ++ [c] } where
  coroCnt := rfl
  before := before_of_running hc
  after := before_of_running hc
  own _ _ := rfl
  count j hj := by
    rw [List.count_append, List.count_singleton, beq_false_of_ne hj.symm]
    rfl
  worker _ hj := setWorker_of_ne w hj

theorem moves_poll (w : Worker) {r : Posted} {cq : List Posted} (hcq : T.cq = r :: cq) (hr : r.owner = c)
    : Moves c T { T.setWorker c w with cq } where
  coroCnt := rfl
  before := before_of_running hc
  after := before_of_running hc
  own j hj := by
    rw [own_eq, own_eq, hcq, List.filter_cons_of_neg]
    . rfl
    . simp [hr, hj.symm]
  count _ _ := rfl
  worker _ hj := setWorker_of_ne w hj

omit hc in
theorem own_post_perm (w : Worker) (n wrId : Nat)
    : (List.replicate n (⟨c, wrId⟩ : Posted) ++ T.own c).Perm
        (({ T.setWorker c w with inFlight := T.inFlight ++ List.replicate n ⟨c, wrId⟩ } : Thread).own c) := by
  have hall : (List.replicate n (⟨c, wrId⟩ : Posted)).filter (fun r => r.owner = c)
      = List.replicate n ⟨c, wrId⟩ := by
    simp
  rw [own_eq, own_eq]
  simp only [List.filter_append, hall, List.append_assoc]
  exact List.perm_append_comm_assoc _ _ _

theorem Inv.starting_ne (h : T.Inv) (k : Nat) (hturn : T.turn = .start k) (j : Nat) (hj : k ≤ j)
    : j ≠ c ∧ (T.worker j).status = .fresh := by
  have hfresh := h.starting k hturn j hj
  refine ⟨?_, hfresh⟩
  intro heq
  rw [heq, (h.running_iff c).mpr hc] at hfresh
  cases hfresh

theorem Inv.goOn (h : T.Inv) (hmoves : Moves c T T') {code : List Action} (hrunning : T'.running = some c)
    (hturn : T'.turn = T.turn) (hw : T'.worker c = ⟨.running, code⟩)
    (hphase : Phase c (T'.own c) (T'.busyWaitingQueue.count c) code)
    : T'.Inv := by
  apply h.move hmoves (h.bound c (.inl ((h.running_iff c).mpr hc)))
  . rw [hw]
    exact hphase
  . rw [hw]
    exact iff_of_true rfl hrunning
  . rw [hturn]
    exact h.starting_ne hc

theorem Inv.stop (h : T.Inv) {w : Worker} (hw : w.status ≠ .running)
    (hfine : Fine c (T.own c) (T.busyWaitingQueue.count c) w)
    : ({ T.setWorker c w with running := none } : Thread).Inv := by
  apply h.move (moves_setWorker hc w none (fun _ _ => nofun)) (h.bound c (.inl ((h.running_iff c).mpr hc)))
  . simp only [setWorker_self]
    exact hfine
  . simp only [setWorker_self]
    exact iff_of_false hw nofun
  . exact h.starting_ne hc

theorem Inv.post (h : T.Inv) {signaled : List Bool} {wrId : Nat} {rest : List Action}
    (hone : signaled.count true = 1)
    (hphase : Phase c (⟨c, wrId⟩ :: T.own c) (T.busyWaitingQueue.count c) rest)
    (hstep : T.doAction c rest (.post signaled wrId) = some T')
    : T'.Inv := by
  cases hstep
  rw [hone]
  exact h.goOn hc (moves_post hc _ 1 wrId) hc rfl (setWorker_self _) (hphase.perm (own_post_perm _ 1 wrId))

theorem Inv.push (h : T.Inv) {rest : List Action} (hown : T.own c = [])
    (hqueued : T.busyWaitingQueue.count c = 0) (hready : Ready c rest)
    (hstep : T.doAction c (.yield :: rest) (.push c) = some T')
    : T'.Inv := by
  cases hstep
  apply h.goOn hc (moves_push hc _) hc rfl (setWorker_self _)
  apply Phase.armed rfl hready
  right
  constructor
  . exact hown
  . simp only [List.count_append, hqueued, List.count_singleton_self]

/-- The polls of a scan only take the completions of its own requests. -/
theorem Inv.poll (h : T.Inv) {n : Nat} {rest : List Action} (halone : ∀ r ∈ T.inFlight ++ T.cq, r.owner = c)
    (hready : Ready c rest) (hlen : (T.own c).length = n) (hqueued : T.busyWaitingQueue.count c = 0)
    (hstep : T.pollWithCq c rest n = some T')
    : T'.Inv := by
  have hall : T.own c = T.inFlight ++ T.cq := by
    apply List.filter_eq_self.mpr
    exact fun r hr => decide_eq_true (halone r hr)
  unfold pollWithCq at hstep
  split at hstep
  . next hcq =>
    split at hstep
    . next hn =>
      cases hstep
      rw [hn] at hlen
      apply h.goOn hc (moves_setWorker hc _ _ (before_of_running hc)) hc rfl (setWorker_self _)
      exact .ready (List.length_eq_zero_iff.mp hlen) hqueued hready
    . cases hstep
      exact h
  . next r cq hcq =>
    have hr : r.owner = c := halone r (by simp [hcq])
    have hrest : (T.inFlight ++ cq).filter (fun r => r.owner = c) = T.inFlight ++ cq := by
      apply List.filter_eq_self.mpr
      intro r' hr'
      apply decide_eq_true
      apply halone
      rw [hcq]
      simp only [List.mem_append, List.mem_cons] at hr' ⊢
      tauto
    have hlen' : (T.inFlight ++ cq).length + 1 = n := by
      rw [← hlen, hall, hcq]
      simp only [List.length_append, List.length_cons]
      omega
    split at hstep
    . next hn =>
      cases hstep
      apply h.goOn hc (moves_poll hc _ hcq hr) hc rfl (setWorker_self _)
      refine .ready ?_ hqueued hready
      apply hrest.trans
      apply List.length_eq_zero_iff.mp
      omega
    . cases hstep
      apply h.goOn hc (moves_poll hc _ hcq hr) hc rfl (setWorker_self _)
      refine .scanning (List.nil_append _).symm (by simp) hready ?_ hqueued
      have heq := congrArg List.length hrest
      simp only [List.length_nil, Nat.zero_add]
      refine heq.trans ?_
      omega

theorem Inv.scan (h : T.Inv) (halone : T.PollsAlone) {posts rest code : List Action} {n : Nat}
    (hcode : (T.worker c).code = posts ++ .pollWithCq n :: rest) (hposts : ∀ a ∈ posts, a.IsScanPost)
    (hready : Ready c rest) (hlen : posts.length + (T.own c).length = n)
    (hqueued : T.busyWaitingQueue.count c = 0) {a : Action} (ha : (T.worker c).code = a :: code)
    (hstep : T.doAction c code a = some T')
    : T'.Inv := by
  cases posts with
  | nil =>
    have hcons := ha.symm.trans hcode
    cases hcons
    rw [List.length_nil, Nat.zero_add] at hlen
    have hpolling : c ∈ T.polling := by
      unfold polling
      rw [hc]
      dsimp only
      rw [ha]
      rfl
    exact h.poll hc (halone c hpolling) hready hlen hqueued hstep
  | cons b posts =>
    have hcons := ha.symm.trans hcode
    cases hcons
    obtain ⟨hb, hrest⟩ := List.forall_mem_cons.mp hposts
    cases a with
    | post signaled wrId =>
      apply h.post hc hb.1 _ hstep
      refine .scanning rfl hrest hready ?_ hqueued
      simp only [List.length_cons] at hlen ⊢
      omega
    | push id => cases hb
    | yield => cases hb
    | pollWithCq m => cases hb
    | abort => cases hb

theorem Inv.doAction (h : T.Inv) (halone : T.PollsAlone) {a : Action} {code : List Action}
    (ha : (T.worker c).code = a :: code) (hstep : T.doAction c code a = some T')
    : T'.Inv := by
  cases h.phase hc with
  | ready hown hqueued hready =>
    generalize hwhole : (T.worker c).code = whole at hready
    rw [ha] at hwhole
    cases hready with
    | nil => cases hwhole
    | post hone hrest =>
      cases hwhole
      apply h.post hc hone _ hstep
      exact .armed rfl hrest (.inl ⟨by rw [hown], hqueued⟩)
    | push hrest =>
      cases hwhole
      exact h.push hc hown hqueued hrest hstep
    | scan hposts hrest =>
      refine h.scan hc halone (ha.trans hwhole) hposts hrest ?_ hqueued ha hstep
      rw [hown]
      rfl
    | abort rest =>
      cases hwhole
      cases hstep
  | armed hcode hready hwaits =>
    have hcons := ha.symm.trans hcode
    cases hcons
    cases hstep
    exact h.stop hc nofun ⟨hwaits, hready⟩
  | scanning hcode hposts hready hlen hqueued =>
    exact h.scan hc halone hcode hposts hready hlen hqueued ha hstep

omit hc in
theorem Inv.act (h : T.Inv) (halone : T.PollsAlone) (hstep : T.act = some T') : T'.Inv := by
  unfold Thread.act at hstep
  split at hstep
  . cases hstep
  . next c hc =>
    split at hstep
    . next hcode =>
      -- a coroutine at the head of its loop has nothing outstanding
      have hidle : T.own c = [] ∧ T.busyWaitingQueue.count c = 0 := by
        have hphase := h.phase hc
        rw [hcode] at hphase
        cases hphase with
        | ready hown hqueued _ => exact ⟨hown, hqueued⟩
        | armed hcode _ _ => cases hcode
        | scanning hcode _ _ _ _ => simp at hcode
      split at hstep
      . cases hstep
        exact h.stop hc (by nofun) hidle
      . cases hstep
        exact h.goOn hc (moves_take hc _ _) hc rfl (setWorker_self _) (.ready hidle.1 hidle.2 (.coroWorker _))
    . next a code ha => exact h.doAction hc halone ha hstep

end Act

section Sched

variable (hnone : T.running = none)
include hnone

theorem Inv.outstanding (h : T.Inv) {r : Posted} (hr : r ∈ T.inFlight ++ T.cq)
    : T.Suspended r.owner ∧ T.own r.owner = [⟨r.owner, r.owner⟩] ∧ r = ⟨r.owner, r.owner⟩
        ∧ T.busyWaitingQueue.count r.owner = 0 := by
  have hmem : r ∈ T.own r.owner := List.mem_filter.mpr ⟨hr, decide_eq_true rfl⟩
  have hfine := h.fine r.owner
  unfold Fine at hfine
  cases hstatus : (T.worker r.owner).status with
  | fresh =>
    rw [hstatus] at hfine
    rw [hfine.1.1] at hmem
    cases hmem
  | running =>
    rw [(h.running_iff _).mp hstatus] at hnone
    cases hnone
  | suspended =>
    rw [hstatus] at hfine
    cases hfine.1 with
    | inl hown =>
      refine ⟨hstatus, hown.1, ?_, hown.2⟩
      rw [hown.1] at hmem
      exact List.mem_singleton.mp hmem
    | inr hown =>
      rw [hown.1] at hmem
      cases hmem
  | finished =>
    rw [hstatus] at hfine
    rw [hfine.1] at hmem
    cases hmem

theorem Inv.queued (h : T.Inv) {id : Nat} (hid : id ∈ T.busyWaitingQueue)
    : T.Suspended id ∧ T.own id = [] ∧ T.busyWaitingQueue.count id = 1 := by
  have hpos : 0 < T.busyWaitingQueue.count id := List.count_pos_iff.mpr hid
  have hfine := h.fine id
  unfold Fine at hfine
  cases hstatus : (T.worker id).status with
  | fresh =>
    rw [hstatus] at hfine
    omega
  | running =>
    rw [(h.running_iff _).mp hstatus] at hnone
    cases hnone
  | suspended =>
    rw [hstatus] at hfine
    cases hfine.1 with
    | inl hown => omega
    | inr hown => exact ⟨hstatus, hown⟩
  | finished =>
    rw [hstatus] at hfine
    omega

/-- `T'` has a coroutine resumed that waits for nothing, and differs from `T` in nothing else. -/
structure Resumes (T T' : Thread) (i : Nat) : Prop where
  inv : T'.Inv
  running : T'.running = some i
  own : T'.own i = []
  count : T'.busyWaitingQueue.count i = 0

/-- The call of a worker whose only wakeup was taken, which made `S` of `T`. -/
theorem Inv.resume (h : T.Inv) (S : Thread) {i : Nat} (hworker : S.worker = T.worker)
    (hcnt : S.coroCnt = T.coroCnt) (hi : i < T.coroCnt)
    (hstatus : (T.worker i).status = .fresh ∨ (T.worker i).status = .suspended)
    (hown : S.own i = []) (hcount : S.busyWaitingQueue.count i = 0)
    (hframe : ∀ j, j ≠ i → S.own j = T.own j ∧ S.busyWaitingQueue.count j = T.busyWaitingQueue.count j)
    (hstarting : ∀ k, S.turn = .start k → ∀ j, k ≤ j → j ≠ i ∧ (T.worker j).status = .fresh)
    : ∃ T', S.resume i = some T' ∧ Resumes T T' i := by
  have hready : Ready i (T.worker i).code := by
    have hfine := h.fine i
    unfold Fine at hfine
    cases hstatus with
    | inl hfresh =>
      rw [hfresh] at hfine
      exact hfine.2
    | inr hsuspended =>
      rw [hsuspended] at hfine
      exact hfine.2
  refine ⟨_, if_pos ⟨hcnt ▸ hi, hworker ▸ hstatus⟩, ?_, rfl, hown, hcount⟩
  have hmoves : Moves i T { S.setWorker i ⟨.running, (S.worker i).code⟩ with running := some i } := by
    constructor
    . exact hcnt
    . intro j _
      rw [hnone]
      nofun
    . exact fun j hj heq => hj (Option.some.inj heq).symm
    . exact fun j hj => (hframe j hj).1
    . exact fun j hj => (hframe j hj).2
    . exact fun j hj => (setWorker_of_ne _ hj).trans (congrFun hworker j)
  apply h.move hmoves hi
  . simp only [setWorker_self]
    rw [hworker]
    exact .ready hown hcount hready
  . simp only [setWorker_self]
  . exact hstarting

theorem Inv.start (h : T.Inv) {i : Nat} (hturn : T.turn = .start i) (hi : i < T.coroCnt)
    : ∃ T', { T with turn := .start (i + 1) }.resume i = some T' ∧ Resumes T T' i := by
  have hfresh := h.starting i hturn i (Nat.le_refl i)
  have hfine := h.fine i
  unfold Fine at hfine
  rw [hfresh] at hfine
  apply h.resume hnone { T with turn := .start (i + 1) } rfl rfl hi (.inl hfresh) hfine.1.1 hfine.1.2
    (fun j _ => ⟨rfl, rfl⟩)
  intro k hk j hj
  cases hk
  exact ⟨Nat.ne_of_gt hj, h.starting i hturn j (Nat.le_of_succ_le hj)⟩

theorem Inv.wakeByCq (h : T.Inv) {r : Posted} {cq : List Posted} (hcq : T.cq = r :: cq)
    : ∃ T', { T with cq, turn := .pop }.resume r.wrId = some T' ∧ Resumes T T' r.wrId := by
  have hmem : r ∈ T.inFlight ++ T.cq := by simp [hcq]
  obtain ⟨hsuspended, hown, hr, hcount⟩ := h.outstanding hnone hmem
  have hid : r.wrId = r.owner := congrArg Posted.wrId hr
  rw [hid]
  apply h.resume hnone { T with cq, turn := .pop } rfl rfl (h.bound _ (.inr hsuspended)) (.inr hsuspended) _ hcount
  . intro j hj
    refine ⟨?_, rfl⟩
    rw [own_eq, own_eq, hcq, List.filter_cons_of_neg]
    simp [hj.symm]
  . nofun
  . have hlen := congrArg List.length hown
    rw [own_eq, hcq, List.filter_cons_of_pos (by simp)] at hlen
    apply List.length_eq_zero_iff.mp
    rw [own_eq]
    simp only [List.length_append, List.length_cons, List.length_nil] at hlen ⊢
    omega

theorem Inv.wakeByQueue (h : T.Inv) {id : Nat} {queue : List Nat} (hqueue : T.busyWaitingQueue = id :: queue)
    : ∃ T', { T with busyWaitingQueue := queue, turn := .poll }.resume id = some T' ∧ Resumes T T' id := by
  have hmem : id ∈ T.busyWaitingQueue := by simp [hqueue]
  obtain ⟨hsuspended, hown, hcount⟩ := h.queued hnone hmem
  apply h.resume hnone { T with busyWaitingQueue := queue, turn := .poll } rfl rfl
    (h.bound _ (.inr hsuspended)) (.inr hsuspended) hown
  . rw [hqueue, List.count_cons_self] at hcount
    exact Nat.succ.inj hcount
  . intro j hj
    refine ⟨rfl, ?_⟩
    rw [hqueue, List.count_cons_of_ne hj.symm]
  . nofun

/-- The scheduler calls no worker that cannot be called, and those it calls have nothing left to wait for. -/
theorem Inv.sched (h : T.Inv)
    : ∃ T', T.sched = some T' ∧ T'.Inv ∧ ∀ i, T'.running = some i → Resumes T T' i := by
  have hcalls {S : Option Thread} {i : Nat} (hex : ∃ T', S = some T' ∧ Resumes T T' i)
      : ∃ T', S = some T' ∧ T'.Inv ∧ ∀ j, T'.running = some j → Resumes T T' j := by
    obtain ⟨T', hS, hres⟩ := hex
    refine ⟨T', hS, hres.inv, ?_⟩
    intro j hj
    cases hj.symm.trans hres.running
    exact hres
  have hskips (turn : Turn) (hturn : ∀ k, turn ≠ .start k)
      : ∃ T', some { T with turn } = some T' ∧ T'.Inv ∧ ∀ j, T'.running = some j → Resumes T T' j := by
    refine ⟨_, rfl, ⟨h.fine, h.running_iff, h.bound, fun k hk => absurd hk (hturn k)⟩, ?_⟩
    intro j hj
    cases hnone.symm.trans hj
  rw [Thread.sched, if_pos hnone, takeTurn]
  cases hturn : T.turn with
  | start i =>
    dsimp only
    split
    . next hi => exact hcalls (h.start hnone hturn hi)
    . exact hskips .poll nofun
  | poll =>
    dsimp only
    split
    . exact hskips .returned nofun
    . split
      . exact hskips .pop nofun
      . next r cq hcq => exact hcalls (h.wakeByCq hnone hcq)
  | pop =>
    dsimp only
    split
    . exact hskips .poll nofun
    . next id queue hqueue => exact hcalls (h.wakeByQueue hnone hqueue)
  | returned => exact ⟨T, rfl, h, fun j hj => by cases hnone.symm.trans hj⟩

end Sched

theorem Inv.step (h : T.Inv) (halone : T.PollsAlone) {e : Event} (hstep : T.step e = some T') : T'.Inv := by
  cases e with
  | complete k => exact h.complete hstep
  | act => exact h.act halone hstep
  | sched =>
    cases hrunning : T.running with
    | none =>
      obtain ⟨S, hS, hinv, _⟩ := h.sched hrunning
      cases hS.symm.trans hstep
      exact hinv
    | some c =>
      simp [Thread.step, Thread.sched, hrunning] at hstep
  | stop =>
    cases hstep
    exact ⟨h.fine, h.running_iff, h.bound, h.starting⟩

theorem Inv.sound (h : T.Inv) : T.Sound := by
  constructor
  . exact fun i hi => (h.suspended hi).1
  . intro T' i hsched hrunning
    cases hnone : T.running with
    | none =>
      obtain ⟨S, hS, _, hres⟩ := h.sched hnone
      cases hS.symm.trans hsched
      exact ⟨(hres i hrunning).own, (hres i hrunning).count⟩
    | some c => simp [Thread.sched, hnone] at hsched
  . intro hnone
    obtain ⟨T', hT', _⟩ := h.sched hnone
    rw [hT']
    rfl
  . intro hnone i
    apply List.filter_congr
    intro r hr
    obtain ⟨_, _, heq, _⟩ := h.outstanding hnone hr
    rw [congrArg Posted.wrId heq]

end Thread

theorem runCoroutine_inv {coroCnt : Nat} {requests : Nat → Nat → List Call} {T₀ : Thread}
    (h : runCoroutine coroCnt requests = some T₀)
    : T₀.Inv := by
  unfold runCoroutine at h
  split at h
  . cases h
    constructor
    . exact fun i => ⟨⟨rfl, rfl⟩, .nil⟩
    . exact fun i => iff_of_false nofun nofun
    . intro i hi
      cases hi with
      | inl hi => cases hi
      | inr hi => cases hi
    . exact fun _ _ _ _ => rfl
  . cases h

theorem Reached.inv {T₀ T : Thread} (h : Reached Thread.PollsAlone T₀ T) (hinit : T₀.Inv) : T.Inv := by
  induction h with
  | init => exact hinit
  | step _ hok e hstep ih => exact ih.step hok hstep

/--
Whatever the requests of the coroutines are, whatever they find and in whatever order their requests are
completed, as long as no coroutine polls the completions itself while another one has a request
outstanding: each suspended coroutine waits for its one outstanding request and is not in the queue, or has
none and is in the queue once.
-/
theorem suspended_waits_once {coroCnt : Nat} {requests : Nat → Nat → List Call} {T₀ T : Thread}
    (hstart : runCoroutine coroCnt requests = some T₀) (h : Reached Thread.PollsAlone T₀ T)
    : T.Sound :=
  (h.inv (runCoroutine_inv hstart)).sound

/-- The first coroutine scans and then locks a node, the second one reads. -/
def scanFirst : Nat → Nat → List Call
  | 0, 0 => [.rangeQuery [[0, 1]]]
  | 0, _ => [.lockNode 0]
  | _, _ => [.readSync]

theorem suspended_waits_once_scan
    : ∃ T₀ T : Thread, runCoroutine 2 scanFirst = some T₀
        ∧ T₀.run Thread.PollsAlone [.sched, .act, .act, .act, .complete 1, .act, .complete 0, .act, .act, .act,
            .sched, .act, .act, .act] = some T
        ∧ T.Suspended 0 ∧ T.own 0 = [] ∧ T.Suspended 1 ∧ T.own 1 = [⟨1, 1⟩] ∧ T.Sound := by
  obtain ⟨T₀, T, hstart, hrun, h₀, hown₀, h₁, hown₁⟩ : ∃ T₀ T : Thread, runCoroutine 2 scanFirst = some T₀
      ∧ T₀.run Thread.PollsAlone [.sched, .act, .act, .act, .complete 1, .act, .complete 0, .act, .act, .act,
          .sched, .act, .act, .act] = some T
      ∧ T.Suspended 0 ∧ T.own 0 = [] ∧ T.Suspended 1 ∧ T.own 1 = [⟨1, 1⟩] :=
    ⟨_, _, rfl, rfl, rfl, rfl, rfl, rfl⟩
  exact ⟨T₀, T, hstart, hrun, h₀, hown₀, h₁, hown₁, suspended_waits_once hstart (.run .init hrun)⟩

/-- The first coroutine scans after a read, the second one reads. -/
def scanLater : Nat → Nat → List Call
  | 0, 1 => [.rangeQuery [[0]]]
  | _, _ => [.readSync]

/--
The scan takes the completion of the other coroutine's request and drops it: that coroutine stays suspended
with no request outstanding that is its own or has its id, and is not in the queue.
-/
theorem scan_drops_completion
    : ∃ T₀ T : Thread, runCoroutine 2 scanLater = some T₀
        ∧ T₀.run (fun _ => True) [.sched, .act, .act, .act, .sched, .act, .act, .act, .complete 0, .sched, .sched,
            .act, .act, .sched, .act, .act, .complete 0, .act] = some T
        ∧ T.Suspended 1 ∧ T.own 1 = [] ∧ (∀ r ∈ T.inFlight ++ T.cq, r.wrId ≠ 1) ∧ 1 ∉ T.busyWaitingQueue
        ∧ ¬ T.Sound := by
  obtain ⟨T₀, T, hstart, hrun, hsuspended, hown, hids, hqueue⟩ : ∃ T₀ T : Thread, runCoroutine 2 scanLater = some T₀
      ∧ T₀.run (fun _ => True) [.sched, .act, .act, .act, .sched, .act, .act, .act, .complete 0, .sched, .sched,
          .act, .act, .sched, .act, .act, .complete 0, .act] = some T
      ∧ T.Suspended 1 ∧ T.own 1 = [] ∧ (∀ r ∈ T.inFlight ++ T.cq, r.wrId ≠ 1) ∧ 1 ∉ T.busyWaitingQueue :=
    ⟨_, _, rfl, rfl, rfl, rfl, by decide +kernel, by decide +kernel⟩
  refine ⟨T₀, T, hstart, hrun, hsuspended, hown, hids, hqueue, ?_⟩
  intro hsound
  cases hsound.waits 1 hsuspended with
  | inl h =>
    rw [hown] at h
    cases h.1
  | inr h =>
    rw [List.count_eq_zero_of_not_mem hqueue] at h
    cases h.2

section NoScan

def NoPoll (code : List Action) : Prop := ∀ n, .pollWithCq n ∉ code

theorem NoPoll.append {code rest : List Action} (h : NoPoll code) (hrest : NoPoll rest) : NoPoll (code ++ rest) := by
  intro n hmem
  cases List.mem_append.mp hmem with
  | inl hmem => exact h n hmem
  | inr hmem => exact hrest n hmem

theorem NoPoll.flatMap {α : Type} {l : List α} {f : α → List Action} (h : ∀ a ∈ l, NoPoll (f a))
    : NoPoll (l.flatMap f) := by
  intro n hmem
  obtain ⟨a, ha, hmem⟩ := List.mem_flatMap.mp hmem
  exact h a ha n hmem

variable {id : CoroPull}

theorem noPoll_verb (flags : Bool → List Bool) (signal : Bool) : NoPoll (verb flags signal (some id)) := by
  intro n
  simp [verb]

theorem noPoll_sync (n : Nat) : NoPoll (sync n (some id)) := fun _ => List.not_mem_nil

theorem noPoll_giveWay : NoPoll (giveWay (some id)) := by
  intro n
  simp [giveWay]

theorem noPoll_reAcquire (cnt failures : Nat) : NoPoll (lockNode.reAcquire (some id) cnt failures) := by
  have hcas : NoPoll (casMaskSync (some id)) := (noPoll_verb _ _).append (noPoll_sync 1)
  induction failures generalizing cnt with
  | zero => exact hcas
  | succ failures ih =>
    apply hcas.append
    split
    . intro n
      simp
    . exact noPoll_giveWay.append (ih (cnt + 1))

theorem noPoll_call {c : Call} (h : ∀ batches, c ≠ .rangeQuery batches) : NoPoll (c.actions (some id)) := by
  cases c with
  | readSync => exact (noPoll_verb _ _).append (noPoll_sync 1)
  | writeSync => exact (noPoll_verb _ _).append (noPoll_sync 1)
  | readBatchSync k hk => exact (noPoll_verb _ _).append (noPoll_sync 1)
  | writeBatchSync k hk => exact (noPoll_verb _ _).append (noPoll_sync 1)
  | readBatchesSync nodes => exact (NoPoll.flatMap (fun _ _ => noPoll_verb _ _)).append (noPoll_sync _)
  | writeBatchesSync nodes => exact (NoPoll.flatMap (fun _ _ => noPoll_verb _ _)).append (noPoll_sync _)
  | lockNode failures => exact noPoll_reAcquire 0 failures
  | unlockNode async =>
    cases async with
    | false => exact (noPoll_verb _ _).append (noPoll_sync 1)
    | true => exact noPoll_verb (fun b => [b]) false
  | acquireLocalReadLock rounds => exact waits rounds
  | acquireLocalWriteLock rounds => exact waits rounds
  | rangeQuery batches => exact absurd rfl (h batches)
where
  waits (rounds : Nat) : NoPoll (List.replicate rounds (giveWay (some id))).flatten := by
    induction rounds with
    | zero => exact fun _ => List.not_mem_nil
    | succ rounds ih => exact noPoll_giveWay.append ih

theorem noPoll_coroWorker {calls : List Call} (h : ∀ c ∈ calls, ∀ batches, c ≠ .rangeQuery batches)
    : NoPoll (coroWorker id calls) := by
  apply NoPoll.append
  . exact NoPoll.flatMap (fun c hc => noPoll_call (h c hc))
  . intro n
    simp

namespace Thread

variable {T T' : Thread}

theorem pollsAlone_of_noPoll (h : ∀ i, NoPoll (T.worker i).code) : T.PollsAlone := by
  intro i hi
  unfold polling at hi
  split at hi
  . cases hi
  . next c _ =>
    split at hi
    . next n rest hcode =>
      refine absurd ?_ (h c n)
      rw [hcode]
      exact List.mem_cons_self
    . cases hi

end Thread

end NoScan

end Scheduler

end Rolex
