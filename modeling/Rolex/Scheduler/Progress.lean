import Rolex.Lib.Progress
import Rolex.Scheduler.Run

/-!
This module contains that no coroutine is forgotten: wherever a run of the coroutines of a thread has come
to, as long as `need_stop` is not set it can be continued until each of them has completed any number of
requests.
-/

namespace Rolex

namespace Scheduler

theorem Reached.trans {ok : Thread → Prop} {T₀ T T' : Thread} (h : Reached ok T₀ T) (h' : Reached ok T T')
    : Reached ok T₀ T' := by
  induction h' with
  | init => exact h
  | step _ hok e hstep ih => exact .step ih hok e hstep

theorem Reached.single {T T' : Thread} (e : Event) (h : T.step e = some T') : Reached (fun _ => True) T T' :=
  .step .init trivial e h

/-- The code has no action that polls the completions and none that fails an assertion. -/
def Plain (code : List Action) : Prop := NoPoll code ∧ .abort ∉ code

theorem Plain.suffix {code rest : List Action} (h : Plain code) (hrest : rest <:+ code) : Plain rest :=
  ⟨fun n hn => h.1 n (hrest.mem hn), fun hn => h.2 (hrest.mem hn)⟩

/-- A coroutine with nothing to wait for is at the head of its loop, or yields behind its next action. -/
theorem Ready.nil_or_yields {id : CoroPull} {code : List Action} (h : Ready id code) (hplain : Plain code)
    : code = [] ∨ ∃ a rest, code = a :: .yield :: rest ∧ ((∃ signaled, a = .post signaled id) ∨ a = .push id) := by
  cases h with
  | nil => exact .inl rfl
  | post hone hrest => exact .inr ⟨_, _, rfl, .inl ⟨_, rfl⟩⟩
  | push hrest => exact .inr ⟨_, _, rfl, .inr rfl⟩
  | scan hposts hrest => exact absurd (List.mem_append_right _ List.mem_cons_self) (hplain.1 _)
  | abort rest => exact absurd List.mem_cons_self hplain.2

/-- What a coroutine has still to do for its request: its actions, each with the call that brings it to them. -/
def Worker.work (w : Worker) : Nat :=
  2 * w.code.length
    + match w.status with
      | .fresh => 2
      | .suspended => 2
      | .running => 1
      | .finished => 0

namespace Thread

variable {T T' S : Thread} {c i n p : Nat}

/-- One step of the coroutine `c`, or the call that brings it to its next one. -/
structure Advances (c : Nat) (T T' : Thread) : Prop where
  coroCnt : T'.coroCnt = T.coroCnt
  requests : T'.requests = T.requests
  needStop : T'.needStop = T.needStop
  turn : T'.turn = T.turn
  cq : T'.cq = T.cq
  queue : T.busyWaitingQueue <+: T'.busyWaitingQueue
  worker : ∀ j, j ≠ c → T'.worker j = T.worker j
  taken : ∀ j, j ≠ c → T'.taken j = T.taken j
  code : (T'.worker c).code <:+ (T.worker c).code ∨ ∃ t, (T'.worker c).code = coroWorker c (T.requests c t)
  called : (T'.worker c).status ≠ .fresh
  returned : (T'.worker c).status = .finished → T.needStop = true
  less : T.taken c < T'.taken c ∨ T'.taken c = T.taken c ∧ (T'.worker c).work < (T.worker c).work

theorem advances_setWorker {w : Worker} {running : Option Nat} {inFlight : List Posted} {queue : List Nat}
    (hqueue : T.busyWaitingQueue <+: queue) (hcode : w.code <:+ (T.worker c).code) (hcalled : w.status ≠ .fresh)
    (hreturned : w.status = .finished → T.needStop = true) (hless : w.work < (T.worker c).work)
    : Advances c T { T.setWorker c w with running, inFlight, busyWaitingQueue := queue } := by
  have hw : (T.setWorker c w).worker c = w := setWorker_self w
  refine ⟨rfl, rfl, rfl, rfl, rfl, hqueue, fun j hj => setWorker_of_ne w hj, fun _ _ => rfl, .inl ?_, ?_, ?_,
    .inr ⟨rfl, ?_⟩⟩
  all_goals
    dsimp only
    rw [hw]
    assumption

theorem resume_advances (h : T.resume c = some T') : Advances c T T' := by
  unfold resume at h
  split at h
  . next hc =>
    cases h
    have hless : (⟨.running, (T.worker c).code⟩ : Worker).work < (T.worker c).work := by
      unfold Worker.work
      rcases hc.2 with hstatus | hstatus
      all_goals
        rw [hstatus]
        exact Nat.lt_succ_self _
    exact advances_setWorker (List.prefix_refl _) (List.suffix_refl _) nofun nofun hless
  . cases h

theorem act_advances (hplain : Plain (T.worker c).code) (hstatus : (T.worker c).status = .running)
    (hc : T.running = some c)
    : ∃ T', T.act = some T' ∧ Advances c T T' := by
  unfold Thread.act
  simp only [hc]
  cases hcode : (T.worker c).code with
  | nil =>
    dsimp only
    split
    . next hstop =>
      refine ⟨_, rfl, advances_setWorker (List.prefix_refl _) List.nil_suffix nofun (fun _ => hstop) ?_⟩
      simp [Worker.work, hcode, hstatus]
    . refine ⟨_, rfl, rfl, rfl, rfl, rfl, rfl, List.prefix_refl _, fun j hj => setWorker_of_ne _ hj, ?_, ?_, ?_, ?_, ?_⟩
      . exact fun j hj => Function.update_of_ne hj ..
      . exact .inr ⟨_, congrArg Worker.code (setWorker_self _)⟩
      . simp [setWorker_self]
      . simp [setWorker_self]
      . simp
  | cons a rest =>
    have hsuffix : rest <:+ (T.worker c).code := by
      rw [hcode]
      exact List.suffix_cons a rest
    have hless : ∀ status, (⟨status, rest⟩ : Worker).work < (T.worker c).work := by
      intro status
      unfold Worker.work
      rw [hcode, hstatus, List.length_cons]
      cases status with
      | fresh => exact Nat.lt_succ_self _
      | suspended => exact Nat.lt_succ_self _
      | running => exact Nat.lt_succ_of_lt (Nat.lt_succ_self _)
      | finished => exact Nat.lt_succ_of_lt (Nat.lt_succ_of_lt (Nat.lt_succ_self _))
    have hmem : a ∈ (T.worker c).code := by
      rw [hcode]
      exact List.mem_cons_self
    cases a with
    | post signaled wrId =>
      exact ⟨_, rfl, advances_setWorker (List.prefix_refl _) hsuffix nofun nofun (hless _)⟩
    | push id => exact ⟨_, rfl, advances_setWorker (List.prefix_append _ _) hsuffix nofun nofun (hless _)⟩
    | yield => exact ⟨_, rfl, advances_setWorker (List.prefix_refl _) hsuffix nofun nofun (hless _)⟩
    | pollWithCq n => exact absurd hmem (hplain.1 n)
    | abort => exact absurd hmem hplain.2

/-- What a turn of `run_coroutine` does: it only goes on, or it calls a worker. -/
theorem takeTurn_cases (h : T.takeTurn = some T')
    : (∃ turn, T' = { T with turn } ∧ (turn = .returned → T.needStop = true ∨ T.turn = .returned)
        ∧ ∀ k, T.turn = .start k → T.coroCnt ≤ k)
      ∨ ∃ cq busyWaitingQueue turn c, { T with cq, busyWaitingQueue, turn }.resume c = some T' ∧ turn ≠ .returned
        ∧ ∀ k, T.turn = .start k → c = k ∧ turn = .start (k + 1) := by
  unfold takeTurn at h
  split at h
  . next i hturn =>
    have hstart : ∀ k, T.turn = .start k → i = k := by
      intro k hk
      cases hturn.symm.trans hk
      rfl
    split at h
    . exact .inr ⟨_, _, _, _, h, nofun, fun k hk => ⟨hstart k hk, by rw [hstart k hk]⟩⟩
    . next hi =>
      cases h
      exact .inl ⟨_, rfl, nofun, fun k hk => hstart k hk ▸ Nat.le_of_not_lt hi⟩
  . next hturn =>
    have hstart : ∀ k, T.turn ≠ .start k := by simp [hturn]
    split at h
    . next hstop =>
      cases h
      exact .inl ⟨_, rfl, fun _ => .inl hstop, fun k hk => absurd hk (hstart k)⟩
    . split at h
      . cases h
        exact .inl ⟨_, rfl, nofun, fun k hk => absurd hk (hstart k)⟩
      . exact .inr ⟨_, _, _, _, h, nofun, fun k hk => absurd hk (hstart k)⟩
  . next hturn =>
    have hstart : ∀ k, T.turn ≠ .start k := by simp [hturn]
    split at h
    . cases h
      exact .inl ⟨_, rfl, nofun, fun k hk => absurd hk (hstart k)⟩
    . exact .inr ⟨_, _, _, _, h, nofun, fun k hk => absurd hk (hstart k)⟩
  . next hturn =>
    cases h
    exact .inl ⟨T.turn, rfl, .inr, by simp [hturn]⟩

theorem Advances.taken_le (h : Advances c T T') (j : Nat) : T.taken j ≤ T'.taken j := by
  by_cases hj : j = c
  . rw [hj]
    rcases h.less with hless | ⟨heq, -⟩
    . exact hless.le
    . exact heq.ge
  . exact (h.taken j hj).ge

/-- The code of the coroutines is plain, and they and `run_coroutine` return only after `need_stop` is set. -/
structure Fit (n : Nat) (T : Thread) : Prop where
  coroCnt : T.coroCnt = n
  requests : ∀ i t, Plain (coroWorker i (T.requests i t))
  plain : ∀ i, Plain (T.worker i).code
  finished : ∀ i, (T.worker i).status = .finished → T.needStop = true
  returned : T.turn = .returned → T.needStop = true

theorem Advances.fit (h : Advances c T T') (hfit : T.Fit n) : T'.Fit n := by
  refine ⟨h.coroCnt.trans hfit.coroCnt, h.requests ▸ hfit.requests, ?_, ?_, ?_⟩
  . intro j
    by_cases hj : j = c
    . rw [hj]
      rcases h.code with hcode | ⟨t, hcode⟩
      . exact (hfit.plain c).suffix hcode
      . rw [hcode]
        exact hfit.requests c t
    . rw [h.worker j hj]
      exact hfit.plain j
  . intro j hj
    rw [h.needStop]
    by_cases hjc : j = c
    . exact h.returned (hjc ▸ hj)
    . rw [h.worker j hjc] at hj
      exact hfit.finished j hj
  . rw [h.turn, h.needStop]
    exact hfit.returned

/-- A coroutine that was not called yet is still to be called by the first loop. -/
def Started (T : Thread) : Prop :=
  ∀ j, j < T.coroCnt → (T.worker j).status = .fresh → ∃ k, k ≤ j ∧ T.turn = .start k

theorem Advances.started (h : Advances c T T')
    (hothers : ∀ j, j ≠ c → j < T.coroCnt → (T.worker j).status = .fresh → ∃ k, k ≤ j ∧ T.turn = .start k)
    : T'.Started := by
  intro j hj hfresh
  rw [h.coroCnt] at hj
  by_cases hjc : j = c
  . rw [hjc] at hfresh
    exact absurd hfresh h.called
  . rw [h.worker j hjc] at hfresh
    rw [h.turn]
    exact hothers j hjc hj hfresh

structure Goes (n : Nat) (T : Thread) : Prop where
  inv : T.Inv
  fit : T.Fit n
  started : T.Started

theorem Goes.act (h : T.Goes n) (hc : T.running = some c) : ∃ T', T.act = some T' ∧ Advances c T T' :=
  act_advances (h.fit.plain c) ((h.inv.running_iff c).mpr hc) hc

theorem Goes.step (h : T.Goes n) {e : Event} (hstep : T.step e = some T')
    : T'.Goes n ∧ ∀ j, T.taken j ≤ T'.taken j := by
  have hinv := h.inv.step (pollsAlone_of_noPoll (fun i => (h.fit.plain i).1)) hstep
  cases e with
  | complete k =>
    rw [Thread.step, Thread.complete] at hstep
    split at hstep
    . cases hstep
      exact ⟨⟨hinv, ⟨h.fit.coroCnt, h.fit.requests, h.fit.plain, h.fit.finished, h.fit.returned⟩, h.started⟩,
        fun _ => Nat.le_refl _⟩
    . cases hstep
  | act =>
    cases hc : T.running with
    | none => simp [Thread.step, Thread.act, hc] at hstep
    | some c =>
      obtain ⟨S, hS, hadv⟩ := h.act hc
      cases hS.symm.trans hstep
      exact ⟨⟨hinv, hadv.fit h.fit, hadv.started (fun j _ => h.started j)⟩, hadv.taken_le⟩
  | sched =>
    rw [Thread.step, Thread.sched] at hstep
    split at hstep
    . rcases takeTurn_cases hstep with ⟨turn, rfl, hreturned, hstart⟩ | ⟨cq, queue, turn, c, hcall, hturn, hstart⟩
      . refine ⟨⟨hinv, ?_, ?_⟩, fun _ => Nat.le_refl _⟩
        . exact ⟨h.fit.coroCnt, h.fit.requests, h.fit.plain, h.fit.finished,
            fun hret => (hreturned hret).elim id h.fit.returned⟩
        . intro j hj hfresh
          obtain ⟨k, hk, hturn⟩ := h.started j hj hfresh
          exact absurd hj (Nat.not_lt.mpr (Nat.le_trans (hstart k hturn) hk))
      . have hadv := resume_advances hcall
        refine ⟨⟨hinv, ?_, ?_⟩, hadv.taken_le⟩
        . exact hadv.fit ⟨h.fit.coroCnt, h.fit.requests, h.fit.plain, h.fit.finished, (absurd · hturn)⟩
        . apply hadv.started
          intro j hne hj hfresh
          obtain ⟨k, hk, hturn⟩ := h.started j hj hfresh
          obtain ⟨rfl, hnext⟩ := hstart k hturn
          exact ⟨c + 1, Nat.lt_of_le_of_ne hk (Ne.symm hne), hnext⟩
    . cases hstep
  | stop =>
    cases hstep
    exact ⟨⟨hinv, ⟨h.fit.coroCnt, h.fit.requests, h.fit.plain, fun _ _ => rfl, fun _ => rfl⟩, h.started⟩,
      fun _ => Nat.le_refl _⟩

theorem Goes.reached (h : T.Goes n) (hreach : Reached (fun _ => True) T T')
    : T'.Goes n ∧ ∀ j, T.taken j ≤ T'.taken j := by
  induction hreach with
  | init => exact ⟨h, fun _ => Nat.le_refl _⟩
  | step _ _ e hstep ih =>
    obtain ⟨hgoes, hle⟩ := ih.1.step hstep
    exact ⟨hgoes, fun j => Nat.le_trans (ih.2 j) (hle j)⟩

structure Leaves (i : Nat) (T T' : Thread) : Prop where
  worker : T'.worker i = T.worker i
  taken : T'.taken i = T.taken i
  needStop : T'.needStop = T.needStop

theorem Leaves.trans {U : Thread} (h : Leaves i T S) (h' : Leaves i S U) : Leaves i T U :=
  ⟨h'.worker.trans h.worker, h'.taken.trans h.taken, h'.needStop.trans h.needStop⟩

structure Spares (i : Nat) (T T' : Thread) : Prop extends Leaves i T T' where
  turn : T'.turn = T.turn
  cq : T'.cq = T.cq
  queue : T.busyWaitingQueue <+: T'.busyWaitingQueue

theorem Spares.trans {U : Thread} (h : Spares i T S) (h' : Spares i S U) : Spares i T U :=
  ⟨h.toLeaves.trans h'.toLeaves, h'.turn.trans h.turn, h'.cq.trans h.cq, h.queue.trans h'.queue⟩

theorem Advances.spares (h : Advances c T T') (hne : i ≠ c) : Spares i T T' :=
  ⟨⟨h.worker i hne, h.taken i hne, h.needStop⟩, h.turn, h.cq, h.queue⟩

/-- The coroutine `c` gives the thread back and `i` waits as before. -/
def Settles (i : Nat) (T : Thread) : Prop :=
  ∃ T', Reached (fun _ => True) T T' ∧ T'.running = none ∧ Spares i T T'

theorem Settles.of_spares (h : S.Settles i) (hreach : Reached (fun _ => True) T S) (hspares : Spares i T S)
    : T.Settles i := by
  obtain ⟨T', hreach', hnone, hspares'⟩ := h
  exact ⟨T', hreach.trans hreach', hnone, hspares.trans hspares'⟩

section Other

variable (h : T.Goes n) (hc : T.running = some c) (hne : i ≠ c)
include h hc hne

theorem Goes.act_spares (hact : T.act = some T')
    : T'.Goes n ∧ Reached (fun _ => True) T T' ∧ Spares i T T' := by
  obtain ⟨S, hS, hadv⟩ := h.act hc
  cases hS.symm.trans hact
  exact ⟨(h.step (e := .act) hact).1, .single .act hact, hadv.spares hne⟩

theorem Goes.settles_of_yield {rest : List Action} (hcode : (T.worker c).code = .yield :: rest) : T.Settles i := by
  have hact : T.act = some { T.setWorker c ⟨.suspended, rest⟩ with running := none } := by
    simp only [Thread.act, hc, hcode, doAction]
  obtain ⟨-, hreach, hspares⟩ := h.act_spares hc hne hact
  exact ⟨_, hreach, rfl, hspares⟩

theorem Goes.settles_of_ready (hready : Ready c (T.worker c).code) (hcode : (T.worker c).code ≠ [])
    : T.Settles i := by
  obtain ⟨a, rest, heq, ha⟩ := (hready.nil_or_yields (h.fit.plain c)).resolve_left hcode
  obtain ⟨S, hact, hrunning, hyield⟩ : ∃ S, T.act = some S ∧ S.running = some c
      ∧ (S.worker c).code = .yield :: rest := by
    simp only [Thread.act, hc, heq]
    rcases ha with ⟨signaled, rfl⟩ | rfl
    all_goals exact ⟨_, rfl, hc, congrArg Worker.code (setWorker_self _)⟩
  obtain ⟨hS, hreach, hspares⟩ := h.act_spares hc hne hact
  exact (hS.settles_of_yield hrunning hne hyield).of_spares hreach hspares

theorem Goes.settles (hgo : T.needStop = false) : T.Settles i := by
  cases h.inv.phase hc with
  | ready _ _ hready =>
    by_cases hnil : (T.worker c).code = []
    . -- at the head of its loop the coroutine takes its next request first
      obtain ⟨S, hact, hrunning, hcode⟩ : ∃ S, T.act = some S ∧ S.running = some c
          ∧ (S.worker c).code = coroWorker c (T.requests c (T.taken c)) := by
        simp only [Thread.act, hc, hnil, hgo]
        exact ⟨_, rfl, hc, congrArg Worker.code (setWorker_self _)⟩
      obtain ⟨hS, hreach, hspares⟩ := h.act_spares hc hne hact
      refine (hS.settles_of_ready hrunning hne ?_ ?_).of_spares hreach hspares
      . rw [hcode]
        exact .coroWorker _
      . simp [hcode, coroWorker]
    . exact h.settles_of_ready hc hne hready hnil
  | armed hcode _ _ => exact h.settles_of_yield hc hne hcode
  | @scanning posts rest n hcode _ _ _ _ =>
    refine absurd ?_ ((h.fit.plain c).1 n)
    rw [hcode]
    exact List.mem_append_right _ List.mem_cons_self

end Other

/-- The thread can go on to where `i` has taken a further request, or has less to do for the one it has. -/
def Progresses (i : Nat) (T : Thread) : Prop :=
  ∃ T', Reached (fun _ => True) T T' ∧ T'.needStop = false
    ∧ (T.taken i < T'.taken i ∨ T'.taken i = T.taken i ∧ (T'.worker i).work < (T.worker i).work)

theorem Progresses.of_leaves (h : S.Progresses i) (hreach : Reached (fun _ => True) T S) (hleaves : Leaves i T S)
    : T.Progresses i := by
  obtain ⟨T', hreach', hgo, hless⟩ := h
  rw [hleaves.taken, hleaves.worker] at hless
  exact ⟨T', hreach.trans hreach', hgo, hless⟩

section Idle

variable (h : T.Goes n) (hgo : T.needStop = false) (hnone : T.running = none)
include h hgo hnone

theorem Goes.call {cq : List Posted} {queue : List Nat} {turn : Turn}
    (hcall : T.takeTurn = { T with cq, busyWaitingQueue := queue, turn }.resume c)
    : T.Progresses i ∨ i ≠ c ∧ ∃ T', Reached (fun _ => True) T T' ∧ T'.running = none
        ∧ Spares i { T with cq, busyWaitingQueue := queue, turn } T' := by
  obtain ⟨S, hS, -⟩ := h.inv.sched hnone
  have hreach : Reached (fun _ => True) T S := .single .sched hS
  rw [Thread.sched, if_pos hnone, hcall] at hS
  have hadv := resume_advances hS
  by_cases hi : i = c
  . rw [← hi] at hadv
    exact .inl ⟨S, hreach, hadv.needStop.trans hgo, hadv.less⟩
  . have hrunning : S.running = some c := by
      unfold resume at hS
      split at hS
      . cases hS
        rfl
      . cases hS
    obtain ⟨T', hreach', hnone', hspares⟩ := (h.reached hreach).1.settles hrunning hi (hadv.needStop.trans hgo)
    exact .inr ⟨hi, T', hreach.trans hreach', hnone', (hadv.spares hi).trans hspares⟩

omit h hgo in
theorem reached_of_takeTurn (hturn : T.takeTurn = some T') : Reached (fun _ => True) T T' := by
  apply Reached.single .sched
  rw [Thread.step, Thread.sched, if_pos hnone, hturn]

end Idle

/-- `i` is one of the first `p` whose completion is polled or whose entry is popped. -/
def Within (i p : Nat) (T : Thread) : Prop :=
  i ∈ (T.cq.map Posted.wrId).take p ∨ i ∈ T.busyWaitingQueue.take p

theorem mem_take_of_ne {l l' : List Nat} (hne : i ≠ c) (hpre : l <+: l') (h : i ∈ (c :: l).take (p + 1))
    : i ∈ l'.take p := by
  rw [List.take_succ_cons, List.mem_cons] at h
  exact (hpre.take p).mem (h.resolve_left hne)

section Loop

variable (h : T.Goes n) (hgo : T.needStop = false) (hnone : T.running = none)
include h hgo hnone

theorem Goes.polls (hturn : T.turn = .poll)
    : T.Progresses i ∨ ∃ T', Reached (fun _ => True) T T' ∧ T'.running = none ∧ T'.turn = .pop ∧ Leaves i T T'
        ∧ (∀ p, i ∈ (T.cq.map Posted.wrId).take (p + 1) → i ∈ (T'.cq.map Posted.wrId).take p)
        ∧ T.busyWaitingQueue <+: T'.busyWaitingQueue := by
  cases hcq : T.cq with
  | nil =>
    have hreach : Reached (fun _ => True) T { T with turn := .pop } := by
      apply reached_of_takeTurn hnone
      simp only [takeTurn, hturn, hgo, hcq]
      rfl
    exact .inr ⟨_, hreach, hnone, rfl, ⟨rfl, rfl, rfl⟩, by simp, List.prefix_refl _⟩
  | cons r cq =>
    have hcall : T.takeTurn = { T with cq, turn := .pop }.resume r.wrId := by
      simp only [takeTurn, hturn, hgo, hcq]
      rfl
    rcases h.call hgo hnone hcall with hless | ⟨hi, T', hreach, hnone', hspares⟩
    . exact .inl hless
    . have hcq' : (T'.cq.map Posted.wrId) = cq.map Posted.wrId := congrArg (List.map Posted.wrId) hspares.cq
      refine .inr ⟨T', hreach, hnone', hspares.turn, ⟨hspares.worker, hspares.taken, hspares.needStop⟩, ?_,
        hspares.queue⟩
      exact fun p => mem_take_of_ne hi (hcq' ▸ List.prefix_refl _)

theorem Goes.pops (hturn : T.turn = .pop)
    : T.Progresses i ∨ ∃ T', Reached (fun _ => True) T T' ∧ T'.running = none ∧ T'.turn = .poll ∧ Leaves i T T'
        ∧ T'.cq = T.cq ∧ ∀ p, i ∈ T.busyWaitingQueue.take (p + 1) → i ∈ T'.busyWaitingQueue.take p := by
  cases hqueue : T.busyWaitingQueue with
  | nil =>
    have hreach : Reached (fun _ => True) T { T with turn := .poll } := by
      apply reached_of_takeTurn hnone
      simp only [takeTurn, hturn, hqueue]
    exact .inr ⟨_, hreach, hnone, rfl, ⟨rfl, rfl, rfl⟩, rfl, by simp⟩
  | cons id queue =>
    have hcall : T.takeTurn = { T with busyWaitingQueue := queue, turn := .poll }.resume id := by
      simp only [takeTurn, hturn, hqueue]
    rcases h.call hgo hnone hcall with hless | ⟨hi, T', hreach, hnone', hspares⟩
    . exact .inl hless
    . exact .inr ⟨T', hreach, hnone', hspares.turn, ⟨hspares.worker, hspares.taken, hspares.needStop⟩, hspares.cq,
        fun p => mem_take_of_ne hi hspares.queue⟩

end Loop

theorem Goes.progresses_of_within (h : T.Goes n) (hgo : T.needStop = false) (hnone : T.running = none)
    (hturn : T.turn = .poll) (hwithin : T.Within i p)
    : T.Progresses i := by
  induction p generalizing T with
  | zero => simp [Within] at hwithin
  | succ p ih =>
    rcases h.polls hgo hnone hturn with hless | ⟨S, hreach, hnone, hturn, hleaves, hcq, hqueue⟩
    . exact hless
    refine Progresses.of_leaves ?_ hreach hleaves
    have hS := (h.reached hreach).1
    have hgo := hleaves.needStop.trans hgo
    rcases hS.pops hgo hnone hturn with hless | ⟨U, hreach, hnone, hturn, hleaves, hcq', hqueue'⟩
    . exact hless
    refine Progresses.of_leaves ?_ hreach hleaves
    refine ih (hS.reached hreach).1 (hleaves.needStop.trans hgo) hnone hturn ?_
    rcases hwithin with hmem | hmem
    . left
      rw [hcq']
      exact hcq p hmem
    . right
      exact hqueue' p ((hqueue.take (p + 1)).mem hmem)

theorem Goes.progresses_of_poll (h : T.Goes n) (hgo : T.needStop = false) (hnone : T.running = none)
    (hturn : T.turn = .poll) (hi : i < n)
    : T.Progresses i := by
  have hsuspended : T.Suspended i := by
    unfold Suspended
    cases hs : (T.worker i).status with
    | fresh =>
      obtain ⟨k, -, hk⟩ := h.started i (h.fit.coroCnt ▸ hi) hs
      cases hturn.symm.trans hk
    | running => cases hnone.symm.trans ((h.inv.running_iff i).mp hs)
    | suspended => rfl
    | finished => cases hgo.symm.trans (h.fit.finished i hs)
  have hmem : ∀ {S : Thread}, ⟨i, i⟩ ∈ S.cq → S.Within i S.cq.length := by
    intro S hmem
    left
    rw [List.take_of_length_le (by simp)]
    exact List.mem_map_of_mem hmem
  rcases (h.inv.suspended hsuspended).1 with ⟨hown, -⟩ | ⟨-, hcount⟩
  . have hposted : ⟨i, i⟩ ∈ T.inFlight ++ T.cq := by
      have hself : ⟨i, i⟩ ∈ T.own i := by simp [hown]
      exact (List.mem_filter.mp hself).1
    rcases List.mem_append.mp hposted with hflight | hcq
    . obtain ⟨k, hk, hget⟩ := List.getElem_of_mem hflight
      have hstep : T.step (.complete k)
          = some { T with inFlight := T.inFlight.eraseIdx k, cq := T.cq ++ [⟨i, i⟩] } := by
        simp only [Thread.step, Thread.complete, List.getElem?_eq_getElem hk, hget]
      refine Progresses.of_leaves ?_ (.single _ hstep) ⟨rfl, rfl, rfl⟩
      exact (h.step hstep).1.progresses_of_within hgo hnone hturn (hmem (by simp))
    . exact h.progresses_of_within hgo hnone hturn (hmem hcq)
  . refine h.progresses_of_within (p := T.busyWaitingQueue.length) hgo hnone hturn (.inr ?_)
    rw [List.take_length]
    exact List.count_pos_iff.mp (by omega)

theorem Goes.progresses_of_start (h : T.Goes n) (hgo : T.needStop = false) (hnone : T.running = none) {k : Nat}
    (hturn : T.turn = .start k) (hi : i < n)
    : T.Progresses i := by
  induction hleft : n - k generalizing T k with
  | zero =>
    have hreach : Reached (fun _ => True) T { T with turn := .poll } := by
      apply reached_of_takeTurn hnone
      have hk : ¬ k < T.coroCnt := by
        rw [h.fit.coroCnt]
        omega
      simp only [takeTurn, hturn, if_neg hk]
    exact ((h.reached hreach).1.progresses_of_poll hgo hnone rfl hi).of_leaves hreach ⟨rfl, rfl, rfl⟩
  | succ left ih =>
    have hcall : T.takeTurn = { T with turn := .start (k + 1) }.resume k := by
      have hk : k < T.coroCnt := by
        rw [h.fit.coroCnt]
        omega
      simp only [takeTurn, hturn, if_pos hk]
    rcases h.call hgo hnone hcall with hless | ⟨-, T', hreach, hnone', hspares⟩
    . exact hless
    . refine Progresses.of_leaves ?_ hreach ⟨hspares.worker, hspares.taken, hspares.needStop⟩
      exact ih (h.reached hreach).1 (hspares.needStop.trans hgo) hnone' hspares.turn (by omega)

theorem Goes.progresses_of_idle (h : T.Goes n) (hgo : T.needStop = false) (hnone : T.running = none) (hi : i < n)
    : T.Progresses i := by
  cases hturn : T.turn with
  | start k => exact h.progresses_of_start hgo hnone hturn hi
  | poll => exact h.progresses_of_poll hgo hnone hturn hi
  | pop =>
    rcases h.pops hgo hnone hturn with hless | ⟨S, hreach, hnone, hturn, hleaves, -⟩
    . exact hless
    . exact ((h.reached hreach).1.progresses_of_poll (hleaves.needStop.trans hgo) hnone hturn hi).of_leaves
        hreach hleaves
  | returned => cases hgo.symm.trans (h.fit.returned hturn)

theorem Goes.progresses (h : T.Goes n) (hgo : T.needStop = false) (hi : i < n) : T.Progresses i := by
  cases hrunning : T.running with
  | none => exact h.progresses_of_idle hgo hrunning hi
  | some c =>
    by_cases hc : i = c
    . obtain ⟨T', hact, hadv⟩ := h.act (hc ▸ hrunning)
      exact ⟨T', .single .act hact, hadv.needStop.trans hgo, hadv.less⟩
    . obtain ⟨S, hreach, hnone, hspares⟩ := h.settles hrunning hc hgo
      exact ((h.reached hreach).1.progresses_of_idle (hspares.needStop.trans hgo) hnone hi).of_leaves
        hreach hspares.toLeaves

theorem Goes.takes (h : T.Goes n) (hgo : T.needStop = false) (hi : i < n)
    : ∃ T', Reached (fun _ => True) T T' ∧ T'.needStop = false ∧ T.taken i < T'.taken i := by
  induction hwork : (T.worker i).work using Nat.strong_induction_on generalizing T with
  | h w ih =>
    obtain ⟨S, hreach, hgo, hless⟩ := h.progresses hgo hi
    rcases hless with hless | ⟨heq, hless⟩
    . exact ⟨S, hreach, hgo, hless⟩
    . obtain ⟨T', hreach', hgo', hless'⟩ := ih _ (hwork ▸ hless) (h.reached hreach).1 hgo rfl
      exact ⟨T', hreach.trans hreach', hgo', heq ▸ hless'⟩

/-- How many requests are missing until each coroutine has taken more than `m`. -/
def missing (n m : Nat) (T : Thread) : Nat := ∑ i ∈ Finset.range n, (m + 1 - T.taken i)

theorem Goes.takes_all (h : T.Goes n) (hgo : T.needStop = false) (m : Nat)
    : ∃ T', Reached (fun _ => True) T T' ∧ T'.needStop = false ∧ ∀ i, i < n → m < T'.taken i := by
  have hstep : ∀ S : Thread, S.Goes n ∧ S.needStop = false →
      ¬ (S.needStop = false ∧ ∀ i, i < n → m < S.taken i) → ∃ S', Reached (fun _ => True) S S'
        ∧ (S'.Goes n ∧ S'.needStop = false) ∧ S'.missing n m < S.missing n m := by
    intro S hS hmissing
    obtain ⟨i, hi, hfew⟩ : ∃ i, i < n ∧ S.taken i ≤ m := by
      by_contra hall
      push Not at hall
      exact hmissing ⟨hS.2, hall⟩
    obtain ⟨S', hreach, hgo, hless⟩ := hS.1.takes hS.2 hi
    obtain ⟨hgoes, hle⟩ := hS.1.reached hreach
    refine ⟨S', hreach, ⟨hgoes, hgo⟩, Finset.sum_lt_sum (fun j _ => Nat.sub_le_sub_left (hle j) _) ?_⟩
    exact ⟨i, Finset.mem_range.mpr hi, by omega⟩
  exact Progress.finishes (R := Reached (fun _ => True)) (missing n m) (fun _ => .init) Reached.trans hstep ⟨h, hgo⟩

end Thread

/--
Coroutines that make no range query and give up no lock: in every run each suspended one waits for its one
outstanding request or is in the queue once, and from wherever the run has come to without `need_stop` it can
go on until each of them has completed `m` requests and taken a further one.
-/
theorem coroutines_complete_requests {coroCnt : Nat} {requests : Nat → Nat → List Call} {T₀ T : Thread}
    (hstart : runCoroutine coroCnt requests = some T₀)
    (hscan : ∀ i t, ∀ c ∈ requests i t, ∀ batches, c ≠ .rangeQuery batches)
    (habort : ∀ i t, .abort ∉ coroWorker i (requests i t)) (h : Reached (fun _ => True) T₀ T)
    : T.Sound ∧ (T.needStop = false → ∀ m, ∃ T', Reached (fun _ => True) T T' ∧ T'.needStop = false
        ∧ ∀ i, i < coroCnt → m < T'.taken i) := by
  have hinit : T₀.Goes coroCnt := by
    refine ⟨runCoroutine_inv hstart, ?_, ?_⟩
    all_goals
      unfold runCoroutine at hstart
      split at hstart
    . cases hstart
      refine ⟨rfl, fun i t => ⟨noPoll_coroWorker (hscan i t), habort i t⟩, ?_, nofun, nofun⟩
      exact fun _ => ⟨fun _ => List.not_mem_nil, List.not_mem_nil⟩
    . cases hstart
    . cases hstart
      exact fun j _ _ => ⟨0, Nat.zero_le j, rfl⟩
    . cases hstart
  have hgoes := (hinit.reached h).1
  exact ⟨hgoes.inv.sound, fun hgo => hgoes.takes_all hgo⟩

def lockers (_ _ : Nat) : List Call := [.lockNode 1, .writeBatchesSync [0], .unlockNode true]

-- the first one waits for its second attempt and the second one for its first
theorem coroutines_complete_requests_lockers
    : ∃ T₀ T T' : Thread, runCoroutine 2 lockers = some T₀
        ∧ T₀.run (fun _ => True) [.sched, .act, .act, .act, .sched, .act, .act, .act, .complete 0, .sched, .sched,
            .act, .act] = some T
        ∧ T.Suspended 0 ∧ 0 ∈ T.busyWaitingQueue ∧ T.Suspended 1 ∧ T.own 1 = [⟨1, 1⟩] ∧ T.Sound
        ∧ Reached (fun _ => True) T T' ∧ T'.needStop = false ∧ 5 < T'.taken 0 ∧ 5 < T'.taken 1 := by
  obtain ⟨T₀, T, hstart, hrun, hgo, h₀, hqueue, h₁, hown⟩ : ∃ T₀ T : Thread, runCoroutine 2 lockers = some T₀
      ∧ T₀.run (fun _ => True) [.sched, .act, .act, .act, .sched, .act, .act, .act, .complete 0, .sched, .sched,
          .act, .act] = some T
      ∧ T.needStop = false ∧ T.Suspended 0 ∧ 0 ∈ T.busyWaitingQueue ∧ T.Suspended 1 ∧ T.own 1 = [⟨1, 1⟩] :=
    ⟨_, _, rfl, rfl, rfl, rfl, by decide +kernel, rfl, rfl⟩
  have hscan : ∀ i t, ∀ c ∈ lockers i t, ∀ batches, c ≠ .rangeQuery batches := by
    intro i t c hc batches
    simp only [lockers, List.mem_cons, List.not_mem_nil, or_false] at hc
    rcases hc with rfl | rfl | rfl
    all_goals nofun
  have habort : ∀ i t, .abort ∉ coroWorker i (lockers i t) := by
    intro i t hmem
    simp [coroWorker, lockers, workFunc, Call.actions, lockNode, lockNode.reAcquire, casMaskSync, casMask, verb,
      sync, giveWay, writeBatchesSync, eachRs, emplaceBack, writeBatch, unlockNode, write] at hmem
  obtain ⟨hsound, hgoes⟩ := coroutines_complete_requests hstart hscan habort (.run .init hrun)
  obtain ⟨T', hreach, hgo', htaken⟩ := hgoes hgo 5
  exact ⟨T₀, T, T', hstart, hrun, h₀, hqueue, h₁, hown, hsound, hreach, hgo', htaken 0 (by decide),
    htaken 1 (by decide)⟩

end Scheduler

end Rolex
