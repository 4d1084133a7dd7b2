import Rolex.LocalLock.Exclusion

/-!
This module contains the lemmas about the releases of the local locks: every call that has acquired a
lock releases it once before it returns, so that a queue nobody works on is empty.
-/

namespace Rolex

namespace LocalLock

variable {ι : Type} [DecidableEq ι] {S T : State ι} {i : ι} {num : ι → Nat}

/-- An update that has the lock finds its key. -/
def Finds (S : State ι) (i : ι) : Prop :=
  ∀ c, c.kind = .update → S.pc i = .body c true .find → S.remote c.key ≠ none

instance (S : State ι) (i : ι) : Decidable (Finds S i) :=
  match h : S.pc i with
  | .body c true .find =>
    decidable_of_iff (c.kind = .update → S.remote c.key ≠ none)
      ⟨fun hc d hd hpc => by cases h.symm.trans hpc; exact hc hd, fun hfinds hc => hfinds c hc h⟩
  | .body _ false _ | .body _ true .combine | .body _ true (.write _) | .body _ true (.done _)
  | .takeTicket _ | .idle | .casKey _ | .deposit _ | .spin _ _ | .loadKey _ | .leaveWindow _ | .advance _ | .enter _
  | .exchange _ _ | .loadTicket _ | .loadCurrent _ _ | .startWindow _ _ _ | .setHandover _ _ _ | .leave _
  | .returned _ => isTrue (by simp [Finds, h])

section Full

/-- Nobody has left the line with its ticket. -/
def FullInv (S : State ι) (num : ι → Nat) : Prop :=
  ∀ n s, Ticket.Full (S.left n s) (S.taken n s) (S.owned num n s)

theorem FullInv.keep (h : FullInv S num) (hne : ∀ j, j ≠ i → T.pc j = S.pc j)
    (hticketed : (T.pc i).ticketed = (S.pc i).ticketed) (htaken : T.taken = S.taken)
    (hleft : T.left = S.left)
    : FullInv T num := by
  intro n s
  rw [owned_keep hne hticketed, hleft, htaken]
  exact h n s

theorem FullInv.draw (h : FullInv S num) (hne : ∀ j, j ≠ i → T.pc j = S.pc j) {c : Request} {t : BitVec 8}
    (hpc : S.pc i = .takeTicket c) (hpc' : T.pc i = .spin c t) (htaken : T.taken = State.count S.taken c)
    (hleft : T.left = S.left)
    : FullInv T (Function.update num i (S.taken c.node c.side)) := by
  intro n s
  have hnone : S.owned num n s i = none := by
    rw [State.owned, hpc]
    rfl
  rw [owned_step hne num _ (fun j hj => Function.update_of_ne hj _ _), hpc', hleft, htaken, count_eq,
    Function.update_self, show (Pc.spin c t).holds n s = c.isIn n s from rfl]
  split
  . next hin =>
    simp only [Request.isIn, Bool.decide_and, Bool.and_eq_true, decide_eq_true_eq] at hin
    obtain ⟨rfl, rfl⟩ := hin
    exact (h _ _).draw hnone
  . rw [← hnone, Function.update_eq_self]
    exact h n s

theorem FullInv.leave (h : FullInv S num) (hinv : TicketInv S num)
    (hne : ∀ j, j ≠ i → T.pc j = S.pc j) {c : Request} (hpc : (S.pc i).served = some c)
    (hpc' : (T.pc i).ticketed = none) (htaken : T.taken = S.taken)
    (hleft : T.left = State.count S.left c)
    : FullInv T num := by
  intro n s
  have hticketed := Pc.ticketed_of_served hpc
  rw [owned_drop hne hpc', hleft, htaken, count_eq]
  split
  . next hin =>
    simp only [Request.isIn, Bool.decide_and, Bool.and_eq_true, decide_eq_true_eq] at hin
    obtain ⟨rfl, rfl⟩ := hin
    apply (h _ _).leave
    rw [← hinv.served i c hpc]
    exact owned_of_ticketed num hticketed
  . next hin =>
    have hnone : S.owned num n s i = none := by
      simp [State.owned, Pc.holds, hticketed, hin]
    rw [← hnone, Function.update_eq_self]
    exact h n s

theorem FullInv.step (h : FullInv S num) (hinv : TicketInv S num) (hroom : Room S i)
    (hfinds : Finds S i) (hstep : S.step i = some T)
    : ∃ num, TicketInv T num ∧ FullInv T num := by
  have hne : ∀ j, j ≠ i → T.pc j = S.pc j := fun j hj => step_pc_of_ne hstep hj
  cases step_cases hstep with
  | keep hticketed hserved hspin hnodes htaken hleft =>
    exact ⟨num, hinv.keep hne hticketed hserved hspin hnodes htaken hleft,
      h.keep hne hticketed htaken hleft⟩
  | draw c hpc hpc' hnode htaken hleft =>
    exact ⟨_, hinv.draw hne hpc hpc' hnode htaken hleft (hroom c hpc),
      h.draw hne hpc hpc' htaken hleft⟩
  | turn c hpc hpc' hnodes htaken hleft =>
    refine ⟨num, hinv.turn hne hpc hpc' hnodes htaken hleft, h.keep hne ?_ htaken hleft⟩
    rw [hpc, hpc']
    rfl
  | leave c node hpc hpc' hsame hnode htaken hleft =>
    exact ⟨num, hinv.leave hne hpc hpc' hsame hnode htaken hleft,
      h.leave hinv hne hpc hpc' htaken hleft⟩
  | lose c hkind hpc hremote hpc' hnodes htaken hleft => exact absurd hremote (hfinds c hkind hpc)

theorem Run.fullInv {ok : State ι → ι → Prop} (hok : ∀ S i, ok S i → Room S i ∧ Finds S i)
    (h : Run ok S)
    : ∃ num, TicketInv S num ∧ FullInv S num := by
  induction h with
  | init result wcBuffer remote =>
    exact ⟨_, TicketInv.init _ remote (fun _ _ => rfl), fun _ _ => Ticket.Full.empty⟩
  | call i c _ hidle ih =>
    obtain ⟨num, hinv, hfull⟩ := ih
    refine ⟨num, hinv.call hidle c, hfull.keep (fun j hj => Function.update_of_ne hj _ _) ?_ rfl rfl⟩
    rw [goto_pc_self, hidle]
    rfl
  | step i _ hstepOk hstep ih =>
    obtain ⟨num, hinv, hfull⟩ := ih
    exact hfull.step hinv (hok _ i hstepOk).1 (hok _ i hstepOk).2 hstep
  | remote remote _ _ ih =>
    obtain ⟨num, hinv, hfull⟩ := ih
    exact ⟨num, ⟨hinv.queue, hinv.ticket, hinv.current, hinv.few, hinv.spin, hinv.served⟩, hfull⟩

end Full

section Replay

/-- How far a call is with its lock. -/
inductive Phase where
  | free
  | holding
  | done
  deriving DecidableEq

/-- A call that has acquired its lock releases it once and then returns. -/
def Phase.next (ph : Option Phase) (e : Event) : Option Phase :=
  match ph, e with
  | some .free, .acquired => some .holding
  | some .holding, .released => some .done
  | some .done, .returned => some .free
  -- a call that works without a lock
  | some .free, .returned => some .free
  | _, _ => none

/-- The calls of thread `i` so far, `none` if one of them went wrong with its lock. -/
def replay (trace : List (ι × Event)) (i : ι) : Option Phase :=
  ((trace.filter (fun e => e.1 = i)).map Prod.snd).foldl Phase.next (some .free)

theorem replay_append_self (trace : List (ι × Event)) (i : ι) (e : Event)
    : replay (trace ++ [(i, e)]) i = Phase.next (replay trace i) e := by
  simp [replay, List.filter_append]

theorem replay_append_of_ne (trace : List (ι × Event)) {i j : ι} (hne : i ≠ j) (e : Event)
    : replay (trace ++ [(i, e)]) j = replay trace j := by
  simp [replay, List.filter_append, hne]

/-- How far a thread can be with its lock by where it is. -/
def Pc.phases : Pc → List Phase
  | .returned _ => [.free, .done]
  | pc => if pc.inside.isSome then [.holding] else [.free]

/-- The trace of every thread agrees with where it is. -/
def PhaseInv (S : State ι) : Prop := ∀ i, ∃ ph ∈ (S.pc i).phases, replay S.trace i = some ph

/-- What a step adds to the trace. -/
inductive TraceStep (S : State ι) (i : ι) (T : State ι) : Prop
  | silent (htrace : T.trace = S.trace) (hphases : ∀ ph ∈ (S.pc i).phases, ph ∈ (T.pc i).phases)
  | acquired (htrace : T.trace = S.trace ++ [(i, .acquired)]) (hphases : (S.pc i).phases = [.free])
      (hphases' : (T.pc i).phases = [.holding])
  | released (htrace : T.trace = S.trace ++ [(i, .released)]) (hphases : (S.pc i).phases = [.holding])
      (hphases' : .done ∈ (T.pc i).phases)
  | returned (htrace : T.trace = S.trace ++ [(i, .returned)]) (hphases : (S.pc i).phases = [.free, .done])
      (hphases' : (T.pc i).phases = [.free])

theorem TraceStep.goto {S' : State ι} {pc pc' : Pc} (hpc : S.pc i = pc) (htrace : S'.trace = S.trace)
    (hphases : ∀ ph ∈ pc.phases, ph ∈ pc'.phases)
    : TraceStep S i (S'.goto i pc') := by
  subst hpc
  apply TraceStep.silent
  . exact htrace
  . rw [goto_pc_self]
    exact hphases

theorem step_trace (hfinds : Finds S i) (h : S.step i = some T) : TraceStep S i T := by
  unfold State.step at h
  generalize hpc : S.pc i = pc at h
  cases pc with
  | idle => cases h
  | casKey c =>
    cases h
    refine .goto hpc rfl ?_
    split_ifs <;> exact fun ph hph => hph
  | spin c ticket =>
    cases h
    refine .goto hpc rfl ?_
    split_ifs <;> exact fun ph hph => hph
  | loadKey c =>
    cases h
    refine .goto hpc rfl ?_
    split_ifs <;> exact fun ph hph => hph
  | takeTicket c =>
    cases h
    refine .silent rfl ?_
    rw [hpc]
    dsimp only
    rw [goto_pc_self]
    exact fun ph hph => hph
  | advance c =>
    cases h
    refine .silent rfl ?_
    rw [hpc]
    dsimp only
    rw [goto_pc_self]
    exact fun ph hph => hph
  | enter c =>
    cases h
    refine .acquired rfl ?_ ?_
    . rw [hpc]
      rfl
    . rw [goto_pc_self]
      split_ifs <;> rfl
  | body c held stage =>
    cases stage with
    | find =>
      cases h
      refine .goto hpc rfl ?_
      rcases c with ⟨_ | _ | _, k, v⟩
      . cases held <;> exact fun ph hph => hph
      . cases held with
        | false =>
          cases S.remote k with
          | none => exact fun ph hph => List.mem_of_mem_head? (by rw [List.mem_singleton.mp hph]; rfl)
          | some r => exact fun ph hph => hph
        | true =>
          cases hremote : S.remote k with
          | none => exact absurd hremote (hfinds _ rfl hpc)
          | some r => exact fun ph hph => hph
      . cases held <;> exact fun ph hph => hph
    | combine =>
      cases h
      refine .goto hpc rfl ?_
      cases held <;> exact fun ph hph => hph
    | write v =>
      cases h
      refine .goto hpc rfl ?_
      cases held <;> exact fun ph hph => hph
    | done r =>
      cases h
      refine .goto hpc rfl ?_
      cases held with
      | false => exact fun ph hph => List.mem_of_mem_head? (by rw [List.mem_singleton.mp hph]; rfl)
      | true => exact fun ph hph => hph
  | leave c =>
    cases h
    refine .released rfl ?_ ?_
    . rw [hpc]
      rfl
    . dsimp only [State.log]
      rw [goto_pc_self]
      simp [Pc.phases]
  | returned c =>
    cases h
    refine .returned rfl ?_ ?_
    . rw [hpc]
      rfl
    . dsimp only [State.log]
      rw [goto_pc_self]
      rfl
  | _ =>
    cases h
    refine .goto hpc rfl ?_
    exact fun ph hph => hph

theorem PhaseInv.step (h : PhaseInv S) (hfinds : Finds S i) (hstep : S.step i = some T) : PhaseInv T := by
  intro j
  obtain ⟨ph, hph, hreplay⟩ := h j
  rcases eq_or_ne j i with rfl | hji
  . cases step_trace hfinds hstep with
    | silent htrace hphases => exact ⟨ph, hphases ph hph, by rw [htrace, hreplay]⟩
    | acquired htrace hphases hphases' =>
      rw [hphases, List.mem_singleton] at hph
      refine ⟨.holding, by rw [hphases', List.mem_singleton], ?_⟩
      rw [htrace, replay_append_self, hreplay, hph]
      rfl
    | released htrace hphases hphases' =>
      rw [hphases, List.mem_singleton] at hph
      refine ⟨.done, hphases', ?_⟩
      rw [htrace, replay_append_self, hreplay, hph]
      rfl
    | returned htrace hphases hphases' =>
      refine ⟨.free, by rw [hphases', List.mem_singleton], ?_⟩
      rw [htrace, replay_append_self, hreplay]
      rw [hphases] at hph
      rcases List.mem_pair.mp hph with rfl | rfl <;> rfl
  . refine ⟨ph, by rw [step_pc_of_ne hstep hji]; exact hph, ?_⟩
    cases step_trace hfinds hstep with
    | silent htrace _ => rw [htrace, hreplay]
    | acquired htrace _ _ => rw [htrace, replay_append_of_ne _ hji.symm, hreplay]
    | released htrace _ _ => rw [htrace, replay_append_of_ne _ hji.symm, hreplay]
    | returned htrace _ _ => rw [htrace, replay_append_of_ne _ hji.symm, hreplay]

theorem Run.phaseInv {ok : State ι → ι → Prop} (hok : ∀ S i, ok S i → Finds S i) (h : Run ok S)
    : PhaseInv S := by
  induction h with
  | init result wcBuffer remote => exact fun i => ⟨.free, List.mem_singleton.mpr rfl, rfl⟩
  | call i c _ hidle ih =>
    intro j
    obtain ⟨ph, hph, hreplay⟩ := ih j
    refine ⟨ph, ?_, hreplay⟩
    rw [goto_pc]
    split
    . next hji =>
      rw [hji, hidle] at hph
      exact hph
    . exact hph
  | step i _ hstepOk hstep ih => exact ih.step (hok _ i hstepOk) hstep
  | remote remote _ _ ih => exact ih

end Replay

/--
In every run in which the updates find their keys, every call that acquires a lock releases it once
before it returns, the queues are empty when nobody is working, and whoever waits waits for a ticket
that somebody has.
-/
theorem every_acquire_released (S : State ι) (h : Run (fun S i => Room S i ∧ Finds S i) S)
    : (∀ i, replay S.trace i ≠ none)
        ∧ ((∀ i, S.pc i = .idle) → ∀ n s,
            ((S.nodes n).queue s).ticket = ((S.nodes n).queue s).current)
        ∧ ∀ i c t, S.pc i = .spin c t → ∃ j d, c.node = d.node ∧ c.side = d.side
            ∧ ((S.pc j).served = some d
              ∨ S.pc j = .spin d ((S.nodes c.node).queue c.side).current) := by
  obtain ⟨num, hinv, hfull⟩ := h.fullInv (fun _ _ hok => hok)
  refine ⟨?_, ?_, ?_⟩
  . intro i
    obtain ⟨ph, -, hreplay⟩ := h.phaseInv (fun _ _ hok => hok.2) i
    rw [hreplay]
    exact Option.some_ne_none ph
  . intro hidle n s
    have hle := (hinv.queue n s).le
    rw [hinv.ticket, hinv.current]
    rcases Nat.eq_or_lt_of_le hle with heq | hlt
    . rw [heq]
    . obtain ⟨i, hi⟩ := hfull n s _ (Nat.le_refl _) hlt
      rw [State.owned, hidle i] at hi
      cases hi
  . intro i c t hspin
    have hi : (S.pc i).ticketed = some c := by
      rw [hspin]
      rfl
    obtain ⟨hle, hlt⟩ := (hinv.queue c.node c.side).bounds (owned_of_ticketed num hi)
    -- the ticket that is served has an owner
    obtain ⟨j, hj⟩ := hfull c.node c.side _ (Nat.le_refl _) (by omega)
    unfold State.owned at hj
    split at hj
    . next hholds =>
      obtain ⟨d, hd, hin⟩ := (Option.any_eq_true _ _).mp hholds
      simp only [Request.isIn, Bool.decide_and, Bool.and_eq_true, decide_eq_true_eq] at hin
      refine ⟨j, d, hin.1.symm, hin.2.symm, ?_⟩
      cases hpc : S.pc j with
      | spin d' t' =>
        rw [hpc] at hd
        obtain rfl := Option.some.inj hd
        right
        rw [hinv.current, ← Option.some.inj hj, ← hinv.spin j _ t' hpc]
      | _ =>
        rw [hpc] at hd
        exact .inl hd
    . cases hj

-- the second caller waits while the first one is inside, gets the lock handed over and returns too
theorem every_acquire_released_two
    : ∃ S T : State (Fin 2), Run (fun S i => Room S i ∧ Finds S i) S
        ∧ S.pc 0 = .body ⟨.update, int2key 1, 7⟩ true .find ∧ S.pc 1 = .spin ⟨.update, int2key 1, 8⟩ 1
        ∧ (∃ j d, Request.node ⟨.update, int2key 1, 8⟩ = d.node ∧ .write = d.side
            ∧ ((S.pc j).served = some d ∨ S.pc j = .spin d ((S.nodes 1).queue .write).current))
        ∧ Run (fun S i => Room S i ∧ Finds S i) T ∧ (∀ i, T.pc i = .idle)
        ∧ T.trace = [(0, .acquired), (0, .released), (0, .returned), (1, .acquired), (1, .released), (1, .returned)]
        ∧ (∀ i, replay T.trace i ≠ none)
        ∧ ∀ n s, ((T.nodes n).queue s).ticket = ((T.nodes n).queue s).current := by
  obtain ⟨S, hS, hin, hspin, T, hT, hidle, htrace⟩ : ∃ S : State (Fin 2),
      (State.init (fun _ => .init none 0) (fun _ => some 3) : State (Fin 2)).schedule
        (fun S i => Room S i ∧ Finds S i)
        ((0, some ⟨.update, int2key 1, 7⟩) :: (1, some ⟨.update, int2key 1, 8⟩)
          :: List.replicate 6 (0, none) ++ List.replicate 3 (1, none)) = some S
      ∧ S.pc 0 = .body ⟨.update, int2key 1, 7⟩ true .find ∧ S.pc 1 = .spin ⟨.update, int2key 1, 8⟩ 1
      ∧ ∃ T, S.schedule (fun S i => Room S i ∧ Finds S i)
          (List.replicate 11 (0, none) ++ List.replicate 10 (1, none)) = some T
        ∧ (T.pc 0 = .idle ∧ T.pc 1 = .idle) ∧ T.trace = [(0, .acquired), (0, .released), (0, .returned),
            (1, .acquired), (1, .released), (1, .returned)] :=
    ⟨_, rfl, rfl, rfl, _, rfl, ⟨rfl, rfl⟩, rfl⟩
  have hrunS := (Run.init (fun _ => none) (fun _ => 0) (fun _ => some 3)).schedule hS
  have hrunT := hrunS.schedule hT
  have hidle : ∀ i, T.pc i = .idle := by
    intro i
    match i with
    | 0 => exact hidle.1
    | 1 => exact hidle.2
  obtain ⟨hreplay, hbalance, -⟩ := every_acquire_released T hrunT
  exact ⟨S, T, hrunS, hin, hspin, (every_acquire_released S hrunS).2.2 1 _ 1 hspin, hrunT, hidle, htrace, hreplay,
    hbalance hidle⟩

theorem step_spin {c : Request} {t : BitVec 8} (hpc : S.pc i = .spin c t)
    (hne : t ≠ ((S.nodes c.node).queue c.side).current)
    : S.step i = some S := by
  unfold State.step
  rw [hpc]
  dsimp only
  rw [if_neg hne, State.goto, ← hpc, Function.update_eq_self]

/-- An update of a key that is not stored keeps its ticket, and the next call waits for ever. -/
theorem missing_key_keeps_ticket
    : ∃ S T : State Unit, Run Room S ∧ S.pc () = .idle ∧ replay S.trace () = none
        ∧ ((S.nodes 1).queue .write).ticket = 1 ∧ ((S.nodes 1).queue .write).current = 0
        ∧ Run Room T ∧ T.pc () = .spin ⟨.update, int2key 1, 7⟩ 1 ∧ T.step () = some T
        ∧ ((T.nodes 1).queue .write).current = 0 := by
  obtain ⟨S, hS, hidle, hreplay, hticket, hcurrent, T, hT, hspin, hcurrent'⟩ : ∃ S : State Unit,
      (State.init (fun _ => .init none 0) (fun _ => none) : State Unit).schedule Room
        (((), some ⟨.update, int2key 1, 7⟩) :: List.replicate 8 ((), none)) = some S
      ∧ S.pc () = .idle ∧ replay S.trace () = none ∧ ((S.nodes 1).queue .write).ticket = 1
      ∧ ((S.nodes 1).queue .write).current = 0
      ∧ ∃ T, S.schedule Room (((), some ⟨.update, int2key 1, 7⟩) :: List.replicate 3 ((), none)) = some T
        ∧ T.pc () = .spin ⟨.update, int2key 1, 7⟩ 1 ∧ ((T.nodes 1).queue .write).current = 0 :=
    ⟨_, rfl, rfl, by decide +kernel, by decide +kernel, by decide +kernel, _, rfl, rfl, by decide +kernel⟩
  have hrunS := (Run.init (fun _ => none) (fun _ => 0) (fun _ => none)).schedule hS
  refine ⟨S, T, hrunS, hidle, hreplay, hticket, hcurrent, hrunS.schedule hT, hspin, step_spin hspin ?_, hcurrent'⟩
  exact fun h => absurd (h.trans hcurrent') (by decide)

end LocalLock

end Rolex
