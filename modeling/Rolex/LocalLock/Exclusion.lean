import Rolex.LocalLock.Threads

/-!
This module contains the lemmas about the tickets of the local locks: who has one, that one of them is
served at a time, and that every one that is taken is left behind again.
-/

namespace Rolex

namespace LocalLockNode

/-- The tickets of both queues are as before. -/
def SameTickets (node node' : LocalLockNode) : Prop :=
  ∀ s, (node'.queue s).ticket = (node.queue s).ticket ∧ (node'.queue s).current = (node.queue s).current

variable (node : LocalLockNode) (s s' : Side)

theorem SameTickets.refl : node.SameTickets node := fun _ => ⟨rfl, rfl⟩

variable {node} in
theorem SameTickets.trans {node' node'' : LocalLockNode} (h : node.SameTickets node')
    (h' : node'.SameTickets node'')
    : node.SameTickets node'' :=
  fun s => ⟨(h' s).1.trans (h s).1, (h' s).2.trans (h s).2⟩

theorem setQueue_queue (q : WaitQueue)
    : (node.setQueue s q).queue s' = if s' = s then q else node.queue s' := by
  unfold setQueue
  dsimp only
  rw [Function.update_apply]

theorem sameTickets_setQueue (q : WaitQueue) (hticket : q.ticket = (node.queue s).ticket)
    (hcurrent : q.current = (node.queue s).current)
    : node.SameTickets (node.setQueue s q) := by
  intro s'
  rw [setQueue_queue]
  split
  . next h =>
    subst h
    exact ⟨hticket, hcurrent⟩
  . exact ⟨rfl, rfl⟩

theorem sameTickets_casKey (k : Key) : node.SameTickets (node.casKey s k).2 := by
  unfold casKey
  split
  . apply sameTickets_setQueue <;> rfl
  . apply SameTickets.refl

theorem sameTickets_leaveWindow : node.SameTickets (node.leaveWindow s) := by
  unfold leaveWindow
  split
  . apply SameTickets.refl
  . dsimp only
    split
    . apply sameTickets_setQueue <;> rfl
    . apply sameTickets_setQueue <;> rfl

theorem sameTickets_enter : node.SameTickets (node.enter s).2 := by
  unfold enter
  dsimp only
  split
  . apply sameTickets_setQueue <;> rfl
  . apply SameTickets.refl

theorem sameTickets_exchange (r : Option Value) : node.SameTickets (node.exchange r).2 := by
  unfold exchange
  split
  . apply SameTickets.refl
  . exact fun _ => ⟨rfl, rfl⟩

theorem sameTickets_startWindow (t c : BitVec 8) : node.SameTickets (node.startWindow s t c) := by
  unfold startWindow
  split
  . have hown := sameTickets_setQueue { node with windowStart := true } s
      { node.queue s with window := windowSize t c } rfl rfl
    apply SameTickets.trans hown
    apply sameTickets_setQueue <;> rfl
  . apply SameTickets.refl

theorem sameTickets_setHandover (t c : BitVec 8) : node.SameTickets (node.setHandover s t c) := by
  unfold setHandover
  apply sameTickets_setQueue <;> rfl

theorem takeTicket_queue
    : ((node.takeTicket s).queue s').ticket
          = (if s' = s then (node.queue s').ticket + 1 else (node.queue s').ticket)
        ∧ ((node.takeTicket s).queue s').current = (node.queue s').current := by
  unfold takeTicket
  rw [setQueue_queue]
  split
  . next h =>
    subst h
    exact ⟨rfl, rfl⟩
  . exact ⟨rfl, rfl⟩

theorem advance_queue
    : ((node.advance s).queue s').ticket = (node.queue s').ticket
        ∧ ((node.advance s).queue s').current
          = if s' = s then (node.queue s').current + 1 else (node.queue s').current := by
  unfold advance
  rw [setQueue_queue]
  split
  . next h =>
    subst h
    exact ⟨rfl, rfl⟩
  . exact ⟨rfl, rfl⟩

end LocalLockNode

namespace LocalLock

/-- The call of a thread between its successful acquire and its release. -/
def Pc.inside : Pc → Option Request
  | .body c true _ => some c
  | .exchange c _ => some c
  | .loadTicket c => some c
  | .loadCurrent c _ => some c
  | .startWindow c _ _ => some c
  | .setHandover c _ _ => some c
  | .leave c => some c
  | _ => none

/-- The call of a thread whose ticket is served. -/
def Pc.served : Pc → Option Request
  | .loadKey c => some c
  | .leaveWindow c => some c
  | .advance c => some c
  | .enter c => some c
  | pc => pc.inside

/-- The call of a thread that has a ticket. -/
def Pc.ticketed : Pc → Option Request
  | .spin c _ => some c
  | pc => pc.served

def Request.isIn (c : Request) (n : Nat) (s : Side) : Bool := c.node = n ∧ c.side = s

def Pc.holds (pc : Pc) (n : Nat) (s : Side) : Bool := pc.ticketed.any (fun c => c.isIn n s)

theorem Pc.served_of_inside {pc : Pc} {c : Request} (h : pc.inside = some c) : pc.served = some c := by
  cases pc <;> first | exact h | cases h

theorem Pc.ticketed_of_served {pc : Pc} {c : Request} (h : pc.served = some c)
    : pc.ticketed = some c := by
  cases pc <;> first | exact h | cases h

section Steps

variable {ι : Type} [DecidableEq ι] {S T : State ι} {i : ι}

/-- What a thread does with its ticket in one step. -/
inductive TicketStep (S : State ι) (i : ι) (T : State ι) : Prop
  /-- It keeps what it has. -/
  | keep (hticketed : (T.pc i).ticketed = (S.pc i).ticketed) (hserved : (T.pc i).served = (S.pc i).served)
      (hspin : ∀ c t, T.pc i = .spin c t → S.pc i = .spin c t)
      (hnodes : ∀ n, (S.nodes n).SameTickets (T.nodes n))
      (htaken : T.taken = S.taken) (hleft : T.left = S.left)
  | draw (c : Request) (hpc : S.pc i = .takeTicket c)
      (hpc' : T.pc i = .spin c ((S.nodes c.node).queue c.side).ticket)
      (hnode : T.nodes = Function.update S.nodes c.node ((S.nodes c.node).takeTicket c.side))
      (htaken : T.taken = State.count S.taken c) (hleft : T.left = S.left)
  /-- Its ticket is served. -/
  | turn (c : Request) (hpc : S.pc i = .spin c ((S.nodes c.node).queue c.side).current)
      (hpc' : T.pc i = .loadKey c) (hnodes : T.nodes = S.nodes) (htaken : T.taken = S.taken)
      (hleft : T.left = S.left)
  | leave (c : Request) (node : LocalLockNode) (hpc : (S.pc i).served = some c)
      (hpc' : (T.pc i).ticketed = none) (hsame : (S.nodes c.node).SameTickets node)
      (hnode : T.nodes = Function.update S.nodes c.node (node.advance c.side))
      (htaken : T.taken = S.taken) (hleft : T.left = State.count S.left c)
  /-- An update does not find its key and returns with the ticket. -/
  | lose (c : Request) (hkind : c.kind = .update) (hpc : S.pc i = .body c true .find)
      (hremote : S.remote c.key = none) (hpc' : T.pc i = .returned c) (hnodes : T.nodes = S.nodes)
      (htaken : T.taken = S.taken) (hleft : T.left = S.left)

theorem goto_pc (S : State ι) (i j : ι) (pc : Pc)
    : (S.goto i pc).pc j = if j = i then pc else S.pc j := by
  unfold State.goto
  dsimp only
  rw [Function.update_apply]

omit [DecidableEq ι] in
theorem sameTickets_setNode (S : State ι) (m : Nat) {node : LocalLockNode}
    (h : (S.nodes m).SameTickets node) (n : Nat)
    : (S.nodes n).SameTickets ((S.setNode m node).nodes n) := by
  unfold State.setNode
  dsimp only
  rw [Function.update_apply]
  split
  . next heq =>
    subst heq
    exact h
  . apply LocalLockNode.SameTickets.refl

theorem step_pc_of_ne (h : S.step i = some T) {j : ι} (hne : j ≠ i) : T.pc j = S.pc j := by
  unfold State.step at h
  split at h
  . cases h
  all_goals
    obtain rfl := Option.some.inj h
    exact Function.update_of_ne hne _ _

theorem TicketStep.goto {S' : State ι} {pc pc' : Pc} (hpc : S.pc i = pc)
    (hnodes : ∀ n, (S.nodes n).SameTickets (S'.nodes n)) (htaken : S'.taken = S.taken) (hleft : S'.left = S.left)
    (hserved : pc'.served = pc.served) (hticketed : pc'.ticketed = pc.ticketed)
    (hspin : ∀ c t, pc' = .spin c t → pc = .spin c t)
    : TicketStep S i (S'.goto i pc') := by
  subst hpc
  have hself : (S'.goto i pc').pc i = pc' := Function.update_self _ _ _
  refine .keep ?_ ?_ ?_ hnodes htaken hleft
  . rw [hself]
    exact hticketed
  . rw [hself]
    exact hserved
  . rw [hself]
    exact hspin

theorem TicketStep.body {S' : State ι} {c : Request} {held : Bool} {stage stage' : Stage}
    (hpc : S.pc i = .body c held stage) (hnodes : S'.nodes = S.nodes) (htaken : S'.taken = S.taken)
    (hleft : S'.left = S.left)
    : TicketStep S i (S'.goto i (.body c held stage')) := by
  refine .goto hpc ?_ htaken hleft ?_ ?_ (by intro c' t ht; cases ht)
  . intro n
    rw [hnodes]
    exact LocalLockNode.SameTickets.refl _
  . cases held <;> rfl
  . cases held <;> rfl

theorem step_cases (h : S.step i = some T) : TicketStep S i T := by
  have hrefl : ∀ n, (S.nodes n).SameTickets (S.nodes n) :=
    fun n => LocalLockNode.SameTickets.refl _
  unfold State.step at h
  generalize hpc : S.pc i = pc at h
  cases pc with
  | idle => cases h
  | casKey c =>
    cases h
    refine .goto hpc ?_ rfl rfl ?_ ?_ ?_
    . apply sameTickets_setNode
      apply LocalLockNode.sameTickets_casKey
    . split_ifs <;> rfl
    . split_ifs <;> rfl
    . intro c' t ht
      split_ifs at ht
  | deposit c =>
    cases h
    refine .goto hpc ?_ rfl rfl rfl rfl (by intro c' t ht; cases ht)
    apply sameTickets_setNode
    exact fun _ => ⟨rfl, rfl⟩
  | takeTicket c =>
    cases h
    exact .draw c hpc (Function.update_self _ _ _) rfl rfl rfl
  | spin c ticket =>
    cases h
    split
    . next heq =>
      subst heq
      exact .turn c hpc (Function.update_self _ _ _) rfl rfl rfl
    . exact .goto hpc hrefl rfl rfl rfl rfl (by intro c' t ht; exact ht)
  | loadKey c =>
    cases h
    refine .goto hpc hrefl rfl rfl ?_ ?_ ?_
    . split_ifs <;> rfl
    . split_ifs <;> rfl
    . intro c' t ht
      split_ifs at ht
  | leaveWindow c =>
    cases h
    refine .goto hpc ?_ rfl rfl rfl rfl (by intro c' t ht; cases ht)
    apply sameTickets_setNode
    apply LocalLockNode.sameTickets_leaveWindow
  | advance c =>
    cases h
    have hself : (State.goto S i (.body c false .find)).pc i = .body c false .find :=
      Function.update_self _ _ _
    refine .leave c (S.nodes c.node) (by rw [hpc]; rfl) ?_ (LocalLockNode.SameTickets.refl _) rfl rfl rfl
    exact congrArg Pc.ticketed hself
  | enter c =>
    cases h
    refine .goto hpc ?_ rfl rfl ?_ ?_ ?_
    . apply sameTickets_setNode
      apply LocalLockNode.sameTickets_enter
    . split_ifs <;> rfl
    . split_ifs <;> rfl
    . intro c' t ht
      split_ifs at ht
  | body c held stage =>
    cases stage with
    | find =>
      cases h
      rcases c with ⟨_ | _ | _, k, v⟩
      . exact .body hpc rfl rfl rfl
      . cases hremote : S.remote k with
        | none =>
          cases held with
          | true => exact .lose _ rfl hpc hremote (by simp [State.goto, Request.found]) rfl rfl rfl
          | false =>
            exact .goto hpc hrefl rfl rfl rfl rfl (by intro c' t ht; cases ht)
        | some r => exact .body hpc rfl rfl rfl
      . exact .body hpc rfl rfl rfl
    | combine =>
      cases h
      exact .body hpc rfl rfl rfl
    | write v =>
      cases h
      exact .body hpc rfl rfl rfl
    | done r =>
      cases h
      cases held with
      | true =>
        exact .goto hpc hrefl rfl rfl rfl rfl (by intro c' t ht; cases ht)
      | false =>
        exact .goto hpc hrefl rfl rfl rfl rfl (by intro c' t ht; cases ht)
  | exchange c r =>
    cases h
    refine .goto hpc ?_ rfl rfl rfl rfl (by intro c' t ht; cases ht)
    apply sameTickets_setNode
    split
    . apply LocalLockNode.sameTickets_exchange
    . apply LocalLockNode.SameTickets.refl
  | loadTicket c =>
    cases h
    exact .goto hpc hrefl rfl rfl rfl rfl (by intro c' t ht; cases ht)
  | loadCurrent c ticket =>
    cases h
    exact .goto hpc hrefl rfl rfl rfl rfl (by intro c' t ht; cases ht)
  | startWindow c ticket current =>
    cases h
    refine .goto hpc ?_ rfl rfl rfl rfl (by intro c' t ht; cases ht)
    apply sameTickets_setNode
    apply LocalLockNode.sameTickets_startWindow
  | setHandover c ticket current =>
    cases h
    refine .goto hpc ?_ rfl rfl rfl rfl (by intro c' t ht; cases ht)
    apply sameTickets_setNode
    apply LocalLockNode.sameTickets_setHandover
  | leave c =>
    cases h
    have hself : (State.goto S i (.returned c)).pc i = .returned c := Function.update_self _ _ _
    refine .leave c ((S.nodes c.node).leaveWindow c.side) (by rw [hpc]; rfl) ?_
      (LocalLockNode.sameTickets_leaveWindow _ _) rfl rfl rfl
    exact congrArg Pc.ticketed hself
  | returned c =>
    cases h
    show TicketStep S i ((S.log i .returned).goto i .idle)
    exact .goto hpc hrefl rfl rfl rfl rfl (by intro c' t ht; cases ht)

end Steps

section Invariant

variable {ι : Type} [DecidableEq ι] {S T : State ι} {i : ι} {num : ι → Nat}

/-- The ticket that a thread has of queue `s` of node `n`, where `num` numbers the tickets. -/
def State.owned (S : State ι) (num : ι → Nat) (n : Nat) (s : Side) (i : ι) : Option Nat :=
  if (S.pc i).holds n s then some (num i) else none

/-- The threads with tickets stand in line, the first one is served. -/
structure TicketInv (S : State ι) (num : ι → Nat) : Prop where
  queue : ∀ n s, Ticket.Queue (S.left n s) (S.taken n s) (S.owned num n s)
  ticket : ∀ n s, ((S.nodes n).queue s).ticket = BitVec.ofNat 8 (S.taken n s)
  current : ∀ n s, ((S.nodes n).queue s).current = BitVec.ofNat 8 (S.left n s)
  few : ∀ n s, S.taken n s - S.left n s ≤ 255
  spin : ∀ i c t, S.pc i = .spin c t → t = BitVec.ofNat 8 (num i)
  served : ∀ i c, (S.pc i).served = some c → num i = S.left c.node c.side

omit [DecidableEq ι] in
theorem owned_of_ticketed (num : ι → Nat) {c : Request} (h : (S.pc i).ticketed = some c)
    : S.owned num c.node c.side i = some (num i) := by
  simp [State.owned, Pc.holds, h, Request.isIn]

theorem owned_step (hne : ∀ j, j ≠ i → T.pc j = S.pc j) (num num' : ι → Nat)
    (hnum : ∀ j, j ≠ i → num' j = num j) (n : Nat) (s : Side)
    : T.owned num' n s
        = Function.update (S.owned num n s) i (if (T.pc i).holds n s then some (num' i) else none) := by
  funext j
  rcases eq_or_ne j i with rfl | hj
  . rw [Function.update_self]
    rfl
  . rw [Function.update_of_ne hj, State.owned, State.owned, hne j hj, hnum j hj]

theorem owned_keep (hne : ∀ j, j ≠ i → T.pc j = S.pc j) (hi : (T.pc i).ticketed = (S.pc i).ticketed)
    (n : Nat) (s : Side)
    : T.owned num n s = S.owned num n s := by
  rw [owned_step hne num num (fun _ _ => rfl)]
  apply Function.update_eq_self_iff.mpr
  rw [State.owned, Pc.holds, hi]
  rfl

omit [DecidableEq ι] in
theorem TicketInv.stay (h : TicketInv S num) (hne : ∀ j, j ≠ i → T.pc j = S.pc j)
    (hqueue : ∀ n s, Ticket.Queue (S.left n s) (S.taken n s) (T.owned num n s))
    (hserved : ∀ c, (T.pc i).served = some c → num i = S.left c.node c.side)
    (hspin : ∀ c t, T.pc i = .spin c t → S.pc i = .spin c t)
    (hnodes : ∀ n, (S.nodes n).SameTickets (T.nodes n)) (htaken : T.taken = S.taken)
    (hleft : T.left = S.left)
    : TicketInv T num where
  queue := by
    rw [hleft, htaken]
    exact hqueue
  ticket := by
    intro n s
    rw [(hnodes n s).1, htaken]
    exact h.ticket n s
  current := by
    intro n s
    rw [(hnodes n s).2, hleft]
    exact h.current n s
  few := by
    rw [htaken, hleft]
    exact h.few
  spin := by
    intro j c t hj
    rcases eq_or_ne j i with rfl | hji
    . exact h.spin j c t (hspin c t hj)
    . rw [hne j hji] at hj
      exact h.spin j c t hj
  served := by
    intro j c hj
    rw [hleft]
    rcases eq_or_ne j i with rfl | hji
    . exact hserved c hj
    . rw [hne j hji] at hj
      exact h.served j c hj

theorem TicketInv.keep (h : TicketInv S num) (hne : ∀ j, j ≠ i → T.pc j = S.pc j)
    (hticketed : (T.pc i).ticketed = (S.pc i).ticketed) (hserved : (T.pc i).served = (S.pc i).served)
    (hspin : ∀ c t, T.pc i = .spin c t → S.pc i = .spin c t)
    (hnodes : ∀ n, (S.nodes n).SameTickets (T.nodes n)) (htaken : T.taken = S.taken)
    (hleft : T.left = S.left)
    : TicketInv T num := by
  refine h.stay hne ?_ ?_ hspin hnodes htaken hleft
  . intro n s
    rw [owned_keep hne hticketed]
    exact h.queue n s
  . rw [hserved]
    exact h.served i

omit [DecidableEq ι] in
theorem count_eq (f : Nat → Side → Nat) (c : Request) (n : Nat) (s : Side)
    : State.count f c n s = if c.isIn n s then f n s + 1 else f n s := by
  unfold State.count Request.isIn
  rw [Function.update_apply]
  rcases eq_or_ne n c.node with rfl | hn
  . rw [if_pos rfl, Function.update_apply]
    rcases eq_or_ne s c.side with rfl | hs
    . simp
    . simp [hs, hs.symm]
  . simp [hn, hn.symm]

theorem TicketInv.draw (h : TicketInv S num) (hne : ∀ j, j ≠ i → T.pc j = S.pc j) {c : Request}
    (hpc : S.pc i = .takeTicket c) (hpc' : T.pc i = .spin c ((S.nodes c.node).queue c.side).ticket)
    (hnode : T.nodes = Function.update S.nodes c.node ((S.nodes c.node).takeTicket c.side))
    (htaken : T.taken = State.count S.taken c) (hleft : T.left = S.left)
    (hroom : S.taken c.node c.side - S.left c.node c.side < 255)
    : TicketInv T (Function.update num i (S.taken c.node c.side)) where
  queue := by
    intro n s
    have howned := owned_step hne num (Function.update num i (S.taken c.node c.side))
      (fun j hj => Function.update_of_ne hj _ _) n s
    have hholds : (T.pc i).holds n s = c.isIn n s := by
      rw [hpc']
      rfl
    have hnone : S.owned num n s i = none := by
      rw [State.owned, hpc]
      rfl
    rw [howned, hholds, hleft, htaken, count_eq, Function.update_self]
    split
    . next hin =>
      simp only [Request.isIn, Bool.decide_and, Bool.and_eq_true, decide_eq_true_eq] at hin
      obtain ⟨rfl, rfl⟩ := hin
      exact (h.queue _ _).draw
    . rw [← hnone, Function.update_eq_self]
      exact h.queue n s
  ticket := by
    intro n s
    rw [hnode, htaken, count_eq, Function.update_apply]
    rcases eq_or_ne n c.node with rfl | hn
    . rw [if_pos rfl, ((S.nodes c.node).takeTicket_queue c.side s).1]
      rcases eq_or_ne s c.side with rfl | hs
      . rw [if_pos rfl, if_pos (by simp [Request.isIn]), h.ticket, BitVec.ofNat_add]
        rfl
      . rw [if_neg hs, if_neg (by simp [Request.isIn, hs.symm]), h.ticket]
    . rw [if_neg hn, if_neg (by simp [Request.isIn, hn.symm]), h.ticket]
  current := by
    intro n s
    rw [hnode, hleft, Function.update_apply, ← h.current n s]
    split
    . next hn =>
      subst hn
      rw [((S.nodes c.node).takeTicket_queue c.side s).2]
    . rfl
  few := by
    intro n s
    rw [htaken, hleft, count_eq]
    split
    . next hin =>
      simp only [Request.isIn, Bool.decide_and, Bool.and_eq_true, decide_eq_true_eq] at hin
      obtain ⟨rfl, rfl⟩ := hin
      omega
    . exact h.few n s
  spin := by
    intro j d t hj
    rcases eq_or_ne j i with rfl | hji
    . rw [hpc', Pc.spin.injEq] at hj
      rw [← hj.2, h.ticket, Function.update_self]
    . rw [hne j hji] at hj
      rw [Function.update_of_ne hji]
      exact h.spin j d t hj
  served := by
    intro j d hj
    rcases eq_or_ne j i with rfl | hji
    . rw [hpc'] at hj
      cases hj
    . rw [hne j hji] at hj
      rw [Function.update_of_ne hji, hleft]
      exact h.served j d hj

theorem TicketInv.turn (h : TicketInv S num) (hne : ∀ j, j ≠ i → T.pc j = S.pc j) {c : Request}
    (hpc : S.pc i = .spin c ((S.nodes c.node).queue c.side).current) (hpc' : T.pc i = .loadKey c)
    (hnodes : T.nodes = S.nodes) (htaken : T.taken = S.taken) (hleft : T.left = S.left)
    : TicketInv T num := by
  have hticketed : (T.pc i).ticketed = (S.pc i).ticketed := by
    rw [hpc, hpc']
    rfl
  have hnum : num i = S.left c.node c.side := by
    have hspin := h.spin i c _ hpc
    rw [h.current] at hspin
    have hmod := congrArg BitVec.toNat hspin
    simp only [BitVec.toNat_ofNat] at hmod
    have hfew := h.few c.node c.side
    apply (h.queue c.node c.side).eq_served (m := 2 ^ 8) (by omega) (i := i) _ hmod.symm
    apply owned_of_ticketed
    rw [hpc]
    rfl
  refine h.stay hne ?_ ?_ ?_ (fun n => hnodes ▸ LocalLockNode.SameTickets.refl _) htaken hleft
  . intro n s
    rw [owned_keep hne hticketed]
    exact h.queue n s
  . intro d hd
    rw [hpc'] at hd
    obtain rfl := Option.some.inj hd
    exact hnum
  . intro d t hd
    rw [hpc'] at hd
    cases hd

theorem owned_drop (hne : ∀ j, j ≠ i → T.pc j = S.pc j) (hi : (T.pc i).ticketed = none) (n : Nat)
    (s : Side)
    : T.owned num n s = Function.update (S.owned num n s) i none := by
  rw [owned_step hne num num (fun _ _ => rfl), Pc.holds, hi]
  rfl

theorem TicketInv.leave (h : TicketInv S num) (hne : ∀ j, j ≠ i → T.pc j = S.pc j) {c : Request}
    {node : LocalLockNode} (hpc : (S.pc i).served = some c) (hpc' : (T.pc i).ticketed = none)
    (hsame : (S.nodes c.node).SameTickets node)
    (hnode : T.nodes = Function.update S.nodes c.node (node.advance c.side))
    (htaken : T.taken = S.taken) (hleft : T.left = State.count S.left c)
    : TicketInv T num := by
  have hnum := h.served i c hpc
  have hticketed := Pc.ticketed_of_served hpc
  have howned : S.owned num c.node c.side i = some (S.left c.node c.side) := by
    rw [← hnum]
    exact owned_of_ticketed num hticketed
  have hnone : ∀ d t, T.pc i ≠ .spin d t := by
    intro d t hspin
    rw [hspin] at hpc'
    cases hpc'
  have hnone' : ∀ d, (T.pc i).served ≠ some d := by
    intro d hserved
    rw [Pc.ticketed_of_served hserved] at hpc'
    cases hpc'
  refine ⟨?_, ?_, ?_, ?_, ?_, ?_⟩
  . intro n s
    rw [owned_drop hne hpc', hleft, htaken, count_eq]
    split
    . next hin =>
      simp only [Request.isIn, Bool.decide_and, Bool.and_eq_true, decide_eq_true_eq] at hin
      obtain ⟨rfl, rfl⟩ := hin
      exact (h.queue _ _).leave howned
    . exact (h.queue n s).erase
  . intro n s
    rw [hnode, htaken, Function.update_apply]
    split
    . next hn =>
      subst hn
      rw [(node.advance_queue c.side s).1, (hsame s).1, h.ticket]
    . exact h.ticket n s
  . intro n s
    rw [hnode, hleft, count_eq, Function.update_apply]
    rcases eq_or_ne n c.node with rfl | hn
    . rw [if_pos rfl, (node.advance_queue c.side s).2, (hsame s).2]
      rcases eq_or_ne s c.side with rfl | hs
      . rw [if_pos rfl, if_pos (by simp [Request.isIn]), h.current, BitVec.ofNat_add]
        rfl
      . rw [if_neg hs, if_neg (by simp [Request.isIn, hs.symm]), h.current]
    . rw [if_neg hn, if_neg (by simp [Request.isIn, hn.symm]), h.current]
  . intro n s
    have hfew := h.few n s
    rw [htaken, hleft, count_eq]
    split
    . omega
    . exact hfew
  . intro j d t hj
    rcases eq_or_ne j i with rfl | hji
    . exact absurd hj (hnone d t)
    . rw [hne j hji] at hj
      exact h.spin j d t hj
  . intro j d hj
    rcases eq_or_ne j i with rfl | hji
    . exact absurd hj (hnone' d)
    . rw [hne j hji] at hj
      have hserved := h.served j d hj
      rw [hleft, count_eq, if_neg ?_]
      . exact hserved
      -- another thread is not served in the same queue
      . intro hin
        simp only [Request.isIn, Bool.decide_and, Bool.and_eq_true, decide_eq_true_eq] at hin
        have hj' := owned_of_ticketed num (Pc.ticketed_of_served hj)
        rw [hserved, ← hin.1, ← hin.2] at hj'
        exact hji ((h.queue c.node c.side).inj hj' howned)

theorem TicketInv.lose (h : TicketInv S num) (hne : ∀ j, j ≠ i → T.pc j = S.pc j) {c : Request}
    (hpc' : T.pc i = .returned c) (hnodes : T.nodes = S.nodes) (htaken : T.taken = S.taken)
    (hleft : T.left = S.left)
    : TicketInv T num := by
  have hticketed : (T.pc i).ticketed = none := by
    rw [hpc']
    rfl
  refine h.stay hne ?_ ?_ ?_ (fun n => hnodes ▸ LocalLockNode.SameTickets.refl _) htaken hleft
  . intro n s
    rw [owned_drop hne hticketed]
    exact (h.queue n s).erase
  . intro d hd
    rw [hpc'] at hd
    cases hd
  . intro d t hd
    rw [hpc'] at hd
    cases hd

/-- A ticket is only taken while fewer than 255 are out. -/
def Room (S : State ι) (i : ι) : Prop :=
  ∀ c, S.pc i = .takeTicket c → S.taken c.node c.side - S.left c.node c.side < 255

instance (S : State ι) (i : ι) : Decidable (Room S i) :=
  match h : S.pc i with
  | .takeTicket c =>
    decidable_of_iff (S.taken c.node c.side - S.left c.node c.side < 255) (by simp [Room, h])
  | .idle | .casKey _ | .deposit _ | .spin _ _ | .loadKey _ | .leaveWindow _ | .advance _ | .enter _ | .body _ _ _
  | .exchange _ _ | .loadTicket _ | .loadCurrent _ _ | .startWindow _ _ _ | .setHandover _ _ _ | .leave _
  | .returned _ => isTrue (by simp [Room, h])

theorem TicketInv.step (h : TicketInv S num) (hroom : Room S i) (hstep : S.step i = some T)
    : ∃ num, TicketInv T num := by
  have hne : ∀ j, j ≠ i → T.pc j = S.pc j := fun j hj => step_pc_of_ne hstep hj
  cases step_cases hstep with
  | keep hticketed hserved hspin hnodes htaken hleft =>
    exact ⟨num, h.keep hne hticketed hserved hspin hnodes htaken hleft⟩
  | draw c hpc hpc' hnode htaken hleft =>
    exact ⟨_, h.draw hne hpc hpc' hnode htaken hleft (hroom c hpc)⟩
  | turn c hpc hpc' hnodes htaken hleft => exact ⟨num, h.turn hne hpc hpc' hnodes htaken hleft⟩
  | leave c node hpc hpc' hsame hnode htaken hleft =>
    exact ⟨num, h.leave hne hpc hpc' hsame hnode htaken hleft⟩
  | lose c hkind hpc hremote hpc' hnodes htaken hleft =>
    exact ⟨num, h.lose hne hpc' hnodes htaken hleft⟩

omit [DecidableEq ι] in
theorem TicketInv.init (nodes : Nat → LocalLockNode) (remote : Key → Option Value)
    (hnodes : ∀ n s, (nodes n).queue s = .init)
    : TicketInv (State.init nodes remote : State ι) (fun _ => 0) where
  queue := fun _ _ => Ticket.Queue.empty
  ticket := by
    intro n s
    simp only [State.init, hnodes]
    rfl
  current := by
    intro n s
    simp only [State.init, hnodes]
    rfl
  few := fun _ _ => Nat.zero_le _
  spin := by
    intro i c t hpc
    cases hpc
  served := by
    intro i c hpc
    cases hpc

theorem TicketInv.call (h : TicketInv S num) (hidle : S.pc i = .idle) (c : Request)
    : TicketInv (S.goto i (.casKey c)) num := by
  have hself : (S.goto i (.casKey c)).pc i = .casKey c := Function.update_self _ _ _
  apply h.keep (fun j hj => Function.update_of_ne hj _ _)
  . rw [hself, hidle]
    rfl
  . rw [hself, hidle]
    rfl
  . intro c' t ht
    rw [hself] at ht
    cases ht
  . exact fun n => LocalLockNode.SameTickets.refl _
  . rfl
  . rfl

theorem Run.ticketInv {ok : State ι → ι → Prop} (hok : ∀ S i, ok S i → Room S i) (h : Run ok S)
    : ∃ num, TicketInv S num := by
  induction h with
  | init result wcBuffer remote => exact ⟨_, TicketInv.init _ remote (fun _ _ => rfl)⟩
  | call i c _ hidle ih =>
    obtain ⟨num, hinv⟩ := ih
    exact ⟨num, hinv.call hidle c⟩
  | step i _ hstepOk hstep ih =>
    obtain ⟨num, hinv⟩ := ih
    exact hinv.step (hok _ i hstepOk) hstep
  | remote remote _ _ ih =>
    obtain ⟨num, hinv⟩ := ih
    exact ⟨num, hinv.queue, hinv.ticket, hinv.current, hinv.few, hinv.spin, hinv.served⟩

omit [DecidableEq ι] in
theorem TicketInv.windowSize_eq (h : TicketInv S num) (n : Nat) (s : Side)
    : (windowSize ((S.nodes n).queue s).ticket ((S.nodes n).queue s).current).toNat
        = S.taken n s - S.left n s := by
  have hfew := h.few n s
  have hle := (h.queue n s).le
  rw [h.ticket, h.current]
  simp only [windowSize, BitVec.toNat_ofNat]
  omega

end Invariant

section Exclusion

variable {ι : Type} [DecidableEq ι]

/--
In every run in which a ticket is only taken while fewer than 255 are out, each lock is held at most
once, no two tickets that are out are mixed up, and a window has the size of its queue.
-/
theorem lock_exclusive (S : State ι) (h : Run Room S)
    : (∀ i j c d, (S.pc i).inside = some c → (S.pc j).inside = some d → c.node = d.node →
          c.side = d.side → i = j)
        ∧ (∀ i j c d t, S.pc i = .spin c t → S.pc j = .spin d t → c.node = d.node → c.side = d.side →
            i = j)
        ∧ (∀ i j c d, S.pc i = .spin c ((S.nodes c.node).queue c.side).current →
            (S.pc j).inside = some d → ¬(c.node = d.node ∧ c.side = d.side))
        ∧ ∀ n s, (windowSize ((S.nodes n).queue s).ticket ((S.nodes n).queue s).current).toNat
            = S.taken n s - S.left n s := by
  obtain ⟨num, hinv⟩ := h.ticketInv (fun _ _ hroom => hroom)
  have howned : ∀ {i c}, (S.pc i).ticketed = some c → S.owned num c.node c.side i = some (num i) :=
    fun hi => owned_of_ticketed num hi
  have hinside : ∀ {i c}, (S.pc i).inside = some c → (S.pc i).ticketed = some c ∧ num i = S.left c.node c.side :=
    fun hi => ⟨Pc.ticketed_of_served (Pc.served_of_inside hi), hinv.served _ _ (Pc.served_of_inside hi)⟩
  have hspin : ∀ {i c t}, S.pc i = .spin c t → (S.pc i).ticketed = some c := by
    intro i c t hi
    rw [hi]
    rfl
  refine ⟨?_, ?_, ?_, hinv.windowSize_eq⟩
  . intro i j c d hi hj hnode hside
    obtain ⟨hi', hnum⟩ := hinside hi
    obtain ⟨hj', hnum'⟩ := hinside hj
    have hown := howned hi'
    have hown' := howned hj'
    rw [hnum] at hown
    rw [hnum', ← hnode, ← hside] at hown'
    exact (hinv.queue c.node c.side).inj hown hown'
  . intro i j c d t hi hj hnode hside
    have hown := howned (hspin hi)
    have hown' := howned (hspin hj)
    rw [← hnode, ← hside] at hown'
    have hmod := congrArg BitVec.toNat ((hinv.spin i c t hi).symm.trans (hinv.spin j d t hj))
    simp only [BitVec.toNat_ofNat] at hmod
    have hfew := hinv.few c.node c.side
    have heq : num i = num j := Ticket.eq_of_mod_eq (m := 2 ^ 8) (by omega)
      ((hinv.queue _ _).bounds hown) ((hinv.queue _ _).bounds hown') hmod
    rw [← heq] at hown'
    exact (hinv.queue c.node c.side).inj hown hown'
  . rintro i j c d hi hj ⟨hnode, hside⟩
    obtain ⟨hj', hnum⟩ := hinside hj
    have hown := howned (hspin hi)
    have hown' := howned hj'
    rw [hnum, ← hnode, ← hside] at hown'
    have hmod := hinv.spin i c _ hi
    rw [hinv.current] at hmod
    have hmod := congrArg BitVec.toNat hmod
    simp only [BitVec.toNat_ofNat] at hmod
    have hfew := hinv.few c.node c.side
    have heq : num i = S.left c.node c.side :=
      (hinv.queue _ _).eq_served (m := 2 ^ 8) (by omega) hown hmod.symm
    rw [heq] at hown
    have hij := (hinv.queue c.node c.side).inj hown hown'
    subst hij
    rw [hi] at hj
    cases hj

-- the first caller is inside, the second one has taken the next ticket
theorem lock_exclusive_waiting
    : ∃ S : State (Fin 2), Run Room S ∧ (S.pc 0).inside = some ⟨.update, int2key 1, 7⟩
        ∧ S.pc 1 = .spin ⟨.update, int2key 1, 8⟩ 1
        ∧ (∀ j d, (S.pc j).inside = some d → d.node = 1 → d.side = .write → j = 0)
        ∧ (windowSize ((S.nodes 1).queue .write).ticket ((S.nodes 1).queue .write).current).toNat = 2 := by
  obtain ⟨S, hl, hin, hspin, htaken, hleft⟩ : ∃ S : State (Fin 2),
      (State.init (fun _ => .init none 0) (fun _ => none) : State (Fin 2)).schedule Room
        ((0, some ⟨.update, int2key 1, 7⟩) :: (1, some ⟨.update, int2key 1, 8⟩)
          :: List.replicate 6 (0, none) ++ List.replicate 3 (1, none)) = some S
      ∧ (S.pc 0).inside = some ⟨.update, int2key 1, 7⟩ ∧ S.pc 1 = .spin ⟨.update, int2key 1, 8⟩ 1
      ∧ S.taken 1 .write = 2 ∧ S.left 1 .write = 0 :=
    ⟨_, rfl, rfl, rfl, by decide +kernel, by decide +kernel⟩
  have hrun := (Run.init (fun _ => none) (fun _ => 0) (fun _ => none)).schedule hl
  obtain ⟨hone, -, -, hsize⟩ := lock_exclusive S hrun
  refine ⟨S, hrun, hin, hspin, fun j d hj hnode hside => hone j 0 d _ hj hin ?_ ?_, ?_⟩
  . exact hnode
  . exact hside
  . rw [hsize, htaken, hleft]

end Exclusion

section Crowd

variable {ι : Type} [DecidableEq ι] {S : State ι} {i : ι} {c : Request}

/-- The runs of any length and number of callers. -/
abbrev AnyRun (S : State ι) : Prop := Run (fun _ _ => True) S

theorem goto_pc_self (S : State ι) (i : ι) (pc : Pc) : (S.goto i pc).pc i = pc :=
  Function.update_self _ _ _

theorem AnyRun.arrive (h : AnyRun S) (hidle : S.pc i = .idle) (hside : c.side = .write)
    (hkey : ((S.nodes c.node).queue c.side).uniqueKey = none
      ∨ ((S.nodes c.node).queue c.side).uniqueKey = some c.key)
    : ∃ T, AnyRun T ∧ T.pc = Function.update S.pc i (.spin c ((S.nodes c.node).queue c.side).ticket)
        ∧ (T.nodes c.node).queue c.side = { (S.nodes c.node).queue c.side with
            uniqueKey := some c.key
            ticket := ((S.nodes c.node).queue c.side).ticket + 1 } := by
  generalize hnode : S.nodes c.node = node at *
  have hcas : (node.casKey c.side c.key).1 = true
      ∧ (node.casKey c.side c.key).2.queue c.side
        = { node.queue c.side with uniqueKey := some c.key } := by
    unfold LocalLockNode.casKey
    rcases hkey with hnone | hsome
    . rw [hnone]
      dsimp only
      rw [LocalLockNode.setQueue_queue, if_pos rfl]
      exact ⟨rfl, rfl⟩
    . rw [hsome]
      dsimp only
      refine ⟨by simp, ?_⟩
      rw [← hsome]
  have hcall : AnyRun (S.goto i (.casKey c)) := h.call i c hidle
  have hcasKey : AnyRun ((S.setNode c.node (node.casKey c.side c.key).2).goto i (.deposit c)) := by
    refine hcall.step i trivial ?_
    unfold State.step
    rw [goto_pc_self]
    dsimp only
    rw [show (S.goto i (.casKey c)).nodes c.node = node from hnode, if_pos hcas.1, if_pos hside]
    simp [State.goto, State.setNode]
  generalize hnode' : (node.casKey c.side c.key).2 = node' at *
  have hdeposit : AnyRun ((S.setNode c.node { node' with wcBuffer := c.value }).goto i (.takeTicket c)) := by
    refine hcasKey.step i trivial ?_
    unfold State.step
    rw [goto_pc_self]
    simp [State.goto, State.setNode]
  have htake : AnyRun
      { (S.setNode c.node ({ node' with wcBuffer := c.value }.takeTicket c.side)).goto i
        (.spin c (node'.queue c.side).ticket) with taken := State.count S.taken c } := by
    refine hdeposit.step i trivial ?_
    unfold State.step
    rw [goto_pc_self]
    simp [State.goto, State.setNode]
  refine ⟨_, htake, ?_, ?_⟩
  . rw [hcas.2]
    rfl
  . simp only [State.goto, State.setNode, Function.update_self, LocalLockNode.takeTicket,
      LocalLockNode.setQueue]
    rw [hcas.2]

theorem AnyRun.enter (h : AnyRun S)
    (hpc : S.pc i = .spin c ((S.nodes c.node).queue c.side).current)
    (hkey : ((S.nodes c.node).queue c.side).uniqueKey = some c.key)
    (hwindow : ((S.nodes c.node).queue c.side).window = 0)
    : ∃ T, AnyRun T ∧ T.pc = Function.update S.pc i (.body c true .find)
        ∧ (T.nodes c.node).queue c.side = { (S.nodes c.node).queue c.side with handover := false } := by
  have hspin : AnyRun (S.goto i (.loadKey c)) := by
    refine h.step i trivial ?_
    unfold State.step
    rw [hpc]
    simp
  have hload : AnyRun (S.goto i (.enter c)) := by
    refine hspin.step i trivial ?_
    unfold State.step
    rw [goto_pc_self]
    simp [State.goto, hkey]
  have henter : AnyRun (((S.setNode c.node ((S.nodes c.node).setQueue c.side
      { (S.nodes c.node).queue c.side with handover := false })).log i .acquired).goto i
        (.body c true .find)) := by
    refine hload.step i trivial ?_
    unfold State.step
    rw [goto_pc_self]
    simp [State.goto, State.setNode, State.log, LocalLockNode.enter, hwindow,
      LocalLockNode.setQueue]
  refine ⟨_, henter, rfl, ?_⟩
  . simp [State.goto, State.setNode, State.log, LocalLockNode.setQueue]

/-- With `n` callers waiting for one lock, the ticket of the next is `n` modulo 256. -/
theorem exists_crowd (hside : c.side = .write) (n : Nat)
    : ∃ S : State Nat, AnyRun S ∧ (∀ i, i < n → S.pc i = .spin c (BitVec.ofNat 8 i))
        ∧ (∀ i, n ≤ i → S.pc i = .idle)
        ∧ ((S.nodes c.node).queue c.side).ticket = BitVec.ofNat 8 n
        ∧ ((S.nodes c.node).queue c.side).current = 0
        ∧ ((S.nodes c.node).queue c.side).window = 0
        ∧ ((S.nodes c.node).queue c.side).uniqueKey = if n = 0 then none else some c.key := by
  induction n with
  | zero =>
    refine ⟨_, .init (fun _ => none) (fun _ => 0) (fun _ => none), ?_, fun _ _ => rfl, rfl, rfl, rfl, rfl⟩
    intro i hi
    omega
  | succ n ih =>
    obtain ⟨S, hrun, hspin, hidle, hticket, hcurrent, hwindow, hkey⟩ := ih
    obtain ⟨T, hT, hpc, hqueue⟩ := hrun.arrive (hidle n (Nat.le_refl n)) hside (by
      rw [hkey]
      split
      . exact .inl rfl
      . exact .inr rfl)
    refine ⟨T, hT, ?_, ?_, ?_, ?_, ?_, ?_⟩
    . intro i hi
      rw [hpc, Function.update_apply, hticket]
      split
      . next heq => rw [heq]
      . exact hspin i (by omega)
    . intro i hi
      rw [hpc, Function.update_of_ne (by omega)]
      exact hidle i (by omega)
    . rw [hqueue, hticket, BitVec.ofNat_add]
      rfl
    . rw [hqueue, hcurrent]
    . rw [hqueue, hwindow]
    . rw [hqueue, if_neg (by omega)]

/-- The 257th caller has the ticket of the first one, and both are inside. -/
theorem two_callers_inside
    : ∃ (S : State Nat) (c : Request), AnyRun S ∧ (∀ i, 257 ≤ i → S.pc i = .idle)
        ∧ (S.pc 0).inside = some c ∧ (S.pc 256).inside = some c := by
  have hside : Request.side ⟨.update, int2key 1, 7⟩ = .write := rfl
  obtain ⟨S, hrun, hspin, hidle, -, hcurrent, hwindow, hkey⟩ := exists_crowd hside 257
  rw [if_neg (by decide)] at hkey
  obtain ⟨T, hT, hpc, hqueue⟩ := AnyRun.enter hrun (i := 0) (by rw [hspin 0 (by decide), hcurrent]; rfl)
    hkey hwindow
  obtain ⟨U, hU, hpc', -⟩ := AnyRun.enter hT (i := 256) (by
    rw [hpc, Function.update_of_ne (by decide), hspin 256 (by decide), hqueue, hcurrent]
    rfl) (by rw [hqueue, hkey]) (by rw [hqueue, hwindow])
  refine ⟨U, ⟨.update, int2key 1, 7⟩, hU, ?_, ?_, ?_⟩
  . intro i hi
    rw [hpc', hpc, Function.update_of_ne (by omega), Function.update_of_ne (by omega)]
    exact hidle i hi
  . rw [hpc', hpc, Function.update_of_ne (by decide), Function.update_self]
    rfl
  . rw [hpc', Function.update_self]
    rfl

end Crowd

end LocalLock

end Rolex
