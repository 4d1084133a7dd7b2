import Rolex.LocalLock.Coroutines

/-!
This module contains what the winner of a lock hands over to those that wait behind it: a written
value with write combining, the result of a READ with read delegation. In both cases a call that
arrives when the winner has already committed itself gets something that is too old.
-/

namespace Rolex

namespace Coroutine

variable {ι : Type}

/-- What may hold of a call: of the events after it, its value and the events before it. -/
abbrev CallProp (ι : Type) := List (Event ι) → Value → List (Event ι) → Prop

/-- What the holder of a lock does for the calls that wait. -/
structure Handing (ι : Type) where
  /-- The holder can no longer do anything for later calls. -/
  committed : Pc → Bool
  /-- What the holder has done for those that wait. -/
  promise : Pc → CallProp ι
  /-- What those have that get the lock handed over, with this result. -/
  result : Option Value → CallProp ι
  fresh : ∀ v, committed (.find v true) = false
  uncommitted : ∀ {pc}, committed pc = false → ∀ after v before, promise pc after v before
  promise_cons : ∀ {pc e after v before}, promise pc after v before → promise pc (e :: after) v before
  result_cons : ∀ {r e after v before}, result r after v before → result r (e :: after) v before

/-- There is a ticket left and the holder has not committed itself. -/
def Handing.Ok (H : Handing ι) (S : State ι) : Prop :=
  S.taken - S.left < 255 ∧ ∀ i, H.committed (S.pc i) = false

/-- What a search gets with the lock. -/
def handedOver (s : Side) (node : LocalLockNode) : Option Value :=
  if s = .read then node.result else none

theorem handedOver_congr {s : Side} {node node' : LocalLockNode} (h : node'.handed = node.handed)
    : handedOver s node' = handedOver s node := by
  have hresult : node'.result = node.result := congrArg Prod.fst h
  rw [handedOver, handedOver, hresult]

theorem ret_ne_call (i : ι) (handover : Bool) (r : Option Value) (j : ι) (v : Value)
    : Event.ret i handover r ≠ .call j v := by
  intro h
  cases h

variable [DecidableEq ι]

structure HandInv (H : Handing ι) (s : Side) (k : Key) (S : State ι) (num : ι → Nat) (mark : Nat) : Prop where
  line : LineInv s k S num mark
  called : ∀ {j v t}, S.pc j = .wait v t → Since (fun _ _ _ => True) j S.trace
  promise : ∀ {i j v t}, (S.pc i).holds → S.pc j = .wait v t → Since (H.promise (S.pc i)) j S.trace
  served : ∀ {j v t}, S.pc j = .wait v t → num j < mark → Since (H.result (handedOver s S.node)) j S.trace
  past : ∀ {i r trace}, .ret i true r :: trace <:+ S.trace → Since (H.result r) i trace

theorem Since.imp {P Q : CallProp ι} {i : ι} {trace : List (Event ι)} (h : Since P i trace)
    (hQ : ∀ after v before, P after v before → Q after v before)
    : Since Q i trace := by
  obtain ⟨after, v, before, hsince, hP⟩ := h
  exact ⟨after, v, before, hsince, hQ after v before hP⟩

theorem wait_of_update {pcs : ι → Pc} {i j : ι} {pc : Pc} {v : Value} {t : BitVec 8}
    (h : Function.update pcs i pc j = .wait v t) (hpc : pc.waits = false)
    : j ≠ i ∧ pcs j = .wait v t := by
  rcases eq_or_ne j i with rfl | hne
  . rw [Function.update_self] at h
    rw [h] at hpc
    cases hpc
  . rw [Function.update_of_ne hne] at h
    exact ⟨hne, h⟩

namespace HandInv

variable {H : Handing ι} {s : Side} {k : Key} {S : State ι} {num : ι → Nat} {mark : Nat} {i : ι}
  {v : Value} {t : BitVec 8}

theorem init (H : Handing ι) (s : Side) (k : Key) (result : Option Value) (wcBuffer : Value)
    (record : Option Value) (num : ι → Nat)
    : HandInv H s k (State.init (.init result wcBuffer) record) num 0 where
  line := LineInv.init s k result wcBuffer record num
  called := nofun
  promise := nofun
  served := nofun
  past := by
    intro i r trace h
    cases List.suffix_nil.mp h

theorem arrive (h : HandInv H s k S num mark) (hok : H.Ok S) (hpc : S.pc i = .idle)
    : HandInv H s k (S.arrive s k i v) (Function.update num i S.taken) mark := by
  obtain ⟨pc, hnew, hline, hpcs, htrace, -, hhanded⟩ := arrive_spec (v := v) h.line hpc hok.1
  have hcalled : ∀ {j w t}, (S.arrive s k i v).pc j = .wait w t
      → Since (fun _ _ _ => True) j (S.arrive s k i v).trace := by
    intro j w t hj
    rw [htrace]
    rcases eq_or_ne j i with rfl | hne
    . exact Since.call trivial
    . rw [hpcs, Function.update_of_ne hne] at hj
      apply (h.called hj).cons
      . rintro _ ⟨⟩
        exact hne rfl
      . intros
        trivial
  constructor
  . exact hline
  . exact hcalled
  . intro l j w t hl hj
    apply (hcalled hj).imp
    intro after v' before _
    apply H.uncommitted
    rw [hpcs] at hl ⊢
    rcases eq_or_ne l i with rfl | hne
    . rw [Function.update_self] at hl ⊢
      rcases hnew with rfl | ⟨_, rfl⟩
      . exact H.fresh v
      . cases hl
    . rw [Function.update_of_ne hne]
      exact hok.2 l
  . intro j w t hj hlt
    rcases eq_or_ne j i with rfl | hne
    . rw [Function.update_self] at hlt
      have := h.line.line.mark_le
      omega
    . rw [hpcs, Function.update_of_ne hne] at hj
      rw [Function.update_of_ne hne] at hlt
      have heq : handedOver s (S.arrive s k i v).node = handedOver s S.node := by
        rw [handedOver, handedOver, show (S.arrive s k i v).node.result = S.node.result from
          congrArg Prod.fst hhanded]
      rw [htrace, heq]
      apply (h.served hj hlt).cons
      . rintro _ ⟨⟩
        exact hne rfl
      . intro after v before
        exact H.result_cons
  . intro j r trace hsuffix
    rw [htrace, List.suffix_cons_iff] at hsuffix
    rcases hsuffix with heq | hsuffix
    . cases heq
    . exact h.past hsuffix

theorem turn (h : HandInv H s k S num mark) (hpc : S.pc i = .wait v t)
    (hturn : t = (S.node.queue s).current)
    : HandInv H s k (S.turn s k i v) num mark := by
  obtain ⟨hline, -, hhanded, hcases⟩ := turn_spec h.line hpc hturn
  have heq := handedOver_congr (s := s) hhanded
  rcases hcases with ⟨-, hpcs, htrace⟩ | ⟨hlt, hpcs, htrace⟩
  . constructor
    . exact hline
    . intro j w t hj
      rw [hpcs] at hj
      rw [htrace]
      exact h.called (wait_of_update hj rfl).2
    . intro l j w t hl hj
      rw [hpcs] at hj
      have hj' := (wait_of_update hj rfl).2
      rw [hpcs] at hl ⊢
      rw [htrace]
      rcases eq_or_ne l i with rfl | hne
      . rw [Function.update_self]
        apply (h.called hj').imp
        intro after v' before _
        exact H.uncommitted (H.fresh v) after v' before
      . rw [Function.update_of_ne hne] at hl ⊢
        exact h.promise hl hj'
    . intro j w t hj hlt
      rw [hpcs] at hj
      rw [htrace, heq]
      exact h.served (wait_of_update hj rfl).2 hlt
    . rw [htrace]
      exact h.past
  . constructor
    . exact hline
    . intro j w t hj
      rw [hpcs] at hj
      rw [htrace]
      apply (h.called (wait_of_update hj rfl).2).cons (ret_ne_call _ _ _ _)
      intros
      trivial
    . intro l j w t hl hj
      rw [hpcs] at hj
      have hj' := (wait_of_update hj rfl).2
      rw [hpcs] at hl ⊢
      rw [htrace]
      rcases eq_or_ne l i with rfl | hne
      . rw [Function.update_self] at hl
        cases hl
      . rw [Function.update_of_ne hne] at hl ⊢
        apply (h.promise hl hj').cons (ret_ne_call _ _ _ _)
        intro after v before
        exact H.promise_cons
    . intro j w t hj hlt
      rw [hpcs] at hj
      rw [htrace, heq]
      apply (h.served (wait_of_update hj rfl).2 hlt).cons (ret_ne_call _ _ _ _)
      intro after v before
      exact H.result_cons
    . intro j r trace hsuffix
      rw [htrace, List.suffix_cons_iff] at hsuffix
      rcases hsuffix with hret | hsuffix
      . cases hret
        exact h.served hpc hlt
      . exact h.past hsuffix

theorem event {e : Event ι} (record : Option Value) (h : HandInv H s k S num mark)
    (hcall : ∀ i v, e ≠ .call i v) (hret : ∀ i r, e ≠ .ret i true r)
    : HandInv H s k { S with record := record, trace := e :: S.trace } num mark where
  line := h.line.congr rfl rfl rfl rfl rfl
  called := by
    intro j v t hj
    apply (h.called hj).cons (hcall j)
    intros
    trivial
  promise := by
    intro i j v t hi hj
    apply (h.promise hi hj).cons (hcall j)
    intro after v before
    exact H.promise_cons
  served := by
    intro j v t hj hlt
    apply (h.served hj hlt).cons (hcall j)
    intro after v before
    exact H.result_cons
  past := by
    intro i r trace hsuffix
    rw [List.suffix_cons_iff] at hsuffix
    rcases hsuffix with heq | hsuffix
    . cases heq
      exact absurd rfl (hret i r)
    . exact h.past hsuffix

theorem goto {pc : Pc} (h : HandInv H s k S num mark) (hi : (S.pc i).holds) (hholds : pc.holds)
    (hwaits : pc.waits = false) (hbare : pc.bare = false)
    (hpromise : ∀ {j v t}, S.pc j = .wait v t → Since (H.promise pc) j S.trace)
    : HandInv H s k (S.goto i pc) num mark where
  line := h.line.goto hi hholds hwaits hbare
  called := fun hj => h.called (wait_of_update hj hwaits).2
  promise := by
    intro l j v t hl hj
    have hj' := (wait_of_update hj hwaits).2
    rcases eq_or_ne l i with rfl | hne
    . rw [State.goto_pc_self]
      exact hpromise hj'
    . rw [State.goto_pc_of_ne S i pc hne] at hl ⊢
      exact h.promise hl hj'
  served := fun hj hlt => h.served (wait_of_update hj hwaits).2 hlt
  past := h.past

theorem leave (h : HandInv H s k S num mark) (hi : (S.pc i).holds) (r : Option Value)
    (hresult : ∀ after v before, H.promise (S.pc i) after v before
      → H.result (if s = .read then r else none) after v before)
    : HandInv H s k (S.leave s i true false r) num S.taken := by
  obtain ⟨hline, hpcs, htrace, -, hhanded⟩ := leave_spec h.line hi r
  have heq : handedOver s (S.leave s i true false r).node = if s = .read then r else none := by
    rw [handedOver, show (S.leave s i true false r).node.result = _ from congrArg Prod.fst hhanded]
    split <;> rfl
  constructor
  . exact hline
  . intro j v t hj
    rw [hpcs] at hj
    rw [htrace]
    apply (h.called (wait_of_update hj rfl).2).cons (ret_ne_call _ _ _ _)
    intros
    trivial
  . intro l j v t hl hj
    rw [hpcs] at hl
    rcases eq_or_ne l i with rfl | hne
    . rw [Function.update_self] at hl
      cases hl
    . rw [Function.update_of_ne hne] at hl
      exact absurd (h.line.holds_unique hi hl) hne
  . intro j v t hj _
    rw [hpcs] at hj
    rw [htrace, heq]
    apply (h.promise hi (wait_of_update hj rfl).2).cons (ret_ne_call _ _ _ _)
    intro after v before hpromise
    exact H.result_cons (hresult after v before hpromise)
  . intro j r trace hsuffix
    rw [htrace, List.suffix_cons_iff] at hsuffix
    rcases hsuffix with hret | hsuffix
    . cases hret
    . exact h.past hsuffix

end HandInv

section Combining

/-- The value `w` is the one of the call or was put into the buffer after it. -/
def Newer (w : Value) : CallProp ι := fun after v _ => w = v ∨ ∃ j, .call j w ∈ after

omit [DecidableEq ι] in
theorem newer_cons {w : Value} {e : Event ι} (after : List (Event ι)) (v : Value) (before : List (Event ι))
    (h : Newer w after v before)
    : Newer w (e :: after) v before := by
  rcases h with h | ⟨j, h⟩
  . exact .inl h
  . exact .inr ⟨j, List.mem_cons_of_mem e h⟩

/-- The value of the call, or one put into the buffer after it, was written to the record. -/
def Written : CallProp ι := fun after v _ =>
  ∃ later w earlier, after = later ++ .write w :: earlier ∧ (w = v ∨ ∃ j, .call j w ∈ earlier)

/-- An update takes its value out of the buffer before its WRITE. -/
def combining : Handing ι where
  committed
    | .write _ _ | .written _ => true
    | _ => false
  promise
    | .write w _ => Newer w
    | .written _ => Written
    | _ => fun _ _ _ => True
  result := fun _ => Written
  fresh := fun _ => rfl
  uncommitted := by
    intro pc h after v before
    cases pc with
    | write w held => cases h
    | written held => cases h
    | _ => trivial
  promise_cons := by
    intro pc e after v before h
    cases pc with
    | write w held => exact newer_cons after v before h
    | written held =>
      obtain ⟨later, w, earlier, rfl, h⟩ := h
      exact ⟨e :: later, w, earlier, rfl, h⟩
    | _ => trivial
  result_cons := by
    rintro - e after v before ⟨later, w, earlier, rfl, h⟩
    exact ⟨e :: later, w, earlier, rfl, h⟩

/-- An update that has not found its key. -/
def Pc.lost : Pc → Bool
  | .found _ _ none => true
  | _ => false

/-- The key stays stored, and all that wait have put their value into the buffer, or a later call. -/
structure CombineInv (k : Key) (S : State ι) : Prop where
  hand : ∃ num mark, HandInv combining .write k S num mark
  stored : S.record ≠ none
  found : ∀ i, (S.pc i).lost = false
  buffer : ∀ {j v t}, S.pc j = .wait v t → Since (Newer S.node.wcBuffer) j S.trace

variable {k : Key} {S : State ι} {i : ι} {v : Value} {t : BitVec 8} {held : Bool} {r : Option Value}

theorem found_update {pcs : ι → Pc} {pc : Pc} (h : ∀ j, (pcs j).lost = false) (hpc : pc.lost = false)
    : ∀ j, (Function.update pcs i pc j).lost = false := by
  intro j
  rcases eq_or_ne j i with rfl | hne
  . rw [Function.update_self]
    exact hpc
  . rw [Function.update_of_ne hne]
    exact h j

namespace CombineInv

theorem arrive (h : CombineInv k S) (hok : combining.Ok S) (hpc : S.pc i = .idle)
    : CombineInv k (S.arrive .write k i v) := by
  obtain ⟨num, mark, hhand⟩ := h.hand
  obtain ⟨pc, hnew, -, hpcs, htrace, hrecord, hhanded⟩ := arrive_spec (v := v) hhand.line hpc hok.1
  have hbuffer : (S.arrive .write k i v).node.wcBuffer = v := congrArg Prod.snd hhanded
  constructor
  . exact ⟨_, mark, hhand.arrive hok hpc⟩
  . rw [hrecord]
    exact h.stored
  . rw [hpcs]
    apply found_update h.found
    rcases hnew with rfl | ⟨_, rfl⟩ <;> rfl
  . intro j w t hj
    rw [hbuffer, htrace]
    rcases eq_or_ne j i with rfl | hne
    . exact Since.call (.inl rfl)
    . rw [hpcs, Function.update_of_ne hne] at hj
      apply (h.buffer hj).cons
      . rintro _ ⟨⟩
        exact hne rfl
      . intro after w before _
        exact .inr ⟨i, List.mem_cons_self⟩

theorem turn (h : CombineInv k S) (hpc : S.pc i = .wait v t) (hturn : t = (S.node.queue .write).current)
    : CombineInv k (S.turn .write k i v) := by
  obtain ⟨num, mark, hhand⟩ := h.hand
  obtain ⟨-, hrecord, hhanded, hcases⟩ := turn_spec hhand.line hpc hturn
  have hbuffer : (S.turn .write k i v).node.wcBuffer = S.node.wcBuffer := congrArg Prod.snd hhanded
  constructor
  . exact ⟨num, mark, hhand.turn hpc hturn⟩
  . rw [hrecord]
    exact h.stored
  . rcases hcases with ⟨-, hpcs, -⟩ | ⟨-, hpcs, -⟩
    . rw [hpcs]
      exact found_update h.found rfl
    . rw [hpcs]
      exact found_update h.found rfl
  . intro j w t hj
    rw [hbuffer]
    rcases hcases with ⟨-, hpcs, htrace⟩ | ⟨-, hpcs, htrace⟩
    . rw [hpcs] at hj
      rw [htrace]
      exact h.buffer (wait_of_update hj rfl).2
    . rw [hpcs] at hj
      rw [htrace]
      apply (h.buffer (wait_of_update hj rfl).2).cons (ret_ne_call _ _ _ _)
      exact newer_cons

theorem event {e : Event ι} {record : Option Value} (h : CombineInv k S) (hrecord : record ≠ none)
    (hcall : ∀ i v, e ≠ .call i v) (hret : ∀ i r, e ≠ .ret i true r)
    : CombineInv k { S with record := record, trace := e :: S.trace } := by
  obtain ⟨num, mark, hhand⟩ := h.hand
  refine ⟨⟨num, mark, hhand.event record hcall hret⟩, hrecord, h.found, ?_⟩
  intro j v t hj
  apply (h.buffer hj).cons (hcall j)
  exact newer_cons

theorem goto {pc : Pc} (h : CombineInv k S) (hi : (S.pc i).holds) (hholds : pc.holds)
    (hwaits : pc.waits = false) (hbare : pc.bare = false)
    (hfound : pc.lost = false)
    (hpromise : ∀ {j v t}, S.pc j = .wait v t → Since (combining.promise pc) j S.trace)
    : CombineInv k (S.goto i pc) := by
  obtain ⟨num, mark, hhand⟩ := h.hand
  constructor
  . exact ⟨num, mark, hhand.goto hi hholds hwaits hbare hpromise⟩
  . exact h.stored
  . exact found_update h.found hfound
  . intro j v t hj
    exact h.buffer (wait_of_update hj hwaits).2

theorem leave (h : CombineInv k S) (hpc : S.pc i = .written true)
    : CombineInv k (S.leave .write i true false none) := by
  obtain ⟨num, mark, hhand⟩ := h.hand
  have hi : (S.pc i).holds := by
    rw [hpc]
    rfl
  obtain ⟨-, hpcs, htrace, hrecord, hhanded⟩ := leave_spec hhand.line hi none
  have hbuffer : (S.leave .write i true false none).node.wcBuffer = S.node.wcBuffer :=
    congrArg Prod.snd hhanded
  constructor
  . refine ⟨num, S.taken, hhand.leave hi none ?_⟩
    intro after v before hpromise
    rw [hpc] at hpromise
    exact hpromise
  . rw [hrecord]
    exact h.stored
  . rw [hpcs]
    exact found_update h.found rfl
  . intro j v t hj
    rw [hpcs] at hj
    rw [hbuffer, htrace]
    apply (h.buffer (wait_of_update hj rfl).2).cons (ret_ne_call _ _ _ _)
    exact newer_cons

theorem isHeld (h : CombineInv k S) (hbare : (S.pc i).bare = !held) : held = true := by
  obtain ⟨num, mark, hhand⟩ := h.hand
  rw [hhand.line.bare i] at hbare
  simpa using hbare.symm

theorem getCombiningValue (h : CombineInv k S) (hi : (S.pc i).holds) (v : Value)
    : S.node.getCombiningValue k v = S.node.wcBuffer := by
  obtain ⟨num, mark, hhand⟩ := h.hand
  have hlt := (hhand.line.line.inside ⟨i, hi⟩).1
  rw [LocalLockNode.getCombiningValue, hhand.line.line.uniqueKey, if_pos hlt, if_pos rfl]

end CombineInv

theorem combineInv_of_run {record : Value} (h : Run .write k combining.Ok (some record) S)
    : CombineInv k S := by
  induction h with
  | init result wcBuffer =>
    exact ⟨⟨fun _ => 0, 0, HandInv.init _ _ k result wcBuffer _ _⟩, nofun, fun _ => rfl, nofun⟩
  | call i v _ hok hpc ih => exact ih.arrive hok hpc
  | wake i _ hpc hturn ih => exact ih.turn hpc hturn
  | @find S i v held _ hpc ih =>
    obtain rfl : held = true := ih.isHeld (i := i) (by rw [hpc]; rfl)
    apply ih.goto (by rw [hpc]; rfl) rfl rfl rfl
    . cases hrecord : S.record with
      | none => exact absurd hrecord ih.stored
      | some x => rfl
    . intro j w t hj
      obtain ⟨num, mark, hhand⟩ := ih.hand
      exact (hhand.called hj)
  | @resume S i v held r _ hpc ih =>
    obtain rfl : held = true := ih.isHeld (i := i) (by rw [hpc]; rfl)
    cases r with
    | none =>
      have := ih.found i
      rw [hpc] at this
      cases this
    | some x =>
      have hi : (S.pc i).holds := by
        rw [hpc]
        rfl
      show CombineInv k (S.goto i (.write (S.node.getCombiningValue k v) true))
      rw [ih.getCombiningValue hi]
      apply ih.goto hi rfl rfl rfl rfl
      exact ih.buffer
  | @write S i v held _ hpc ih =>
    obtain rfl : held = true := ih.isHeld (i := i) (by rw [hpc]; rfl)
    have hevent : CombineInv k { S with record := some v, trace := .write v :: S.trace } := by
      apply ih.event (Option.some_ne_none v)
      . intro i v h
        cases h
      . intro i r h
        cases h
    refine hevent.goto (i := i) (by rw [hpc]; rfl) rfl rfl rfl rfl ?_
    intro j w t hj
    obtain ⟨num, mark, hhand⟩ := ih.hand
    have hnewer := hhand.promise (i := i) (by rw [hpc]; rfl) hj
    rw [hpc] at hnewer
    apply hnewer.cons
    . intro v h
      cases h
    intro after w before hw
    exact ⟨[], v, after, rfl, hw⟩
  | @finish S i held _ hpc ih =>
    obtain rfl : held = true := ih.isHeld (i := i) (by rw [hpc]; rfl)
    exact ih.leave hpc
  | store r _ hkeep ih =>
    apply ih.event (hkeep ih.stored)
    . intro i v h
      cases h
    . intro i r h
      cases h

/--
If no update begins between the moment the holder of the lock takes the value out of the buffer and
its release, an update that gets the lock handed over was written, or a later one.
-/
theorem handed_update_written {record : Value} (h : Run .write k combining.Ok (some record) S)
    {trace : List (Event ι)} (hret : .ret i true r :: trace <:+ S.trace)
    : ∃ after v before, since i trace = some (after, v, before)
        ∧ ∃ later w earlier, after = later ++ .write w :: earlier
          ∧ (w = v ∨ ∃ j, .call j w ∈ earlier) := by
  obtain ⟨num, mark, hhand⟩ := (combineInv_of_run h).hand
  exact hhand.past hret

/-- Update 1 arrives while update 0 has the lock, which then writes the value of both. -/
theorem handed_update_written_second
    : ∃ (S : State (Fin 2)) (trace : List (Event (Fin 2))),
        Run .write (int2key 1) combining.Ok (some 0) S
          ∧ .ret 1 true none :: trace <:+ S.trace
          ∧ ∃ after v before, since 1 trace = some (after, v, before)
            ∧ ∃ later w earlier, after = later ++ .write w :: earlier
              ∧ (w = v ∨ ∃ j, .call j w ∈ earlier) := by
  have h0 : Run (ι := Fin 2) .write (int2key 1) combining.Ok (some 0) _ := .init none 0
  have h1 := h0.call 0 1 ⟨by decide, by decide⟩ rfl
  have h2 := h1.call 1 2 ⟨by decide +kernel, by decide +kernel⟩ rfl
  have h3 := h2.find 0 (rfl : _ = Pc.find 1 true)
  have h4 := h3.resume 0 (rfl : _ = Pc.found 1 true (some 0))
  have h5 := h4.write 0 (rfl : _ = Pc.write 2 true)
  have h6 := h5.finish 0 (rfl : _ = Pc.written true)
  have h7 := h6.wake 1 (v := 2) (t := 1) rfl rfl
  exact ⟨_, _, h7, List.suffix_refl _, handed_update_written h7 (List.suffix_refl _)⟩

/-- Update 1 arrives when update 0 has taken its value out of the buffer, and is never written. -/
theorem late_update_lost
    : ∃ (S : State (Fin 2)) (trace : List (Event (Fin 2))),
        Run .write (int2key 1) (fun _ => True) (some 0) S
          ∧ .ret 1 true none :: trace <:+ S.trace
          ∧ ¬∃ after v before, since 1 trace = some (after, v, before)
            ∧ ∃ later w earlier, after = later ++ .write w :: earlier
              ∧ (w = v ∨ ∃ j, .call j w ∈ earlier) := by
  have h0 : Run (ι := Fin 2) .write (int2key 1) (fun _ => True) (some 0) _ := .init none 0
  have h1 := h0.call 0 1 trivial rfl
  have h2 := h1.find 0 (rfl : _ = Pc.find 1 true)
  have h3 := h2.resume 0 (rfl : _ = Pc.found 1 true (some 0))
  have h4 := h3.call 1 2 trivial rfl
  have h5 := h4.write 0 (rfl : _ = Pc.write 1 true)
  have h6 := h5.finish 0 (rfl : _ = Pc.written true)
  have h7 := h6.wake 1 (v := 2) (t := 1) rfl rfl
  refine ⟨_, [.ret 0 false none, .write 1, .call 1 2, .call 0 1], h7, List.suffix_refl _, ?_⟩
  rintro ⟨after, v, before, hsince, later, w, earlier, hafter, hw⟩
  have heq : some ([.ret 0 false none, .write 1], 2, [.call 0 1]) = some (after, v, before) := hsince
  cases heq
  have hmem : Event.write w ∈ later ++ Event.write w :: earlier := by simp
  have hsub : ∀ j, .call j w ∈ earlier → Event.call j w ∈ later ++ Event.write w :: earlier := by
    intro j hj
    simp [hj]
  rw [← hafter] at hmem
  simp only [← hafter] at hsub
  obtain rfl : w = 1 := by simpa using hmem
  rcases hw with hw | ⟨j, hj⟩
  . exact absurd hw (by decide)
  . simpa using hsub j hj

end Combining

section Delegation

/-- The record had the content `r` at some moment after the call. -/
def Seen (record r : Option Value) : CallProp ι := fun after _ before =>
  ∃ later earlier, after = later ++ earlier ∧ content record (earlier ++ before) = r

omit [DecidableEq ι] in
theorem seen_cons {record r : Option Value} {e : Event ι} (after : List (Event ι)) (v : Value)
    (before : List (Event ι)) (h : Seen record r after v before)
    : Seen record r (e :: after) v before := by
  obtain ⟨later, earlier, rfl, h⟩ := h
  exact ⟨e :: later, earlier, rfl, h⟩

/-- A search hands over what its READ gave. -/
def delegation (record : Option Value) : Handing ι where
  committed
    | .found _ _ _ => true
    | _ => false
  promise
    | .found _ _ r => Seen record r
    | _ => fun _ _ _ => True
  result := Seen record
  fresh := fun _ => rfl
  uncommitted := by
    intro pc h after v before
    cases pc with
    | found v held r => cases h
    | _ => trivial
  promise_cons := by
    intro pc e after v before h
    cases pc with
    | found w held r => exact seen_cons after v before h
    | _ => trivial
  result_cons := seen_cons _ _ _

variable {k : Key} {S : State ι} {i : ι} {v : Value} {t : BitVec 8} {held : Bool} {r record : Option Value}

theorem eq_of_since {trace after before : List (Event ι)} (h : since i trace = some (after, v, before))
    : trace = after ++ .call i v :: before := by
  induction trace generalizing after with
  | nil => cases h
  | cons e trace ih =>
    by_cases hcall : ∃ w, e = .call i w
    . obtain ⟨w, rfl⟩ := hcall
      rw [since_call] at h
      cases h
      rfl
    . rw [since_cons_of_ne (fun w hw => hcall ⟨w, hw⟩), Option.map_eq_some_iff] at h
      obtain ⟨⟨after', v', before'⟩, hsince, heq⟩ := h
      cases heq
      rw [ih hsince]
      rfl

omit [DecidableEq ι] in
theorem content_call (after : List (Event ι)) (v : Value) (before : List (Event ι))
    : content record (after ++ .call i v :: before) = content record (after ++ before) := by
  induction after with
  | nil => rfl
  | cons e after ih =>
    cases e with
    | call j w => exact ih
    | write w => rfl
    | store r => rfl
    | ret j handover r => exact ih

theorem Since.seen {trace : List (Event ι)} (h : Since (fun _ _ _ => True) i trace)
    : Since (Seen record (content record trace)) i trace := by
  obtain ⟨after, v, before, hsince, -⟩ := h
  refine ⟨after, v, before, hsince, [], after, rfl, ?_⟩
  rw [eq_of_since hsince, content_call]

/-- A search writes nothing. -/
def Pc.writes : Pc → Bool
  | .write _ _ | .written _ => true
  | _ => false

structure DelegateInv (record : Option Value) (k : Key) (S : State ι) : Prop where
  hand : ∃ num mark, HandInv (delegation record) .read k S num mark
  content : S.record = content record S.trace
  reads : ∀ i, (S.pc i).writes = false

theorem reads_update {pcs : ι → Pc} {pc : Pc} (h : ∀ j, (pcs j).writes = false) (hpc : pc.writes = false)
    : ∀ j, (Function.update pcs i pc j).writes = false := by
  intro j
  rcases eq_or_ne j i with rfl | hne
  . rw [Function.update_self]
    exact hpc
  . rw [Function.update_of_ne hne]
    exact h j

namespace DelegateInv

theorem arrive (h : DelegateInv record k S) (hok : (delegation record).Ok S) (hpc : S.pc i = .idle)
    : DelegateInv record k (S.arrive .read k i v) := by
  obtain ⟨num, mark, hhand⟩ := h.hand
  obtain ⟨pc, hnew, -, hpcs, htrace, hrecord, -⟩ := arrive_spec (v := v) hhand.line hpc hok.1
  constructor
  . exact ⟨_, mark, hhand.arrive hok hpc⟩
  . rw [hrecord, htrace, h.content]
    rfl
  . rw [hpcs]
    apply reads_update h.reads
    rcases hnew with rfl | ⟨_, rfl⟩ <;> rfl

theorem turn (h : DelegateInv record k S) (hpc : S.pc i = .wait v t)
    (hturn : t = (S.node.queue .read).current)
    : DelegateInv record k (S.turn .read k i v) := by
  obtain ⟨num, mark, hhand⟩ := h.hand
  obtain ⟨-, hrecord, -, hcases⟩ := turn_spec hhand.line hpc hturn
  refine ⟨⟨num, mark, hhand.turn hpc hturn⟩, ?_, ?_⟩
  . rw [hrecord, h.content]
    rcases hcases with ⟨-, -, htrace⟩ | ⟨-, -, htrace⟩
    . rw [htrace]
    . rw [htrace]
      rfl
  . rcases hcases with ⟨-, hpcs, -⟩ | ⟨-, hpcs, -⟩
    . rw [hpcs]
      exact reads_update h.reads rfl
    . rw [hpcs]
      exact reads_update h.reads rfl

theorem find (h : DelegateInv record k S) (hpc : S.pc i = .find v true)
    : DelegateInv record k (S.goto i (.found v true S.record)) := by
  obtain ⟨num, mark, hhand⟩ := h.hand
  refine ⟨⟨num, mark, ?_⟩, h.content, reads_update h.reads rfl⟩
  apply hhand.goto (by rw [hpc]; rfl) rfl rfl rfl
  intro j w t hj
  rw [h.content]
  exact (hhand.called hj).seen

theorem leave (h : DelegateInv record k S) (hpc : S.pc i = .found v true r)
    : DelegateInv record k (S.leave .read i true false r) := by
  obtain ⟨num, mark, hhand⟩ := h.hand
  have hi : (S.pc i).holds := by
    rw [hpc]
    rfl
  obtain ⟨-, hpcs, htrace, hrecord, -⟩ := leave_spec hhand.line hi r
  constructor
  . refine ⟨num, S.taken, hhand.leave hi r ?_⟩
    intro after v before hpromise
    rw [hpc] at hpromise
    exact hpromise
  . rw [hrecord, htrace, h.content]
    rfl
  . rw [hpcs]
    exact reads_update h.reads rfl

theorem store (h : DelegateInv record k S) (r : Option Value)
    : DelegateInv record k { S with record := r, trace := .store r :: S.trace } := by
  obtain ⟨num, mark, hhand⟩ := h.hand
  refine ⟨⟨num, mark, ?_⟩, rfl, h.reads⟩
  apply hhand.event
  . intro i v heq
    cases heq
  . intro i r heq
    cases heq

theorem isHeld (h : DelegateInv record k S) (hbare : (S.pc i).bare = !held) : held = true := by
  obtain ⟨num, mark, hhand⟩ := h.hand
  rw [hhand.line.bare i] at hbare
  simpa using hbare.symm

end DelegateInv

theorem delegateInv_of_run (h : Run .read k (delegation record).Ok record S) : DelegateInv record k S := by
  induction h with
  | init result wcBuffer =>
    exact ⟨⟨fun _ => 0, 0, HandInv.init _ _ k result wcBuffer _ _⟩, rfl, fun _ => rfl⟩
  | call i v _ hok hpc ih => exact ih.arrive hok hpc
  | wake i _ hpc hturn ih => exact ih.turn hpc hturn
  | @find S i v held _ hpc ih =>
    obtain rfl : held = true := ih.isHeld (i := i) (by rw [hpc]; rfl)
    exact ih.find hpc
  | @resume S i v held r _ hpc ih =>
    obtain rfl : held = true := ih.isHeld (i := i) (by rw [hpc]; rfl)
    exact ih.leave hpc
  | write i _ hpc ih =>
    have := ih.reads i
    rw [hpc] at this
    cases this
  | finish i _ hpc ih =>
    have := ih.reads i
    rw [hpc] at this
    cases this
  | store r _ _ ih => exact ih.store r

/--
If no search begins between the READ of the holder of the lock and its release, a search that gets
the lock handed over returns what the record contained at some moment between its call and its return.
-/
theorem handed_search_current (h : Run .read k (delegation record).Ok record S)
    {trace : List (Event ι)} (hret : .ret i true r :: trace <:+ S.trace)
    : ∃ after v before, since i trace = some (after, v, before)
        ∧ ∃ later earlier, after = later ++ earlier ∧ content record (earlier ++ before) = r := by
  obtain ⟨num, mark, hhand⟩ := (delegateInv_of_run h).hand
  exact hhand.past hret

/-- Search 1 arrives before the READ of search 0, which comes after the write of another client. -/
theorem handed_search_current_second
    : ∃ (S : State (Fin 2)) (trace : List (Event (Fin 2))),
        Run .read (int2key 1) (delegation (some 0)).Ok (some 0) S
          ∧ .ret 1 true (some 5) :: trace <:+ S.trace
          ∧ ∃ after v before, since 1 trace = some (after, v, before)
            ∧ ∃ later earlier, after = later ++ earlier
              ∧ content (some 0) (earlier ++ before) = some 5 := by
  have h0 : Run (ι := Fin 2) .read (int2key 1) (delegation (some 0)).Ok (some 0) _ := .init none 0
  have h1 := h0.call 0 0 ⟨by decide, by decide⟩ rfl
  have h2 := h1.call 1 0 ⟨by decide +kernel, by decide +kernel⟩ rfl
  have h3 := h2.store (some 5) (fun _ => Option.some_ne_none 5)
  have h4 := h3.find 0 (rfl : _ = Pc.find 0 true)
  have h5 := h4.resume 0 (rfl : _ = Pc.found 0 true (some 5))
  have h6 := h5.wake 1 (v := 0) (t := 1) rfl rfl
  exact ⟨_, _, h6, List.suffix_refl _, handed_search_current h6 (List.suffix_refl _)⟩

/-- Search 1 arrives when the result of the READ of search 0 has been overwritten, and returns it. -/
theorem late_search_stale
    : ∃ (S : State (Fin 2)) (trace : List (Event (Fin 2))),
        Run .read (int2key 1) (fun _ => True) (some 0) S
          ∧ .ret 1 true (some 0) :: trace <:+ S.trace
          ∧ ¬∃ after v before, since 1 trace = some (after, v, before)
            ∧ ∃ later earlier, after = later ++ earlier
              ∧ content (some 0) (earlier ++ before) = some 0 := by
  have h0 : Run (ι := Fin 2) .read (int2key 1) (fun _ => True) (some 0) _ := .init none 0
  have h1 := h0.call 0 0 trivial rfl
  have h2 := h1.find 0 (rfl : _ = Pc.find 0 true)
  have h3 := h2.store (some 5) (fun _ => Option.some_ne_none 5)
  have h4 := h3.call 1 0 trivial rfl
  have h5 := h4.resume 0 (rfl : _ = Pc.found 0 true (some 0))
  have h6 := h5.wake 1 (v := 0) (t := 1) rfl rfl
  refine ⟨_, [.ret 0 false (some 0), .call 1 0, .store (some 5), .call 0 0], h6, List.suffix_refl _, ?_⟩
  rintro ⟨after, v, before, hsince, later, earlier, hafter, hcontent⟩
  have heq : some ([.ret 0 false (some 0)], 0, [.store (some 5), .call 0 0]) = some (after, v, before) := hsince
  cases heq
  have hearlier : earlier = [.ret 0 false (some 0)] ∨ earlier = [] := by
    rcases List.suffix_cons_iff.mp ⟨later, hafter.symm⟩ with h | h
    . exact .inl h
    . exact .inr (List.suffix_nil.mp h)
  have hfive : content (some 0) (earlier ++ [.store (some 5), .call 0 0]) = some 5 := by
    rcases hearlier with rfl | rfl <;> rfl
  rw [hfive] at hcontent
  exact absurd hcontent (by decide)

end Delegation

end Coroutine

end Rolex
