import Rolex.LocalLock.Node

/-!
This module contains one waiting queue of a lock node between two switches of coroutines, while the
other queue of the node is not in use: who arrives, who gets the lock handed over and what a release
leaves behind.
-/

namespace Rolex

/-- What the holders hand over. -/
def LocalLockNode.handed (node : LocalLockNode) : Option Value × Value := (node.result, node.wcBuffer)

namespace LocalLockNode

variable (node : LocalLockNode) (s : Side)

theorem casKey_handed (k : Key) : (node.casKey s k).2.handed = node.handed := by
  unfold casKey
  split <;> rfl

theorem leaveWindow_handed : (node.leaveWindow s).handed = node.handed := by
  unfold leaveWindow
  split
  . rfl
  . dsimp only
    split <;> rfl

theorem startWindow_handed (ticket current : BitVec 8)
    : (node.startWindow s ticket current).handed = node.handed := by
  unfold startWindow
  split <;> rfl

theorem release_handed : (node.release s).handed = node.handed := by
  unfold release
  exact (leaveWindow_handed _ s).trans (startWindow_handed node s _ _)

end LocalLockNode

/--
The node when the tickets from `left` up to `taken` are out, the last window covers the tickets below
`mark`, and `busy` says whether somebody is inside who did not get the lock handed over.
-/
structure WaitingLine (s : Side) (k : Key) (node : LocalLockNode) (left taken mark : Nat) (busy : Prop)
    : Prop where
  ticket : (node.queue s).ticket = BitVec.ofNat 8 taken
  current : (node.queue s).current = BitVec.ofNat 8 left
  le : left ≤ taken
  few : taken - left ≤ 255
  mark_le : mark ≤ taken
  uniqueKey : (node.queue s).uniqueKey = if left < taken then some k else none
  window : (node.queue s).window = BitVec.ofNat 8 (mark - left)
  start : node.windowStart = decide (left < mark)
  handover : (node.queue s).handover = true ↔ left < taken ∧ ¬busy
  other : node.queue s.other = .init
  inside : busy → left < taken ∧ mark ≤ left

namespace WaitingLine

variable {s : Side} {k : Key} {node : LocalLockNode} {left taken mark n : Nat} {busy : Prop}

theorem init (s : Side) (k : Key) (result : Option Value) (wcBuffer : Value)
    : WaitingLine s k (.init result wcBuffer) 0 0 0 False where
  ticket := rfl
  current := rfl
  le := Nat.le_refl 0
  few := Nat.zero_le _
  mark_le := Nat.le_refl 0
  uniqueKey := rfl
  window := rfl
  start := rfl
  handover := by
    constructor
    . intro h
      cases h
    . intro h
      omega
  other := rfl
  inside := False.elim

theorem congr {node' : LocalLockNode} (h : WaitingLine s k node left taken mark busy)
    (hqueue : node'.queue = node.queue) (hstart : node'.windowStart = node.windowStart)
    : WaitingLine s k node' left taken mark busy := by
  obtain ⟨h1, h2, h3, h4, h5, h6, h7, h8, h9, h10, h11⟩ := h
  constructor <;> (try rw [hqueue]) <;> (try rw [hstart]) <;> assumption

theorem setQueue_self (node : LocalLockNode) (s : Side) (q : WaitQueue)
    : (node.setQueue s q).queue s = q := Function.update_self _ _ _

theorem setQueue_other (node : LocalLockNode) (s : Side) (q : WaitQueue)
    : (node.setQueue s q).queue s.other = node.queue s.other :=
  Function.update_of_ne s.other_ne _ _

theorem casKey (h : WaitingLine s k node left taken mark busy)
    : (node.casKey s k).1 = true
        ∧ (node.casKey s k).2.queue s = { node.queue s with uniqueKey := some k }
        ∧ (node.casKey s k).2.queue s.other = node.queue s.other
        ∧ (node.casKey s k).2.windowStart = node.windowStart := by
  have hkey := h.uniqueKey
  unfold LocalLockNode.casKey
  split at hkey
  . have heq : { node.queue s with uniqueKey := some k } = node.queue s := by rw [← hkey]
    rw [hkey, heq]
    exact ⟨by simp, rfl, rfl, rfl⟩
  . rw [hkey]
    exact ⟨rfl, setQueue_self _ _ _, setQueue_other _ _ _, rfl⟩

section Arrive

variable {node' : LocalLockNode} (h : WaitingLine s k node left taken mark busy)
  (hself : node'.queue s = { node.queue s with
    uniqueKey := some k
    ticket := (node.queue s).ticket + 1 })
  (hother : node'.queue s.other = node.queue s.other) (hstart : node'.windowStart = node.windowStart)

include h hself hother hstart

theorem join (hroom : taken - left < 255) (hlt : left < taken) : WaitingLine s k node' left (taken + 1) mark busy where
  ticket := by
    rw [hself]
    dsimp only
    rw [h.ticket, BitVec.ofNat_add]
    rfl
  current := by
    rw [hself]
    exact h.current
  le := by omega
  few := by omega
  mark_le := by
    have := h.mark_le
    omega
  uniqueKey := by
    rw [hself, if_pos (by omega)]
  window := by
    rw [hself]
    exact h.window
  start := hstart.trans h.start
  handover := by
    rw [hself]
    refine h.handover.trans ?_
    constructor
    . rintro ⟨-, hbusy⟩
      exact ⟨by omega, hbusy⟩
    . rintro ⟨-, hbusy⟩
      exact ⟨hlt, hbusy⟩
  other := hother.trans h.other
  inside := by
    intro hbusy
    have := h.inside hbusy
    omega

theorem joinEmpty (heq : left = taken)
    : node'.enter s = (false, node'.setQueue s { node'.queue s with handover := false })
        ∧ WaitingLine s k (node'.setQueue s { node'.queue s with handover := false }) left (taken + 1) mark True := by
  have hmark := h.mark_le
  have hwindow : (node'.queue s).window = 0 := by
    rw [hself]
    dsimp only
    rw [h.window, show mark - left = 0 by omega]
    rfl
  constructor
  . unfold LocalLockNode.enter
    dsimp only
    rw [if_pos hwindow, setQueue_self]
  . constructor
    . rw [setQueue_self, hself]
      dsimp only
      rw [h.ticket, BitVec.ofNat_add]
      rfl
    . rw [setQueue_self, hself]
      exact h.current
    . omega
    . omega
    . omega
    . rw [setQueue_self, hself, if_pos (by omega)]
    . rw [setQueue_self]
      dsimp only
      rw [hwindow, show mark - left = 0 by omega]
      rfl
    . exact hstart.trans h.start
    . rw [setQueue_self]
      simp
    . rw [setQueue_other]
      exact hother.trans h.other
    . intro _
      omega

end Arrive

theorem win (h : WaitingLine s k node left taken mark busy) (hlt : left < taken) (hmark : mark ≤ left)
    : node.enter s = (false, node.setQueue s { node.queue s with handover := false })
        ∧ WaitingLine s k (node.setQueue s { node.queue s with handover := false }) left taken mark True := by
  have hwindow : (node.queue s).window = 0 := by
    rw [h.window, show mark - left = 0 by omega]
    rfl
  constructor
  . unfold LocalLockNode.enter
    dsimp only
    rw [if_pos hwindow, setQueue_self]
  . constructor
    . rw [setQueue_self]
      exact h.ticket
    . rw [setQueue_self]
      exact h.current
    . omega
    . exact h.few
    . omega
    . rw [setQueue_self]
      exact h.uniqueKey
    . rw [setQueue_self]
      exact h.window
    . exact h.start
    . rw [setQueue_self]
      simp
    . rw [setQueue_other]
      exact h.other
    . exact fun _ => ⟨hlt, hmark⟩

theorem window_ne_zero (h : WaitingLine s k node left taken mark busy) (hmark : left < mark)
    : (node.queue s).window ≠ 0 := by
  have hle := h.mark_le
  have hfew := h.few
  rw [h.window]
  intro hzero
  have := congrArg BitVec.toNat hzero
  simp only [BitVec.ofNat_eq_ofNat, BitVec.toNat_ofNat] at this
  omega

theorem lose (h : WaitingLine s k node left taken mark busy) (hmark : left < mark) (hbusy : ¬busy)
    : node.enter s = (true, node) := by
  have hle := h.mark_le
  unfold LocalLockNode.enter
  dsimp only
  rw [if_neg (h.window_ne_zero hmark), h.handover.mpr ⟨by omega, hbusy⟩]

theorem succ_ne (h : WaitingLine s k node left taken mark busy) (hlt : left < taken)
    : (node.queue s).ticket ≠ (node.queue s).current + 1 ↔ left + 1 < taken := by
  have hfew := h.few
  rw [h.ticket, h.current, ← not_iff_not, not_not]
  constructor
  . intro heq
    have := congrArg BitVec.toNat heq
    simp only [BitVec.ofNat_eq_ofNat, BitVec.toNat_ofNat, BitVec.toNat_add] at this
    omega
  . intro heq
    rw [show taken = left + 1 by omega, BitVec.ofNat_add]
    rfl

theorem leaveWindow (hother : node.queue s.other = .init) (hwindow : (node.queue s).window ≠ 0)
    : (node.leaveWindow s).queue s = { node.queue s with window := (node.queue s).window - 1 }
        ∧ (node.leaveWindow s).queue s.other = .init
        ∧ (node.leaveWindow s).windowStart
          = (node.windowStart && decide ((node.queue s).window - 1 ≠ 0)) := by
  have hself := setQueue_self node s { node.queue s with window := (node.queue s).window - 1 }
  have hsame := setQueue_other node s { node.queue s with window := (node.queue s).window - 1 }
  rw [hother] at hsame
  unfold LocalLockNode.leaveWindow
  rw [if_neg hwindow]
  dsimp only
  split
  . next hzero =>
    refine ⟨hself, hsame, ?_⟩
    rw [hself] at hzero
    have hone : (node.queue s).window - 1 = 0 := hzero.1
    rw [decide_eq_false (fun hne => hne hone), Bool.and_false]
  . next hzero =>
    refine ⟨hself, hsame, ?_⟩
    rw [hself, hsame] at hzero
    have hone : (node.queue s).window - 1 ≠ 0 := fun hone => hzero ⟨hone, rfl⟩
    rw [decide_eq_true hone, Bool.and_true]
    rfl

theorem sub_one (h : 0 < n) (hn : n ≤ 255) : BitVec.ofNat 8 n - 1 = BitVec.ofNat 8 (n - 1) := by
  apply BitVec.eq_of_toNat_eq
  simp only [BitVec.toNat_sub, BitVec.ofNat_eq_ofNat, BitVec.toNat_ofNat]
  omega

theorem ofNat_eq_zero_iff (hn : n ≤ 255) : BitVec.ofNat 8 n = 0 ↔ n = 0 := by
  constructor
  . intro h
    have := congrArg BitVec.toNat h
    simp only [BitVec.ofNat_eq_ofNat, BitVec.toNat_ofNat] at this
    omega
  . rintro rfl
    rfl

/-- The part of a release behind the start of a window that covers the tickets below `mark`. -/
theorem release_rest (hticket : (node.queue s).ticket = BitVec.ofNat 8 taken)
    (hcurrent : (node.queue s).current = BitVec.ofNat 8 left) (hfew : taken - left ≤ 255)
    (hkey : (node.queue s).uniqueKey = some k)
    (hwindow : (node.queue s).window = BitVec.ofNat 8 (mark - left)) (hmark : left < mark)
    (hle : mark ≤ taken) (hstart : node.windowStart = true) (hother : node.queue s.other = .init)
    (hsucc : (node.queue s).ticket ≠ (node.queue s).current + 1 ↔ left + 1 < taken)
    : WaitingLine s k (((node.setHandover s (node.queue s).ticket (node.queue s).current).leaveWindow s).advance s)
        (left + 1) taken mark False := by
  generalize hnode : node.setHandover s (node.queue s).ticket (node.queue s).current = node'
  have hself : node'.queue s = { node.queue s with
      handover := decide (left + 1 < taken)
      uniqueKey := if left + 1 < taken then some k else none } := by
    rw [← hnode, LocalLockNode.setHandover, setQueue_self, hkey]
    simp only [hsucc, decide_eq_true_eq]
  have hother' : node'.queue s.other = .init := by
    rw [← hnode, LocalLockNode.setHandover, setQueue_other, hother]
  have hstart' : node'.windowStart = true := by
    rw [← hnode]
    exact hstart
  have hne : (node'.queue s).window ≠ 0 := by
    rw [hself]
    dsimp only
    rw [hwindow, Ne, ofNat_eq_zero_iff (by omega)]
    omega
  have hdec : (node'.queue s).window - 1 = BitVec.ofNat 8 (mark - (left + 1)) := by
    rw [hself]
    dsimp only
    rw [hwindow, sub_one (by omega) (by omega), Nat.sub_sub]
  obtain ⟨hleave, hleave', hwindowStart⟩ := leaveWindow hother' hne
  rw [hdec] at hleave hwindowStart
  rw [hself] at hleave
  have hqueue := setQueue_self (node'.leaveWindow s) s
    { (node'.leaveWindow s).queue s with current := ((node'.leaveWindow s).queue s).current + 1 }
  have hqueue' := setQueue_other (node'.leaveWindow s) s
    { (node'.leaveWindow s).queue s with current := ((node'.leaveWindow s).queue s).current + 1 }
  rw [hleave'] at hqueue'
  rw [hleave] at hqueue
  unfold LocalLockNode.advance
  rw [hleave] at hqueue' ⊢
  constructor
  . rw [hqueue]
    exact hticket
  . rw [hqueue]
    dsimp only
    rw [hcurrent, BitVec.ofNat_add]
    rfl
  . omega
  . omega
  . omega
  . rw [hqueue]
  . rw [hqueue]
  . show (node'.leaveWindow s).windowStart = _
    rw [hwindowStart, hstart', Bool.true_and, decide_eq_decide, Ne, ofNat_eq_zero_iff (by omega)]
    omega
  . rw [hqueue]
    simp
  . exact hqueue'
  . exact False.elim

theorem release_loser (h : WaitingLine s k node left taken mark busy) (hmark : left < mark) (hbusy : ¬busy)
    : WaitingLine s k (node.release s) (left + 1) taken mark False := by
  have hle := h.mark_le
  have hhandover := h.handover.mpr ⟨by omega, hbusy⟩
  unfold LocalLockNode.release
  dsimp only
  rw [LocalLockNode.startWindow, if_neg (by rw [hhandover]; rintro ⟨hf, -⟩; cases hf)]
  apply release_rest h.ticket h.current h.few _ h.window hmark hle _ h.other (h.succ_ne (by omega))
  . rw [h.uniqueKey, if_pos (by omega)]
  . rw [h.start]
    exact decide_eq_true hmark

/-- A winner begins a window of all that wait when it releases the lock. -/
theorem release_winner (h : WaitingLine s k node left taken mark busy) (hbusy : busy)
    : WaitingLine s k (node.release s) (left + 1) taken taken False := by
  obtain ⟨hlt, hmark⟩ := h.inside hbusy
  have hfew := h.few
  have hhandover : (node.queue s).handover = false := by
    rw [Bool.eq_false_iff, Ne, h.handover]
    exact fun hand => hand.2 hbusy
  have hwindowStart : node.windowStart = false := by
    rw [h.start]
    exact decide_eq_false (by omega)
  have hsize : windowSize (node.queue s).ticket (node.queue s).current = BitVec.ofNat 8 (taken - left) := by
    rw [h.ticket, h.current]
    apply BitVec.eq_of_toNat_eq
    simp only [windowSize, BitVec.toNat_ofNat]
    omega
  generalize hnode : node.startWindow s (node.queue s).ticket (node.queue s).current = node'
  have hself : node'.queue s = { node.queue s with window := BitVec.ofNat 8 (taken - left) } := by
    rw [← hnode, LocalLockNode.startWindow, if_pos ⟨hhandover, hwindowStart⟩, hsize]
    exact (Function.update_of_ne s.other_ne.symm _ _).trans (setQueue_self _ _ _)
  have hother : node'.queue s.other = .init := by
    rw [← hnode, LocalLockNode.startWindow, if_pos ⟨hhandover, hwindowStart⟩]
    dsimp only
    rw [setQueue_self, setQueue_other]
    dsimp only
    rw [h.other]
    rfl
  have hstart : node'.windowStart = true := by
    rw [← hnode, LocalLockNode.startWindow, if_pos ⟨hhandover, hwindowStart⟩]
    rfl
  have hrest : WaitingLine s k (((node'.setHandover s (node'.queue s).ticket (node'.queue s).current).leaveWindow
      s).advance s) (left + 1) taken taken False := by
    apply release_rest _ _ hfew _ _ hlt (Nat.le_refl _) hstart hother
    . rw [hself]
      exact h.succ_ne hlt
    . rw [hself]
      exact h.ticket
    . rw [hself]
      exact h.current
    . rw [hself]
      dsimp only
      rw [h.uniqueKey, if_pos hlt]
    . rw [hself]
  rw [hself] at hrest
  unfold LocalLockNode.release
  dsimp only
  rw [hnode]
  exact hrest

end WaitingLine

end Rolex
