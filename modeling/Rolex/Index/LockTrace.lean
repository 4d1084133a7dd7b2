import Rolex.Lib.System
import Rolex.Index.Search

/-!
This module contains the locks of the leaves as they appear in the operations of any number of
clients: who holds a lock, which operations respect it, and the invariant that every operation of a
client keeps as long as the client holds the lock of the group that it writes.
-/

namespace Rolex

abbrev IndexEvent (ι : Type) := Event ι Call Op Op.Res

abbrev IndexWorld (ι : Type) := World ι Call Op Op.Res (Mem ι)

inductive LockOp where
  | acquired (addr : GlobalAddress) (lockWord : BitVec 64)
  | released (addr : GlobalAddress) (lockWord : BitVec 64)
  deriving DecidableEq

def LockOp.addr : LockOp → GlobalAddress
  | .acquired addr _ => addr
  | .released addr _ => addr

/-- What an operation with the given result does to a lock. -/
def lockOp : (o : Op) → o.Res → Option LockOp
  | .casMask a equal _ compareMask _, old =>
    if equal &&& compareMask = old &&& compareMask then some (.acquired a old) else none
  | .writeLock a w, _ => some (.released a w)
  | .read _, _ => none
  | .write _ _, _ => none
  | .alloc _, _ => none

def lockStep (a : GlobalAddress) (h : Option (BitVec 64)) : Option LockOp → Option (BitVec 64)
  | some (.acquired b w) => if b = a then some w else h
  | some (.released b _) => if b = a then none else h
  | none => h

section

variable {ι : Type} [DecidableEq ι]

/--
The lock word that client `i` fetched when it last locked the leaf at `a`, `none` when it has released
the lock since. Only the operations of `i` itself matter.
-/
def held (a : GlobalAddress) (i : ι) (trace : List (IndexEvent ι)) : Option (BitVec 64) :=
  (trace.filter (fun e => e.who = i)).foldl (fun h e => lockStep a h (lockOp e.op e.res)) none

omit [DecidableEq ι] in
/-- The call that an operation completes on the leaf at `a`: the one that releases its lock. -/
def commitOf (a : GlobalAddress) (e : IndexEvent ι) : Option Call :=
  match lockOp e.op e.res with
  | some (.released b _) => if b = a then some e.call else none
  | _ => none

omit [DecidableEq ι] in
/-- The calls that have changed the leaf at `a` and its synonym leaf, in the order of their ends. -/
def commits (a : GlobalAddress) (trace : List (IndexEvent ι)) : List Call :=
  trace.filterMap (commitOf a)

/-- The memory after the operations of a trace. -/
def replay (m : Mem ι) (trace : List (IndexEvent ι)) : Mem ι :=
  trace.foldl (fun m e => (exec e.who e.op m).2) m

theorem held_append (a : GlobalAddress) (i : ι) (trace : List (IndexEvent ι)) (e : IndexEvent ι)
    : held a i (trace ++ [e])
        =
      if e.who = i then lockStep a (held a i trace) (lockOp e.op e.res) else held a i trace := by
  unfold held
  rw [List.filter_append, List.foldl_append]
  split
  . next h => simp [h]
  . next h => simp [h]

omit [DecidableEq ι] in
theorem commits_append (a : GlobalAddress) (trace : List (IndexEvent ι)) (e : IndexEvent ι)
    : commits a (trace ++ [e]) = commits a trace ++ (commitOf a e).toList := by
  unfold commits
  rw [List.filterMap_append]
  cases h : commitOf a e with
  | none => simp [h]
  | some c => simp [h]

theorem replay_append (m : Mem ι) (trace : List (IndexEvent ι)) (e : IndexEvent ι)
    : replay m (trace ++ [e]) = (exec e.who e.op (replay m trace)).2 := by
  simp [replay]

/-- The operation does not touch the lock of the leaf at `a`. -/
def Spares (a : GlobalAddress) (e : IndexEvent ι) : Prop :=
  ∀ l, lockOp e.op e.res = some l → l.addr ≠ a

theorem Spares.held_append {a : GlobalAddress} {e : IndexEvent ι} (h : Spares a e) (i : ι)
    (trace : List (IndexEvent ι))
    : held a i (trace ++ [e]) = held a i trace := by
  rw [Rolex.held_append]
  split
  . cases hl : lockOp e.op e.res with
    | none => rfl
    | some l =>
      have hne := h l hl
      cases l with
      | acquired b w => exact if_neg hne
      | released b w => exact if_neg hne
  . rfl

omit [DecidableEq ι] in
theorem Spares.commits_append {a : GlobalAddress} {e : IndexEvent ι} (h : Spares a e)
    (trace : List (IndexEvent ι))
    : commits a (trace ++ [e]) = commits a trace := by
  have hnone : commitOf a e = none := by
    unfold commitOf
    split
    . next b w hl => exact if_neg (h _ hl)
    . rfl
  rw [Rolex.commits_append, hnone]
  simp

/-- Client `e.who` may perform `e` after `trace`, which has led to the memory `m`. -/
structure Lawful (a : GlobalAddress) (trace : List (IndexEvent ι)) (m : Mem ι) (e : IndexEvent ι)
    : Prop where
  acquire : ∀ {w}, lockOp e.op e.res = some (.acquired a w) → ∀ j, held a j trace = none
  release : ∀ {w}, lockOp e.op e.res = some (.released a w) → held a e.who trace = some w
  write : ∀ {b n}, e.op = .write b n → b = a ∨ (m.ptr a ≠ GlobalAddress.null ∧ b = m.ptr a) →
    held a e.who trace ≠ none

/-- All operations of the trace respect the lock of the leaf at `a`. -/
def Disciplined (a : GlobalAddress) (m₀ : Mem ι) (trace : List (IndexEvent ι)) : Prop :=
  ∀ before e after, trace = before ++ e :: after → Lawful a before (replay m₀ before) e

theorem disciplined_nil (a : GlobalAddress) (m₀ : Mem ι) : Disciplined a m₀ [] := by
  intro before e after h
  simp at h

theorem Disciplined.append {a : GlobalAddress} {m₀ : Mem ι} {trace : List (IndexEvent ι)}
    {e : IndexEvent ι} (h : Disciplined a m₀ trace) (he : Lawful a trace (replay m₀ trace) e)
    : Disciplined a m₀ (trace ++ [e]) := by
  intro before e' after heq
  rcases List.eq_nil_or_concat after with rfl | ⟨after, x, rfl⟩
  . obtain ⟨rfl, hlast⟩ := List.append_inj' heq rfl
    obtain rfl := List.singleton_inj.mp hlast
    exact he
  . apply h before e' after
    rw [List.concat_eq_append, ← List.cons_append, ← List.append_assoc] at heq
    exact (List.append_inj' heq rfl).1

/-- What an update writes: the record in the leaf or the one in the synonym leaf. -/
inductive Group.Updates (k : Key) (v : Value) (g : Group) : Group → Prop
  | leaf {n : LeafNode} (h : updateLocally k v g.leaf = some n) :
      Updates k v g { g with leaf := n.bumpNodeVersions }
  | syn {s n : LeafNode} (hs : g.syn = some s) (h : updateLocally k v s = some n) :
      Updates k v g { g with syn := some n.bumpNodeVersions }

/-- What the calls make of the group `g₀` when each of them is alone with it, one after another. -/
inductive Serial (g₀ : Group) : List Call → Group → Prop
  | nil : Serial g₀ [] g₀
  | insert {cs : List Call} {g : Group} {addr : GlobalAddress} {k : Key} {v : Value} :
      Serial g₀ cs g → addr ≠ GlobalAddress.null →
      Serial g₀ (cs ++ [.insert k v]) (g.insert addr k v)
  | update {cs : List Call} {g g' : Group} {k : Key} {v : Value} :
      Serial g₀ cs g → g.Updates k v g' → Serial g₀ (cs ++ [.update k v]) g'

/-- The lock of the leaf at `a`, and what it protects. -/
structure LeafSound (m₀ : Mem ι) (a : GlobalAddress) (w : IndexWorld ι) : Prop where
  law : Disciplined a m₀ w.trace
  excl : ∀ {i j v v'}, held a i w.trace = some v → held a j w.trace = some v' → i = j
  locked : ∀ {i v}, held a i w.trace = some v →
    ¬ w.mem.Unlocked a ∧ 0 &&& lockBit = v &&& lockBit
  free : (∀ i, held a i w.trace = none) →
    w.mem.Unlocked a ∧ Serial (m₀.group a) (commits a w.trace) (w.mem.group a)

def Allocated (i : ι) (addr : GlobalAddress) (trace : List (IndexEvent ι)) : Prop :=
  ∃ c, (⟨i, c, .allocLeaf, some addr⟩ : IndexEvent ι) ∈ trace

/-- The invariant of the clients that share the index. -/
structure Sound (m₀ : Mem ι) (w : IndexWorld ι) : Prop where
  mem : w.mem = replay m₀ w.trace
  shape : w.mem.Shape
  leaf : ∀ {a}, IsLeaf a → LeafSound m₀ a w
  alloc : ∀ {i addr}, Allocated i addr w.trace →
    (addr, LeafBuild.plain.allocationLeafSize) ∈ w.mem.dsm.live
  owner : ∀ {i j addr}, Allocated i addr w.trace → Allocated j addr w.trace → i = j

/-- Client `i` has allocated the node at `addr` and not linked it to a leaf. -/
def Mine (i : ι) (addr : GlobalAddress) (w : IndexWorld ι) : Prop :=
  Allocated i addr w.trace ∧ ∀ b, IsLeaf b → w.mem.ptr b ≠ addr

/-- What the other clients leave to client `k`. -/
structure Rely (m₀ : Mem ι) (k : ι) (w w' : IndexWorld ι) : Prop where
  sound : Sound m₀ w → Sound m₀ w'
  held : ∀ {a v}, IsLeaf a → held a k w.trace = some v →
    Rolex.held a k w'.trace = some v ∧ commits a w'.trace = commits a w.trace
      ∧ w'.mem.group a = w.mem.group a
  ptr : ∀ {a}, IsLeaf a → w.mem.ptr a ≠ GlobalAddress.null → w'.mem.ptr a = w.mem.ptr a
  mine : ∀ {addr}, Mine k addr w → Mine k addr w'

def Guarantee (m₀ : Mem ι) (i : ι) (w w' : IndexWorld ι) : Prop :=
  (Sound m₀ w → Sound m₀ w') ∧ ∀ k, k ≠ i → Rely m₀ k w w'

theorem Rely.refl (m₀ : Mem ι) (k : ι) (w : IndexWorld ι) : Rely m₀ k w w :=
  ⟨id, fun _ h => ⟨h, rfl, rfl⟩, fun _ _ => rfl, id⟩

theorem Rely.trans {m₀ : Mem ι} {k : ι} {w₁ w₂ w₃ : IndexWorld ι} (h : Rely m₀ k w₁ w₂)
    (h' : Rely m₀ k w₂ w₃)
    : Rely m₀ k w₁ w₃ where
  sound := fun hs => h'.sound (h.sound hs)
  held := by
    intro a v ha hv
    obtain ⟨h1, h2, h3⟩ := h.held ha hv
    obtain ⟨h1', h2', h3'⟩ := h'.held ha h1
    exact ⟨h1', h2'.trans h2, h3'.trans h3⟩
  ptr := by
    intro a ha hnull
    have h1 := h.ptr ha hnull
    exact (h'.ptr ha (h1 ▸ hnull)).trans h1
  mine := fun hm => h'.mine (h.mine hm)

theorem Mine.fresh {m₀ : Mem ι} {i : ι} {addr : GlobalAddress} {w : IndexWorld ι}
    (h : Mine i addr w) (hs : Sound m₀ w)
    : w.mem.Fresh addr :=
  ⟨hs.alloc h.1, hs.shape.dsm.synRegionOffset_le_of_live (hs.alloc h.1), h.2⟩

end

section Actions

variable {ι : Type} [DecidableEq ι] {m₀ : Mem ι} {w : IndexWorld ι} {i : ι} {c : Call} {o : Op}
variable {a : GlobalAddress}

/-- An operation that leaves the lock of `a` alone, and its group too unless somebody holds it. -/
theorem LeafSound.frame (h : LeafSound m₀ a w) (hmem : w.mem = replay m₀ w.trace)
    (hspare : Spares a (⟨i, c, o, (exec i o w.mem).1⟩ : IndexEvent ι))
    (hwrite : ∀ b n, o = .write b n → b = a ∨ (w.mem.ptr a ≠ GlobalAddress.null ∧ b = w.mem.ptr a) →
      held a i w.trace ≠ none)
    (hword : (exec i o w.mem).2.lock a = w.mem.lock a)
    (hgroup : (∀ j, held a j w.trace = none) → (exec i o w.mem).2.group a = w.mem.group a)
    : LeafSound m₀ a (w.perform exec i c o) := by
  have hheld := fun j => hspare.held_append j w.trace
  refine ⟨h.law.append ⟨?_, ?_, ?_⟩, ?_, ?_, ?_⟩
  . intro v hv
    exact absurd rfl (hspare _ hv)
  . intro v hv
    exact absurd rfl (hspare _ hv)
  . intro b n hb hplace
    rw [← hmem] at hplace
    exact hwrite b n hb hplace
  . intro j k v v' hj hk
    exact h.excl ((hheld j).symm.trans hj) ((hheld k).symm.trans hk)
  . intro j v hj
    have := h.locked ((hheld j).symm.trans hj)
    unfold Mem.Unlocked World.perform
    dsimp only
    rw [hword]
    exact this
  . intro hnone
    have hfree : ∀ j, held a j w.trace = none := fun j => (hheld j).symm.trans (hnone j)
    obtain ⟨h1, h2⟩ := h.free hfree
    unfold Mem.Unlocked World.perform
    dsimp only
    rw [hword, hgroup hfree, hspare.commits_append]
    exact ⟨h1, h2⟩

omit [DecidableEq ι] in
theorem allocated_append {e : IndexEvent ι} {trace : List (IndexEvent ι)} {j : ι}
    {addr : GlobalAddress} (he : ∀ size, e.op ≠ .alloc size)
    : Allocated j addr (trace ++ [e]) ↔ Allocated j addr trace := by
  unfold Allocated
  constructor
  . rintro ⟨c, hmem⟩
    rcases List.mem_append.mp hmem with hmem | hmem
    . exact ⟨c, hmem⟩
    . have heq := List.mem_singleton.mp hmem
      exact absurd (congrArg Event.op heq).symm (he _)
  . rintro ⟨c, hmem⟩
    exact ⟨c, List.mem_append_left _ hmem⟩

theorem Sound.guarantee (h : Sound m₀ w) (ho : ∀ size, o ≠ .alloc size)
    (hdsm : (exec i o w.mem).2.dsm = w.mem.dsm) (hshape : (exec i o w.mem).2.Shape)
    (hleaf : ∀ b, IsLeaf b → LeafSound m₀ b (w.perform exec i c o))
    (hother : ∀ b, IsLeaf b → ∀ k v, k ≠ i → held b k w.trace = some v →
      Spares b (⟨i, c, o, (exec i o w.mem).1⟩ : IndexEvent ι)
        ∧ (exec i o w.mem).2.group b = w.mem.group b)
    (hptr : ∀ b, IsLeaf b → (exec i o w.mem).2.ptr b = w.mem.ptr b
      ∨ (w.mem.ptr b = GlobalAddress.null ∧ Mine i ((exec i o w.mem).2.ptr b) w))
    : Guarantee m₀ i w (w.perform exec i c o) ∧ Sound m₀ (w.perform exec i c o) := by
  have halloc : ∀ j addr,
      Allocated j addr (w.trace ++ [(⟨i, c, o, (exec i o w.mem).1⟩ : IndexEvent ι)])
        ↔ Allocated j addr w.trace :=
    fun j addr => allocated_append ho
  have hsound : Sound m₀ (w.perform exec i c o) := by
    refine ⟨?_, hshape, fun hb => hleaf _ hb, ?_, ?_⟩
    . rw [World.perform, replay_append, ← h.mem]
    . intro j addr hj
      have := h.alloc ((halloc j addr).mp hj)
      rw [World.perform, hdsm]
      exact this
    . intro j k addr hj hk
      exact h.owner ((halloc j addr).mp hj) ((halloc k addr).mp hk)
  refine ⟨⟨fun _ => hsound, fun k hk => ⟨fun _ => hsound, ?_, ?_, ?_⟩⟩, hsound⟩
  . intro b v hb hv
    obtain ⟨hspare, hgroup⟩ := hother b hb k v hk hv
    exact ⟨(hspare.held_append k w.trace).trans hv, hspare.commits_append w.trace, hgroup⟩
  . intro b hb hnull
    rcases hptr b hb with heq | ⟨heq, -⟩
    . exact heq
    . exact absurd heq hnull
  . intro addr hmine
    refine ⟨(halloc k addr).mpr hmine.1, fun b hb heq => ?_⟩
    rcases hptr b hb with hsame | ⟨-, hi⟩
    . exact hmine.2 b hb (hsame.symm.trans heq)
    . have heq' : (exec i o w.mem).2.ptr b = addr := heq
      rw [heq'] at hi
      exact hk (h.owner hmine.1 hi.1)

theorem Sound.perform_same (h : Sound m₀ w) (ho : ∀ size, o ≠ .alloc size)
    (hwrite : ∀ b n, o ≠ .write b n) (hlock : lockOp o (exec i o w.mem).1 = none)
    (hsame : (exec i o w.mem).2 = w.mem)
    : Guarantee m₀ i w (w.perform exec i c o) ∧ Sound m₀ (w.perform exec i c o) := by
  have hspare : ∀ b, Spares b (⟨i, c, o, (exec i o w.mem).1⟩ : IndexEvent ι) := by
    intro b l hl
    rw [hlock] at hl
    cases hl
  apply h.guarantee ho
  . rw [hsame]
  . rw [hsame]
    exact h.shape
  . intro b hb
    apply (h.leaf hb).frame h.mem (hspare b)
    . intro d n hd
      exact absurd hd (hwrite d n)
    . rw [hsame]
    . rw [hsame]
      exact fun _ => rfl
  . intro b _ k v _ _
    rw [hsame]
    exact ⟨hspare b, rfl⟩
  . intro b _
    rw [hsame]
    exact .inl rfl

theorem Sound.perform_read (h : Sound m₀ w) (b : GlobalAddress)
    : Guarantee m₀ i w (w.perform exec i c (.read b)) ∧ Sound m₀ (w.perform exec i c (.read b)) := by
  apply h.perform_same
  . simp
  . simp
  . rfl
  . rfl

/-- Client `i` holds the lock of `a`, under which the group `g` has become `cur`. -/
structure Holding (m₀ : Mem ι) (i : ι) (a : GlobalAddress) (v : BitVec 64) (g cur : Group)
    (w : IndexWorld ι) : Prop where
  sound : Sound m₀ w
  held : Rolex.held a i w.trace = some v
  serial : Serial (m₀.group a) (commits a w.trace) g
  cur : w.mem.group a = cur

variable {v : BitVec 64} {g cur : Group}

theorem Holding.rely {w' : IndexWorld ι} (h : Holding m₀ i a v g cur w) (ha : IsLeaf a)
    (hr : Rely m₀ i w w')
    : Holding m₀ i a v g cur w' := by
  obtain ⟨hheld, hcommits, hgroup⟩ := hr.held ha h.held
  exact ⟨hr.sound h.sound, hheld, hcommits ▸ h.serial, hgroup.trans h.cur⟩

theorem Holding.node_eq (h : Holding m₀ i a v g cur w) : w.mem.node a = cur.leaf := by
  rw [← h.cur]
  rfl

theorem Holding.ptr_eq (h : Holding m₀ i a v g cur w)
    : w.mem.ptr a = cur.leaf.metadata.synonymPtr := by
  rw [← h.node_eq]
  rfl

theorem Holding.spared (h : Holding m₀ i a v g cur w) (hs : Sound m₀ (w.perform exec i c o))
    (hspare : Spares a (⟨i, c, o, (exec i o w.mem).1⟩ : IndexEvent ι))
    : Holding m₀ i a v g ((exec i o w.mem).2.group a) (w.perform exec i c o) := by
  have hcommits : commits a (w.perform exec i c o).trace = commits a w.trace :=
    hspare.commits_append w.trace
  refine ⟨hs, (hspare.held_append i w.trace).trans h.held, ?_, rfl⟩
  rw [hcommits]
  exact h.serial

theorem Holding.perform_read (h : Holding m₀ i a v g cur w) (b : GlobalAddress)
    : Guarantee m₀ i w (w.perform exec i c (.read b))
        ∧ Holding m₀ i a v g cur (w.perform exec i c (.read b)) := by
  obtain ⟨hg, hs⟩ := h.sound.perform_read (i := i) (c := c) b
  refine ⟨hg, ?_⟩
  have h' := h.spared hs (by intro l hl; cases hl)
  exact ⟨hs, h'.held, h'.serial, h.cur⟩

theorem Sound.perform_acquire (h : Sound m₀ w) (ha : IsLeaf a) (hfree : w.mem.Unlocked a)
    (hmem : (exec i o w.mem).2 = w.mem.setLock a (~~~0))
    (hlock : lockOp o (exec i o w.mem).1 = some (.acquired a (w.mem.lock a)))
    (ho : ∀ size, o ≠ .alloc size) (hwrite : ∀ b n, o ≠ .write b n)
    : Guarantee m₀ i w (w.perform exec i c o)
        ∧ Holding m₀ i a (w.mem.lock a) (w.mem.group a) (w.mem.group a) (w.perform exec i c o) := by
  have hleaf := h.leaf ha
  have hnone : ∀ j, held a j w.trace = none := by
    intro j
    rw [Option.eq_none_iff_forall_ne_some]
    intro v hv
    exact (hleaf.locked hv).1 hfree
  have hserial := (hleaf.free hnone).2
  have hspare : ∀ b, b ≠ a → Spares b (⟨i, c, o, (exec i o w.mem).1⟩ : IndexEvent ι) := by
    intro b hb l hl
    rw [hlock] at hl
    obtain rfl := Option.some.inj hl
    exact fun e => hb e.symm
  have hheld : ∀ j, held a j (w.perform exec i c o).trace
      = if i = j then some (w.mem.lock a) else none := by
    intro j
    rw [World.perform, held_append, hlock, hnone]
    simp [lockStep]
  have hcommits : commits a (w.perform exec i c o).trace = commits a w.trace := by
    rw [World.perform, commits_append, commitOf, hlock]
    simp
  have hgroup : ∀ b, (exec i o w.mem).2.group b = w.mem.group b := by
    intro b
    rw [hmem]
    rfl
  have hsound : Guarantee m₀ i w (w.perform exec i c o) ∧ Sound m₀ (w.perform exec i c o) := by
    apply h.guarantee ho
    . rw [hmem]
      rfl
    . rw [hmem]
      exact Mem.shape_setLock.mpr h.shape
    . intro b hb
      by_cases hba : b = a
      . subst hba
        refine ⟨hleaf.law.append ⟨fun _ => hnone, ?_, ?_⟩, ?_, ?_, ?_⟩
        . intro v hv
          rw [hlock] at hv
          cases hv
        . intro d n hd
          exact absurd hd (hwrite d n)
        . intro j k v v' hj hk
          rw [hheld] at hj hk
          split at hj
          . next hij =>
            split at hk
            . next hik => exact hij.symm.trans hik
            . cases hk
          . cases hj
        . intro j v hj
          rw [hheld] at hj
          split at hj
          . obtain rfl := Option.some.inj hj
            refine ⟨?_, hfree⟩
            unfold Mem.Unlocked World.perform
            rw [hmem]
            simp only [Mem.setLock, Function.update_self]
            decide
          . cases hj
        . intro hfalse
          have := hfalse i
          simp [hheld] at this
      . apply (h.leaf hb).frame h.mem (hspare b hba)
        . intro d n hd
          exact absurd hd (hwrite d n)
        . rw [hmem]
          exact Function.update_of_ne hba _ _
        . exact fun _ => hgroup b
    . intro b _ k v _ hk
      refine ⟨hspare b ?_, hgroup b⟩
      rintro rfl
      rw [hnone] at hk
      cases hk
    . intro b _
      rw [hmem]
      exact .inl rfl
  refine ⟨hsound.1, hsound.2, ?_, ?_, hgroup a⟩
  . rw [hheld, if_pos rfl]
  . rw [hcommits]
    exact hserial

/-- The WRITE of the lock word that was fetched, after which the group is as `c` has to leave it. -/
theorem Holding.perform_release (h : Holding m₀ i a v g cur w) (ha : IsLeaf a)
    (hserial : Serial (m₀.group a) (commits a w.trace ++ [c]) cur)
    : Guarantee m₀ i w (w.perform exec i c (.writeLock a v))
        ∧ Sound m₀ (w.perform exec i c (.writeLock a v)) := by
  have hleaf := h.sound.leaf ha
  have hspare : ∀ b, b ≠ a → Spares b (⟨i, c, .writeLock a v, ()⟩ : IndexEvent ι) := by
    intro b hb l hl
    obtain rfl := Option.some.inj hl
    exact fun e => hb e.symm
  have hnone : ∀ j, Rolex.held a j (w.perform exec i c (.writeLock a v)).trace = none := by
    intro j
    rw [World.perform, held_append]
    split
    . simp [lockOp, lockStep]
    . next hij =>
      rw [Option.eq_none_iff_forall_ne_some]
      intro v' hv'
      exact hij (hleaf.excl h.held hv')
  have hcommits : commits a (w.perform exec i c (.writeLock a v)).trace
      = commits a w.trace ++ [c] := by
    rw [World.perform, commits_append]
    simp [commitOf, lockOp]
  apply h.sound.guarantee
  . simp
  . rfl
  . exact Mem.shape_setLock.mpr h.sound.shape
  . intro b hb
    by_cases hba : b = a
    . subst hba
      refine ⟨hleaf.law.append ⟨?_, ?_, ?_⟩, ?_, ?_, fun _ => ⟨?_, ?_⟩⟩
      . intro v' hv'
        cases hv'
      . intro v' hv'
        cases hv'
        exact h.held
      . intro d n hd
        cases hd
      . intro j k v v' hj
        rw [hnone] at hj
        cases hj
      . intro j v' hj
        rw [hnone] at hj
        cases hj
      . have hword : (w.perform exec i c (.writeLock b v)).mem.lock b = v := by
          simp [World.perform, exec, Mem.setLock]
        unfold Mem.Unlocked
        rw [hword]
        exact (hleaf.locked h.held).2
      . have hgroup : (w.perform exec i c (.writeLock b v)).mem.group b = w.mem.group b := rfl
        rw [hcommits, hgroup, h.cur]
        exact hserial
    . apply (h.sound.leaf hb).frame h.sound.mem (hspare b hba)
      . intro d n hd
        cases hd
      . exact Function.update_of_ne hba _ _
      . exact fun _ => rfl
  . intro b _ k v' hk hv'
    refine ⟨hspare b ?_, rfl⟩
    rintro rfl
    exact hk (hleaf.excl hv' h.held)
  . intro b _
    exact .inl rfl

theorem Holding.perform_write (h : Holding m₀ i a v g cur w) (ha : IsLeaf a) {d : GlobalAddress}
    {n : LeafNode} (hd : d = a ∨ (w.mem.ptr a ≠ GlobalAddress.null ∧ d = w.mem.ptr a))
    (hshape : (w.mem.setNode d n).Shape)
    (hptr : d = a → n.metadata.synonymPtr = w.mem.ptr a
      ∨ (w.mem.ptr a = GlobalAddress.null ∧ Mine i n.metadata.synonymPtr w))
    : Guarantee m₀ i w (w.perform exec i c (.write d n))
        ∧ Holding m₀ i a v g ((w.mem.setNode d n).group a) (w.perform exec i c (.write d n)) := by
  have hspare : ∀ b, Spares b (⟨i, c, .write d n, ()⟩ : IndexEvent ι) := by
    intro b l hl
    cases hl
  have hleaf : ∀ b, IsLeaf b → b = d → d = a := by
    rintro b hb rfl
    rcases hd with hd | ⟨hnull, hd⟩
    . exact hd
    . exact absurd hd.symm (h.sound.shape.ptr_ne ha hnull hb)
  have hsyn : ∀ b, IsLeaf b → w.mem.ptr b ≠ GlobalAddress.null → w.mem.ptr b = d → b = a := by
    rintro b hb hnull rfl
    rcases hd with hd | ⟨-, hd⟩
    . exact absurd hd (h.sound.shape.ptr_ne hb hnull ha)
    . by_contra hba
      exact h.sound.shape.inj hb ha hba hnull hd
  have hgroup : ∀ b, IsLeaf b → b ≠ a → (w.mem.setNode d n).group b = w.mem.group b := by
    intro b hb hba
    apply Mem.group_setNode_of_ne
    . rintro rfl
      exact hba (hleaf b hb rfl)
    . intro hnull heq
      exact hba (hsyn b hb hnull heq)
  have hsound : Guarantee m₀ i w (w.perform exec i c (.write d n))
      ∧ Sound m₀ (w.perform exec i c (.write d n)) := by
    apply h.sound.guarantee
    . simp
    . rfl
    . exact hshape
    . intro b hb
      apply (h.sound.leaf hb).frame h.sound.mem (hspare b)
      . intro d' n' heq hplace
        cases heq
        have hba : b = a := by
          rcases hplace with hplace | ⟨hnull, hplace⟩
          . exact hplace.symm.trans (hleaf b hb hplace.symm)
          . exact hsyn b hb hnull hplace.symm
        rw [hba, h.held]
        simp
      . rfl
      . intro hnone
        apply hgroup b hb
        rintro rfl
        have := hnone i
        rw [h.held] at this
        cases this
    . intro b hb k v' hk hv'
      refine ⟨hspare b, hgroup b hb ?_⟩
      rintro rfl
      exact hk ((h.sound.leaf hb).excl hv' h.held)
    . intro b hb
      have hset : (exec i (.write d n) w.mem).2.ptr b
          = if b = d then n.metadata.synonymPtr else w.mem.ptr b := Mem.ptr_setNode _ _ _ _
      rw [hset]
      split
      . next hbd =>
        have hda := hleaf b hb hbd
        rw [hbd, hda]
        exact hptr hda
      . exact .inl rfl
  exact ⟨hsound.1, h.spared hsound.2 (hspare a)⟩

theorem Holding.perform_writeLeaf (h : Holding m₀ i a v g cur w) (ha : IsLeaf a) {n : LeafNode}
    (hn : n.metadata.synonymPtr = cur.leaf.metadata.synonymPtr)
    : Guarantee m₀ i w (w.perform exec i c (.write a n))
        ∧ Holding m₀ i a v g { cur with leaf := n } (w.perform exec i c (.write a n)) := by
  have hptr : n.metadata.synonymPtr = w.mem.ptr a := by
    rw [h.ptr_eq, hn]
  have hwrite := h.perform_write (c := c) ha (n := n) (.inl rfl) (h.sound.shape.setNode_leaf ha hptr)
    (fun _ => .inl hptr)
  rw [h.sound.shape.group_setNode_leaf ha ha hptr, if_pos rfl, h.cur] at hwrite
  exact hwrite

theorem Holding.perform_writeSyn (h : Holding m₀ i a v g cur w) (ha : IsLeaf a) {n : LeafNode}
    (hnull : cur.leaf.metadata.synonymPtr ≠ GlobalAddress.null)
    : Guarantee m₀ i w (w.perform exec i c (.write cur.leaf.metadata.synonymPtr n))
        ∧ Holding m₀ i a v g { cur with syn := some n }
            (w.perform exec i c (.write cur.leaf.metadata.synonymPtr n)) := by
  rw [← h.ptr_eq] at *
  have hshape := h.sound.shape
  have hnot := hshape.ptr_not_isLeaf ha hnull
  have hwrite := h.perform_write (c := c) ha (n := n) (.inr ⟨hnull, rfl⟩)
    (hshape.setNode_syn hnot (Mem.not_unused_of_live (hshape.used ha hnull)))
    (fun e => absurd e (hshape.ptr_ne ha hnull ha))
  rw [hshape.group_setNode_syn ha ha hnull, if_pos rfl, h.cur] at hwrite
  exact hwrite

theorem Holding.perform_link (h : Holding m₀ i a v g cur w) (ha : IsLeaf a) {n : LeafNode}
    (hnull : cur.leaf.metadata.synonymPtr = GlobalAddress.null)
    (hmine : Mine i n.metadata.synonymPtr w)
    : Guarantee m₀ i w (w.perform exec i c (.write a n))
        ∧ ∃ s, Holding m₀ i a v g ⟨n, some s⟩ (w.perform exec i c (.write a n)) := by
  have hfresh := hmine.fresh h.sound
  have hwrite := h.perform_write (c := c) ha (n := n) (.inl rfl)
    (h.sound.shape.setNode_link ha hfresh rfl) (fun _ => .inr ⟨h.ptr_eq.trans hnull, hmine⟩)
  have hgroup : (w.mem.setNode a n).group a = ⟨n, some (w.mem.node n.metadata.synonymPtr)⟩ := by
    have hne : n.metadata.synonymPtr ≠ a := by
      intro heq
      apply hfresh.not_isLeaf
      rwa [heq]
    simp [Mem.group, Mem.ptr_setNode, Mem.node_setNode, hfresh.ne_null, hne]
  rw [hgroup] at hwrite
  exact ⟨hwrite.1, _, hwrite.2⟩

theorem Sound.perform_alloc (h : Sound m₀ w)
    : Guarantee m₀ i w (w.perform exec i c .allocLeaf) ∧ Sound m₀ (w.perform exec i c .allocLeaf)
        ∧ ∀ addr, (exec i .allocLeaf w.mem).1 = some addr → Mine i addr (w.perform exec i c .allocLeaf) := by
  obtain ⟨hshape, hmono, hfresh⟩ := h.shape.alloc i
  have hspare : ∀ b, Spares b (⟨i, c, .allocLeaf, (exec i .allocLeaf w.mem).1⟩ : IndexEvent ι) := by
    intro b l hl
    cases hl
  have halloc : ∀ {j addr}, Allocated j addr (w.perform exec i c .allocLeaf).trace →
      Allocated j addr w.trace ∨ (j = i ∧ (exec i .allocLeaf w.mem).1 = some addr) := by
    rintro j addr ⟨c', hmem⟩
    rcases List.mem_append.mp hmem with hmem | hmem
    . exact .inl ⟨c', hmem⟩
    . right
      have heq := List.mem_singleton.mp hmem
      injection heq with h1 h2 h3 h4
      exact ⟨h1, h4.symm⟩
  have hnew : ∀ {j addr}, Allocated j addr w.trace → (exec i .allocLeaf w.mem).1 ≠ some addr := by
    intro j addr hj heq
    exact (hfresh addr heq).2.2 _ (h.alloc hj)
  have hsound : Sound m₀ (w.perform exec i c .allocLeaf) := by
    refine ⟨?_, hshape, ?_, ?_, ?_⟩
    . rw [World.perform, replay_append, ← h.mem]
    . intro b hb
      apply (h.leaf hb).frame h.mem (hspare b)
      . intro d n hd
        cases hd
      . rfl
      . exact fun _ => rfl
    . intro j addr hj
      rcases halloc hj with hj | ⟨-, heq⟩
      . exact hmono _ (h.alloc hj)
      . exact (hfresh addr heq).1.live
    . intro j k addr hj hk
      rcases halloc hj with hj | ⟨hji, hj⟩
      . rcases halloc hk with hk | ⟨-, hk⟩
        . exact h.owner hj hk
        . exact absurd hk (hnew hj)
      . rcases halloc hk with hk | ⟨hki, -⟩
        . exact absurd hj (hnew hk)
        . exact hji.trans hki.symm
  refine ⟨⟨fun _ => hsound, fun k hk => ⟨fun _ => hsound, ?_, ?_, ?_⟩⟩, hsound, ?_⟩
  . intro b v hb hv
    exact ⟨((hspare b).held_append k w.trace).trans hv, (hspare b).commits_append w.trace, rfl⟩
  . intro b _ _
    rfl
  . rintro addr ⟨⟨c', hmem⟩, hunused⟩
    exact ⟨⟨c', List.mem_append_left _ hmem⟩, hunused⟩
  . intro addr haddr
    refine ⟨⟨c, ?_⟩, (hfresh addr haddr).1.unused⟩
    rw [← haddr]
    exact List.mem_append_right _ (List.mem_singleton.mpr rfl)

end Actions

end Rolex
