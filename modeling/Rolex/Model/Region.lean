import Rolex.Model.Allocator
import Rolex.Model.Cache
import Rolex.Model.Serialize

/-!
This module contains how `Rolex::train` leaves the models in the model region and `Rolex::deserialize` reads
them from there.
-/

namespace Rolex

section TrainWith

variable {σ : Type} (append : σ → Rat × Rat → List Nat → Nat → Option σ)

/-- The loop of `Rolex::train` for any state that `append_model` changes. -/
def trainWith.go (keys : List Nat) (opt : Plr) (p pos : Nat) (kIter : List Nat) (s : σ) : Option σ :=
  match keys with
  | [] => append s opt.getSegment.getSlopeIntercept kIter (pos + 1)
  | nextP :: keys =>
    if nextP = p then
      none
    else do
      let pos := pos + 1
      let (added, opt) ← opt.addPoint nextP pos
      if added then
        go keys opt nextP pos kIter s
      else do
        let s ← append s opt.getSegment.getSlopeIntercept kIter pos
        let (_, opt) ← (Plr.new trainEpsilon).addPoint nextP 0
        go keys opt nextP 0 (kIter.drop pos) s

def trainWith (keys : List Nat) (s : σ) : Option σ :=
  match keys with
  | [] => some s
  | p :: keys' => do
    let (_, opt) ← (Plr.new trainEpsilon).addPoint p 0
    trainWith.go append keys' opt p 0 keys s

theorem trainWith.go_appendModel (keys : List Nat) (opt : Plr) (p pos : Nat) (kIter : List Nat) (R : RolexModel)
    : trainWith.go RolexModel.appendModel keys opt p pos kIter R = RolexModel.train.go keys opt p pos kIter R := by
  induction keys generalizing opt p pos kIter R with
  | nil => rfl
  | cons nextP keys ih =>
    unfold trainWith.go RolexModel.train.go
    simp only [ih]

theorem trainWith_appendModel (keys : List Nat)
    : trainWith RolexModel.appendModel keys RolexModel.init = RolexModel.train keys := by
  cases keys with
  | nil => rfl
  | cons p keys =>
    unfold trainWith RolexModel.train
    simp only [trainWith.go_appendModel]

variable {append} {P : σ → Prop} {all : List Nat}

theorem trainWith.go_last
    (hstep : ∀ s line kIter size s', P s → kIter <:+ all → append s line kIter size = some s' → P s')
    {keys : List Nat} {opt : Plr} {p pos : Nat} {kIter : List Nat} {s s' : σ} (hs : P s) (hiter : kIter <:+ all)
    (h : go append keys opt p pos kIter s = some s')
    : ∃ s₁ line kIter₁ size, P s₁ ∧ kIter₁ <:+ all ∧ append s₁ line kIter₁ size = some s' := by
  induction keys generalizing opt p pos kIter s with
  | nil => exact ⟨s, _, kIter, _, hs, hiter, h⟩
  | cons nextP keys ih =>
    unfold go at h
    split at h
    . cases h
    . obtain ⟨⟨added, opt₁⟩, _, h⟩ := Option.bind_eq_some_iff.mp h
      dsimp only at h
      split at h
      . exact ih hs hiter h
      . obtain ⟨s₁, hs₁, h⟩ := Option.bind_eq_some_iff.mp h
        obtain ⟨⟨_, opt₂⟩, _, h⟩ := Option.bind_eq_some_iff.mp h
        exact ih (hstep _ _ _ _ _ hs hiter hs₁) ((List.drop_suffix _ _).trans hiter) h

theorem trainWith_last
    (hstep : ∀ s line kIter size s', P s → kIter <:+ all → append s line kIter size = some s' → P s')
    {s s' : σ} (hs : P s) (hne : all ≠ []) (h : trainWith append all s = some s')
    : ∃ s₁ line kIter size, P s₁ ∧ kIter <:+ all ∧ append s₁ line kIter size = some s' := by
  cases all with
  | nil => exact absurd rfl hne
  | cons p keys =>
    rw [trainWith] at h
    obtain ⟨⟨_, opt⟩, _, h⟩ := Option.bind_eq_some_iff.mp h
    exact trainWith.go_last hstep hs (List.suffix_refl _) h

theorem trainWith.go_simulates {τ : Type} {append' : τ → Rat × Rat → List Nat → Nat → Option τ} {Rel : σ → τ → Prop}
    (hstep : ∀ s t line kIter size s', Rel s t → append s line kIter size = some s' →
      ∃ t', append' t line kIter size = some t' ∧ Rel s' t')
    {keys : List Nat} {opt : Plr} {p pos : Nat} {kIter : List Nat} {s s' : σ} {t : τ} (hrel : Rel s t)
    (h : go append keys opt p pos kIter s = some s')
    : ∃ t', go append' keys opt p pos kIter t = some t' ∧ Rel s' t' := by
  induction keys generalizing opt p pos kIter s t with
  | nil => exact hstep _ _ _ _ _ _ hrel h
  | cons nextP keys ih =>
    unfold go at h ⊢
    split at h
    . cases h
    . next hne =>
      rw [if_neg hne]
      obtain ⟨⟨added, opt₁⟩, hadd, h⟩ := Option.bind_eq_some_iff.mp h
      simp only [hadd, Option.bind_eq_bind, Option.bind_some] at h ⊢
      split at h
      . next hadded =>
        rw [if_pos hadded]
        exact ih hrel h
      . next hadded =>
        obtain ⟨s₁, hs₁, h⟩ := Option.bind_eq_some_iff.mp h
        obtain ⟨⟨_, opt₂⟩, hopt, h⟩ := Option.bind_eq_some_iff.mp h
        obtain ⟨t₁, ht₁, hrel₁⟩ := hstep _ _ _ _ _ _ hrel hs₁
        rw [if_neg hadded]
        simp only [ht₁, hopt, Option.bind_some]
        exact ih hrel₁ h

theorem trainWith_simulates {τ : Type} {append' : τ → Rat × Rat → List Nat → Nat → Option τ} {Rel : σ → τ → Prop}
    (hstep : ∀ s t line kIter size s', Rel s t → append s line kIter size = some s' →
      ∃ t', append' t line kIter size = some t' ∧ Rel s' t')
    {s s' : σ} {t : τ} (hrel : Rel s t) (h : trainWith append all s = some s')
    : ∃ t', trainWith append' all t = some t' ∧ Rel s' t' := by
  cases all with
  | nil =>
    cases h
    exact ⟨t, rfl, hrel⟩
  | cons p keys =>
    rw [trainWith] at h ⊢
    obtain ⟨⟨_, opt⟩, hopt, h⟩ := Option.bind_eq_some_iff.mp h
    simp only [hopt, Option.bind_eq_bind, Option.bind_some]
    exact trainWith.go_simulates hstep hrel h

end TrainWith

namespace ModelRegion

open Marshal
open MemoryNode (kSynonymMax)

/-- `RemoteMemory`, of which the model region is used: its allocator and its bytes. -/
structure RemoteMemory (sizeofK : Nat) where
  alloc : ModelAllocator sizeofK
  mem : Nat → Byte

namespace RemoteMemory

variable {sizeofK : Nat} (rm : RemoteMemory sizeofK)

def new (sizeofK : Nat) (totalSz : UInt64) (mem : Nat → Byte) : Option (RemoteMemory sizeofK) := do
  let alloc ← ModelAllocator.new sizeofK totalSz
  return ⟨alloc, Region.store mem 0 (bytes sizeofU64 0)⟩

/-- `memcpy` into the region, which has no result outside of it. -/
def copyIn (start : Nat) (data : List Byte) : Option (RemoteMemory sizeofK) :=
  if start + data.length ≤ rm.alloc.totalSz then some { rm with mem := Region.store rm.mem start data } else none

/-- `memcpy` out of the region. -/
def copyOut (r : Region) : Option (List Byte) :=
  if r.start + r.len ≤ rm.alloc.totalSz then some (Region.load rm.mem r) else none

end RemoteMemory

/-- The class `Rolex`. -/
structure Instance where
  modelKeys : List Nat
  models : List SubModel
  leafIdxOffsets : List Nat
  capacityOffsets : List Nat

namespace Instance

/-- The constructor `Rolex(RM)`. -/
def empty : Instance := ⟨[], [], [], []⟩

/-- The constructor `Rolex(RM, keys)` before it trains. -/
def init : Instance := ⟨[], [], [0], [0]⟩

/-- The instance with the numbers that its doubles stand for. -/
def toModel (toRat : Double → Rat) (I : Instance) : RolexModel where
  modelKeys := I.modelKeys
  models := I.models.map (fun m => ⟨toRat m.slope, toRat m.intercept, m.ltable.table.length, m.capacity⟩)
  leafIdxOffsets := I.leafIdxOffsets
  capacityOffsets := I.capacityOffsets

def getLeafRange (toRat : Double → Rat) (I : Instance) (key : Nat) : Option (Nat × Nat × Nat × Nat) :=
  (I.toModel toRat).getLeafRange key

/-- The bytes that the submodels take in the region. -/
def sizes (I : Instance) : List Nat := I.models.map (fun m => m.serialize.length + 4)

end Instance

section Train

variable {sizeofK : Nat} (round : Rat → Double) (unset : Nat → Fin kSynonymMax → BitVec 64)

/-- `Rolex::append_model`. The line is rounded to doubles, `unset` is what the memory of the tables held. -/
def appendModel (s : Instance × RemoteMemory sizeofK) (line : Rat × Rat) (keysBegin : List Nat) (size : Nat)
    : Option (Instance × RemoteMemory sizeofK) := do
  let (I, rm) := s
  let key ← keysBegin[size - 1]?
  let model := SubModel.new (round line.1) (round line.2) size (unset I.models.length)
  let leafNumSum ← I.leafIdxOffsets.getLast?
  let capacitySum ← I.capacityOffsets.getLast?
  let I := {
    modelKeys := I.modelKeys ++ [key]
    models := I.models ++ [model]
    leafIdxOffsets := I.leafIdxOffsets ++ [leafNumSum + model.ltable.table.length]
    capacityOffsets := I.capacityOffsets ++ [capacitySum + model.capacity] }
  let (sub, alloc) ← rm.alloc.allocSubmodel (UInt32.ofNat (model.serialize.length + 4))
  let rm ← { rm with alloc }.copyIn sub.start (bytes 4 model.serialize.length)
  let rm ← rm.copyIn (sub.start + 4) model.serialize
  let ((keySlot, offsetSlot), alloc) ← rm.alloc.allocUpper
  let rm ← { rm with alloc }.copyIn keySlot.start (bytes sizeofK key)
  let rm ← rm.copyIn offsetSlot.start (bytes sizeofU64 sub.start)
  return (I, rm)

/-- `Rolex::train` of a new instance. -/
def train (keys : List Nat) (rm : RemoteMemory sizeofK) : Option (Instance × RemoteMemory sizeofK) := do
  let (I, rm) ← trainWith (appendModel round unset) keys (Instance.init, rm)
  if keys = [] then
    return (I, rm)
  else if I.modelKeys.length = I.models.length then do
    let rm ← rm.copyIn 0 (bytes sizeofU64 I.models.length)
    return (I, rm)
  else
    none

/-- `Rolex::deserialize` for `n` models from number `i` on. -/
def deserialize.go (rm : RemoteMemory sizeofK) : Nat → Nat → Instance → Option Instance
  | 0, _, I => some I
  | n + 1, i, I => do
    let slots := ModelAllocator.getUpper sizeofK i
    let key ← rm.copyOut slots.1
    let off ← rm.copyOut slots.2
    let curMs ← rm.copyOut ⟨value off, 4⟩
    let curMs := i32 (value curMs)
    -- no string has a negative size
    if 0 ≤ curMs then do
      let seria ← rm.copyOut ⟨value off + 4, curMs.toNat⟩
      let model ← SubModel.deserialize (unset i) seria
      go rm n (i + 1) { I with modelKeys := I.modelKeys ++ [value key], models := I.models ++ [model] }
    else
      none

def deserialize (rm : RemoteMemory sizeofK) : Option Instance := do
  let totalSize ← rm.copyOut ModelAllocator.countRegion
  deserialize.go unset rm (value totalSize) 0 Instance.empty

end Train

end ModelRegion

end Rolex
