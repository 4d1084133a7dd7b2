import Rolex.Dsm.Blocks

/-!
This module contains the alignment of what `LocalAllocator::malloc` returns, and the packed pointers to
data blocks of the `ENABLE_VAR_LEN_KV` build, which leave out the offset bits below the alignment.
-/

namespace Rolex

section Bits

theorem extractLsb'_shiftLeft_or_low {n : Nat} (x : BitVec 64) (y : BitVec n) (h : n ≤ 64)
    : ((x <<< n) ||| y.setWidth 64).extractLsb' 0 n = y := by
  apply BitVec.eq_of_getLsbD_eq
  intro i hi
  rw [BitVec.getLsbD_extractLsb', Nat.zero_add, BitVec.getLsbD_or, BitVec.getLsbD_shiftLeft,
    BitVec.getLsbD_setWidth]
  simp [hi, show i < 64 by omega]

theorem extractLsb'_shiftLeft_or_high {n s m : Nat} (x : BitVec 64) (y : BitVec n)
    (h : n + s + m ≤ 64)
    : ((x <<< n) ||| y.setWidth 64).extractLsb' (n + s) m = x.extractLsb' s m := by
  apply BitVec.eq_of_getLsbD_eq
  intro i hi
  have hy : y.getLsbD (n + s + i) = false := BitVec.getLsbD_of_ge _ _ (by omega)
  rw [BitVec.getLsbD_extractLsb', BitVec.getLsbD_extractLsb', BitVec.getLsbD_or,
    BitVec.getLsbD_shiftLeft, BitVec.getLsbD_setWidth, hy]
  simp [hi, show n + s + i < 64 by omega, show n + s + i - n = s + i by omega]
  omega

end Bits

section Pointer

def mnIdBit : Nat := 8
def offsetBit : Nat := 48 - packedAddrAlignBit

structure PackedGAddr where
  mnId : BitVec mnIdBit
  offset : BitVec offsetBit
  deriving DecidableEq

namespace PackedGAddr

/-- `PackedGAddr(const GlobalAddress &addr)` -/
def ofGlobalAddress (addr : GlobalAddress) : PackedGAddr :=
  ⟨addr.nodeID.setWidth mnIdBit, (addr.offset >>> packedAddrAlignBit).setWidth offsetBit⟩

/-- `operator GlobalAddress` -/
def toGlobalAddress (p : PackedGAddr) : GlobalAddress :=
  ⟨p.mnId.setWidth 16, p.offset.setWidth 48 <<< packedAddrAlignBit⟩

/-- `operator uint64_t` -/
def toWord (p : PackedGAddr) : BitVec 64 := (p.offset.setWidth 64 <<< mnIdBit) ||| p.mnId.setWidth 64

end PackedGAddr

structure DataPointer where
  dataLen : BitVec 16
  ptr : PackedGAddr
  deriving DecidableEq

namespace DataPointer

/-- `DataPointer(const uint64_t data_len, const GlobalAddress& ptr)` -/
def new (dataLen : Nat) (ptr : GlobalAddress) : DataPointer :=
  ⟨BitVec.ofNat 16 dataLen, .ofGlobalAddress ptr⟩

/-- `operator uint64_t` -/
def toValue (p : DataPointer) : Value := ⟨(p.ptr.toWord <<< 16) ||| p.dataLen.setWidth 64⟩

/-- `(DataPointer *)&v`: the bit-fields from the least significant bit on. -/
def ofValue (v : Value) : DataPointer where
  dataLen := v.toBitVec.extractLsb' 0 16
  ptr := ⟨v.toBitVec.extractLsb' 16 mnIdBit, v.toBitVec.extractLsb' 24 offsetBit⟩

/-- `operator std::pair<uint64_t, GlobalAddress>` -/
def toPair (p : DataPointer) : Nat × GlobalAddress := (p.dataLen.toNat, p.ptr.toGlobalAddress)

theorem ofValue_toValue (p : DataPointer) : ofValue p.toValue = p := by
  obtain ⟨dataLen, mnId, offset⟩ := p
  unfold ofValue toValue PackedGAddr.toWord
  simp only [mk.injEq, PackedGAddr.mk.injEq]
  refine ⟨extractLsb'_shiftLeft_or_low _ _ (by decide), ?_, ?_⟩
  . exact (extractLsb'_shiftLeft_or_high (s := 0) _ _ (by decide)).trans
      (extractLsb'_shiftLeft_or_low _ _ (by decide))
  . refine (extractLsb'_shiftLeft_or_high (s := mnIdBit + 0) _ _ (by decide)).trans ?_
    rw [extractLsb'_shiftLeft_or_high _ _ (by decide)]
    apply BitVec.eq_of_getLsbD_eq
    intro i hi
    have hlt : i < 40 := hi
    simp [hi, show i < 64 by omega]

theorem toPair_new_iff {dataLen : Nat} {addr : GlobalAddress} (hlen : dataLen < 2 ^ 16)
    (hnode : addr.nodeID.toNat < 2 ^ mnIdBit)
    : (ofValue (new dataLen addr).toValue).toPair = (dataLen, addr)
        ↔ 2 ^ packedAddrAlignBit ∣ addr.offset.toNat := by
  obtain ⟨nodeID, offset⟩ := addr
  have hn : (nodeID.setWidth mnIdBit).setWidth 16 = nodeID := by
    apply BitVec.eq_of_toNat_eq
    rw [BitVec.toNat_setWidth, BitVec.toNat_setWidth, Nat.mod_eq_of_lt hnode,
      Nat.mod_eq_of_lt nodeID.isLt]
  have ho : ((((offset >>> packedAddrAlignBit).setWidth offsetBit).setWidth 48)
      <<< packedAddrAlignBit).toNat = offset.toNat / 256 * 256 := by
    have hlt := offset.isLt
    simp only [BitVec.toNat_shiftLeft, BitVec.toNat_setWidth, BitVec.toNat_ushiftRight,
      Nat.shiftRight_eq_div_pow, Nat.shiftLeft_eq, packedAddrAlignBit, offsetBit]
    omega
  have hl : (BitVec.ofNat 16 dataLen).toNat = dataLen := by
    rw [BitVec.toNat_ofNat, Nat.mod_eq_of_lt hlen]
  rw [ofValue_toValue]
  simp only [toPair, new, PackedGAddr.ofGlobalAddress, PackedGAddr.toGlobalAddress, hl, hn,
    Prod.mk.injEq, true_and, GlobalAddress.mk.injEq]
  rw [← BitVec.toNat_inj, ho, packedAddrAlignBit]
  omega

end DataPointer

end Pointer

namespace LocalAllocator

/-- The chunk has `size` bytes left behind the next multiple of `2 ^ alignBit`. -/
def HasRoom (a : LocalAllocator) (size alignBit : Nat) : Prop :=
  a.head ≠ GlobalAddress.null
    ∧ ((a.roundCur alignBit).cur.offset.toNat + size) % 2 ^ 64 ≤ a.head.offset.toNat + kChunkSize

/-- The first block of the free list that is large enough. -/
def firstFit (a : LocalAllocator) (size : Nat) : Option Block :=
  a.freeList.find? fun e => e.2 ≥ size

section Malloc

variable {a a' : LocalAllocator} {size alignBit : Nat} {addr : GlobalAddress} {needChunk : Bool}

theorem cur_eq_roundCur (a : LocalAllocator) (alignBit : Nat)
    : (if alignBit ≠ 0 then
          { a.cur with offset := BitVec.ofNat 48 (roundUp a.cur.offset.toNat alignBit) }
        else
          a.cur)
        = (a.roundCur alignBit).cur := by
  unfold roundCur
  split
  . rfl
  . next h =>
    obtain rfl : alignBit = 0 := by simpa using h
    simp [roundUp]

theorem malloc_cases (h : a.malloc size alignBit = (addr, needChunk, a'))
    : (a.HasRoom size alignBit ∧ needChunk = false ∧ addr = (a.roundCur alignBit).cur)
      ∨ (¬ a.HasRoom size alignBit ∧ needChunk = false ∧ (a.firstFit size).map Prod.fst = some addr)
      ∨ (¬ a.HasRoom size alignBit ∧ needChunk = true ∧ a.firstFit size = none) := by
  unfold malloc at h
  rw [cur_eq_roundCur] at h
  dsimp only at h
  unfold HasRoom firstFit
  split at h
  . next hfull =>
    have hno : ¬ (a.head ≠ GlobalAddress.null ∧ ((a.roundCur alignBit).cur.offset.toNat + size)
        % 2 ^ 64 ≤ a.head.offset.toNat + kChunkSize) := by
      rintro ⟨hne, hle⟩
      rcases hfull with hnull | hgt
      . exact hne hnull
      . omega
    split at h
    . next e hfind =>
      obtain ⟨rfl, rfl, -⟩ := by simpa using h
      exact .inr (.inl ⟨hno, rfl, by rw [hfind]; rfl⟩)
    . next hfind =>
      obtain ⟨-, rfl, -⟩ := by simpa using h
      exact .inr (.inr ⟨hno, rfl, hfind⟩)
  . next hroom =>
    rw [not_or, not_lt] at hroom
    obtain ⟨rfl, rfl, -⟩ := by simpa using h
    exact .inl ⟨hroom, rfl, rfl⟩

theorem dvd_roundCur (a : LocalAllocator) (h : alignBit ≤ 48)
    : 2 ^ alignBit ∣ (a.roundCur alignBit).cur.offset.toNat := by
  unfold roundCur roundUp
  simp only [BitVec.toNat_ofNat]
  rw [Nat.dvd_mod_iff (Nat.pow_dvd_pow 2 h)]
  exact Nat.dvd_mul_left _ _

theorem dvd_malloc_iff (h : a.malloc size alignBit = (addr, false, a')) (halign : alignBit ≤ 48)
    : 2 ^ alignBit ∣ addr.offset.toNat
        ↔
      a.HasRoom size alignBit ∨ ∀ e, a.firstFit size = some e → 2 ^ alignBit ∣ e.1.offset.toNat := by
  rcases malloc_cases h with ⟨hroom, -, rfl⟩ | ⟨hno, -, hfit⟩ | ⟨-, hneed, -⟩
  . exact iff_of_true (a.dvd_roundCur halign) (.inl hroom)
  . obtain ⟨e, he, rfl⟩ := Option.map_eq_some_iff.mp hfit
    constructor
    . intro hdvd
      right
      intro e' he'
      rw [he, Option.some.injEq] at he'
      rwa [← he']
    . rintro (hroom | hall)
      . exact absurd hroom hno
      . exact hall e he
  . cases hneed

end Malloc

inductive Call where
  | setChunck (addr : GlobalAddress)
  | malloc (size : UInt64) (alignBit : UInt8)
  | free (addr : GlobalAddress) (size : UInt64)

/-- An address that `malloc` returned with `need_chunck` false. -/
structure Returned where
  addr : GlobalAddress
  alignBit : Nat

/-- One call. `1 << align_bit` is an `int`, so the call is undefined when `align_bit` is above 30. -/
def step (a : LocalAllocator) : Call → Option (List Returned × LocalAllocator)
  | .setChunck addr => some ([], a.setChunck addr)
  | .malloc size alignBit =>
    if alignBit.toNat > 30 then
      none
    else
      let (addr, needChunk, a) := a.malloc size.toNat alignBit.toNat
      some (if needChunk then [] else [⟨addr, alignBit.toNat⟩], a)
  | .free addr size => some ([], a.free addr size.toNat)

def run : List Call → LocalAllocator → Option (List Returned × LocalAllocator)
  | [], a => some ([], a)
  | call :: calls, a => do
    let (returned, a) ← a.step call
    let (rest, a) ← run calls a
    return (returned ++ rest, a)

/--
The condition on a call: it is not a `malloc` that has to take a block of the free list whose address is
not a multiple of the alignment.
-/
def Call.Fits (a : LocalAllocator) : Call → Prop
  | .malloc size alignBit =>
    a.HasRoom size.toNat alignBit.toNat
      ∨ ∀ e, a.firstFit size.toNat = some e → 2 ^ alignBit.toNat ∣ e.1.offset.toNat
  | _ => True

def AllFit : List Call → LocalAllocator → Prop
  | [], _ => True
  | call :: calls, a =>
    call.Fits a
      ∧ match a.step call with
        | some (_, a) => AllFit calls a
        | none => True

def Returned.Aligned (r : Returned) : Prop := 2 ^ r.alignBit ∣ r.addr.offset.toNat

/-- A block for a packed pointer comes back from the packed pointer. -/
def Returned.RoundTrip (r : Returned) : Prop :=
  r.alignBit = packedAddrAlignBit → r.addr.nodeID.toNat < 2 ^ mnIdBit → ∀ len, len < 2 ^ 16 →
    (DataPointer.ofValue (DataPointer.new len r.addr).toValue).toPair = (len, r.addr)

theorem Returned.Aligned.roundTrip {r : Returned} (h : r.Aligned) : r.RoundTrip := by
  intro halign hnode len hlen
  rw [DataPointer.toPair_new_iff hlen hnode, ← halign]
  exact h

theorem step_aligned_iff {a a' : LocalAllocator} {call : Call} {returned : List Returned}
    (h : a.step call = some (returned, a'))
    : (∀ r ∈ returned, r.Aligned) ↔ call.Fits a := by
  cases call with
  | setChunck addr =>
    obtain ⟨rfl, -⟩ := Prod.mk.injEq .. ▸ Option.some.inj h
    simp [Call.Fits]
  | free addr size =>
    obtain ⟨rfl, -⟩ := Prod.mk.injEq .. ▸ Option.some.inj h
    simp [Call.Fits]
  | malloc size alignBit =>
    simp only [step] at h
    split at h
    . cases h
    . next halign =>
      generalize hm : a.malloc size.toNat alignBit.toNat = res at h
      obtain ⟨addr, needChunk, a₁⟩ := res
      obtain ⟨rfl, -⟩ := Prod.mk.injEq .. ▸ Option.some.inj h
      cases needChunk with
      | false =>
        rw [Call.Fits, ← dvd_malloc_iff hm (by omega)]
        simp [Returned.Aligned]
      | true =>
        rcases malloc_cases hm with ⟨-, hneed, -⟩ | ⟨-, hneed, -⟩ | ⟨-, -, hnone⟩
        . cases hneed
        . cases hneed
        . simp [Call.Fits, hnone]

/--
In every run from every allocator all returned addresses are aligned, and the pointers packed from them
unpack to them, exactly if no call has to take a misaligned block of the free list.
-/
theorem malloc_aligned_iff {calls : List Call} {a a' : LocalAllocator} {returned : List Returned}
    (h : run calls a = some (returned, a'))
    : (∀ r ∈ returned, r.Aligned ∧ r.RoundTrip) ↔ AllFit calls a := by
  have hboth : (∀ r ∈ returned, r.Aligned ∧ r.RoundTrip) ↔ ∀ r ∈ returned, r.Aligned :=
    ⟨fun hall r hr => (hall r hr).1, fun hall r hr => ⟨hall r hr, (hall r hr).roundTrip⟩⟩
  rw [hboth]
  clear hboth
  induction calls generalizing a returned with
  | nil =>
    obtain ⟨rfl, -⟩ := Prod.mk.injEq .. ▸ Option.some.inj h
    simp [AllFit]
  | cons call calls ih =>
    obtain ⟨⟨first, a₁⟩, hstep, h⟩ := Option.bind_eq_some_iff.mp h
    obtain ⟨⟨rest, a₂⟩, hrest, h⟩ := Option.bind_eq_some_iff.mp h
    obtain ⟨rfl, rfl⟩ := Prod.mk.injEq .. ▸ Option.some.inj h
    simp only [AllFit, hstep]
    rw [List.forall_mem_append]
    exact and_congr (step_aligned_iff hstep) (ih hrest)

-- when the chunk is used up the block at its start is freed and given away again
theorem malloc_aligned_iff_recycled
    : ∃ a', run [.setChunck ⟨0, 16777216⟩, .malloc 256 8, .malloc 16776960 0, .free ⟨0, 16777216⟩ 256,
            .malloc 24 8] empty
          = some ([⟨⟨0, 16777216⟩, 8⟩, ⟨⟨0, 16777472⟩, 0⟩, ⟨⟨0, 16777216⟩, 8⟩], a')
        ∧ ∀ r ∈ [(⟨⟨0, 16777216⟩, 8⟩ : Returned), ⟨⟨0, 16777472⟩, 0⟩, ⟨⟨0, 16777216⟩, 8⟩], r.Aligned ∧ r.RoundTrip := by
  obtain ⟨a', hrun⟩ : ∃ a', run [.setChunck ⟨0, 16777216⟩, .malloc 256 8, .malloc 16776960 0,
      .free ⟨0, 16777216⟩ 256, .malloc 24 8] empty
      = some ([⟨⟨0, 16777216⟩, 8⟩, ⟨⟨0, 16777472⟩, 0⟩, ⟨⟨0, 16777216⟩, 8⟩], a') := ⟨_, rfl⟩
  refine ⟨a', hrun, (malloc_aligned_iff hrun).mpr ?_⟩
  refine ⟨trivial, .inl ⟨by decide, by decide⟩, .inl ⟨by decide, by decide⟩, trivial, .inr ?_, trivial⟩
  intro e he
  cases he
  decide

-- the block at 16777217 is freed and given to a caller that asks for a multiple of 256
theorem recycled_block_misaligned
    : ∃ a', run [.setChunck ⟨0, 16777216⟩, .malloc 1 0, .malloc 24 0, .free ⟨0, 16777217⟩ 24,
            .malloc 16777191 0, .malloc 24 8] empty
          = some ([⟨⟨0, 16777216⟩, 0⟩, ⟨⟨0, 16777217⟩, 0⟩, ⟨⟨0, 16777241⟩, 0⟩, ⟨⟨0, 16777217⟩, 8⟩], a')
        ∧ ¬ 2 ^ 8 ∣ 16777217
        ∧ (DataPointer.ofValue (DataPointer.new 24 ⟨0, 16777217⟩).toValue).toPair
            = (24, ⟨0, 16777216⟩) :=
  ⟨_, rfl, by decide, by decide +kernel⟩

end LocalAllocator

end Rolex
