import Rolex.Common
import Mathlib.Logic.Function.Basic

/-!
This module contains the allocators of remote memory: the log-structured allocator of a thread
(`LocalAllocator.h`) and the chunk allocator of a directory (`GlobalAllocator.h`).
-/

namespace Rolex

structure LocalAllocator where
  head : GlobalAddress
  cur : GlobalAddress
  freeList : List (GlobalAddress × Nat)

namespace LocalAllocator

def empty : LocalAllocator := ⟨GlobalAddress.null, GlobalAddress.null, []⟩

/-- `LocalAllocator::malloc`: the address, `need_chunck` and the allocator afterwards. -/
def malloc (a : LocalAllocator) (size alignBit : Nat) : GlobalAddress × Bool × LocalAllocator :=
  let cur :=
    if alignBit ≠ 0 then
      { a.cur with offset := BitVec.ofNat 48 (roundUp a.cur.offset.toNat alignBit) }
    else
      a.cur
  if a.head = GlobalAddress.null
      ∨ (cur.offset.toNat + size) % 2 ^ 64 > a.head.offset.toNat + kChunkSize then
    -- search from the free_list then
    match a.freeList.find? (fun e => e.2 ≥ size) with
    | some e => (e.1, false, { a with cur, freeList := a.freeList.erase e })
    | none => (cur, true, { a with cur })
  else
    let next := { cur with offset := BitVec.ofNat 48 (cur.offset.toNat + size) }
    (cur, false, { a with cur := next })

def setChunck (a : LocalAllocator) (addr : GlobalAddress) : LocalAllocator :=
  { a with head := addr, cur := addr }

def free (a : LocalAllocator) (addr : GlobalAddress) (size : Nat) : LocalAllocator :=
  { a with freeList := a.freeList ++ [(addr, size)] }

end LocalAllocator

structure GlobalAllocator where
  start : GlobalAddress
  bitmap : Nat → Bool
  bitmapLen : Nat
  bitmapTail : Nat

namespace GlobalAllocator

def new (start : GlobalAddress) (size : Nat) : GlobalAllocator where
  start := start
  bitmap := fun i => i = 0
  bitmapLen := size / kChunkSize
  bitmapTail := 1

/-- `GlobalAllocator::alloc_chunck`, `none` when the space has run out. -/
def allocChunck (g : GlobalAllocator) : Option (GlobalAddress × GlobalAllocator) :=
  if g.bitmapTail ≥ g.bitmapLen then
    none
  else if g.bitmap g.bitmapTail = false then
    let offset := BitVec.ofNat 48 (g.start.offset.toNat + g.bitmapTail * kChunkSize)
    some ({ g.start with offset },
      { g with
        bitmap := Function.update g.bitmap g.bitmapTail true
        bitmapTail := g.bitmapTail + 1 })
  else
    none

end GlobalAllocator

end Rolex
