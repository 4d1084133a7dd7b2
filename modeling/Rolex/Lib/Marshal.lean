import Mathlib.Data.Nat.ModEq

/-!
Fixed-width numbers in byte strings, the least significant byte first: how they are written one behind the
other, and that a reader gets them back.
-/

namespace Marshal

abbrev Byte := BitVec 8

/-- The `n` bytes of a number, of which higher ones are dropped. -/
def bytes : Nat → Nat → List Byte
  | 0, _ => []
  | n + 1, x => BitVec.ofNat 8 x :: bytes n (x / 256)

def value : List Byte → Nat
  | [] => 0
  | b :: l => b.toNat + 256 * value l

@[simp]
theorem length_bytes (n x : Nat) : (bytes n x).length = n := by
  induction n generalizing x with
  | zero => rfl
  | succ n ih => rw [bytes, List.length_cons, ih]

theorem value_bytes (n x : Nat) : value (bytes n x) = x % 256 ^ n := by
  induction n generalizing x with
  | zero => rw [bytes, value, Nat.pow_zero, Nat.mod_one]
  | succ n ih =>
    have hbyte : (BitVec.ofNat 8 x).toNat = x % 256 := BitVec.toNat_ofNat x 8
    rw [bytes, value, ih, hbyte, Nat.pow_succ', Nat.mod_mul]

def read (n : Nat) (s : List Byte) : Option (Nat × List Byte) :=
  if n ≤ s.length then some (value (s.take n), s.drop n) else none

theorem read_bytes_append {n x : Nat} (hx : x < 256 ^ n) (rest : List Byte)
    : read n (bytes n x ++ rest) = some (x, rest) := by
  have hlen := length_bytes n x
  unfold read
  rw [if_pos (by rw [List.length_append, hlen]; omega), List.take_left' hlen, List.drop_left' hlen, value_bytes,
    Nat.mod_eq_of_lt hx]

/-- Read `k` numbers of `n` bytes. -/
def readMany (n : Nat) : Nat → List Byte → Option (List Nat × List Byte)
  | 0, s => some ([], s)
  | k + 1, s => do
    let (x, s) ← read n s
    let (xs, s) ← readMany n k s
    return (x :: xs, s)

def bytesMany (n : Nat) (xs : List Nat) : List Byte := xs.flatMap (bytes n)

@[simp]
theorem length_bytesMany (n : Nat) (xs : List Nat) : (bytesMany n xs).length = n * xs.length := by
  induction xs with
  | nil => rfl
  | cons x xs ih =>
    unfold bytesMany at ih ⊢
    rw [List.flatMap_cons, List.length_append, length_bytes, ih, List.length_cons, Nat.mul_succ, Nat.add_comm]

theorem readMany_bytesMany_append {n : Nat} {xs : List Nat} (hxs : ∀ x ∈ xs, x < 256 ^ n) (rest : List Byte)
    : readMany n xs.length (bytesMany n xs ++ rest) = some (xs, rest) := by
  induction xs with
  | nil => rfl
  | cons x xs ih =>
    obtain ⟨hx, hxs⟩ := List.forall_mem_cons.mp hxs
    rw [bytesMany, List.flatMap_cons, List.append_assoc, List.length_cons, readMany, read_bytes_append hx]
    simp only [Option.bind_eq_bind, Option.bind_some]
    rw [← bytesMany, ih hxs]
    rfl

end Marshal
