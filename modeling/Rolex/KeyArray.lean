import Mathlib.Data.Nat.Digits.Lemmas
import Rolex.Common

/-!
This module contains the integer view of keys of `Key.h`, for keys of any length: the order of
`std::array`, the carry and borrow loops and the conversions from and to integers.
-/

namespace Rolex

/-- `std::array<uint8_t, keyLen>` for an arbitrary `keyLen`. -/
abbrev KeyArray (keyLen : Nat) := Vector UInt8 keyLen

namespace KeyArray

variable {keyLen : Nat}

/-- `std::lexicographical_compare`, which is `operator<` of `std::array`. -/
def lexicographicalCompare : List UInt8 → List UInt8 → Bool
  | _, [] => false
  | [], _ :: _ => true
  | x :: xs, y :: ys => if x < y then true else if y < x then false else lexicographicalCompare xs ys

def less (a b : KeyArray keyLen) : Bool := lexicographicalCompare a.toList b.toList

def addOneLoop : List UInt8 → List UInt8
  | [] => []
  | part :: rest => if part.toNat + 1 < 256 then (part + 1) :: rest else 0 :: addOneLoop rest

def addLoop : List UInt8 → UInt8 → List UInt8
  | [], _ => []
  | part :: rest, b =>
    if part.toNat + b.toNat < 256 then
      (part + b) :: rest
    else
      let tmp := part.toNat + b.toNat
      UInt8.ofNat (tmp % 256) :: addLoop rest (UInt8.ofNat (tmp / 256))

/-- `while(tmp < b) tmp += (1 << 8), carry ++;` -/
def borrowLoop (tmp b carry : Nat) : Nat :=
  if tmp < b then borrowLoop (tmp + 256) b (carry + 1) else carry
termination_by b - tmp
decreasing_by omega

def subLoop : List UInt8 → UInt8 → List UInt8
  | [], _ => []
  | part :: rest, b =>
    if b ≤ part then
      (part - b) :: rest
    else
      let carry := borrowLoop part.toNat b.toNat 0
      UInt8.ofNat (part.toNat + carry * 256 - b.toNat) :: subLoop rest (UInt8.ofNat carry)

@[simp]
theorem length_addOneLoop (r : List UInt8) : (addOneLoop r).length = r.length := by
  fun_induction addOneLoop r <;> simp_all

@[simp]
theorem length_addLoop (r : List UInt8) (b : UInt8) : (addLoop r b).length = r.length := by
  fun_induction addLoop r b <;> simp_all

@[simp]
theorem length_subLoop (r : List UInt8) (b : UInt8) : (subLoop r b).length = r.length := by
  fun_induction subLoop r b <;> simp_all

/-- A key from its bytes, the least significant one first. -/
def ofReverse (r : List UInt8) (h : r.length = keyLen) : KeyArray keyLen :=
  ⟨r.reverse.toArray, by simp [h]⟩

def addOne (a : KeyArray keyLen) : KeyArray keyLen :=
  ofReverse (addOneLoop a.toList.reverse) (by simp)

/-- `operator+(const Key& a, uint8_t b)`. -/
def add (a : KeyArray keyLen) (b : UInt8) : KeyArray keyLen :=
  ofReverse (addLoop a.toList.reverse b) (by simp)

/-- `operator-(const Key& a, uint8_t b)`. -/
def sub (a : KeyArray keyLen) (b : UInt8) : KeyArray keyLen :=
  ofReverse (subLoop a.toList.reverse b) (by simp)

/-- `for (auto a : key) res = (res << 8) + a;` in an unsigned integer of `w` bits. -/
def shiftIn (w : Nat) (bytes : List UInt8) : Nat :=
  bytes.foldl (fun res a => (res * 256 + a.toNat) % 2 ^ w) 0

def key2int (key : KeyArray keyLen) : Nat := shiftIn 64 key.toList

def key2int128 (key : KeyArray keyLen) : Nat := shiftIn 128 (key.toList.take (min keyLen 16))

def kkeyNull : KeyArray keyLen := Vector.replicate keyLen 0

def kKeyMin : UInt64 := 1

/-- `int2key` without `KEY_SPACE_LIMIT`. -/
def int2key (key : UInt64) : KeyArray keyLen :=
  let key := if key.toNat = key2int (kkeyNull : KeyArray keyLen) then kKeyMin else key
  Vector.ofFn fun i =>
    let shr := (keyLen - (i.val + 1)) * 8
    if 64 ≤ shr then 0 else UInt8.ofNat (key.toNat / 2 ^ shr % 256)

section Value

/-- The number that bytes with the least significant one first stand for. -/
def value (r : List UInt8) : Nat := Nat.ofDigits 256 (r.map UInt8.toNat)

@[simp]
theorem value_nil : value [] = 0 := rfl

@[simp]
theorem value_cons (x : UInt8) (r : List UInt8) : value (x :: r) = x.toNat + 256 * value r := by
  unfold value
  rw [List.map_cons, Nat.ofDigits_cons]

theorem value_concat (r : List UInt8) (x : UInt8)
    : value (r ++ [x]) = value r + 256 ^ r.length * x.toNat := by
  unfold value
  rw [List.map_append, Nat.ofDigits_append, List.length_map, List.map_singleton,
    Nat.ofDigits_singleton]

theorem value_lt (r : List UInt8) : value r < 256 ^ r.length := by
  unfold value
  rw [← List.length_map UInt8.toNat]
  apply Nat.ofDigits_lt_base_pow_length (by decide)
  intro x hx
  obtain ⟨b, _, rfl⟩ := List.mem_map.mp hx
  exact b.toNat_lt

theorem value_reverse (bytes : List UInt8)
    : value bytes.reverse = bytes.foldl (fun res a => res * 256 + a.toNat) 0 := by
  induction bytes using List.reverseRecOn with
  | nil => rfl
  | append_singleton bytes x ih =>
    rw [List.foldl_append, List.foldl_cons, List.foldl_nil, ← ih, List.reverse_append,
      List.reverse_singleton, List.singleton_append, value_cons, Nat.add_comm, Nat.mul_comm]

theorem shiftIn_eq (w : Nat) (bytes : List UInt8)
    : shiftIn w bytes = value bytes.reverse % 2 ^ w := by
  induction bytes using List.reverseRecOn with
  | nil => simp [shiftIn]
  | append_singleton bytes x ih =>
    unfold shiftIn at ih ⊢
    rw [List.foldl_append, List.foldl_cons, List.foldl_nil, ih, List.reverse_append,
      List.reverse_singleton, List.singleton_append, value_cons, Nat.add_comm, Nat.mul_comm]
    simp [Nat.add_mod, Nat.mul_mod]

theorem shiftIn_eq_value {w : Nat} {bytes : List UInt8} (h : bytes.length * 8 ≤ w)
    : shiftIn w bytes = value bytes.reverse := by
  rw [shiftIn_eq]
  apply Nat.mod_eq_of_lt
  calc value bytes.reverse
    _ < 256 ^ bytes.reverse.length := value_lt _
    _ = 2 ^ (bytes.length * 8) := by rw [List.length_reverse, Nat.mul_comm, Nat.pow_mul]
    _ ≤ 2 ^ w := Nat.pow_le_pow_right (by decide) h

theorem lexicographicalCompare_iff {a b : List UInt8} (h : a.length = b.length)
    : lexicographicalCompare a b = true ↔ value a.reverse < value b.reverse := by
  induction a generalizing b with
  | nil =>
    obtain rfl : b = [] := List.length_eq_zero_iff.mp h.symm
    simp [lexicographicalCompare]
  | cons x a ih =>
    cases b with
    | nil => simp at h
    | cons y b =>
      have hlen : a.length = b.length := by simpa using h
      have ha := value_lt a.reverse
      have hb := value_lt b.reverse
      rw [List.length_reverse] at ha hb
      rw [List.reverse_cons, List.reverse_cons, value_concat, value_concat, List.length_reverse,
        List.length_reverse, ← hlen]
      rw [← hlen] at hb
      have hstep : ∀ m n : Nat, m < n → 256 ^ a.length * m + 256 ^ a.length
          ≤ 256 ^ a.length * n := by
        intro m n hmn
        rw [← Nat.mul_succ]
        exact Nat.mul_le_mul_left _ hmn
      unfold lexicographicalCompare
      split
      . next hxy =>
        have := hstep _ _ (UInt8.lt_iff_toNat_lt.mp hxy)
        simp only [true_iff]
        omega
      . split
        . next hyx =>
          have := hstep _ _ (UInt8.lt_iff_toNat_lt.mp hyx)
          simp only [Bool.false_eq_true, false_iff]
          omega
        . next hxy hyx =>
          have hxy : x.toNat = y.toNat := by
            rw [UInt8.lt_iff_toNat_lt] at hxy hyx
            omega
          rw [ih hlen, hxy]
          omega

end Value

section Loops

theorem value_addLoop (r : List UInt8) (b : UInt8)
    : ∃ c, value r + b.toNat = value (addLoop r b) + c * 256 ^ r.length := by
  fun_induction addLoop r b with
  | case1 b => exact ⟨b.toNat, by simp⟩
  | case2 part rest b hfit =>
    refine ⟨0, ?_⟩
    rw [value_cons, value_cons, UInt8.toNat_add, Nat.mod_eq_of_lt hfit]
    omega
  | case3 part rest b hfit tmp ih =>
    obtain ⟨c, hc⟩ := ih
    have hp := part.toNat_lt
    have hb := b.toNat_lt
    have htmp : tmp = part.toNat + b.toNat := rfl
    refine ⟨c, ?_⟩
    rw [UInt8.toNat_ofNat_of_lt' (by simp only [UInt8.size]; omega)] at hc
    rw [value_cons, value_cons, UInt8.toNat_ofNat_of_lt' (by simp only [UInt8.size]; omega),
      List.length_cons, Nat.pow_succ]
    have hmul : c * (256 ^ rest.length * 256) = 256 * (c * 256 ^ rest.length) := by ring
    rw [hmul]
    omega

theorem borrowLoop_eq {part b : UInt8} (h : ¬ b ≤ part)
    : borrowLoop part.toNat b.toNat 0 = 1 := by
  have hb := b.toNat_lt
  have hlt : part.toNat < b.toNat := by
    rw [UInt8.le_iff_toNat_le] at h
    omega
  unfold borrowLoop
  rw [if_pos hlt]
  unfold borrowLoop
  rw [if_neg (by omega)]

theorem value_subLoop (r : List UInt8) (b : UInt8)
    : ∃ c, value r + c * 256 ^ r.length = value (subLoop r b) + b.toNat := by
  fun_induction subLoop r b with
  | case1 b => exact ⟨b.toNat, by simp⟩
  | case2 part rest b hle =>
    refine ⟨0, ?_⟩
    have := UInt8.le_iff_toNat_le.mp hle
    rw [value_cons, value_cons, UInt8.toNat_sub_of_le _ _ hle]
    omega
  | case3 part rest b hle carry ih =>
    obtain ⟨c, hc⟩ := ih
    have hcarry : carry = 1 := borrowLoop_eq hle
    have hp := part.toNat_lt
    have hb := b.toNat_lt
    rw [UInt8.le_iff_toNat_le] at hle
    refine ⟨c, ?_⟩
    rw [hcarry] at hc ⊢
    rw [value_cons, value_cons, UInt8.toNat_ofNat_of_lt' (by simp only [UInt8.size]; omega),
      List.length_cons, Nat.pow_succ]
    have hone : (UInt8.ofNat 1).toNat = 1 := rfl
    rw [hone] at hc
    have hmul : c * (256 ^ rest.length * 256) = 256 * (c * 256 ^ rest.length) := by ring
    rw [hmul]
    omega

/-- `add_one` is the loop of `operator+` with the addend 1, which is the carry of each round. -/
theorem addOneLoop_eq (r : List UInt8) : addOneLoop r = addLoop r 1 := by
  induction r with
  | nil => rfl
  | cons part rest ih =>
    have hp := part.toNat_lt
    have hone : (1 : UInt8).toNat = 1 := rfl
    unfold addOneLoop addLoop
    rw [hone]
    split
    . rfl
    . have hpart : part.toNat + 1 = 256 := by omega
      simp only [hpart]
      rw [ih]
      rfl

end Loops

section Int

theorem key2int_eq (hn : keyLen ≤ 8) (a : KeyArray keyLen) : key2int a = value a.toList.reverse := by
  apply shiftIn_eq_value
  rw [Vector.length_toList]
  omega

theorem key2int128_eq (hn : keyLen ≤ 8) (a : KeyArray keyLen)
    : key2int128 a = value a.toList.reverse := by
  unfold key2int128
  rw [List.take_of_length_le (by rw [Vector.length_toList]; omega)]
  apply shiftIn_eq_value
  rw [Vector.length_toList]
  omega

@[simp]
theorem toList_ofReverse (r : List UInt8) (h : r.length = keyLen)
    : (ofReverse r h).toList.reverse = r := by
  simp [ofReverse, Vector.toList]

theorem toList_int2key {key : UInt64} (hn : keyLen ≤ 8)
    (hkey : key.toNat ≠ key2int (kkeyNull : KeyArray keyLen))
    : (int2key key : KeyArray keyLen).toList.reverse
        = (List.range keyLen).map fun j => UInt8.ofNat (key.toNat / 256 ^ j % 256) := by
  apply List.ext_getElem
  . simp
  . intro j hj hj'
    have hlt : j < keyLen := by simpa using hj'
    have hshr : (keyLen - (keyLen - 1 - j + 1)) * 8 = 8 * j := by omega
    simp only [int2key, List.getElem_reverse, Vector.getElem_toList, Vector.getElem_ofFn,
      Vector.length_toList, List.getElem_map, List.getElem_range, if_neg hkey, hshr]
    rw [if_neg (by omega), Nat.pow_mul]

theorem value_range (x n : Nat)
    : value ((List.range n).map fun j => UInt8.ofNat (x / 256 ^ j % 256)) = x % 256 ^ n := by
  induction n with
  | zero => simp [Nat.mod_one]
  | succ n ih =>
    have hlt : x / 256 ^ n % 256 < UInt8.size := Nat.mod_lt _ (by decide)
    rw [List.range_succ, List.map_append, List.map_singleton, value_concat, ih, List.length_map,
      List.length_range, UInt8.toNat_ofNat_of_lt' hlt, Nat.mod_pow_succ]

theorem value_kkeyNull : value (kkeyNull : KeyArray keyLen).toList.reverse = 0 := by
  unfold kkeyNull value
  rw [Vector.toList_replicate, List.reverse_replicate, List.map_replicate]
  induction keyLen with
  | zero => rfl
  | succ n ih =>
    rw [List.replicate_succ, Nat.ofDigits_cons, ih]
    rfl

theorem key2int_int2key {x : UInt64} (hn : keyLen ≤ 8) (hx : x ≠ 0) (hlt : x.toNat < 256 ^ keyLen)
    : key2int (int2key x : KeyArray keyLen) = x.toNat := by
  have hkey : x.toNat ≠ key2int (kkeyNull : KeyArray keyLen) := by
    rw [key2int_eq hn, value_kkeyNull]
    intro h
    exact hx (UInt64.toNat_inj.mp h)
  rw [key2int_eq hn, toList_int2key hn hkey, value_range]
  exact Nat.mod_eq_of_lt hlt

end Int

/--
The order inside the leaves is the order of the model's integers, and the loops on the bytes are
arithmetic modulo `256 ^ keyLen`.
-/
theorem key_arithmetic (hn : keyLen ≤ 8) (a b : KeyArray keyLen) (d : UInt8)
    : (less a b = true ↔ key2int128 a < key2int128 b)
      ∧ key2int128 a = key2int a
      ∧ key2int (add a d) = (key2int a + d.toNat) % 256 ^ keyLen
      ∧ (key2int (sub a d) : Int) = ((key2int a : Int) - d.toNat) % 256 ^ keyLen
      ∧ addOne a = add a 1
      ∧ ∀ x : UInt64, x ≠ 0 → x.toNat < 256 ^ keyLen
          → key2int (int2key x : KeyArray keyLen) = x.toNat := by
  have hlen : a.toList.reverse.length = keyLen := by simp
  refine ⟨?_, ?_, ?_, ?_, ?_, fun x hx hlt => key2int_int2key hn hx hlt⟩
  . rw [key2int128_eq hn, key2int128_eq hn]
    apply lexicographicalCompare_iff
    simp
  . rw [key2int128_eq hn, key2int_eq hn]
  . obtain ⟨c, hc⟩ := value_addLoop a.toList.reverse d
    have hlt := value_lt (addLoop a.toList.reverse d)
    rw [length_addLoop, hlen] at hlt
    rw [hlen] at hc
    rw [key2int_eq hn, key2int_eq hn, add, toList_ofReverse, hc, Nat.add_mul_mod_self_right]
    exact (Nat.mod_eq_of_lt hlt).symm
  . obtain ⟨c, hc⟩ := value_subLoop a.toList.reverse d
    have hlt := value_lt (subLoop a.toList.reverse d)
    rw [length_subLoop, hlen] at hlt
    rw [hlen] at hc
    rw [key2int_eq hn, key2int_eq hn, sub, toList_ofReverse]
    have hdiff : (value a.toList.reverse : Int) - d.toNat
        = value (subLoop a.toList.reverse d) + (256 : Int) ^ keyLen * (-c) := by
      have hc' : (value a.toList.reverse : Int) + c * 256 ^ keyLen
          = value (subLoop a.toList.reverse d) + d.toNat := by exact_mod_cast hc
      linarith
    rw [hdiff, Int.add_mul_emod_self_left]
    exact (Int.emod_eq_of_lt (by positivity) (by exact_mod_cast hlt)).symm
  . unfold addOne add
    congr 1
    exact addOneLoop_eq _

-- a carry and a borrow through two bytes
theorem key_arithmetic_three_bytes
    : less (#v[1, 255, 255] : KeyArray 3) #v[2, 0, 0] = true
      ∧ key2int (add #v[1, 255, 255] 1) = (key2int #v[1, 255, 255] + 1) % 256 ^ 3
      ∧ (key2int (sub #v[2, 0, 0] 1) : Int) = ((key2int #v[2, 0, 0] : Int) - 1) % 256 ^ 3
      ∧ addOne (#v[1, 255, 255] : KeyArray 3) = add #v[1, 255, 255] 1
      ∧ key2int (int2key 131072 : KeyArray 3) = 131072 := by
  obtain ⟨hless, -, hadd, -, hone, hint⟩ := key_arithmetic (by decide) #v[1, 255, 255] #v[2, 0, 0] 1
  obtain ⟨-, -, -, hsub, -⟩ := key_arithmetic (by decide) #v[2, 0, 0] #v[2, 0, 0] 1
  exact ⟨hless.mpr (by decide), hadd, hsub, hone, hint 131072 (by decide) (by decide)⟩

end KeyArray

section Key

theorem lexicographicalCompare_iff_lt (a b : List UInt8)
    : KeyArray.lexicographicalCompare a b = true ↔ a.map UInt8.toNat < b.map UInt8.toNat := by
  fun_induction KeyArray.lexicographicalCompare a b with
  | case1 a => simp
  | case2 y ys => simp
  | case3 x xs y ys hxy =>
    rw [UInt8.lt_iff_toNat_lt] at hxy
    simp [List.cons_lt_cons_iff, hxy]
  | case4 x xs y ys hxy hyx =>
    rw [UInt8.lt_iff_toNat_lt] at hyx
    simp only [List.map_cons, List.cons_lt_cons_iff, Bool.false_eq_true, false_iff]
    omega
  | case5 x xs y ys hxy hyx ih =>
    rw [UInt8.lt_iff_toNat_lt] at hxy hyx
    have heq : x.toNat = y.toNat := by omega
    rw [ih, List.map_cons, List.map_cons, List.cons_lt_cons_iff, heq]
    simp

theorem Key.lt_iff_less {a b : Key} : a < b ↔ KeyArray.less a.bytes b.bytes = true :=
  (lexicographicalCompare_iff_lt a.bytes.toList b.bytes.toList).symm

theorem key2int_eq_key2int128 (k : Key) : key2int k = KeyArray.key2int128 k.bytes := by
  rw [@KeyArray.key2int128_eq keyLen (by decide) k.bytes, KeyArray.value_reverse]
  rfl

theorem key2int_lt_iff {a b : Key} : key2int a < key2int b ↔ a < b := by
  rw [Key.lt_iff_less, key2int_eq_key2int128, key2int_eq_key2int128,
    @KeyArray.key2int128_eq keyLen (by decide), @KeyArray.key2int128_eq keyLen (by decide)]
  apply (KeyArray.lexicographicalCompare_iff _).symm
  simp

theorem key2int_mono {a b : Key} (h : a ≤ b) : key2int a ≤ key2int b := by
  rw [← not_lt] at h ⊢
  rw [key2int_lt_iff]
  exact h

theorem key2int_lt (k : Key) : key2int k < 2 ^ 64 := by
  rw [key2int_eq_key2int128, @KeyArray.key2int128_eq keyLen (by decide)]
  have h := KeyArray.value_lt k.bytes.toList.reverse
  rw [List.length_reverse, Vector.length_toList] at h
  exact h

end Key

end Rolex
