import Mathlib.Tactic.Basic

/-!
This module contains buffers into which marks are woven: in front of every block of `B` bytes behind
the first ones stand `s` bytes that are not part of the data. It provides the loops that weave the
marks in and take them out again, and what these loops make of a buffer.
-/

namespace Weave

variable {β : Type}

/-- `n` bytes of `src` from `a` on, copied to `dst` from `d` on. -/
def copy (dst : Nat → β) (d : Nat) (src : Nat → β) (a n : Nat) : Nat → β :=
  fun x => if d ≤ x ∧ x < d + n then src (a + (x - d)) else dst x

theorem copy_of_lt {dst src : Nat → β} {d a n x : Nat} (h : x < d) : copy dst d src a n x = dst x := by
  unfold copy
  rw [if_neg (by omega)]

theorem copy_of_ge {dst src : Nat → β} {d a n x : Nat} (h : d + n ≤ x)
    : copy dst d src a n x = dst x := by
  unfold copy
  rw [if_neg (by omega)]

theorem copy_add {dst src : Nat → β} {d a n t : Nat} (h : t < n)
    : copy dst d src a n (d + t) = src (a + t) := by
  unfold copy
  rw [if_pos (by omega), Nat.add_sub_cancel_left]

section Loops

variable (s B len : Nat)

def weave.loop (mark : Nat → Nat → β) (input : Nat → β) (fuel i j : Nat) (output : Nat → β)
    : Nat → β :=
  match fuel with
  | 0 => output
  | fuel + 1 =>
    if i < len then
      let output := copy output j (mark i) 0 s
      let output := copy output (j + s) input i (min B (len - i))
      loop mark input fuel (i + B) (j + s + B) output
    else
      output

/-- The first `len` bytes of `input`, with `mark i` in front of the block that starts at `i`. -/
def weave (first : Nat) (mark : Nat → Nat → β) (input output : Nat → β) : Nat → β :=
  weave.loop s B len mark input (len + 1) first first (copy output 0 input 0 first)

def unweave.loop (accept : (Nat → β) → Nat → (Nat → β) → Bool) (input : Nat → β)
    (fuel i j : Nat) (output : Nat → β) : Option (Nat → β) :=
  match fuel with
  | 0 => none
  | fuel + 1 =>
    if j < len then
      let output := copy output j input (i + s) (min B (len - j))
      if accept output j (fun t => input (i + t)) then
        loop accept input fuel (i + s + B) (j + B) output
      else
        none
    else
      some output

/-- The data of a woven buffer, `none` when one of the marks is not accepted. -/
def unweave (first : Nat) (accept : (Nat → β) → Nat → (Nat → β) → Bool) (input output : Nat → β)
    : Option (Nat → β) :=
  unweave.loop s B len accept input (len + 1) first first (copy output 0 input 0 first)

end Loops

variable {s B first len : Nat} {mark : Nat → Nat → β} {input output out : Nat → β}

/-- `out` is `input` with the marks in front of its blocks. -/
structure Woven (s B first len : Nat) (mark : Nat → Nat → β) (input out : Nat → β) : Prop where
  head : ∀ {x}, x < first → out x = input x
  mark : ∀ {b t}, first + B * b < len → t < s → out (first + (s + B) * b + t) = mark (first + B * b) t
  data : ∀ {b t}, t < B → first + B * b + t < len →
    out (first + (s + B) * b + s + t) = input (first + B * b + t)

namespace weave

theorem loop_of_lt {fuel i j x : Nat} (hx : x < j)
    : weave.loop s B len mark input fuel i j output x = output x := by
  induction fuel generalizing i j output with
  | zero => rfl
  | succ fuel ih =>
    unfold loop
    split
    . dsimp only
      rw [ih (by omega), copy_of_lt (by omega), copy_of_lt hx]
    . rfl

theorem loop_of_le {fuel i j : Nat} (hi : len ≤ i)
    : weave.loop s B len mark input fuel i j output = output := by
  cases fuel with
  | zero => rfl
  | succ fuel =>
    unfold loop
    rw [if_neg (by omega)]

theorem loop_of_ge (hB : 0 < B) {fuel i j x : Nat}
    (hx : j + (len - i) + s * ((len - i + (B - 1)) / B) ≤ x)
    : weave.loop s B len mark input fuel i j output x = output x := by
  induction fuel generalizing i j output with
  | zero => rfl
  | succ fuel ih =>
    unfold loop
    split
    . next hi =>
      dsimp only
      by_cases hlast : len ≤ i + B
      . have hceil : (len - i + (B - 1)) / B = 1 := by
          apply Nat.div_eq_of_lt_le
          . omega
          . omega
        rw [hceil, Nat.mul_one] at hx
        rw [loop_of_le hlast, copy_of_ge (by omega), copy_of_ge (by omega)]
      . have hsub : len - i + (B - 1) = len - (i + B) + (B - 1) + B := by omega
        rw [hsub, Nat.add_div_right _ hB, Nat.mul_succ] at hx
        rw [ih (by omega), copy_of_ge (by omega), copy_of_ge (by omega)]
    . rfl

theorem loop_block (hB : 0 < B) {fuel i j b : Nat} (hfuel : len < i + fuel) (hb : i + B * b < len)
    : (∀ t, t < s → weave.loop s B len mark input fuel i j output (j + (s + B) * b + t)
          = mark (i + B * b) t)
        ∧ ∀ t, t < B → i + B * b + t < len →
            weave.loop s B len mark input fuel i j output (j + (s + B) * b + s + t)
              = input (i + B * b + t) := by
  induction b generalizing fuel i j output with
  | zero =>
    cases fuel with
    | zero => omega
    | succ fuel =>
      rw [Nat.mul_zero, Nat.add_zero] at hb
      unfold loop
      rw [if_pos hb]
      simp only [Nat.mul_zero, Nat.add_zero]
      constructor
      . intro t ht
        rw [loop_of_lt (by omega), copy_of_lt (by omega), copy_add ht, Nat.zero_add]
      . intro t ht hlen
        rw [loop_of_lt (by omega), copy_add (by omega)]
  | succ b ih =>
    cases fuel with
    | zero => omega
    | succ fuel =>
      rw [Nat.mul_succ] at hb
      unfold loop
      rw [if_pos (by omega)]
      have hi : i + B * (b + 1) = i + B + B * b := by
        rw [Nat.mul_succ]
        omega
      have hj : j + (s + B) * (b + 1) = j + s + B + (s + B) * b := by
        rw [Nat.mul_succ]
        omega
      rw [hi, hj]
      apply ih (by omega)
      omega

end weave

theorem woven_weave (hB : 0 < B)
    : Woven s B first len mark input (weave s B len first mark input output) where
  head := by
    intro x hx
    unfold weave
    rw [weave.loop_of_lt hx]
    unfold copy
    rw [if_pos (by omega), Nat.sub_zero, Nat.zero_add]
  mark := by
    intro b t hb ht
    exact (weave.loop_block hB (by omega) hb).1 t ht
  data := by
    intro b t ht hlen
    exact (weave.loop_block hB (by omega) (by omega)).2 t ht hlen

theorem weave_of_ge (hB : 0 < B) (hfirst : first ≤ len) {x : Nat}
    (hx : len + s * ((len - first + (B - 1)) / B) ≤ x)
    : weave s B len first mark input output x = output x := by
  unfold weave
  rw [weave.loop_of_ge hB (by omega), copy_of_ge (by omega)]

theorem copy_congr {dst src src' : Nat → β} {d a n : Nat} (h : ∀ x, a ≤ x → x < a + n → src x = src' x)
    : copy dst d src a n = copy dst d src' a n := by
  funext x
  unfold copy
  split
  . exact h _ (by omega) (by omega)
  . rfl

theorem weave.loop_congr {mark' : Nat → Nat → β} {input' : Nat → β}
    (hmark : ∀ i t, i < len → t < s → mark i t = mark' i t) (hinput : ∀ x, x < len → input x = input' x)
    {fuel i j : Nat}
    : weave.loop s B len mark input fuel i j output = weave.loop s B len mark' input' fuel i j output := by
  induction fuel generalizing i j output with
  | zero => rfl
  | succ fuel ih =>
    unfold loop
    split
    . next hi =>
      have hinput' : ∀ x, i ≤ x → x < i + min B (len - i) → input x = input' x :=
        fun x _ hx => hinput x (by omega)
      dsimp only
      rw [copy_congr (fun t _ ht => hmark i t hi (by omega)), copy_congr hinput', ih]
    . rfl

theorem weave_congr {mark' : Nat → Nat → β} {input' : Nat → β} (hfirst : first ≤ len)
    (hmark : ∀ i t, i < len → t < s → mark i t = mark' i t) (hinput : ∀ x, x < len → input x = input' x)
    : weave s B len first mark input output = weave s B len first mark' input' output := by
  unfold weave
  rw [copy_congr (fun x _ hx => hinput x (by omega)), weave.loop_congr hmark hinput]

/-- Where byte `x` of the data stands. -/
def pos (s B first x : Nat) : Nat :=
  if x < first then x else first + (s + B) * ((x - first) / B) + s + (x - first) % B

/-- The first `n` bytes of the data taken out of `input`. -/
def taken (s B first : Nat) (input output : Nat → β) (n : Nat) : Nat → β :=
  fun x => if x < n then input (pos s B first x) else output x

theorem taken_of_lt {n x : Nat} (hx : x < n)
    : taken s B first input output n x = input (pos s B first x) := if_pos hx

theorem pos_block {b t : Nat} (ht : t < B)
    : pos s B first (first + B * b + t) = first + (s + B) * b + s + t := by
  have hsub : first + B * b + t - first = B * b + t := by omega
  unfold pos
  rw [if_neg (by omega), hsub, Nat.mul_add_div (by omega), Nat.mul_add_mod,
    Nat.div_eq_of_lt ht, Nat.mod_eq_of_lt ht, Nat.add_zero]

theorem exists_block (hB : 0 < B) {x : Nat} (hx : first ≤ x)
    : ∃ b t, t < B ∧ x = first + B * b + t := by
  refine ⟨(x - first) / B, (x - first) % B, Nat.mod_lt _ hB, ?_⟩
  have := Nat.div_add_mod (x - first) B
  omega

theorem Woven.apply_pos (h : Woven s B first len mark input out) (hB : 0 < B) {x : Nat} (hx : x < len)
    : out (pos s B first x) = input x := by
  by_cases hfirst : x < first
  . unfold pos
    rw [if_pos hfirst]
    exact h.head hfirst
  . obtain ⟨b, t, ht, rfl⟩ := exists_block hB (Nat.le_of_not_lt hfirst)
    rw [pos_block ht]
    exact h.data ht hx

/-- Whether the mark in front of block `j` is accepted depends on the data up to this block. -/
def Local (B len : Nat) (accept : (Nat → β) → Nat → (Nat → β) → Bool) : Prop :=
  ∀ (o o' : Nat → β) (j : Nat) (m : Nat → β), j < len →
    (∀ x, x < min (j + B) len → o x = o' x) → accept o j m = accept o' j m

/-- The marks of the blocks from `b` on are accepted. -/
def AcceptsFrom (s B first len : Nat) (accept : (Nat → β) → Nat → (Nat → β) → Bool)
    (input node : Nat → β) (b : Nat) : Prop :=
  ∀ b', b ≤ b' → first + B * b' < len →
    accept node (first + B * b') (fun t => input (first + (s + B) * b' + t)) = true

variable {accept : (Nat → β) → Nat → (Nat → β) → Bool} {node : Nat → β}

theorem acceptsFrom_of_le {b : Nat} (hle : len ≤ first + B * b)
    : AcceptsFrom s B first len accept input node b := by
  intro b' hb' hlt
  have := Nat.mul_le_mul_left B hb'
  omega

theorem acceptsFrom_iff {b : Nat} (hlt : first + B * b < len)
    : AcceptsFrom s B first len accept input node b
        ↔
      accept node (first + B * b) (fun t => input (first + (s + B) * b + t)) = true
        ∧ AcceptsFrom s B first len accept input node (b + 1) := by
  constructor
  . intro h
    exact ⟨h b (Nat.le_refl b) hlt, fun b' hb' => h b' (by omega)⟩
  . rintro ⟨hfirst, hrest⟩ b' hb'
    rcases Nat.eq_or_lt_of_le hb' with rfl | hb'
    . intro _
      exact hfirst
    . exact hrest b' hb'

namespace unweave

theorem copy_taken {b : Nat} (hb : first + B * b < len)
    : copy (taken s B first input output (first + B * b)) (first + B * b) input
        (first + (s + B) * b + s) (min B (len - (first + B * b)))
      = taken s B first input output (min (first + B * (b + 1)) len) := by
  funext x
  rw [Nat.mul_succ]
  by_cases hlt : x < first + B * b
  . rw [copy_of_lt hlt, taken_of_lt hlt, taken_of_lt (by omega)]
  . by_cases hx : x < min (first + (B * b + B)) len
    . obtain ⟨t, rfl⟩ : ∃ t, x = first + B * b + t := ⟨x - (first + B * b), by omega⟩
      rw [copy_add (by omega), taken_of_lt hx, pos_block (by omega)]
    . rw [copy_of_ge (by omega)]
      unfold taken
      rw [if_neg hlt, if_neg hx]

theorem loop_of_le {fuel b : Nat} (hle : len ≤ first + B * b)
    : unweave.loop s B len accept input (fuel + 1) (first + (s + B) * b) (first + B * b)
          (taken s B first input output (min (first + B * b) len)) = some out
        ↔
      out = taken s B first input output len
        ∧ AcceptsFrom s B first len accept input (taken s B first input output len) b := by
  unfold loop
  rw [if_neg (by omega), Nat.min_eq_right hle, Option.some.injEq]
  constructor
  . intro heq
    exact ⟨heq.symm, acceptsFrom_of_le hle⟩
  . intro heq
    exact heq.1.symm

theorem loop_eq_some (hB : 0 < B) (hacc : Local B len accept) {fuel b : Nat}
    (hfuel : len ≤ first + B * b + fuel)
    : unweave.loop s B len accept input (fuel + 1) (first + (s + B) * b) (first + B * b)
          (taken s B first input output (min (first + B * b) len)) = some out
        ↔
      out = taken s B first input output len
        ∧ AcceptsFrom s B first len accept input (taken s B first input output len) b := by
  induction fuel generalizing b with
  | zero => exact loop_of_le hfuel
  | succ fuel ih =>
    by_cases hlt : first + B * b < len
    . have hi : first + (s + B) * b + s + B = first + (s + B) * (b + 1) := by
        rw [Nat.mul_succ]
        omega
      have hj : first + B * b + B = first + B * (b + 1) := by
        rw [Nat.mul_succ]
        omega
      have hsame : accept (taken s B first input output (min (first + B * (b + 1)) len))
          (first + B * b) (fun t => input (first + (s + B) * b + t))
          = accept (taken s B first input output len) (first + B * b)
              (fun t => input (first + (s + B) * b + t)) := by
        apply hacc _ _ _ _ hlt
        intro x hx
        rw [taken_of_lt (by omega), taken_of_lt (by omega)]
      unfold loop
      rw [if_pos hlt, Nat.min_eq_left (by omega), copy_taken hlt]
      dsimp only
      rw [hsame, acceptsFrom_iff hlt, hi, hj]
      split
      . next hok =>
        have hrest := ih (b := b + 1) (by omega)
        rw [hrest, and_iff_right hok]
      . next hno => simp [hno]
    . exact loop_of_le (by omega)

end unweave

theorem unweave_eq_some (hB : 0 < B) (hfirst : first ≤ len) (hacc : Local B len accept)
    : unweave s B len first accept input output = some out
        ↔
      out = taken s B first input output len
        ∧ AcceptsFrom s B first len accept input (taken s B first input output len) 0 := by
  have hcopy : copy output 0 input 0 first
      = taken s B first input output (min (first + B * 0) len) := by
    funext x
    unfold copy taken pos
    rw [Nat.mul_zero, Nat.add_zero, Nat.min_eq_left hfirst]
    by_cases hx : x < first
    . simp [hx]
    . simp [hx]
  have hfuel : len ≤ first + B * 0 + len := by omega
  unfold unweave
  rw [hcopy]
  exact unweave.loop_eq_some hB hacc hfuel

end Weave
