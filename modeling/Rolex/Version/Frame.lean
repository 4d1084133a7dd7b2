import Rolex.Version.Manager

/-!
This module contains the images of nodes of any layout: a node is a sequence of objects that start with
their version, and its image has the version of the object that is cut in front of every 63 bytes behind
the first 64. It says which part of the image belongs to a segment of the node.
-/

namespace Rolex

/-- Where the objects of a node of at least one cacheline are. -/
structure Frame where
  size : Nat
  /-- The offset of the object that a byte belongs to, where its version stands. -/
  owner : Nat → Nat
  owner_le : ∀ x, owner x ≤ x
  owner_owner : ∀ x, owner (owner x) = owner x
  owner_mono : ∀ {x y}, x ≤ y → owner x ≤ owner y
  le_size : cachelineSize ≤ size

/-- The offset in the image at which the part for the bytes from `d` on starts. -/
def rawPos (d : Nat) : Nat := d + (d - 64 + 62) / 63

/-- The number of bytes from `d` to the next block. -/
def firstAfter (d : Nat) : Nat := 64 + 63 * ((d - 64 + 62) / 63) - d

theorem rawPos_add (d len : Nat)
    : rawPos (d + len) = rawPos d + (len + (len - min (firstAfter d) len + 62) / 63) := by
  unfold rawPos firstAfter
  omega

theorem rawPos_mono {d e : Nat} (h : d ≤ e) : rawPos d ≤ rawPos e := by
  unfold rawPos
  omega

theorem woven_congr {first len : Nat} {mark mark' : Nat → Nat → BitVec 8} {input input' out out' : Buffer}
    (hfirst : first ≤ len) (h : Weave.Woven 1 63 first len mark input out)
    (h' : Weave.Woven 1 63 first len mark' input' out') (hmark : ∀ i, i < len → mark i 0 = mark' i 0)
    (hinput : ∀ x, x < len → input x = input' x) {y : Nat} (hy : y < len + (len - first + 62) / 63)
    : out y = out' y := by
  by_cases hhead : y < first
  . rw [h.head hhead, h'.head hhead, hinput y (by omega)]
  . by_cases hversion : (y - first) % 64 = 0
    . have hpos : y = first + (1 + 63) * ((y - first) / 64) + 0 := by omega
      have hlt : first + 63 * ((y - first) / 64) < len := by omega
      rw [hpos, h.mark hlt (by omega), h'.mark hlt (by omega)]
      exact hmark _ hlt
    . have hpos : y = first + (1 + 63) * ((y - first) / 64) + 1 + ((y - first) % 64 - 1) := by omega
      have hlt : first + 63 * ((y - first) / 64) + ((y - first) % 64 - 1) < len := by omega
      rw [hpos, h.data (by omega) hlt, h'.data (by omega) hlt]
      exact hinput _ hlt

namespace Frame

variable {F : Frame} {node node' out : Buffer} {d e len y : Nat}

theorem size_eq (F : Frame) : 64 ≤ F.size := F.le_size

/-- Byte `y` of the image of a node. -/
def image (F : Frame) (node : Buffer) : Buffer :=
  fun y =>
    if y < 64 then
      node y
    else if (y - 64) % 64 = 0 then
      node (F.owner (64 + 63 * ((y - 64) / 64)))
    else
      node (64 + 63 * ((y - 64) / 64) + ((y - 64) % 64 - 1))

/-- An object starts at `d`, or the node ends there. -/
def Bound (F : Frame) (d : Nat) : Prop := F.owner d = d ∨ d = F.size

theorem image_data {x : Nat} (hx : x < 64) : F.image node x = node x := if_pos hx

theorem image_block {q t : Nat} (ht : t < 63)
    : F.image node (64 + 64 * q + 1 + t) = node (64 + 63 * q + t) := by
  unfold image
  rw [if_neg (by omega), if_neg (by omega)]
  congr 1
  omega

theorem image_version (q : Nat) : F.image node (64 + 64 * q) = node (F.owner (64 + 63 * q)) := by
  unfold image
  rw [if_neg (by omega), if_pos (by omega)]
  congr 2
  omega

theorem image_apply (F : Frame) (node : Buffer) (x : Nat)
    : F.image node (if x < 64 then x else x + (x - 64) / 63 + 1) = node x := by
  split
  . next hx => exact image_data hx
  . next hx =>
    have hpos : x + (x - 64) / 63 + 1 = 64 + 64 * ((x - 64) / 63) + 1 + (x - 64) % 63 := by omega
    have hval : 64 + 63 * ((x - 64) / 63) + (x - 64) % 63 = x := by omega
    rw [hpos, image_block (by omega), hval]

theorem woven_image (F : Frame) (node : Buffer) (d len : Nat)
    : Weave.Woven 1 63 (min (firstAfter d) len) len (fun i _ => node (F.owner (d + i)))
        (fun x => node (d + x)) (fun y => F.image node (rawPos d + y)) where
  head := by
    intro x hx
    rw [← F.image_apply node (d + x)]
    congr 1
    unfold rawPos
    unfold firstAfter at hx
    split
    . omega
    . omega
  mark := by
    intro b t hb ht
    have hpos : rawPos d + (min (firstAfter d) len + (1 + 63) * b + t)
        = 64 + 64 * ((d - 64 + 62) / 63 + b) := by
      unfold rawPos
      unfold firstAfter at hb ⊢
      omega
    have hval : d + (min (firstAfter d) len + 63 * b) = 64 + 63 * ((d - 64 + 62) / 63 + b) := by
      unfold firstAfter at hb ⊢
      omega
    rw [hpos, hval, image_version]
  data := by
    intro b t ht hlen
    have hpos : rawPos d + (min (firstAfter d) len + (1 + 63) * b + 1 + t)
        = 64 + 64 * ((d - 64 + 62) / 63 + b) + 1 + t := by
      unfold rawPos
      unfold firstAfter at hlen ⊢
      omega
    have hval : d + (min (firstAfter d) len + 63 * b + t)
        = 64 + 63 * ((d - 64 + 62) / 63 + b) + t := by
      unfold firstAfter at hlen ⊢
      omega
    rw [hpos, hval, image_block ht]

theorem eq_image_of_woven {mark : Nat → Nat → BitVec 8} {input : Buffer}
    (h : Weave.Woven 1 63 (min (firstAfter d) len) len mark input out)
    (hmark : ∀ i, i < len → mark i 0 = node (F.owner (d + i)))
    (hinput : ∀ x, x < len → input x = node (d + x)) (hy : rawPos d ≤ y)
    (hy' : y < rawPos (d + len))
    : out (y - rawPos d) = F.image node y := by
  have hadd := rawPos_add d len
  have heq := woven_congr (Nat.min_le_right _ _) h (F.woven_image node d len) hmark hinput
    (show y - rawPos d < _ by omega)
  rw [heq]
  congr 1
  omega

theorem image_congr_outside (he : F.Bound e)
    (h : ∀ x, x < F.size → x < d ∨ e ≤ x → node x = node' x) (hsize : y < rawPos F.size)
    (hy : y < rawPos d ∨ rawPos e ≤ y)
    : F.image node y = F.image node' y := by
  have h64 := F.size_eq
  unfold rawPos at hsize hy
  unfold image
  split
  . exact h y (by omega) (by omega)
  . split
    . next hge hmod =>
      have hle := F.owner_le (64 + 63 * ((y - 64) / 64))
      apply h
      . omega
      . rcases hy with hy | hy
        . left
          omega
        . right
          rcases he with he | he
          . rw [← he]
            apply F.owner_mono
            omega
          . omega
    . exact h _ (by omega) (by omega)

/-- Writing what is woven from a segment makes the image that of the node with this segment. -/
theorem image_write {img seg input : Buffer} {mark : Nat → Nat → BitVec 8}
    (he : F.Bound (d + len)) (himg : ∀ y, y < rawPos F.size → img y = F.image node y)
    (hnode : ∀ x, x < F.size → x < d ∨ d + len ≤ x → node x = node' x)
    (h : Weave.Woven 1 63 (min (firstAfter d) len) len mark input seg)
    (hmark : ∀ i, i < len → mark i 0 = node' (F.owner (d + i)))
    (hinput : ∀ x, x < len → input x = node' (d + x)) (hy : y < rawPos F.size)
    : memcpy img (rawPos d) seg 0 (rawPos (d + len) - rawPos d) y = F.image node' y := by
  have hmono := rawPos_mono (show d ≤ d + len by omega)
  unfold memcpy
  split
  . next hin =>
    rw [Nat.zero_add]
    exact eq_image_of_woven h hmark hinput hin.1 (by omega)
  . next hout =>
    rw [himg y hy]
    exact image_congr_outside he hnode hy (by omega)

end Frame

/-- The loop that puts the versions in front of the blocks, in all encoders of versions. -/
def generateVersions (len firstOffset : Nat) (objVersion : Nat → PackedVersion) (input output : Buffer)
    : Buffer :=
  Weave.weave versionSize blockSize len firstOffset (fun i _ => (objVersion i).toByte) input output

/-- The loop that compares the versions and takes the data out, in all decoders of versions. -/
def checkVersions (len firstOffset : Nat) (objVersion : Buffer → Nat → PackedVersion)
    (input output : Buffer) : Option Buffer :=
  Weave.unweave versionSize blockSize len firstOffset
    (fun out j cachelineVersion => decide (objVersion out j = .ofByte (cachelineVersion 0))) input output

section Loops

variable {len first : Nat} {owner : Nat → Nat} {input output out : Buffer}

theorem woven_generateVersions (node : Buffer)
    : Weave.Woven 1 63 first len (fun i _ => node (owner i)) node
        (generateVersions len first (fun i => .ofByte (node (owner i))) node output) := by
  unfold generateVersions
  simp only [PackedVersion.toByte_ofByte]
  exact Weave.woven_weave (by decide)

theorem checkVersions_eq_some (hfirst : first ≤ len) (howner : ∀ x, owner x ≤ x)
    : checkVersions len first (fun out j => .ofByte (out (owner j))) input output = some out
        ↔
      out = Weave.taken 1 63 first input output len
        ∧ Weave.Woven 1 63 first len (fun i _ => out (owner i)) out input := by
  have hlocal : Weave.Local 63 len fun (out : Buffer) j (m : Buffer) =>
      decide (PackedVersion.ofByte (out (owner j)) = .ofByte (m 0)) := by
    intro o o' j m hj h
    have hle := howner j
    dsimp only
    rw [h (owner j) (by omega)]
  unfold checkVersions
  rw [versionSize_eq, blockSize_eq]
  refine (Weave.unweave_eq_some (by decide) hfirst hlocal).trans (and_congr_right ?_)
  rintro rfl
  constructor
  . intro hacc
    refine ⟨?_, ?_, ?_⟩
    . intro x hx
      rw [Weave.taken_of_lt (by omega)]
      unfold Weave.pos
      rw [if_pos hx]
    . intro b t hb ht
      obtain rfl : t = 0 := by omega
      have heq := of_decide_eq_true (hacc b (Nat.zero_le b) hb)
      exact (PackedVersion.ofByte_injective heq).symm
    . intro b t ht hlen
      rw [Weave.taken_of_lt hlen, Weave.pos_block ht]
  . intro hw b _ hb
    apply decide_eq_true
    dsimp only
    rw [hw.mark hb (by decide)]

end Loops

namespace Frame

variable {F : Frame} {node img output : Buffer} {d len : Nat} {owner : Nat → Nat}

/-- The first `transSize` bytes of a buffer are the image of a node. -/
def IsImage (F : Frame) (node img : Buffer) : Prop := ∀ y, y < rawPos F.size → img y = F.image node y

theorem checkVersions_part {seg : Buffer}
    (hseg : ∀ y, y < rawPos (d + len) - rawPos d → seg y = F.image node (rawPos d + y))
    (howner : ∀ x, x < len → d + owner x = F.owner (d + x)) (hle : ∀ x, owner x ≤ x)
    : ∃ out, checkVersions len (min (firstAfter d) len) (fun out j => .ofByte (out (owner j))) seg output
          = some out
        ∧ ∀ x, x < len → out x = node (d + x) := by
  have hadd := rawPos_add d len
  have hw : Weave.Woven 1 63 (min (firstAfter d) len) len (fun i _ => node (F.owner (d + i)))
      (fun x => node (d + x)) seg := by
    have hwi := F.woven_image node d len
    refine ⟨?_, ?_, ?_⟩
    . intro x hx
      rw [hseg _ (by omega)]
      exact hwi.head hx
    . intro b t hb ht
      rw [hseg _ (by omega)]
      exact hwi.mark hb ht
    . intro b t ht hb
      rw [hseg _ (by omega)]
      exact hwi.data ht hb
  have htaken : ∀ x, x < len →
      Weave.taken 1 63 (min (firstAfter d) len) seg output len x = node (d + x) := by
    intro x hx
    rw [Weave.taken_of_lt hx, hw.apply_pos (by decide) hx]
  refine ⟨_, (checkVersions_eq_some (by omega) hle).mpr ⟨rfl, ?_, ?_, ?_⟩, htaken⟩
  . intro x hx
    rw [htaken x (by omega)]
    exact hw.head hx
  . intro b t hb ht
    have := hle (min (firstAfter d) len + 63 * b)
    rw [htaken _ (by omega), howner _ hb]
    exact hw.mark hb ht
  . intro b t ht hb
    rw [htaken _ hb]
    exact hw.data ht hb

theorem rawPos_zero : rawPos 0 = 0 := rfl

theorem min_firstAfter_zero (F : Frame) : min (firstAfter 0) F.size = 64 := by
  have := F.size_eq
  unfold firstAfter
  omega

/-- The versions of all objects have the node version of the first one. -/
def Uniform (F : Frame) (node : Buffer) : Prop :=
  ∀ x, x < F.size → Layout.nodeVersion node (F.owner x) = Layout.nodeVersion node 0

theorem owner_zero (F : Frame) : F.owner 0 = 0 := Nat.le_zero.mp (F.owner_le 0)

end Frame

def rawDistance (decodedLen : Int) : Int :=
  if decodedLen ≤ 0 then
    decodedLen
  else
    decodedLen + (decodedLen / blockSize + if decodedLen % blockSize = 0 then 0 else 1) * versionSize

/--
`get_offset_info` of both version managers, for the decoded offsets at which the segment starts and ends
and its length: `[raw_offset, raw_length, first_offset]`.
-/
def offsetInfo (firstOffset decodedStartOffset decodedEndOffset segmentLen : Nat) : Nat × Nat × Nat :=
  let dist : Int := decodedStartOffset - firstOffset
  let rawLength :=
    rawDistance (decodedEndOffset - firstOffset) - rawDistance (decodedStartOffset - firstOffset)
  if dist < 0 then
    (decodedStartOffset, rawLength.toNat, min (firstOffset - decodedStartOffset) segmentLen)
  else
    let versionCnt := (dist / blockSize + if dist % blockSize = 0 then 0 else 1).toNat
    (decodedStartOffset + versionCnt * versionSize, rawLength.toNat,
      min (firstOffset + versionCnt * blockSize - decodedStartOffset) segmentLen)

theorem offsetInfo_eq {d e : Nat} (h : d ≤ e) (len : Nat)
    : offsetInfo 64 d e len = (rawPos d, rawPos e - rawPos d, min (firstAfter d) len) := by
  have hdist : ∀ x : Nat, rawDistance ((x : Int) - (64 : Nat)) = (rawPos x : Int) - 64 := by
    intro x
    unfold rawDistance rawPos
    rw [blockSize_eq, versionSize_eq]
    split
    . omega
    . split
      . omega
      . omega
  unfold offsetInfo
  rw [blockSize_eq, versionSize_eq]
  dsimp only
  rw [hdist, hdist]
  unfold firstAfter rawPos
  split
  . simp only [Prod.mk.injEq]
    omega
  . simp only [Prod.mk.injEq]
    split
    . omega
    . omega

end Rolex
