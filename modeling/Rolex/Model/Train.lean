import Rolex.Common
import Rolex.Model.PlrRun

/-!
This module contains the training of the model (`rolex.hpp`, `submodel.hpp`): the keys are cut into
segments, each of which is served by one line. Keys are unbounded, as are the counters that the
source keeps in `int` and `size_t`.
-/

namespace Rolex

open Hull

/-- `SubModel`. Of the leaf table only the number of its entries is used. -/
structure SubModel where
  slope : Rat
  intercept : Rat
  tableSize : Nat
  capacity : Nat

/-- The constructor, which gives the leaf table one entry more than the keys fill. -/
def SubModel.new (slope intercept : Rat) (size : Nat) : SubModel where
  slope := slope
  intercept := intercept
  tableSize := 1 + (size / leafSpanSize + if size % leafSpanSize ≠ 0 then 1 else 0)
  capacity := size

theorem SubModel.lt_tableSize_new {slope intercept : Rat} {size : Nat}
    : size / leafSpanSize < (SubModel.new slope intercept size).tableSize := by
  unfold SubModel.new
  dsimp only
  omega

/-- The error that the segments are built with. -/
def trainEpsilon : Int := epsilon - 1

/-- The class `Rolex`. -/
structure RolexModel where
  modelKeys : List Nat
  models : List SubModel
  leafIdxOffsets : List Nat
  capacityOffsets : List Nat

namespace RolexModel

def init : RolexModel := ⟨[], [], [0], [0]⟩

/-- `Rolex::append_model` for the `size` keys from `keysBegin` on. -/
def appendModel (R : RolexModel) (line : Rat × Rat) (keysBegin : List Nat) (size : Nat)
    : Option RolexModel := do
  let key ← keysBegin[size - 1]?
  let model := SubModel.new line.1 line.2 size
  let leafNumSum ← R.leafIdxOffsets.getLast?
  let capacitySum ← R.capacityOffsets.getLast?
  return {
    modelKeys := R.modelKeys ++ [key]
    models := R.models ++ [model]
    leafIdxOffsets := R.leafIdxOffsets ++ [leafNumSum + model.tableSize]
    capacityOffsets := R.capacityOffsets ++ [capacitySum + model.capacity] }

/--
`Rolex::train`: the keys left to add, the segment being built, whose last point is `(p, pos)`, and
the keys from its first on.
-/
def train.go (keys : List Nat) (opt : Plr) (p pos : Nat) (kIter : List Nat) (R : RolexModel)
    : Option RolexModel :=
  match keys with
  | [] => R.appendModel opt.getSegment.getSlopeIntercept kIter (pos + 1)
  | nextP :: keys =>
    -- duplicate keys end the program
    if nextP = p then
      none
    else do
      let pos := pos + 1
      let (added, opt) ← opt.addPoint nextP pos
      if added then
        go keys opt nextP pos kIter R
      else do
        let R ← R.appendModel opt.getSegment.getSlopeIntercept kIter pos
        let (_, opt) ← (Plr.new trainEpsilon).addPoint nextP 0
        go keys opt nextP 0 (kIter.drop pos) R

def train (keys : List Nat) : Option RolexModel :=
  match keys with
  | [] => some init
  | p :: keys' => do
    let (_, opt) ← (Plr.new trainEpsilon).addPoint p 0
    train.go keys' opt p 0 keys init

end RolexModel

/-- What `SubModel` keeps of the keys `seg` it was trained on. -/
structure SubModel.Trained (model : SubModel) (seg : List Nat) : Prop where
  pos : 0 < seg.length
  capacity : model.capacity = seg.length
  tableSize : seg.length / leafSpanSize < model.tableSize
  slope : 0 ≤ model.slope
  lower : ∀ i (hi : i < seg.length), (i : Rat) - trainEpsilon ≤ model.slope * seg[i] + model.intercept
  nonneg : ∀ i (hi : i < seg.length), 0 ≤ model.slope * seg[i] + model.intercept
  upper : ∀ i (hi : i < seg.length), model.slope * seg[i] + model.intercept ≤ i + trainEpsilon

/-- The segments `segs` that the model has been trained on so far. -/
structure RolexModel.Trained (R : RolexModel) (segs : List (List Nat)) : Prop where
  models : List.Forall₂ SubModel.Trained R.models segs
  modelKeys : List.Forall₂ (fun key seg => seg.getLast? = some key) R.modelKeys segs
  leafIdxOffsets : R.leafIdxOffsets.length = segs.length + 1
  leafOffsets : ∀ j ≤ segs.length,
    R.leafIdxOffsets[j]? = some ((R.models.take j).map SubModel.tableSize).sum
  capacityOffsets : ∀ j ≤ segs.length, R.capacityOffsets[j]? = some (segs.take j).flatten.length
  capacityLength : R.capacityOffsets.length = segs.length + 1

namespace RolexModel

theorem init_trained : init.Trained [] where
  models := .nil
  modelKeys := .nil
  leafIdxOffsets := rfl
  leafOffsets := by
    intro j hj
    obtain rfl : j = 0 := Nat.le_zero.mp hj
    rfl
  capacityOffsets := by
    intro j hj
    obtain rfl : j = 0 := Nat.le_zero.mp hj
    rfl
  capacityLength := rfl

theorem appendModel_spec {R : RolexModel} {segs : List (List Nat)} {line : Rat × Rat}
    {seg : List Nat} (h : R.Trained segs)
    (hmodel : (SubModel.new line.1 line.2 seg.length).Trained seg) (rest : List Nat)
    : ∃ R', R.appendModel line (seg ++ rest) seg.length = some R' ∧ R'.Trained (segs ++ [seg]) := by
  have hpos := hmodel.pos
  have hkey : (seg ++ rest)[seg.length - 1]? = seg.getLast? := by
    rw [List.getElem?_append_left (by omega), List.getLast?_eq_getElem?]
  obtain ⟨key, hlast⟩ : ∃ key, seg.getLast? = some key :=
    ⟨_, List.getLast?_eq_getLast_of_ne_nil (List.length_pos_iff.mp hpos)⟩
  have hmodels := h.models.length_eq
  have hsum : R.leafIdxOffsets.getLast? = some (R.models.map SubModel.tableSize).sum := by
    rw [List.getLast?_eq_getElem?, h.leafIdxOffsets, Nat.add_sub_cancel,
      h.leafOffsets _ (le_refl _), ← hmodels, List.take_length]
  have hcap : R.capacityOffsets.getLast? = some segs.flatten.length := by
    rw [List.getLast?_eq_getElem?, h.capacityLength, Nat.add_sub_cancel,
      h.capacityOffsets _ (le_refl _), List.take_length]
  refine ⟨_, by simp only [appendModel, hkey, hlast, hsum, hcap, Option.bind_eq_bind,
    Option.bind_some]; rfl, ?_⟩
  refine ⟨?_, ?_, ?_, ?_, ?_, ?_⟩
  . exact List.rel_append h.models (.cons hmodel .nil)
  . exact List.rel_append h.modelKeys (.cons hlast .nil)
  . simp [h.leafIdxOffsets]
  . intro j hj
    simp only [List.length_append, List.length_cons, List.length_nil] at hj
    rcases Nat.lt_or_ge segs.length j with hgt | hle
    . obtain rfl : j = segs.length + 1 := by omega
      rw [List.getElem?_append_right (by rw [h.leafIdxOffsets]), h.leafIdxOffsets, Nat.sub_self,
        List.take_of_length_le (by simp [hmodels])]
      simp
    . rw [List.getElem?_append_left (by rw [h.leafIdxOffsets]; omega), h.leafOffsets j hle,
        List.take_append_of_le_length (by omega)]
  . intro j hj
    simp only [List.length_append, List.length_cons, List.length_nil] at hj
    rcases Nat.lt_or_ge segs.length j with hgt | hle
    . obtain rfl : j = segs.length + 1 := by omega
      rw [List.getElem?_append_right (by rw [h.capacityLength]), h.capacityLength, Nat.sub_self,
        List.take_of_length_le (by simp)]
      simp [SubModel.new]
    . rw [List.getElem?_append_left (by rw [h.capacityLength]; omega), h.capacityOffsets j hle,
        List.take_append_of_le_length hle]
  . simp [h.capacityLength]

end RolexModel

section Segments

def points (seg : List Nat) : List Point := (seg.zipIdx.map (fun p => ⟨p.1, p.2⟩)).reverse

theorem points_append (seg : List Nat) (x : Nat)
    : points (seg ++ [x]) = ⟨x, seg.length⟩ :: points seg := by
  simp [points, List.zipIdx_append]

theorem mem_points {seg : List Nat} {p : Point}
    : p ∈ points seg ↔ ∃ i, ∃ hi : i < seg.length, p = ⟨seg[i], i⟩ := by
  simp only [points, List.mem_reverse, List.mem_map, List.mem_zipIdx_iff_getElem?, Prod.exists]
  constructor
  . rintro ⟨x, i, hx, rfl⟩
    obtain ⟨hi, rfl⟩ := List.getElem?_eq_some_iff.mp hx
    exact ⟨i, hi, rfl⟩
  . rintro ⟨i, hi, rfl⟩
    exact ⟨seg[i], i, List.getElem?_eq_getElem hi, rfl⟩

theorem segment_points {seg : List Nat} (hs : seg.Pairwise (· < ·)) (hlen : seg.length ≤ 2 ^ 64)
    : Plr.Segment (points seg) where
  mono := by
    intro p hp q hq hlt
    obtain ⟨i, hi, rfl⟩ := mem_points.mp hp
    obtain ⟨j, hj, rfl⟩ := mem_points.mp hq
    dsimp only at hlt ⊢
    by_contra hji
    have := List.pairwise_iff_getElem.mp hs j i hj hi (by omega)
    omega
  pos := by
    intro p hp
    obtain ⟨i, hi, rfl⟩ := mem_points.mp hp
    dsimp only [Plr.maxY]
    omega

namespace Plr

/-- The state of a segment that was trained on the keys `seg`. -/
def Open (o : Plr) (seg : List Nat) : Prop := Fitted trainEpsilon (points seg) o

theorem trainEpsilon_bounds : 0 ≤ trainEpsilon ∧ trainEpsilon ≤ maxY := by decide

theorem open_first (x : Nat)
    : ∃ o, (Plr.new trainEpsilon).addPoint x 0 = some (true, o) ∧ o.Open [x] :=
  ⟨_, rfl, .one rfl rfl rfl rfl rfl rfl rfl⟩

theorem Open.addPoint {o : Plr} {seg : List Nat} {x : Nat} (h : o.Open seg)
    (hs : (seg ++ [x]).Pairwise (· < ·)) (hlen : seg.length < 2 ^ 64)
    : ∃ added o', o.addPoint x seg.length = some (added, o')
        ∧ ((added = true ∧ o'.Open (seg ++ [x]))
            ∨ (added = false ∧ o'.getSegment = o.getSegment)) := by
  have hseg := (segment_points hs (by simp; omega)).pos
  have hlt : ∀ q ∈ points seg, q.x < x := by
    intro q hq
    obtain ⟨i, hi, rfl⟩ := mem_points.mp hq
    have := (List.pairwise_append.mp hs).2.2 _ (List.getElem_mem hi) x (by simp)
    dsimp only
    omega
  rw [points_append] at hseg
  obtain ⟨added, o', ho', hcase⟩ := Fitted.addPoint h trainEpsilon_bounds.1 trainEpsilon_bounds.2
    hseg hlt
  refine ⟨added, o', ho', ?_⟩
  rcases hcase with ⟨rfl, hopen⟩ | ⟨rfl, hsegment, -⟩
  . left
    rw [← points_append] at hopen
    exact ⟨rfl, hopen⟩
  . exact .inr ⟨rfl, hsegment⟩

theorem below_y {e x : Int} {i : Nat} : 0 ≤ (below e x i).y ∧ (i : Int) - e ≤ (below e x i).y := by
  unfold below
  dsimp only
  split <;> omega

theorem above_y {e x : Int} {i : Nat} : (above e x i).y ≤ i + e := by
  unfold above
  dsimp only
  split <;> omega

theorem Open.trained {o : Plr} {seg : List Nat} {x : Nat} (h : o.Open (seg ++ [x]))
    (hs : (seg ++ [x]).Pairwise (· < ·)) (hlen : (seg ++ [x]).length ≤ 2 ^ 64)
    : (SubModel.new o.getSegment.getSlopeIntercept.1 o.getSegment.getSlopeIntercept.2
        (seg ++ [x]).length).Trained (seg ++ [x]) := by
  have hseg := segment_points hs hlen
  rw [Open, points_append] at h
  obtain ⟨f, hf, hserves, hslope⟩ := h.line trainEpsilon_bounds.1 trainEpsilon_bounds.2
    (hseg.pos _ (by simp [points_append]))
  rw [← points_append] at hserves hslope
  rw [hf]
  have hbounds : ∀ i (hi : i < (seg ++ [x]).length),
      ((below trainEpsilon (seg ++ [x])[i] i).y : Rat) ≤ f.slope * (seg ++ [x])[i] + f.icept
      ∧ f.slope * (seg ++ [x])[i] + f.icept ≤ (above trainEpsilon (seg ++ [x])[i] i).y := by
    intro i hi
    have := hserves ⟨(seg ++ [x])[i], i⟩ (mem_points.mpr ⟨i, hi, rfl⟩)
    simpa [Line.eval] using this
  refine ⟨by simp, rfl, SubModel.lt_tableSize_new, hslope hseg, ?_, ?_, ?_⟩
  . intro i hi
    refine le_trans ?_ (hbounds i hi).1
    exact_mod_cast below_y.2
  . intro i hi
    refine le_trans ?_ (hbounds i hi).1
    exact_mod_cast below_y.1
  . intro i hi
    refine (hbounds i hi).2.trans ?_
    exact_mod_cast above_y

end Plr

end Segments

namespace RolexModel

theorem train.go_spec {keys seg : List Nat} {o : Plr} {p : Nat} {R : RolexModel}
    {segs : List (List Nat)} (hR : R.Trained segs) (ho : o.Open (seg ++ [p]))
    (hs : (segs.flatten ++ (seg ++ [p] ++ keys)).Pairwise (· < ·))
    (hlen : (segs.flatten ++ (seg ++ [p] ++ keys)).length ≤ 2 ^ 64)
    : ∃ R' segs', go keys o p seg.length (seg ++ [p] ++ keys) R = some R' ∧ R'.Trained segs'
        ∧ segs'.flatten = segs.flatten ++ (seg ++ [p] ++ keys) := by
  induction keys generalizing seg o p R segs with
  | nil =>
    have hsort : (seg ++ [p]).Pairwise (· < ·) := by
      simpa using (List.pairwise_append.mp hs).2.1
    have hlen' : (seg ++ [p]).length ≤ 2 ^ 64 := by
      simp at hlen ⊢
      omega
    obtain ⟨R', hR', htr⟩ := appendModel_spec hR (ho.trained hsort hlen') []
    refine ⟨R', segs ++ [seg ++ [p]], ?_, htr, by simp⟩
    simpa only [go, List.length_append, List.length_singleton] using hR'
  | cons nextP keys ih =>
    have hsplit : seg ++ [p] ++ nextP :: keys = seg ++ [p] ++ [nextP] ++ keys := by simp
    rw [hsplit] at hs hlen ⊢
    have hsort : (seg ++ [p] ++ [nextP]).Pairwise (· < ·) :=
      (List.pairwise_append.mp (List.pairwise_append.mp hs).2.1).1
    have hsort' := List.pairwise_append.mp hsort
    have hne : nextP ≠ p := by
      have := hsort'.2.2 p (by simp) nextP (by simp)
      omega
    have hlen' : (seg ++ [p]).length < 2 ^ 64 := by
      simp at hlen ⊢
      omega
    obtain ⟨added, o', ho', hcase⟩ := ho.addPoint hsort hlen'
    rw [List.length_append, List.length_singleton] at ho'
    rw [go, if_neg hne]
    dsimp only
    rw [ho']
    rcases hcase with ⟨rfl, hopen⟩ | ⟨rfl, hsegment⟩
    . simpa using ih hR hopen hs hlen
    . -- the segment is complete, the key begins the next one
      obtain ⟨R', hR', htr⟩ := appendModel_spec hR (ho.trained hsort'.1 hlen'.le) ([nextP] ++ keys)
      obtain ⟨o'', ho'', hopen⟩ := Plr.open_first nextP
      have hflat : (segs ++ [seg ++ [p]]).flatten ++ ([] ++ [nextP] ++ keys)
          = segs.flatten ++ (seg ++ [p] ++ [nextP] ++ keys) := by simp
      have hres := ih htr (show o''.Open ([] ++ [nextP]) from hopen) (hflat ▸ hs) (hflat ▸ hlen)
      rw [hflat, ← List.append_assoc] at hres
      rw [List.length_append, List.length_singleton, ← List.append_assoc] at hR'
      simp only [Option.bind_eq_bind, Option.bind_some, hsegment, hR', ho'']
      simpa using hres

theorem train_spec {keys : List Nat} (hs : keys.Pairwise (· < ·)) (hlen : keys.length ≤ 2 ^ 64)
    : ∃ R segs, train keys = some R ∧ R.Trained segs ∧ segs.flatten = keys := by
  cases keys with
  | nil => exact ⟨init, [], rfl, init_trained, rfl⟩
  | cons p keys =>
    obtain ⟨o, ho, hopen⟩ := Plr.open_first p
    obtain ⟨R, segs, hgo, htr, hflat⟩ :=
      train.go_spec init_trained (show o.Open ([] ++ [p]) from hopen) (by simpa using hs) (by simpa using hlen)
    refine ⟨R, segs, ?_, htr, by simpa using hflat⟩
    rw [train, ho]
    exact hgo

def twoSegments : List Nat := (List.range 32).map (· + 1) ++ (List.range 16).map (fun i => 1000000 + 10 * i)

end RolexModel

end Rolex
