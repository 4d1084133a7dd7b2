import Rolex.Index.Sequential

/-!
This module contains what `insert` does to a key that is stored already. The declaration in `Rolex.h`
says that it updates the value; all exits for an existing key leave it.
-/

namespace Rolex

section Calls

variable {ι : Type} [DecidableEq ι] {i : ι} {m m' : Mem ι} {cache : Cache} {k : Key} {v w : Value}
variable {a : GlobalAddress}

theorem insert_run_of_has (h : m.Inv) (hr : Routed cache k a) (hk : k ≠ kkeyNull)
    (hw : (m.group a).Has k w) (v : Value)
    : ∃ m', (insert cache k v).run (exec i) m = some ([], m') ∧ GroupStep m a (m.group a) m' := by
  have ha := hr.isLeaf
  have hplan := ((h.group a ha).insertLocally_eq_existing (v := v) hk).mpr ⟨w, hw⟩
  rcases insert_run (i := i) h hr v with ⟨-, hnone⟩ | ⟨m', addr, hrun, -, hstep⟩
  . rw [insert_run_eq hr] at hnone
    exact absurd hnone (insertLocked_run_existing (h.unlocked a ha) hplan)
  . rw [(h.group a ha).insert_of_has hk hw] at hstep
    rw [hplan] at hrun
    exact ⟨m', hrun, hstep⟩

omit [DecidableEq ι] in
theorem GroupStep.group_eq (h : GroupStep m a (m.group a) m') {b : GlobalAddress} (hb : IsLeaf b)
    : m'.group b = m.group b := by
  rw [h.group b hb]
  split
  . next hba => rw [hba]
  . rfl

theorem Reachable.search_of_has (h : Reachable cache m) (hinv : m'.Inv)
    (hgroup : ∀ b, IsLeaf b → m'.group b = m.group b) (ha : IsLeaf a) (hk : k ≠ kkeyNull)
    (hw : (m.group a).Has k w)
    : (search cache k).run (exec i) m' = some (some w, m') := by
  have hr := h.routed ha hk hw
  obtain ⟨res, hrun, hres⟩ := search_run (i := i) hinv hk hr (by
    intro b hb hne u hu
    rw [hgroup b hb] at hu
    exact hne ((h.routed hb hk hu).unique hr))
  rw [hrun, (hres w).mpr (by rwa [hgroup a ha])]

/--
An insert of a stored key returns. Afterwards the key has the new value, and all other keys have
theirs, exactly if the new value is the old one.
-/
theorem insert_updates_existing_iff (h : Reachable cache m) (ha : IsLeaf a) (hk : k ≠ kkeyNull)
    (hw : (m.group a).Has k w) (v : Value)
    : ∃ m', (insert cache k v).run (exec i) m = some ([], m')
        ∧ ((search cache k).run (exec i) m' = some (some v, m')
            ∧ (∀ k' b w', k' ≠ kkeyNull → k' ≠ k → IsLeaf b → (m.group b).Has k' w'
                → (search cache k').run (exec i) m' = some (some w', m'))
          ↔ w = v) := by
  obtain ⟨m', hrun, hstep⟩ := insert_run_of_has (i := i) h.inv (h.routed ha hk hw) hk hw v
  have hinv := h.inv.step hstep (h.inv.group a ha)
  have hsearch : ∀ {k' b w'}, k' ≠ kkeyNull → IsLeaf b → (m.group b).Has k' w'
      → (search cache k').run (exec i) m' = some (some w', m') :=
    fun hk' hb hw' => h.search_of_has hinv (fun b hb => hstep.group_eq hb) hb hk' hw'
  refine ⟨m', hrun, ?_⟩
  constructor
  . rintro ⟨hv, -⟩
    rw [hsearch hk ha hw] at hv
    simpa using hv
  . rintro rfl
    exact ⟨hsearch hk ha hw, fun k' b w' hk' _ hb hw' => hsearch hk' hb hw'⟩

theorem insert_updates_existing_iff_sample
    : ∃ (C : RolexCache) (m m' : Mem Unit), RolexCache.new sampleKeys = some C
        ∧ insertAll () C.toCache (samplePairs 1000001 1) Mem.init = some m
        ∧ (insert C.toCache (int2key 1000001) 7).run (exec ()) m = some ([], m')
        ∧ (search C.toCache (int2key 1000001)).run (exec ()) m' = some (some 7, m') := by
  have hrun : ((RolexCache.new sampleKeys).bind (fun C =>
      (insertAll () C.toCache (samplePairs 1000001 1) Mem.init).map (fun m : Mem Unit =>
        let e := (m.node (GlobalAddress.of 0 8389520)).records.get 0
        (e.key, e.value)))) = some (int2key 1000001, 7) := by
    decide +kernel
  obtain ⟨C, hC, hrun⟩ := Option.bind_eq_some_iff.mp hrun
  obtain ⟨m, hm, hrec⟩ := Option.map_eq_some_iff.mp hrun
  obtain ⟨hkey, hvalue⟩ := Prod.mk.injEq .. ▸ hrec
  have ha : IsLeaf (GlobalAddress.of 0 8389520) := ⟨3, by decide⟩
  have hhas : (m.group (GlobalAddress.of 0 8389520)).Has (int2key 1000001) 7 :=
    .inl ⟨0, by decide, hkey, hvalue⟩
  obtain ⟨m', hins, hiff⟩ := insert_updates_existing_iff (i := ()) (Reachable.init.insertAll (by decide) hm) ha
    (by decide) hhas 7
  exact ⟨C, m, m', hC, hm, hins, (hiff.mpr rfl).1⟩

set_option maxRecDepth 10000 in
theorem insert_leaves_existing_value
    : ∃ (C : RolexCache) (m m' m'' : Mem Unit), RolexCache.new sampleKeys = some C
        ∧ insertAll () C.toCache [(int2key 1000001, 7)] Mem.init = some m
        ∧ (insert C.toCache (int2key 1000001) 9).run (exec ()) m = some ([], m')
        ∧ (search C.toCache (int2key 1000001)).run (exec ()) m' = some (some 7, m'') := by
  have hrun : ((RolexCache.new sampleKeys).bind (fun C =>
      (insertAll () C.toCache [(int2key 1000001, 7)] Mem.init).bind (fun m : Mem Unit =>
        ((insert C.toCache (int2key 1000001) 9).run (exec ()) m).bind (fun r =>
          ((search C.toCache (int2key 1000001)).run (exec ()) r.2).map (fun r' => (r.1, r'.1))))))
      = some ([], some 7) := by
    decide +kernel
  obtain ⟨C, hC, hrun⟩ := Option.bind_eq_some_iff.mp hrun
  obtain ⟨m, hm, hrun⟩ := Option.bind_eq_some_iff.mp hrun
  obtain ⟨⟨o, m'⟩, hm', hrun⟩ := Option.bind_eq_some_iff.mp hrun
  obtain ⟨⟨res, m''⟩, hm'', hres⟩ := Option.map_eq_some_iff.mp hrun
  simp only [Prod.mk.injEq] at hres
  obtain ⟨rfl, rfl⟩ := hres
  exact ⟨C, m, m', m'', hC, hm, hm', hm''⟩

end Calls

end Rolex
