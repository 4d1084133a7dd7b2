import Mathlib.Order.Monotone.Basic
import Rolex.Lib.System

/-!
This module contains clients beside one that takes the machine through numbered stages. What a state of
a stage looks like is up to the program; a client that only reads then samples states of stages that do
not decrease, and need not be told at which positions of the other one's run.
-/

namespace Prog

variable {Op : Type} {Res : Op → Type} {α β σ : Type}

section

variable (exec : (o : Op) → σ → Res o × σ)

/-- No operation of the program changes `g` of the machine. -/
def Keeps {γ : Type} (g : σ → γ) : Prog Op Res α → Prop
  | .ret _ => True
  | .fail => True
  | .op o k => (∀ s, g (exec o s).2 = g s) ∧ ∀ r, Keeps g (k r)

variable (P : Nat → σ → Prop)

/-- Run alone from stage `n` on, the program passes through states of stages that do not decrease. -/
def Ascends : Prog Op Res α → Nat → σ → Prop
  | .ret _, n, s => P n s
  | .fail, n, s => P n s
  | .op o k, n, s => P n s ∧ ∃ n', n ≤ n' ∧ Ascends (k (exec o s).1) n' (exec o s).2

/-- The program can return `a` when its operations see states of stages from `n` to `n'`, in order. -/
def Samples : Prog Op Res α → Nat → α → Nat → Prop
  | .ret b, n, a, n' => a = b ∧ n' = n
  | .fail, _, _, _ => False
  | .op o k, n, a, n' => ∃ u s, n ≤ u ∧ P u s ∧ Samples (k (exec o s).1) u a n'

end

variable {exec : (o : Op) → σ → Res o × σ} {P : Nat → σ → Prop} {s : σ} {n n' : Nat}

section Keeps

variable {γ : Type} {g : σ → γ}

theorem Keeps.bind {p : Prog Op Res α} {f : α → Prog Op Res β} (hp : p.Keeps exec g)
    (hf : ∀ a, (f a).Keeps exec g)
    : (p >>= f).Keeps exec g := by
  induction p with
  | ret a => exact hf a
  | fail => trivial
  | op o k ih => exact ⟨hp.1, fun r => ih r (hp.2 r)⟩

theorem ReadOnly.keeps {p : Prog Op Res α} (hp : p.ReadOnly exec) (g : σ → γ) : p.Keeps exec g := by
  induction p with
  | ret a => trivial
  | fail => trivial
  | op o k ih => exact ⟨fun s => congrArg g (hp.1 s), fun r => ih r (hp.2 r)⟩

theorem Keeps.comp {δ : Type} {p : Prog Op Res α} (hp : p.Keeps exec g) (f : γ → δ)
    : p.Keeps exec (fun s => f (g s)) := by
  induction p with
  | ret a => trivial
  | fail => trivial
  | op o k ih => exact ⟨fun s => congrArg f (hp.1 s), fun r => ih r (hp.2 r)⟩

theorem Keeps.eq_of_mem_states {p : Prog Op Res α} (hp : p.Keeps exec g) {x : σ}
    (hx : x ∈ p.states exec s)
    : g x = g s := by
  induction p generalizing s with
  | ret a => rw [List.mem_singleton.mp hx]
  | fail => rw [List.mem_singleton.mp hx]
  | op o k ih =>
    rcases List.mem_cons.mp hx with rfl | hx
    . rfl
    . exact (ih _ (hp.2 _) hx).trans (hp.1 s)

theorem Keeps.eq_of_run {p : Prog Op Res α} (hp : p.Keeps exec g) {a : α} {s' : σ}
    (h : p.run exec s = some (a, s'))
    : g s' = g s :=
  hp.eq_of_mem_states (mem_states_of_run exec h)

end Keeps

section Ascends

theorem ascends_of_states {p : Prog Op Res α} (h : ∀ x ∈ p.states exec s, P n x)
    : p.Ascends exec P n s := by
  induction p generalizing s with
  | ret a => exact h s List.mem_cons_self
  | fail => exact h s List.mem_cons_self
  | op o k ih =>
    refine ⟨h s List.mem_cons_self, n, Nat.le_refl n, ih _ fun x hx => ?_⟩
    exact h x (List.mem_cons_of_mem _ hx)

theorem Ascends.bind {p : Prog Op Res α} {f : α → Prog Op Res β} (hp : ∀ x ∈ p.states exec s, P n x)
    (hf : ∀ a s', p.run exec s = some (a, s') → (f a).Ascends exec P n s')
    : (p >>= f).Ascends exec P n s := by
  induction p generalizing s with
  | ret a => exact hf a s rfl
  | fail => exact hp s List.mem_cons_self
  | op o k ih =>
    refine ⟨hp s List.mem_cons_self, n, Nat.le_refl n, ih _ (fun x hx => ?_) hf⟩
    exact hp x (List.mem_cons_of_mem _ hx)

theorem Ascends.bind_ret {p : Prog Op Res α} (h : p.Ascends exec P n s) (g : α → β)
    : (p >>= fun a => .ret (g a)).Ascends exec P n s := by
  induction p generalizing s n with
  | ret a => exact h
  | fail => exact h
  | op o k ih =>
    obtain ⟨hn, n', hle, hk⟩ := h
    exact ⟨hn, n', hle, ih _ hk⟩

/-- The positions of a state sequence have stages from `n` on that do not decrease. -/
def Staged (P : Nat → σ → Prop) (l : List σ) (n : Nat) : Prop :=
  ∃ f : Nat → Nat, Monotone f ∧ n ≤ f 0 ∧ ∀ t x, l[t]? = some x → P (f t) x

theorem staged_singleton (h : P n s) : Staged P [s] n := by
  refine ⟨fun _ => n, monotone_const, Nat.le_refl n, fun t x hx => ?_⟩
  rw [List.mem_singleton.mp (List.mem_of_getElem? hx)]
  exact h

theorem Staged.cons {l : List σ} (h : P n s) (hle : n ≤ n') (hl : Staged P l n')
    : Staged P (s :: l) n := by
  obtain ⟨f, hmono, hf, hP⟩ := hl
  refine ⟨fun t => t.casesOn n f, ?_, Nat.le_refl n, ?_⟩
  . apply monotone_nat_of_le_succ
    intro t
    cases t with
    | zero => exact hle.trans hf
    | succ t => exact hmono (Nat.le_succ t)
  . intro t x hx
    cases t with
    | zero =>
      obtain rfl := Option.some.inj hx
      exact h
    | succ t => exact hP t x hx

theorem Ascends.staged {p : Prog Op Res α} (h : p.Ascends exec P n s)
    : Staged P (p.states exec s) n := by
  induction p generalizing s n with
  | ret a => exact staged_singleton h
  | fail => exact staged_singleton h
  | op o k ih =>
    obtain ⟨hn, n', hle, hk⟩ := h
    exact (ih _ hk).cons hn hle

end Ascends

section Samples

@[simp]
theorem samples_ret {b a : α}
    : (Prog.ret b : Prog Op Res α).Samples exec P n a n' ↔ a = b ∧ n' = n := Iff.rfl

@[simp]
theorem samples_fail {a : α}
    : (Prog.fail : Prog Op Res α).Samples exec P n a n' ↔ False := Iff.rfl

theorem samples_op {o : Op} {k : Res o → Prog Op Res α} {a : α}
    : (Prog.op o k).Samples exec P n a n'
        ↔
      ∃ u s, n ≤ u ∧ P u s ∧ (k (exec o s).1).Samples exec P u a n' := Iff.rfl

theorem samples_bind {p : Prog Op Res α} {f : α → Prog Op Res β} {b : β}
    : (p >>= f).Samples exec P n b n'
        ↔
      ∃ a u, p.Samples exec P n a u ∧ (f a).Samples exec P u b n' := by
  induction p generalizing n with
  | ret a =>
    constructor
    . intro h
      exact ⟨a, n, ⟨rfl, rfl⟩, h⟩
    . rintro ⟨_, _, ⟨rfl, rfl⟩, h⟩
      exact h
  | fail => simp
  | op o k ih =>
    simp only [op_bind, samples_op, ih]
    constructor
    . rintro ⟨u, s, hu, hs, a, v, hk, hf⟩
      exact ⟨a, v, ⟨u, s, hu, hs, hk⟩, hf⟩
    . rintro ⟨a, v, ⟨u, s, hu, hs, hk⟩, hf⟩
      exact ⟨u, s, hu, hs, a, v, hk, hf⟩

theorem Samples.le {p : Prog Op Res α} {a : α} (h : p.Samples exec P n a n') : n ≤ n' := by
  induction p generalizing n with
  | ret b => exact h.2.ge
  | fail => exact h.elim
  | op o k ih =>
    obtain ⟨u, s, hu, -, hk⟩ := h
    exact hu.trans (ih _ hk)

theorem ReadsAt.samples {l : List σ} {f : Nat → Nat} (hmono : Monotone f)
    (hP : ∀ t x, l[t]? = some x → P (f t) x) {p : Prog Op Res α} {a : α} {t t' : Nat}
    (h : p.ReadsAt exec l t a t')
    : p.Samples exec P (f t) a (f t') := by
  induction p generalizing t with
  | ret b => exact ⟨h.1, congrArg f h.2⟩
  | fail => exact h.elim
  | op o k ih =>
    obtain ⟨u, s, hu, hs, hk⟩ := h
    exact ⟨f u, s, hmono hu, hP u s hs, ih _ hk⟩

end Samples

end Prog

/-- A client that only reads, beside one that takes the machine through stages. -/
theorem System.samples_of_steps {Call Ans Op : Type} {Res : Op → Type} {σ : Type}
    {exec : Bool → (o : Op) → σ → Res o × σ} (body : Bool → Call → Prog Op Res Ans)
    {P : Nat → σ → Prop} {m : σ} {cw cr : Call} {a : Ans} {S : System Bool Call Ans Op Res σ}
    (hro : (body true cr).ReadOnly (exec true)) (hw : (body false cw).Ascends (exec false) P 0 m)
    (hsteps : System.Steps exec body (System.writerReader m cw cr) S)
    (hans : (S.clients true).answers = [a])
    : ∃ n n', (body true cr).Samples (exec true) P n a n' := by
  obtain ⟨t, ht⟩ := (System.observe_iff body hro).mp ⟨S, hsteps, hans⟩
  obtain ⟨f, hmono, -, hP⟩ := hw.staged
  exact ⟨f 0, f t, ht.samples hmono hP⟩
