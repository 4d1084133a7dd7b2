import Mathlib.Logic.Function.Basic

/-!
This module contains client programs as trees of operations on a shared machine: how they are
built, how one of them runs alone, and through which machine states it then passes.
-/

/--
A program of a client. `op o k` issues `o` and goes on with `k` applied to its result, `fail` is a
failed assertion.
-/
inductive Prog (Op : Type) (Res : Op → Type) (α : Type) where
  | ret (a : α)
  | fail
  | op (o : Op) (k : Res o → Prog Op Res α)

namespace Prog

variable {Op : Type} {Res : Op → Type} {α β σ : Type}

def bind (p : Prog Op Res α) (f : α → Prog Op Res β) : Prog Op Res β :=
  match p with
  | .ret a => f a
  | .fail => .fail
  | .op o k => .op o (fun r => (k r).bind f)

instance : Monad (Prog Op Res) where
  pure := .ret
  bind := bind

@[simp]
theorem pure_eq (a : α) : (pure a : Prog Op Res α) = .ret a := rfl

@[simp]
theorem ret_bind (a : α) (f : α → Prog Op Res β) : (Prog.ret a >>= f) = f a := rfl

@[simp]
theorem fail_bind (f : α → Prog Op Res β) : ((.fail : Prog Op Res α) >>= f) = .fail := rfl

@[simp]
theorem op_bind (o : Op) (k : Res o → Prog Op Res α) (f : α → Prog Op Res β)
    : (Prog.op o k >>= f) = .op o (fun r => k r >>= f) := rfl

@[simp]
theorem bind_ret (p : Prog Op Res α) : (p >>= Prog.ret) = p := by
  induction p with
  | ret a => rfl
  | fail => rfl
  | op o k ih => simp [ih]

theorem bind_assoc {γ : Type} (p : Prog Op Res α) (f : α → Prog Op Res β) (g : β → Prog Op Res γ)
    : ((p >>= f) >>= g) = (p >>= fun a => f a >>= g) := by
  induction p with
  | ret a => rfl
  | fail => rfl
  | op o k ih => simp [ih]

def call (o : Op) : Prog Op Res (Res o) := .op o .ret

@[simp]
theorem call_bind (o : Op) (f : Res o → Prog Op Res β) : (call o >>= f) = .op o f := rfl

/-- An assertion that yields a value. -/
def check : Option α → Prog Op Res α
  | some a => .ret a
  | none => .fail

@[simp]
theorem check_some (a : α) : (check (some a) : Prog Op Res α) = .ret a := rfl

@[simp]
theorem check_none : (check none : Prog Op Res α) = .fail := rfl

/-- Go on with the value of a computation whose assertions hold, else return the one that fails. -/
def attempt {ε : Type} (e : Except ε α) (f : α → Prog Op Res (Except ε β)) : Prog Op Res (Except ε β) :=
  match e with
  | .ok a => f a
  | .error x => .ret (.error x)

@[simp]
theorem attempt_ok {ε : Type} (a : α) (f : α → Prog Op Res (Except ε β))
    : attempt (.ok a) f = f a := rfl

@[simp]
theorem attempt_error {ε : Type} (x : ε) (f : α → Prog Op Res (Except ε β))
    : attempt (.error x) f = .ret (.error x) := rfl

section Run

variable (exec : (o : Op) → σ → Res o × σ)

/-- The program run without interruption, `none` when one of its assertions fails. -/
def run : Prog Op Res α → σ → Option (α × σ)
  | .ret a, s => some (a, s)
  | .fail, _ => none
  | .op o k, s => run (k (exec o s).1) (exec o s).2

@[simp]
theorem run_ret (a : α) (s : σ) : (Prog.ret a : Prog Op Res α).run exec s = some (a, s) := rfl

@[simp]
theorem run_fail (s : σ) : (Prog.fail : Prog Op Res α).run exec s = none := rfl

@[simp]
theorem run_op (o : Op) (k : Res o → Prog Op Res α) (s : σ)
    : (Prog.op o k).run exec s = (k (exec o s).1).run exec (exec o s).2 := rfl

@[simp]
theorem run_call (o : Op) (s : σ) : (call o : Prog Op Res (Res o)).run exec s = some (exec o s) := rfl

theorem run_bind (p : Prog Op Res α) (f : α → Prog Op Res β) (s : σ)
    : (p >>= f).run exec s = (p.run exec s).bind (fun r => (f r.1).run exec r.2) := by
  induction p generalizing s with
  | ret a => rfl
  | fail => rfl
  | op o k ih =>
    simp only [op_bind, run_op]
    apply ih

theorem run_bind_eq {p : Prog Op Res α} {a : α} {s s' : σ} (h : p.run exec s = some (a, s'))
    (f : α → Prog Op Res β)
    : (p >>= f).run exec s = (f a).run exec s' := by
  rw [run_bind, h]
  rfl

theorem run_bind_eq_some {p : Prog Op Res α} {f : α → Prog Op Res β} {s : σ} {x : β × σ}
    : (p >>= f).run exec s = some x
        ↔
      ∃ a s', p.run exec s = some (a, s') ∧ (f a).run exec s' = some x := by
  rw [run_bind, Option.bind_eq_some_iff, Prod.exists]

theorem run_check_eq_some {o : Option α} {s : σ} {x : α × σ}
    : (check o : Prog Op Res α).run exec s = some x ↔ o = some x.1 ∧ x.2 = s := by
  obtain ⟨a, s'⟩ := x
  cases o with
  | none => simp
  | some b => simp [eq_comm]

/-- The machine states a program passes through when it runs alone, the first one included. -/
def states : Prog Op Res α → σ → List σ
  | .ret _, s => [s]
  | .fail, s => [s]
  | .op o k, s => s :: states (k (exec o s).1) (exec o s).2

theorem states_eq_cons (p : Prog Op Res α) (s : σ) : ∃ l, p.states exec s = s :: l := by
  cases p with
  | ret a => exact ⟨[], rfl⟩
  | fail => exact ⟨[], rfl⟩
  | op o k => exact ⟨_, rfl⟩

theorem mem_states_self (p : Prog Op Res α) (s : σ) : s ∈ p.states exec s := by
  obtain ⟨l, hl⟩ := states_eq_cons exec p s
  rw [hl]
  exact List.mem_cons_self

theorem mem_states_of_run {p : Prog Op Res α} {a : α} {s s' : σ} (h : p.run exec s = some (a, s'))
    : s' ∈ p.states exec s := by
  induction p generalizing s with
  | ret b =>
    simp only [run_ret, Option.some.injEq, Prod.mk.injEq] at h
    simp [states, h.2]
  | fail => cases h
  | op o k ih => exact List.mem_cons_of_mem _ (ih _ h)

theorem mem_states_bind {p : Prog Op Res α} {f : α → Prog Op Res β} {s x : σ}
    : x ∈ (p >>= f).states exec s
        ↔
      x ∈ p.states exec s ∨ ∃ a s', p.run exec s = some (a, s') ∧ x ∈ (f a).states exec s' := by
  induction p generalizing s with
  | ret a =>
    simp only [ret_bind, states, run_ret, Option.some.injEq, Prod.mk.injEq]
    constructor
    . intro h
      exact .inr ⟨a, s, ⟨rfl, rfl⟩, h⟩
    . rintro (h | ⟨_, _, ⟨rfl, rfl⟩, h⟩)
      . rw [List.mem_singleton.mp h]
        exact mem_states_self exec _ _
      . exact h
  | fail => simp [states]
  | op o k ih =>
    simp only [op_bind, states, List.mem_cons, ih, run_op]
    constructor
    . rintro (h | h | h)
      . exact .inl (.inl h)
      . exact .inl (.inr h)
      . exact .inr h
    . rintro ((h | h) | h)
      . exact .inl h
      . exact .inr (.inl h)
      . exact .inr (.inr h)

theorem mem_states_bind_eq {p : Prog Op Res α} {a : α} {s s' : σ} (h : p.run exec s = some (a, s'))
    {f : α → Prog Op Res β} {x : σ}
    : x ∈ (p >>= f).states exec s ↔ x ∈ p.states exec s ∨ x ∈ (f a).states exec s' := by
  rw [mem_states_bind, h]
  constructor
  . rintro (hx | ⟨b, t, heq, hx⟩)
    . exact .inl hx
    . cases heq
      exact .inr hx
  . rintro (hx | hx)
    . exact .inl hx
    . exact .inr ⟨a, s', rfl, hx⟩

end Run

def ReadOnly (exec : (o : Op) → σ → Res o × σ) : Prog Op Res α → Prop
  | .ret _ => True
  | .fail => True
  | .op o k => (∀ s, (exec o s).2 = s) ∧ ∀ r, ReadOnly exec (k r)

theorem ReadOnly.bind {exec : (o : Op) → σ → Res o × σ} {p : Prog Op Res α}
    {f : α → Prog Op Res β} (hp : p.ReadOnly exec) (hf : ∀ a, (f a).ReadOnly exec)
    : (p >>= f).ReadOnly exec := by
  induction p with
  | ret a => exact hf a
  | fail => trivial
  | op o k ih => exact ⟨hp.1, fun r => ih r (hp.2 r)⟩

theorem ReadOnly.eq_of_mem_states {exec : (o : Op) → σ → Res o × σ} {p : Prog Op Res α}
    (hp : p.ReadOnly exec) {s x : σ} (h : x ∈ p.states exec s)
    : x = s := by
  induction p generalizing s with
  | ret a => exact List.mem_singleton.mp h
  | fail => exact List.mem_singleton.mp h
  | op o k ih =>
    rcases List.mem_cons.mp h with h | h
    . exact h
    . exact (ih _ (hp.2 _) h).trans (hp.1 s)

/--
`p.ReadsAt exec l t a t'`: the read-only program `p` can return `a` when its operations take place at
positions of the state sequence `l` that do not decrease from `t` on, the last of them at `t'`.
-/
def ReadsAt (exec : (o : Op) → σ → Res o × σ) (l : List σ)
    : Prog Op Res α → Nat → α → Nat → Prop
  | .ret b, t, a, t' => a = b ∧ t' = t
  | .fail, _, _, _ => False
  | .op o k, t, a, t' => ∃ u s, t ≤ u ∧ l[u]? = some s ∧ ReadsAt exec l (k (exec o s).1) u a t'

section ReadsAt

variable {exec : (o : Op) → σ → Res o × σ} {l : List σ}

@[simp]
theorem readsAt_fail {a : α} {t t' : Nat}
    : (Prog.fail : Prog Op Res α).ReadsAt exec l t a t' ↔ False := Iff.rfl

theorem readsAt_op {o : Op} {k : Res o → Prog Op Res α} {a : α} {t t' : Nat}
    : (Prog.op o k).ReadsAt exec l t a t'
        ↔
      ∃ u s, t ≤ u ∧ l[u]? = some s ∧ (k (exec o s).1).ReadsAt exec l u a t' := Iff.rfl

theorem readsAt_bind {p : Prog Op Res α} {f : α → Prog Op Res β} {t t' : Nat} {b : β}
    : (p >>= f).ReadsAt exec l t b t'
        ↔
      ∃ a u, p.ReadsAt exec l t a u ∧ (f a).ReadsAt exec l u b t' := by
  induction p generalizing t with
  | ret a =>
    constructor
    . intro h
      exact ⟨a, t, ⟨rfl, rfl⟩, h⟩
    . rintro ⟨_, _, ⟨rfl, rfl⟩, h⟩
      exact h
  | fail => simp
  | op o k ih =>
    simp only [op_bind, readsAt_op, ih]
    constructor
    . rintro ⟨u, s, hu, hs, a, v, hk, hf⟩
      exact ⟨a, v, ⟨u, s, hu, hs, hk⟩, hf⟩
    . rintro ⟨a, v, ⟨u, s, hu, hs, hk⟩, hf⟩
      exact ⟨u, s, hu, hs, a, v, hk, hf⟩

theorem readsAt_of_run {p : Prog Op Res α} (hp : p.ReadOnly exec) {s s' : σ} {a : α} {t : Nat}
    (ht : l[t]? = some s) (h : p.run exec s = some (a, s'))
    : p.ReadsAt exec l t a t := by
  induction p with
  | ret b =>
    simp only [run_ret, Option.some.injEq, Prod.mk.injEq] at h
    exact ⟨h.1.symm, rfl⟩
  | fail => cases h
  | op o k ih =>
    rw [run_op, hp.1 s] at h
    exact ⟨t, s, Nat.le_refl t, ht, ih _ (hp.2 _) h⟩

end ReadsAt

/--
A complete execution path of a program: the operations with results the machine may give, whatever
it is, up to the value returned.
-/
def Path : Prog Op Res α → List ((o : Op) × Res o) → α → Prop
  | .ret b, l, a => l = [] ∧ a = b
  | .fail, _, _ => False
  | .op o k, l, a => ∃ r l', l = ⟨o, r⟩ :: l' ∧ Path (k r) l' a

theorem path_bind {p : Prog Op Res α} {f : α → Prog Op Res β} {l : List ((o : Op) × Res o)} {b : β}
    : (p >>= f).Path l b ↔ ∃ a l₁ l₂, p.Path l₁ a ∧ (f a).Path l₂ b ∧ l = l₁ ++ l₂ := by
  induction p generalizing l with
  | ret a =>
    constructor
    . intro h
      exact ⟨a, [], l, ⟨rfl, rfl⟩, h, rfl⟩
    . rintro ⟨_, _, l₂, ⟨rfl, rfl⟩, h, rfl⟩
      exact h
  | fail => simp [Path]
  | op o k ih =>
    constructor
    . rintro ⟨r, l', rfl, h⟩
      obtain ⟨a, l₁, l₂, hk, hf, rfl⟩ := (ih r).mp h
      exact ⟨a, ⟨o, r⟩ :: l₁, l₂, ⟨r, l₁, rfl, hk⟩, hf, rfl⟩
    . rintro ⟨a, _, l₂, ⟨r, l₁, rfl, hk⟩, hf, rfl⟩
      exact ⟨r, l₁ ++ l₂, rfl, (ih r).mpr ⟨a, l₁, l₂, hk, hf, rfl⟩⟩

end Prog
