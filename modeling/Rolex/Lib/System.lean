import Rolex.Lib.Prog

/-!
This module contains any number of clients that run their programs against one shared machine, one
operation at a time and in any order. It provides two rules for such systems: rely-guarantee
reasoning about clients that share the machine as equals, and a characterisation of what a client
that only reads can observe while one other client runs.
-/

/-- One operation of a client, made while it was working on `call`, and its result. -/
structure Event (ι Call Op : Type) (Res : Op → Type) where
  who : ι
  call : Call
  op : Op
  res : Res op

/-- The shared machine together with everything that happened to it. -/
structure World (ι Call Op : Type) (Res : Op → Type) (σ : Type) where
  mem : σ
  trace : List (Event ι Call Op Res)

/-- A client: the calls it has still to issue, the one it works on and the answers so far. -/
structure Client (Call Ans Op : Type) (Res : Op → Type) where
  todo : List Call
  cur : Option (Call × Prog Op Res Ans)
  answers : List Ans

structure System (ι Call Ans Op : Type) (Res : Op → Type) (σ : Type) where
  world : World ι Call Op Res σ
  clients : ι → Client Call Ans Op Res

section

variable {ι Call Ans Op : Type} {Res : Op → Type} {σ : Type} [DecidableEq ι]
variable (exec : ι → (o : Op) → σ → Res o × σ) (body : ι → Call → Prog Op Res Ans)

/-- Client `i`, working on `c`, performs `o`. -/
def World.perform (w : World ι Call Op Res σ) (i : ι) (c : Call) (o : Op)
    : World ι Call Op Res σ where
  mem := (exec i o w.mem).2
  trace := w.trace ++ [⟨i, c, o, (exec i o w.mem).1⟩]

namespace System

variable {exec body}

def init (m : σ) (calls : ι → List Call) : System ι Call Ans Op Res σ where
  world := ⟨m, []⟩
  clients := fun i => ⟨calls i, none, []⟩

def setClient (S : System ι Call Ans Op Res σ) (i : ι) (c : Client Call Ans Op Res)
    : System ι Call Ans Op Res σ :=
  { S with clients := Function.update S.clients i c }

variable (exec body) in
/-- One step of one client: it begins its next call, performs an operation, or returns. -/
inductive Step : System ι Call Ans Op Res σ → System ι Call Ans Op Res σ → Prop
  | start {S : System ι Call Ans Op Res σ} {i : ι} {c : Call} {cs : List Call}
      (hcur : (S.clients i).cur = none) (htodo : (S.clients i).todo = c :: cs) :
      Step S (S.setClient i ⟨cs, some (c, body i c), (S.clients i).answers⟩)
  | perform {S : System ι Call Ans Op Res σ} {i : ι} {c : Call} {o : Op}
      {k : Res o → Prog Op Res Ans} (hcur : (S.clients i).cur = some (c, .op o k)) :
      Step S { S.setClient i { S.clients i with cur := some (c, k (exec i o S.world.mem).1) } with
        world := S.world.perform exec i c o }
  | finish {S : System ι Call Ans Op Res σ} {i : ι} {c : Call} {a : Ans}
      (hcur : (S.clients i).cur = some (c, .ret a)) :
      Step S (S.setClient i ⟨(S.clients i).todo, none, (S.clients i).answers ++ [a]⟩)

variable (exec body) in
inductive Steps : System ι Call Ans Op Res σ → System ι Call Ans Op Res σ → Prop
  | refl {S : System ι Call Ans Op Res σ} : Steps S S
  | tail {S T U : System ι Call Ans Op Res σ} : Steps S T → Step exec body T U → Steps S U

theorem Steps.trans {S T U : System ι Call Ans Op Res σ} (h : Steps exec body S T)
    (h' : Steps exec body T U)
    : Steps exec body S U := by
  induction h' with
  | refl => exact h
  | tail _ hstep ih => exact .tail ih hstep

theorem Steps.single {S T : System ι Call Ans Op Res σ} (h : Step exec body S T)
    : Steps exec body S T := .tail .refl h

variable (exec body) in
def step (S : System ι Call Ans Op Res σ) (i : ι) : Option (System ι Call Ans Op Res σ) :=
  match (S.clients i).cur with
  | none =>
    match (S.clients i).todo with
    | [] => none
    | c :: cs => some (S.setClient i ⟨cs, some (c, body i c), (S.clients i).answers⟩)
  | some (c, .op o k) =>
    some { S.setClient i { S.clients i with cur := some (c, k (exec i o S.world.mem).1) } with
      world := S.world.perform exec i c o }
  | some (_, .ret a) =>
    some (S.setClient i ⟨(S.clients i).todo, none, (S.clients i).answers ++ [a]⟩)
  | some (_, .fail) => none

variable (exec body) in
def schedule : List ι → System ι Call Ans Op Res σ → Option (System ι Call Ans Op Res σ)
  | [], S => some S
  | i :: is, S => (S.step exec body i).bind (schedule is)

theorem step_of_step_eq_some {S T : System ι Call Ans Op Res σ} {i : ι}
    (h : S.step exec body i = some T)
    : Step exec body S T := by
  unfold step at h
  split at h
  . next hcur =>
    split at h
    . cases h
    . next htodo =>
      obtain rfl := Option.some.inj h
      exact .start hcur htodo
  . next hcur =>
    obtain rfl := Option.some.inj h
    exact .perform hcur
  . next hcur =>
    obtain rfl := Option.some.inj h
    exact .finish hcur
  . cases h

theorem steps_of_schedule {is : List ι} {S T : System ι Call Ans Op Res σ}
    (h : schedule exec body is S = some T)
    : Steps exec body S T := by
  induction is generalizing S with
  | nil =>
    obtain rfl := Option.some.inj h
    exact .refl
  | cons i is ih =>
    obtain ⟨U, hU, hT⟩ := Option.bind_eq_some_iff.mp h
    exact (Steps.single (step_of_step_eq_some hU)).trans (ih hT)

end System

/-!
Rely-guarantee reasoning. Between two operations of a client the world may change by `R`, each of
its own operations has to change it by `G`.
-/

section RelyGuarantee

/-- `p` keeps to `G` as long as the world changes by `R`, and establishes `Q` when it returns. -/
def Prog.Sat (i : ι) (c : Call) (R G : World ι Call Op Res σ → World ι Call Op Res σ → Prop)
    : Prog Op Res Ans → (Ans → World ι Call Op Res σ → Prop) → World ι Call Op Res σ → Prop
  | .ret a, Q, w => ∀ w', R w w' → Q a w'
  | .fail, _, _ => True
  | .op o k, Q, w => ∀ w', R w w' → G w' (w'.perform exec i c o)
      ∧ Prog.Sat i c R G (k (exec i o w'.mem).1) Q (w'.perform exec i c o)

variable {exec body}
variable {R G : ι → World ι Call Op Res σ → World ι Call Op Res σ → Prop}

omit [DecidableEq ι] in
theorem Prog.Sat.rely {i : ι} {c : Call} {p : Prog Op Res Ans}
    {Q : Ans → World ι Call Op Res σ → Prop} {w w' : World ι Call Op Res σ}
    (htrans : ∀ {a b c}, R i a b → R i b c → R i a c)
    (h : p.Sat exec i c (R i) (G i) Q w) (hr : R i w w')
    : p.Sat exec i c (R i) (G i) Q w' := by
  cases p with
  | ret a => exact fun v hv => h v (htrans hr hv)
  | fail => trivial
  | op o k => exact fun v hv => h v (htrans hr hv)

omit [DecidableEq ι] in
theorem Prog.Sat.bind {Ans' : Type} {i : ι} {c : Call} {p : Prog Op Res Ans'}
    {f : Ans' → Prog Op Res Ans} {R G : World ι Call Op Res σ → World ι Call Op Res σ → Prop}
    {P : Ans' → World ι Call Op Res σ → Prop} {Q : Ans → World ι Call Op Res σ → Prop}
    {w : World ι Call Op Res σ}
    (hrefl : ∀ w, R w w)
    (hp : p.Sat exec i c R G P w)
    (hf : ∀ a w', P a w' → (f a).Sat exec i c R G Q w')
    : (p >>= f).Sat exec i c R G Q w := by
  induction p generalizing w with
  | ret a => exact hf a w (hp w (hrefl w))
  | fail => trivial
  | op o k ih =>
    intro w' hw'
    obtain ⟨hg, hk⟩ := hp w' hw'
    exact ⟨hg, ih _ hk⟩

variable (exec body) in
/-- What the rely-guarantee rule asks of every client. -/
structure RelyGuarantee (R G : ι → World ι Call Op Res σ → World ι Call Op Res σ → Prop)
    (Idle : ι → World ι Call Op Res σ → Prop) (Allowed : ι → Call → Prop) : Prop where
  refl : ∀ i w, R i w w
  trans : ∀ i {a b c}, R i a b → R i b c → R i a c
  compat : ∀ {i j w w'}, i ≠ j → G i w w' → R j w w'
  stable : ∀ {i w w'}, Idle i w → R i w w' → Idle i w'
  sat : ∀ {i c w}, Idle i w → Allowed i c →
    (body i c).Sat exec i c (R i) (G i) (fun _ => Idle i) w

/-- The state of one client that the rule maintains. -/
def ClientOk (exec : ι → (o : Op) → σ → Res o × σ)
    (R G : ι → World ι Call Op Res σ → World ι Call Op Res σ → Prop)
    (Idle : ι → World ι Call Op Res σ → Prop) (Allowed : ι → Call → Prop)
    (S : System ι Call Ans Op Res σ) (i : ι) : Prop :=
  (∀ c ∈ (S.clients i).todo, Allowed i c)
    ∧ match (S.clients i).cur with
      | none => Idle i S.world
      | some (c, p) => p.Sat exec i c (R i) (G i) (fun _ => Idle i) S.world

omit [DecidableEq ι] in
theorem clientOk_init {Idle : ι → World ι Call Op Res σ → Prop} {Allowed : ι → Call → Prop}
    {m : σ} {calls : ι → List Call} (hidle : ∀ i, Idle i ⟨m, []⟩)
    (hcalls : ∀ i, ∀ c ∈ calls i, Allowed i c) (i : ι)
    : ClientOk exec R G Idle Allowed (System.init m calls : System ι Call Ans Op Res σ) i :=
  ⟨hcalls i, hidle i⟩

theorem RelyGuarantee.step {Idle : ι → World ι Call Op Res σ → Prop} {Allowed : ι → Call → Prop}
    (rg : RelyGuarantee exec body R G Idle Allowed)
    {S T : System ι Call Ans Op Res σ} (hok : ∀ i, ClientOk exec R G Idle Allowed S i)
    (hstep : System.Step exec body S T)
    : (∀ i, ClientOk exec R G Idle Allowed T i)
        ∧ (T.world = S.world ∨ ∃ i, G i S.world T.world) := by
  cases hstep with
  | @start i c cs hcur htodo =>
    refine ⟨fun j => ?_, .inl rfl⟩
    by_cases hj : j = i
    . subst hj
      have h := hok j
      simp only [ClientOk, hcur, htodo] at h
      simp only [ClientOk, System.setClient, Function.update_self]
      exact ⟨fun d hd => h.1 d (List.mem_cons_of_mem _ hd), rg.sat h.2 (h.1 c List.mem_cons_self)⟩
    . simp only [ClientOk, System.setClient, Function.update_of_ne hj]
      exact hok j
  | @perform i c o k hcur =>
    have hi := hok i
    simp only [ClientOk, hcur] at hi
    obtain ⟨hg, hk⟩ := hi.2 S.world (rg.refl i _)
    refine ⟨fun j => ?_, .inr ⟨i, hg⟩⟩
    by_cases hj : j = i
    . subst hj
      simp only [ClientOk, System.setClient, Function.update_self]
      exact ⟨hi.1, hk⟩
    . have h := hok j
      have hr := rg.compat (fun e => hj e.symm) hg
      simp only [ClientOk, System.setClient, Function.update_of_ne hj]
      refine ⟨h.1, ?_⟩
      cases hc : (S.clients j).cur with
      | none =>
        rw [ClientOk, hc] at h
        exact rg.stable h.2 hr
      | some cp =>
        rw [ClientOk, hc] at h
        exact Prog.Sat.rely (rg.trans j) h.2 hr
  | @finish i c a hcur =>
    refine ⟨fun j => ?_, .inl rfl⟩
    by_cases hj : j = i
    . subst hj
      have h := hok j
      simp only [ClientOk, hcur] at h
      simp only [ClientOk, System.setClient, Function.update_self]
      exact ⟨h.1, h.2 S.world (rg.refl j _)⟩
    . simp only [ClientOk, System.setClient, Function.update_of_ne hj]
      exact hok j

theorem RelyGuarantee.steps {Idle : ι → World ι Call Op Res σ → Prop} {Allowed : ι → Call → Prop}
    (rg : RelyGuarantee exec body R G Idle Allowed)
    {J : World ι Call Op Res σ → Prop} (hJ : ∀ {i w w'}, G i w w' → J w → J w')
    {S T : System ι Call Ans Op Res σ} (hok : ∀ i, ClientOk exec R G Idle Allowed S i)
    (hinit : J S.world) (hsteps : System.Steps exec body S T)
    : (∀ i, ClientOk exec R G Idle Allowed T i) ∧ J T.world := by
  induction hsteps with
  | refl => exact ⟨hok, hinit⟩
  | tail _ hstep ih =>
    obtain ⟨hok', hw⟩ := rg.step ih.1 hstep
    refine ⟨hok', ?_⟩
    cases hw with
    | inl h => rw [h]; exact ih.2
    | inr h =>
      obtain ⟨i, hg⟩ := h
      exact hJ hg ih.2

/-- All operations that `p` can come to are as `P` asks, whatever their results. -/
def Prog.Only {α : Type} (P : Op → Prop) : Prog Op Res α → Prop
  | .ret _ => True
  | .fail => True
  | .op o k => P o ∧ ∀ r, Prog.Only P (k r)

theorem Prog.Only.bind {α β : Type} {P : Op → Prop} {p : Prog Op Res α} {f : α → Prog Op Res β}
    (hp : p.Only P) (hf : ∀ a, (f a).Only P)
    : (p >>= f).Only P := by
  induction p with
  | ret a => exact hf a
  | fail => trivial
  | op o k ih => exact ⟨hp.1, fun r => ih r (hp.2 r)⟩

theorem System.trace_only {P : Call → Op → Prop} (Allowed : ι → Call → Prop) {m : σ}
    {calls : ι → List Call} {S : System ι Call Ans Op Res σ}
    (hbody : ∀ i c, (body i c).Only (P c)) (hcalls : ∀ i, ∀ c ∈ calls i, Allowed i c)
    (hsteps : System.Steps exec body (System.init m calls) S)
    : ∀ e ∈ S.world.trace, Allowed e.who e.call ∧ P e.call e.op := by
  have hsat : ∀ {i c}, Allowed i c → ∀ {p : Prog Op Res Ans} {w}, p.Only (P c) →
      p.Sat exec i c (fun _ _ => True) (fun w w' => ∃ e, w'.trace = w.trace ++ [e]
        ∧ Allowed e.who e.call ∧ P e.call e.op) (fun _ _ => True) w := by
    intro i c hc p
    induction p with
    | ret a => exact fun _ _ _ => trivial
    | fail => exact fun _ => trivial
    | op o k ih => exact fun hp w' _ => ⟨⟨_, rfl, hc, hp.1⟩, ih _ (hp.2 _)⟩
  have rg : RelyGuarantee exec body (fun _ _ _ => True) (fun _ w w' => ∃ e,
      w'.trace = w.trace ++ [e] ∧ Allowed e.who e.call ∧ P e.call e.op) (fun _ _ => True) Allowed :=
    ⟨fun _ _ => trivial, fun _ _ _ _ _ _ => trivial, fun _ _ => trivial, fun _ _ => trivial,
      fun _ hc => hsat hc (hbody _ _)⟩
  apply (rg.steps (J := fun w => ∀ e ∈ w.trace, Allowed e.who e.call ∧ P e.call e.op) ?_
    (clientOk_init (fun _ => trivial) hcalls) ?_ hsteps).2
  . intro i w w' h hw e he
    obtain ⟨e', htrace, hnew⟩ := h
    rw [htrace] at he
    rcases List.mem_append.mp he with hold | hlast
    . exact hw e hold
    . exact List.mem_singleton.mp hlast ▸ hnew
  . intro e he
    cases he

end RelyGuarantee

end

/-!
One client that only reads (`true`) beside one other client (`false`): what the reader can return
are the answers of its program when it samples the states of the other one's lone run in order.
-/

section Observer

variable {Call Ans Op : Type} {Res : Op → Type} {σ : Type}
variable {exec : Bool → (o : Op) → σ → Res o × σ} {body : Bool → Call → Prog Op Res Ans}

def System.Works (S : System Bool Call Ans Op Res σ) (b : Bool) (c : Call) (p : Prog Op Res Ans)
    : Prop :=
  S.clients b = ⟨[], some (c, p), []⟩

/-- The writer is at position `t` of the state sequence `l`. -/
def System.WriterAt (exec : Bool → (o : Op) → σ → Res o × σ) (body : Bool → Call → Prog Op Res Ans)
    (l : List σ) (c : Call) (S : System Bool Call Ans Op Res σ) (t : Nat) : Prop :=
  (S.clients false = ⟨[c], none, []⟩ ∧ t = 0 ∧ l = (body false c).states (exec false) S.world.mem)
    ∨ (∃ p, S.Works false c p ∧ l.drop t = p.states (exec false) S.world.mem)
    ∨ ((S.clients false).todo = [] ∧ (S.clients false).cur = none ∧ l[t]? = some S.world.mem)

theorem getElem?_of_drop_eq_cons {α : Type} {l : List α} {t : Nat} {a : α} {rest : List α}
    (h : l.drop t = a :: rest)
    : l[t]? = some a ∧ l.drop (t + 1) = rest := by
  constructor
  . have := congrArg List.head? h
    simpa using this
  . have := congrArg List.tail h
    simpa using this

theorem System.WriterAt.getElem? {l : List σ} {c : Call} {S : System Bool Call Ans Op Res σ}
    {t : Nat} (h : S.WriterAt exec body l c t)
    : l[t]? = some S.world.mem := by
  rcases h with ⟨_, rfl, rfl⟩ | ⟨p, _, hp⟩ | ⟨_, _, h⟩
  . obtain ⟨rest, hrest⟩ := Prog.states_eq_cons (exec false) (body false c) S.world.mem
    rw [hrest]
    rfl
  . obtain ⟨rest, hrest⟩ := Prog.states_eq_cons (exec false) p S.world.mem
    exact (getElem?_of_drop_eq_cons (hp.trans hrest)).1
  . exact h

/-- The reader has sampled no position after `u`. -/
def System.ReaderAt (exec : Bool → (o : Op) → σ → Res o × σ) (body : Bool → Call → Prog Op Res Ans)
    (l : List σ) (c : Call) (S : System Bool Call Ans Op Res σ) (u : Nat) : Prop :=
  S.clients true = ⟨[c], none, []⟩
    ∨ (∃ p, S.Works true c p ∧ p.ReadOnly (exec true)
        ∧ ∀ a, (∃ t, p.ReadsAt (exec true) l u a t)
            → ∃ t, (body true c).ReadsAt (exec true) l 0 a t)
    ∨ (∃ a, S.clients true = ⟨[], none, [a]⟩
        ∧ ∃ t, (body true c).ReadsAt (exec true) l 0 a t)

theorem Prog.ReadsAt.of_le {α : Type} {exec : (o : Op) → σ → Res o × σ} {l : List σ}
    {p : Prog Op Res α} {t u : Nat} {a : α} {t' : Nat} (htu : t ≤ u)
    (h : p.ReadsAt exec l u a t')
    : ∃ t'', p.ReadsAt exec l t a t'' := by
  cases p with
  | ret b => exact ⟨t, h.1, rfl⟩
  | fail => exact h.elim
  | op o k =>
    obtain ⟨v, s, hv, hs, hk⟩ := h
    exact ⟨t', v, s, by omega, hs, hk⟩

theorem System.ReaderAt.mono {l : List σ} {c : Call} {S T : System Bool Call Ans Op Res σ}
    {t u : Nat} (htu : t ≤ u) (hclient : T.clients true = S.clients true)
    (h : S.ReaderAt exec body l c t)
    : T.ReaderAt exec body l c u := by
  rcases h with h | ⟨p, hp, hro, h⟩ | h
  . exact .inl (hclient.trans h)
  . refine .inr (.inl ⟨p, hclient.trans hp, hro, fun a ⟨t', ht'⟩ => h a ?_⟩)
    exact ht'.of_le htu
  . exact .inr (.inr (by rwa [hclient]))

theorem System.observe_step {l : List σ} {cw cr : Call} {S T : System Bool Call Ans Op Res σ}
    (hro : (body true cr).ReadOnly (exec true))
    (h : ∃ t, S.WriterAt exec body l cw t ∧ S.ReaderAt exec body l cr t)
    (hstep : System.Step exec body S T)
    : ∃ t, T.WriterAt exec body l cw t ∧ T.ReaderAt exec body l cr t := by
  obtain ⟨t, hw, hr⟩ := h
  cases hstep with
  | @start i c cs hcur htodo =>
    cases i with
    | false =>
      rcases hw with ⟨hc, rfl, hl⟩ | ⟨p, hp, _⟩ | ⟨htodo', _⟩
      . rw [hc] at htodo
        simp only [List.cons.injEq] at htodo
        obtain ⟨rfl, rfl⟩ := htodo
        refine ⟨0, .inr (.inl ⟨body false cw, ?_, ?_⟩), hr.mono (Nat.le_refl _) ?_⟩
        . simp [Works, setClient, hc]
        . simpa [setClient] using hl
        . simp [setClient]
      . rw [hp] at hcur
        cases hcur
      . rw [htodo'] at htodo
        cases htodo
    | true =>
      refine ⟨t, ?_, ?_⟩
      . simpa [WriterAt, Works, setClient] using hw
      . rcases hr with hc | ⟨p, hp, _⟩ | ⟨a, ha, _⟩
        . rw [hc] at htodo
          simp only [List.cons.injEq] at htodo
          obtain ⟨rfl, rfl⟩ := htodo
          refine .inr (.inl ⟨body true cr, ?_, hro, ?_⟩)
          . simp [Works, setClient, hc]
          . intro a ⟨t', ht'⟩
            exact ht'.of_le (Nat.zero_le t)
        . rw [hp] at hcur
          cases hcur
        . rw [ha] at htodo
          cases htodo
  | @perform i c o k hcur =>
    cases i with
    | false =>
      rcases hw with ⟨hc, _, _⟩ | ⟨p, hp, hl⟩ | ⟨_, hc, _⟩
      . rw [hc] at hcur
        cases hcur
      . rw [hp] at hcur
        simp only [Option.some.injEq, Prod.mk.injEq] at hcur
        obtain ⟨rfl, rfl⟩ := hcur
        refine ⟨t + 1, .inr (.inl ⟨k (exec false o S.world.mem).1, ?_, ?_⟩), ?_⟩
        . simp [Works, setClient, show S.clients false = _ from hp]
        . exact (getElem?_of_drop_eq_cons hl).2
        . exact hr.mono (Nat.le_succ t) (by simp [setClient])
      . rw [hc] at hcur
        cases hcur
    | true =>
      rcases hr with hc | ⟨p, hp, hpro, hreads⟩ | ⟨a, ha, _⟩
      . rw [hc] at hcur
        cases hcur
      . rw [hp] at hcur
        simp only [Option.some.injEq, Prod.mk.injEq] at hcur
        obtain ⟨rfl, rfl⟩ := hcur
        have hmem : (exec true o S.world.mem).2 = S.world.mem := hpro.1 _
        refine ⟨t, ?_, .inr (.inl ⟨k (exec true o S.world.mem).1, ?_, hpro.2 _, ?_⟩)⟩
        . simpa [WriterAt, Works, setClient, World.perform, hmem] using hw
        . simp [Works, setClient, show S.clients true = _ from hp]
        . intro a ⟨t', ht'⟩
          exact hreads a ⟨t', t, S.world.mem, Nat.le_refl t, hw.getElem?, ht'⟩
      . rw [ha] at hcur
        cases hcur
  | @finish i c a hcur =>
    cases i with
    | false =>
      rcases hw with ⟨hc, _, _⟩ | ⟨p, hp, hl⟩ | ⟨_, hc, _⟩
      . rw [hc] at hcur
        cases hcur
      . rw [hp] at hcur
        simp only [Option.some.injEq, Prod.mk.injEq] at hcur
        obtain ⟨rfl, rfl⟩ := hcur
        refine ⟨t, .inr (.inr ⟨?_, ?_, ?_⟩), hr.mono (Nat.le_refl _) (by simp [setClient])⟩
        . simp [setClient, show S.clients false = _ from hp]
        . simp [setClient]
        . exact (getElem?_of_drop_eq_cons hl).1
      . rw [hc] at hcur
        cases hcur
    | true =>
      refine ⟨t, ?_, ?_⟩
      . simpa [WriterAt, Works, setClient] using hw
      . rcases hr with hc | ⟨p, hp, _, hreads⟩ | ⟨b, hb, _⟩
        . rw [hc] at hcur
          cases hcur
        . rw [hp] at hcur
          simp only [Option.some.injEq, Prod.mk.injEq] at hcur
          obtain ⟨rfl, rfl⟩ := hcur
          refine .inr (.inr ⟨a, ?_, hreads a ⟨t, rfl, rfl⟩⟩)
          simp [setClient, show S.clients true = _ from hp]
        . rw [hb] at hcur
          cases hcur

/-- The two clients before their first step. -/
def System.writerReader (m : σ) (cw cr : Call) : System Bool Call Ans Op Res σ :=
  System.init m (fun b => if b then [cr] else [cw])

theorem System.observe_steps {m : σ} {cw cr : Call} {S : System Bool Call Ans Op Res σ}
    (hro : (body true cr).ReadOnly (exec true))
    (hsteps : System.Steps exec body (System.writerReader m cw cr) S)
    : ∃ t, S.WriterAt exec body ((body false cw).states (exec false) m) cw t
        ∧ S.ReaderAt exec body ((body false cw).states (exec false) m) cr t := by
  generalize hinit : (System.writerReader m cw cr : System Bool Call Ans Op Res σ) = S₀ at hsteps
  induction hsteps with
  | refl =>
    subst hinit
    exact ⟨0, .inl ⟨rfl, rfl, rfl⟩, .inl rfl⟩
  | tail _ hstep ih => exact observe_step hro ih hstep

variable (exec body) in
theorem System.writer_advance {l : List σ} {cw : Call} {S : System Bool Call Ans Op Res σ}
    {t u : Nat} {p : Prog Op Res Ans} {s : σ} (hp : S.Works false cw p)
    (hl : l.drop t = p.states (exec false) S.world.mem) (htu : t ≤ u) (hs : l[u]? = some s)
    : ∃ T p', System.Steps exec body S T ∧ T.Works false cw p'
        ∧ l.drop u = p'.states (exec false) T.world.mem ∧ T.clients true = S.clients true := by
  induction p generalizing S t with
  | ret a =>
    have hu : u = t := by
      have := congrArg List.length hl
      simp only [List.length_drop, Prog.states, List.length_singleton] at this
      have := (List.getElem?_eq_some_iff.mp hs).1
      omega
    subst hu
    exact ⟨S, .ret a, .refl, hp, hl, rfl⟩
  | fail =>
    have hu : u = t := by
      have := congrArg List.length hl
      simp only [List.length_drop, Prog.states, List.length_singleton] at this
      have := (List.getElem?_eq_some_iff.mp hs).1
      omega
    subst hu
    exact ⟨S, .fail, .refl, hp, hl, rfl⟩
  | op o k ih =>
    cases Nat.eq_or_lt_of_le htu with
    | inl heq =>
      subst heq
      exact ⟨S, .op o k, .refl, hp, hl, rfl⟩
    | inr hlt =>
      have hcur : (S.clients false).cur = some (cw, .op o k) := by rw [hp]
      have hstep : System.Step exec body S _ := .perform hcur
      obtain ⟨T, p', hsteps, hp', hl', hc'⟩ :=
        ih (exec false o S.world.mem).1 (t := t + 1)
          (S := { S.setClient false
            { S.clients false with cur := some (cw, k (exec false o S.world.mem).1) } with
            world := S.world.perform exec false cw o })
          (by simp [Works, setClient, show S.clients false = _ from hp])
          (getElem?_of_drop_eq_cons hl).2 hlt
      exact ⟨T, p', (Steps.single hstep).trans hsteps, hp', hl', by simpa [setClient] using hc'⟩

variable (exec body) in
theorem System.reader_follow {l : List σ} {cw cr : Call} {S : System Bool Call Ans Op Res σ}
    {t t' : Nat} {p q : Prog Op Res Ans} {a : Ans} (hp : S.Works false cw p)
    (hl : l.drop t = p.states (exec false) S.world.mem) (hq : S.Works true cr q)
    (hro : q.ReadOnly (exec true)) (hreads : q.ReadsAt (exec true) l t a t')
    : ∃ T, System.Steps exec body S T ∧ (T.clients true).answers = [a] := by
  induction q generalizing S t p with
  | ret b =>
    obtain ⟨rfl, -⟩ := hreads
    have hcur : (S.clients true).cur = some (cr, .ret a) := by rw [hq]
    refine ⟨_, Steps.single (.finish hcur), ?_⟩
    simp [setClient, show S.clients true = _ from hq]
  | fail => exact hreads.elim
  | op o k ih =>
    obtain ⟨u, s, htu, hs, hk⟩ := hreads
    obtain ⟨T, p', hsteps, hp', hl', hc'⟩ := writer_advance exec body hp hl htu hs
    have hmem : T.world.mem = s := by
      obtain ⟨rest, hrest⟩ := Prog.states_eq_cons (exec false) p' T.world.mem
      have := (getElem?_of_drop_eq_cons (hl'.trans hrest)).1
      exact Option.some.inj (this.symm.trans hs)
    subst hmem
    have hqT : T.clients true = ⟨[], some (cr, .op o k), []⟩ := hc'.trans hq
    have hcur : (T.clients true).cur = some (cr, .op o k) := by rw [hqT]
    have hstep : System.Step exec body T _ := .perform hcur
    obtain ⟨U, hsteps', hU⟩ :=
      ih (exec true o T.world.mem).1 (t := u) (p := p')
        (S := { T.setClient true
          { T.clients true with cur := some (cr, k (exec true o T.world.mem).1) } with
          world := T.world.perform exec true cr o })
        (by simpa [Works, setClient] using hp')
        (by simpa [World.perform, hro.1 T.world.mem] using hl')
        (by simp [Works, setClient, hqT])
        (hro.2 _) hk
    exact ⟨U, hsteps.trans ((Steps.single hstep).trans hsteps'), hU⟩

variable (body) in
/--
What a client that only reads can answer while another client runs its program: exactly what its
program returns on samples, in order, of the states that the other one passes through alone.
-/
theorem System.observe_iff {m : σ} {cw cr : Call} {a : Ans}
    (hro : (body true cr).ReadOnly (exec true))
    : (∃ S : System Bool Call Ans Op Res σ,
        System.Steps exec body (System.writerReader m cw cr) S ∧ (S.clients true).answers = [a])
        ↔
      ∃ t, (body true cr).ReadsAt (exec true) ((body false cw).states (exec false) m) 0 a t := by
  constructor
  . rintro ⟨S, hsteps, ha⟩
    obtain ⟨t, -, hr⟩ := observe_steps hro hsteps
    rcases hr with hc | ⟨p, hp, _⟩ | ⟨b, hb, hreads⟩
    . rw [hc] at ha
      cases ha
    . rw [hp] at ha
      cases ha
    . rw [hb] at ha
      simp only [List.cons.injEq, and_true] at ha
      exact ha ▸ hreads
  . rintro ⟨t, hreads⟩
    have hw : System.Step exec body (System.writerReader m cw cr) _ :=
      .start (i := false) rfl rfl
    have hr : System.Step exec body _ _ :=
      .start (S := (System.writerReader m cw cr).setClient false ⟨[], some (cw, body false cw), []⟩)
        (i := true) rfl rfl
    obtain ⟨T, hsteps, hT⟩ :=
      reader_follow exec body (t := 0) (p := body false cw) (q := body true cr)
        (S := ((System.writerReader m cw cr).setClient false
          ⟨[], some (cw, body false cw), []⟩).setClient true ⟨[], some (cr, body true cr), []⟩)
        rfl rfl rfl hro hreads
    exact ⟨T, (Steps.single hw).trans ((Steps.single hr).trans hsteps), hT⟩

end Observer
