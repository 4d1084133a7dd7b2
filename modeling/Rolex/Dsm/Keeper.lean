import Rolex.Lib.Progress

/-!
This module contains how the servers of a cluster find each other through memcached: `serverEnter`,
`serverConnect` with the exchange of `connectNode`, and the barriers that they meet at.
-/

namespace Rolex

namespace Keeper

abbrev Qpn := BitVec 32

/-- What is assumed of memcached: each of its keys is a register, whose type the key determines. -/
structure Memcached {K : Type} (V : K → Type) where
  State : Type
  get : (k : K) → State → Option (V k)
  set : (k : K) → V k → State → State
  get_set_self : ∀ k v s, get k (set k v s) = some v
  get_set_of_ne : ∀ {k k'} v s, k' ≠ k → get k' (set k v s) = get k' s

/-- `memcached_increment`: the new value, `none` if the key is not set. -/
def Memcached.increment {K : Type} {V : K → Type} (M : Memcached V) (k : K) (add : V k → V k) (s : M.State)
    : Option (V k × M.State) :=
  (M.get k s).map fun v => (add v, M.set k (add v) s)

/-- Registers of which all are known. -/
def Memcached.ofFun {K : Type} [DecidableEq K] (V : K → Type) : Memcached V where
  State := (k : K) → Option (V k)
  get := fun k s => s k
  set := fun k v s => Function.update s k (some v)
  get_set_self := fun _ _ _ => Function.update_self _ _ _
  get_set_of_ne := fun _ _ h => Function.update_of_ne h _ _

section Connect

variable {α : Type}

/-- What a server has: what `initLocalMeta` fills in, and the numbers of its queue pairs to each server. -/
structure Server (α : Type) where
  localMeta : α
  data2app : (dir thread remoteID : Nat) → Qpn
  data : (thread dir remoteID : Nat) → Qpn

structure ExchangeMeta (α : Type) where
  localMeta : α
  appRcQpn2dir : (thread dir : Nat) → Qpn
  dirRcQpn2app : (dir thread : Nat) → Qpn

/-- A connection to a server: what is known of it, and the queue pairs that the own ones are connected to. -/
structure RemoteConnection (α : Type) where
  info : α
  data2appPeer : (dir thread : Nat) → Qpn
  dataPeer : (thread dir : Nat) → Qpn

def Server.setDataToRemote (s : Server α) (remoteID : Nat) : ExchangeMeta α where
  localMeta := s.localMeta
  dirRcQpn2app := fun i k => s.data2app i k remoteID
  appRcQpn2dir := fun i k => s.data i k remoteID

def setDataFromRemote (remoteMeta : ExchangeMeta α) : RemoteConnection α where
  info := remoteMeta.localMeta
  data2appPeer := fun i k => remoteMeta.appRcQpn2dir k i
  dataPeer := fun i k => remoteMeta.dirRcQpn2app k i

/-- Where the constructor of `DSMKeeper` is. -/
inductive Pc where
  | serverEnter
  /-- at the top of the loop of `serverConnect` -/
  | getServerNum (curServer : Nat)
  | memSet (k serverNum : Nat)
  | memGet (k serverNum : Nat)
  | connectMySelf
  | done
  deriving DecidableEq

/-- The keys of the start in memcached: `SERVER_NUM_KEY`, and `setKey` of one server for another. -/
inductive Key where
  | serverNum
  | exchange (myNodeID remoteID : Nat)
  deriving DecidableEq

variable (α) in
@[reducible] def Key.Val : Key → Type
  | .serverNum => Nat
  | .exchange _ _ => ExchangeMeta α

structure Node (α : Type) where
  pc : Pc
  remoteCon : Nat → Option (RemoteConnection α)

variable {M : Memcached (Key.Val α)}

/-- The servers by their ids, which the increments of `serverNum` give them. -/
structure Cluster (M : Memcached (Key.Val α)) where
  mem : M.State
  node : Nat → Node α

def init (mem : M.State) : Cluster M := ⟨mem, fun _ => ⟨.serverEnter, fun _ => none⟩⟩

/-- No server has used memcached yet. -/
structure Fresh (mem : M.State) : Prop where
  serverNum : M.get .serverNum mem = some (0 : Nat)
  exchange : ∀ i k, M.get (.exchange i k) mem = none

variable (maxServer : Nat) (servers : Nat → Server α)

def whileLoop (curServer : Nat) : Pc :=
  if curServer < maxServer then .getServerNum curServer else .connectMySelf

def forLoop (myNodeID k serverNum : Nat) : Pc :=
  let k := if k = myNodeID then k + 1 else k
  -- `curServer = serverNum`, where `curServer` has 16 bits
  if k < serverNum then .memSet k serverNum else whileLoop maxServer (serverNum % 2 ^ 16)

def Node.connect (nd : Node α) (remoteID : Nat) (m : ExchangeMeta α) (pc : Pc) : Node α :=
  { pc, remoteCon := Function.update nd.remoteCon remoteID (some (setDataFromRemote m)) }

/-- The next operation of the server `i`, `none` if it has none or repeats it until another server acts. -/
def Node.act (nd : Node α) (i : Nat) (mem : M.State) : Option (M.State × Node α) :=
  match nd.pc with
  | .serverEnter => do
    let (num, mem) ← M.increment .serverNum (fun num : Nat => num + 1) mem
    if i + 1 = num ∧ i < maxServer then
      return (mem, { nd with pc := whileLoop maxServer 0 })
    else
      none
  | .getServerNum curServer => do
    let num ← M.get .serverNum mem
    return (mem, { nd with pc := forLoop maxServer i curServer num })
  | .memSet k num =>
    some (M.set (.exchange i k) ((servers i).setDataToRemote k) mem, { nd with pc := .memGet k num })
  | .memGet k num => do
    let m ← M.get (.exchange k i) mem
    return (mem, nd.connect k m (forLoop maxServer i (k + 1) num))
  | .connectMySelf => some (mem, nd.connect i ((servers i).setDataToRemote i) .done)
  | .done => none

def step (i : Nat) (S : Cluster M) : Option (Cluster M) := do
  let (mem, nd) ← (S.node i).act maxServer servers i S.mem
  return ⟨mem, Function.update S.node i nd⟩

/-- The server has exchanged its data with all servers before this one. -/
def Pc.next : Pc → Nat
  | .serverEnter => 0
  | .getServerNum curServer => curServer
  | .memSet k _ => k
  | .memGet k _ => k
  | .connectMySelf => maxServer
  | .done => maxServer

/-- What a server may have come to when `serverNum` servers have entered and it has set the keys `pub`. -/
def Node.At (nd : Node α) (pub : Nat → Option (ExchangeMeta α)) (i serverNum : Nat) : Prop :=
  match nd.pc with
  | .serverEnter => serverNum ≤ i
  | .getServerNum curServer => i < serverNum ∧ curServer < maxServer
  | .memSet k num => i < serverNum ∧ k ≠ i ∧ k < num ∧ num ≤ serverNum
  | .memGet k num => i < serverNum ∧ k ≠ i ∧ k < num ∧ num ≤ serverNum ∧ pub k ≠ none
  | .connectMySelf => i < serverNum
  | .done => i < serverNum ∧ nd.remoteCon i ≠ none

structure Node.Valid (nd : Node α) (pub : Nat → Option (ExchangeMeta α)) (i : Nat) : Prop where
  published : ∀ k m, pub k = some m → m = (servers i).setDataToRemote k
  con : ∀ k r, nd.remoteCon k = some r → r = setDataFromRemote ((servers k).setDataToRemote i)

structure Node.Fine (nd : Node α) (pub : Nat → Option (ExchangeMeta α)) (i serverNum : Nat) : Prop
    extends nd.Valid servers pub i where
  exchanged : ∀ k, k < nd.pc.next maxServer → k ≠ i → pub k ≠ none ∧ nd.remoteCon k ≠ none
  place : nd.At maxServer pub i serverNum

variable {maxServer servers} {nd nd' : Node α} {pub : Nat → Option (ExchangeMeta α)} {i serverNum : Nat}
  {mem mem' : M.State}

theorem Node.fine_forLoop {k num : Nat} (hvalid : nd.Valid servers pub i)
    (hexchanged : ∀ j, j < k → j ≠ i → pub j ≠ none ∧ nd.remoteCon j ≠ none)
    (hi : i < serverNum) (hnum : num ≤ serverNum) (hfits : serverNum < 2 ^ 16)
    (hpc : nd.pc = forLoop maxServer i k num)
    : nd.Fine maxServer servers pub i serverNum := by
  have hcur : num % 2 ^ 16 = num := Nat.mod_eq_of_lt (by omega)
  have hbefore : nd.pc.next maxServer ≤ (if k = i then k + 1 else k) := by
    rw [hpc]
    unfold forLoop whileLoop
    rw [hcur]
    dsimp only
    split_ifs
    all_goals
      simp only [Pc.next]
      omega
  refine ⟨hvalid, fun j hj hji => hexchanged j ?_ hji, ?_⟩
  . split at hbefore
    all_goals omega
  . unfold Node.At
    rw [hpc]
    unfold forLoop whileLoop
    rw [hcur]
    dsimp only
    grind

theorem Node.act_frame (hnum : M.get .serverNum mem = some serverNum)
    (hact : nd.act maxServer servers i mem = some (mem', nd'))
    : M.get .serverNum mem' = some (if nd.pc = .serverEnter then serverNum + 1 else serverNum : Nat)
        ∧ (∀ j k, j ≠ i → M.get (.exchange j k) mem' = M.get (.exchange j k) mem)
        ∧ (nd.pc = .serverEnter → i = serverNum ∧ i < maxServer) := by
  unfold Node.act at hact
  cases hpc : nd.pc with
  | serverEnter =>
    simp only [hpc, Memcached.increment, hnum, Option.map_some, Option.bind_eq_bind, Option.bind_some] at hact
    split at hact
    . next henter =>
      cases hact
      refine ⟨M.get_set_self .serverNum (serverNum + 1 : Nat) mem, fun j k _ => ?_, fun _ => by omega⟩
      exact M.get_set_of_ne _ _ (by simp)
    . cases hact
  | memSet k num =>
    rw [hpc] at hact
    cases hact
    refine ⟨?_, fun j k' hj => M.get_set_of_ne _ _ (by simp [hj]), nofun⟩
    rw [M.get_set_of_ne _ _ (by simp), hnum]
    rfl
  | getServerNum cur =>
    simp only [hpc, hnum] at hact
    cases hact
    exact ⟨hnum, fun _ _ _ => rfl, nofun⟩
  | memGet k num =>
    rw [hpc] at hact
    obtain ⟨m, -, hact⟩ := Option.bind_eq_some_iff.mp hact
    cases hact
    exact ⟨hnum, fun _ _ _ => rfl, nofun⟩
  | connectMySelf =>
    rw [hpc] at hact
    cases hact
    exact ⟨hnum, fun _ _ _ => rfl, nofun⟩
  | done =>
    rw [hpc] at hact
    cases hact

theorem Node.Fine.act (h : nd.Fine maxServer servers (fun k => M.get (.exchange i k) mem) i serverNum)
    (hnum : M.get .serverNum mem = some serverNum) (hfits : serverNum < 2 ^ 16)
    (hinbox : ∀ k m, M.get (.exchange k i) mem = some m → m = (servers k).setDataToRemote i)
    (hact : nd.act maxServer servers i mem = some (mem', nd'))
    : nd'.Fine maxServer servers (fun k => M.get (.exchange i k) mem') i
        (if nd.pc = .serverEnter then serverNum + 1 else serverNum) := by
  obtain ⟨⟨hpublished, hcon⟩, hexchanged, hplace⟩ := h
  unfold Node.act at hact
  unfold Node.At at hplace
  cases hpc : nd.pc with
  | serverEnter =>
    simp only [hpc, Memcached.increment, hnum, Option.map_some, Option.bind_eq_bind, Option.bind_some] at hact
    split at hact
    . next henter =>
      obtain ⟨hi, hlt⟩ := henter
      cases hact
      rw [whileLoop, if_pos (Nat.zero_lt_of_lt hlt), if_pos rfl]
      refine ⟨⟨?_, hcon⟩, nofun, by omega, Nat.zero_lt_of_lt hlt⟩
      intro k m hm
      rw [M.get_set_of_ne _ _ (by simp)] at hm
      exact hpublished k m hm
    . cases hact
  | getServerNum cur =>
    simp only [hpc, hnum] at hact hexchanged hplace
    cases hact
    exact fine_forLoop ⟨hpublished, hcon⟩ hexchanged hplace.1 le_rfl hfits rfl
  | memSet k num =>
    rw [hpc] at hact hexchanged hplace
    cases hact
    have hget : ∀ k', M.get (.exchange i k') (M.set (.exchange i k) ((servers i).setDataToRemote k) mem)
        = if k' = k then some ((servers i).setDataToRemote k) else M.get (.exchange i k') mem := by
      intro k'
      split
      . next heq =>
        subst heq
        exact M.get_set_self _ _ _
      . next hne => exact M.get_set_of_ne _ _ (by simp [hne])
    refine ⟨⟨?_, hcon⟩, ?_, ?_⟩
    all_goals
      simp only [Node.At, Pc.next, hget] at *
      grind
  | memGet k num =>
    rw [hpc] at hact hexchanged hplace
    obtain ⟨m, hm, hact⟩ := Option.bind_eq_some_iff.mp hact
    cases hact
    obtain ⟨hi, hne, hlt, hle, hset⟩ := hplace
    refine fine_forLoop (⟨hpublished, ?_⟩ : (nd.connect k m _).Valid servers _ i) ?_ hi hle hfits rfl
    all_goals
      simp only [Node.connect, Pc.next] at *
      grind
  | connectMySelf =>
    rw [hpc] at hact hexchanged hplace
    cases hact
    refine ⟨⟨hpublished, ?_⟩, ?_, ?_⟩
    all_goals
      simp only [Node.At, Node.connect, Pc.next] at *
      grind
  | done =>
    rw [hpc] at hact
    cases hact

variable {S S' : Cluster M}

variable (maxServer servers) in
structure Inv (S : Cluster M) (serverNum : Nat) : Prop where
  counter : M.get .serverNum S.mem = some serverNum
  num : serverNum ≤ maxServer
  fine : ∀ i, (S.node i).Fine maxServer servers (fun k => M.get (.exchange i k) S.mem) i serverNum

theorem init_inv (h : Fresh mem) : Inv maxServer servers (init mem) 0 := by
  refine ⟨h.serverNum, Nat.zero_le _, fun i => ⟨⟨?_, nofun⟩, nofun, Nat.zero_le i⟩⟩
  intro k m hm
  rw [init, h.exchange] at hm
  cases hm

/-- The ids have 16 bits. -/
theorem Inv.step (hmax : maxServer < 2 ^ 16) (h : ∃ num, Inv maxServer servers S num)
    (hstep : step maxServer servers i S = some S')
    : ∃ num, Inv maxServer servers S' num := by
  obtain ⟨num, h⟩ := h
  obtain ⟨⟨mem, nd⟩, hact, hstep⟩ := Option.bind_eq_some_iff.mp hstep
  cases hstep
  have hnum := h.num
  obtain ⟨hcounter, hframe, henter⟩ := Node.act_frame h.counter hact
  have hnd := (h.fine i).act h.counter (by omega) (fun k => (h.fine k).published i) hact
  refine ⟨_, hcounter, ?_, ?_⟩
  . split
    . next hpc =>
      have := henter hpc
      omega
    . exact hnum
  . intro j
    dsimp only
    by_cases hj : j = i
    . subst hj
      rw [Function.update_self]
      exact hnd
    . rw [Function.update_of_ne hj]
      simp only [fun k => hframe j k hj]
      obtain ⟨hvalid, hexchanged, hplace⟩ := h.fine j
      refine ⟨hvalid, hexchanged, ?_⟩
      unfold Node.At at hplace ⊢
      grind

variable (maxServer) in
def Pc.work : Pc → Nat
  | .serverEnter => 3 * maxServer + 3
  | .getServerNum curServer => 3 * (maxServer - curServer) + 2
  | .memSet k _ => 3 * (maxServer - k) + 1
  | .memGet k _ => 3 * (maxServer - k)
  | .connectMySelf => 1
  | .done => 0

variable (maxServer) in
def work (S : Cluster M) : Nat := ∑ i ∈ Finset.range maxServer, (S.node i).pc.work maxServer

/-- Only a `memGet` before the `memSet` of the other server, or a `serverNum` that has not grown, holds one up. -/
theorem Inv.act (hmax : maxServer < 2 ^ 16) (h : Inv maxServer servers S serverNum) (hi : i < maxServer)
    (hlive : (S.node i).pc ≠ .done) (henter : (S.node i).pc = .serverEnter → serverNum = i)
    (hnum : (S.node i).pc ≠ .serverEnter → serverNum = maxServer)
    (hget : ∀ k num, (S.node i).pc = .memGet k num → M.get (.exchange k i) S.mem ≠ none)
    : ∃ S', Keeper.step maxServer servers i S = some S' ∧ work maxServer S' < work maxServer S := by
  have hless : ∀ {mem nd}, (S.node i).act maxServer servers i S.mem = some (mem, nd) →
      nd.pc.work maxServer < (S.node i).pc.work maxServer →
      ∃ S', Keeper.step maxServer servers i S = some S' ∧ work maxServer S' < work maxServer S := by
    intro mem nd hact hlt
    refine ⟨_, Option.bind_eq_some_iff.mpr ⟨(mem, nd), hact, rfl⟩, ?_⟩
    exact Progress.sum_update_lt (fun nd : Node α => nd.pc.work maxServer) hi hlt
  have hplace := (h.fine i).place
  have hcounter := h.counter
  unfold Node.At at hplace
  cases hpc : (S.node i).pc with
  | serverEnter =>
    apply hless
    . rw [Node.act, hpc]
      simp only [Memcached.increment, hcounter, Option.map_some, Option.bind_eq_bind, Option.bind_some]
      exact if_pos ⟨by rw [henter hpc], hi⟩
    . simp only [hpc, Pc.work, whileLoop, if_pos (Nat.zero_lt_of_lt hi)]
      omega
  | getServerNum cur =>
    have hnum := hnum (by rw [hpc]; nofun)
    apply hless
    . rw [Node.act, hpc]
      simp only [hcounter]
      rfl
    . have hcur : serverNum % 2 ^ 16 = serverNum := Nat.mod_eq_of_lt (by omega)
      grind [forLoop, whileLoop, Pc.work]
  | memSet k num =>
    apply hless
    . rw [Node.act, hpc]
    . rw [hpc]
      exact Nat.lt_succ_self _
  | memGet k num =>
    obtain ⟨m, hm⟩ := Option.ne_none_iff_exists'.mp (hget k num hpc)
    have hle := h.num
    apply hless
    . rw [Node.act, hpc]
      simp only [hm]
      rfl
    . rw [hpc] at hplace
      have hcur : num % 2 ^ 16 = num := Nat.mod_eq_of_lt (by omega)
      grind [forLoop, whileLoop, Pc.work, Node.connect]
  | connectMySelf =>
    apply hless
    . rw [Node.act, hpc]
    . rw [hpc]
      exact Nat.lt_succ_self _
  | done => exact absurd hpc hlive

/--
The servers wait for each other in no circle. The first one that is not done waits for one that waits for an
earlier one, as each of them exchanges its data in the order of the ids.
-/
theorem Inv.progress (hmax : maxServer < 2 ^ 16) (h : ∃ num, Inv maxServer servers S num)
    (hlive : ¬ ∀ i, i < maxServer → (S.node i).pc = .done)
    : ∃ i S', Keeper.step maxServer servers i S = some S' ∧ work maxServer S' < work maxServer S := by
  obtain ⟨serverNum, h⟩ := h
  have hplace := fun i => (h.fine i).place
  have hset : ∀ i k, k < (S.node i).pc.next maxServer → k ≠ i → M.get (.exchange i k) S.mem ≠ none :=
    fun i k hk hne => ((h.fine i).exchanged k hk hne).1
  rcases Nat.lt_or_eq_of_le h.num with hlt | hnum
  . have hpc : (S.node serverNum).pc = .serverEnter := by
      have := hplace serverNum
      unfold Node.At at this
      grind
    exact ⟨_, h.act hmax hlt (by rw [hpc]; nofun) (fun _ => rfl) (absurd hpc) (by rw [hpc]; nofun)⟩
  have hact : ∀ i, i < maxServer → (S.node i).pc ≠ .done →
      (∀ k num, (S.node i).pc = .memGet k num → M.get (.exchange k i) S.mem ≠ none) →
      ∃ i S', Keeper.step maxServer servers i S = some S' ∧ work maxServer S' < work maxServer S := by
    intro i hi hlive hget
    refine ⟨i, h.act hmax hi hlive (fun hpc => ?_) (fun _ => hnum) hget⟩
    have := hplace i
    unfold Node.At at this
    rw [hpc] at this
    omega
  simp only [not_forall] at hlive
  have hfind := Nat.find_spec hlive
  have hmin := fun j => @Nat.find_min _ _ hlive j
  generalize Nat.find hlive = i at hfind hmin
  obtain ⟨hi, hlive⟩ := hfind
  have hdone : ∀ j, j < i → (S.node j).pc = .done := by
    intro j hj
    apply Classical.byContradiction
    exact fun hnot => hmin j hj ⟨hj.trans hi, hnot⟩
  -- if `i` waits for `k`, either `k` can go on or it waits for a server before `i`, which is done
  by_cases hwait : ∀ k num, (S.node i).pc = .memGet k num → M.get (.exchange k i) S.mem ≠ none
  . exact hact i hi hlive hwait
  simp only [not_forall, not_not] at hwait
  obtain ⟨k, num, hpc, hnone⟩ := hwait
  obtain ⟨-, hne, hlt, hle, -⟩ : i < serverNum ∧ k ≠ i ∧ k < num ∧ num ≤ serverNum ∧ _ := by
    have hi := hplace i
    rwa [Node.At, hpc] at hi
  have hnext : (S.node k).pc.next maxServer ≤ i := Nat.le_of_not_lt (fun hlt => hset k i hlt hne.symm hnone)
  apply hact k (by omega)
  . intro hpc'
    rw [hpc', Pc.next] at hnext
    omega
  . intro j num' hpc' hnone'
    have hk := hplace k
    rw [Node.At, hpc'] at hk
    rw [hpc', Pc.next] at hnext
    have hji : j ≠ i := by
      rintro rfl
      exact hk.2.2.2.2 hnone
    apply hset j k _ hk.2.1.symm hnone'
    rw [hdone j (by omega), Pc.next]
    omega

/--
Servers that start in any order, as many as 16 bits can count. A server that is connected to another one knows
what that one has filled in, and each of its queue pairs is connected to the one that the other server has for
it; one that is done is connected to all servers; and from wherever the start of the servers has come to it can
go on until all of them are done.
-/
theorem servers_connect (hmax : maxServer < 2 ^ 16) (hfresh : Fresh mem)
    (hrun : Progress.Run (step maxServer servers) (init mem) S)
    : (∀ i k r, (S.node i).remoteCon k = some r → r.info = (servers k).localMeta
          ∧ ∀ dir thread, r.data2appPeer dir thread = (servers k).data thread dir i
            ∧ r.dataPeer thread dir = (servers k).data2app dir thread i)
        ∧ (∀ i, (S.node i).pc = .done → ∀ k, k < maxServer → (S.node i).remoteCon k ≠ none)
        ∧ ∃ S', Progress.Run (step maxServer servers) S S' ∧ ∀ i, i < maxServer → (S'.node i).pc = .done := by
  obtain ⟨num, hinv⟩ := hrun.keeps (Inv.step hmax) ⟨0, init_inv hfresh⟩
  refine ⟨fun i k r hr => ?_, fun i hi k hk => ?_, ?_⟩
  . rw [(hinv.fine i).con k r hr]
    exact ⟨rfl, fun _ _ => ⟨rfl, rfl⟩⟩
  . by_cases hki : k = i
    . subst hki
      have hplace := (hinv.fine k).place
      rw [Node.At, hi] at hplace
      exact hplace.2
    . exact ((hinv.fine i).exchanged k (by rwa [hi]) hki).2
  . exact Progress.run_finishes (Inv.step hmax) (work maxServer) (Inv.progress hmax) ⟨num, hinv⟩

/-- Servers that know their ids and number their queue pairs by the remote ones. -/
def sampleServers (i : Nat) : Server Nat := ⟨i, fun _ _ k => .ofNat 32 (100 * i + k), fun _ _ k => .ofNat 32 k⟩

def sampleMem : (Memcached.ofFun (Key.Val Nat)).State
  | .serverNum => some (0 : Nat)
  | .exchange _ _ => none

/-- Two of three servers have exchanged their data, the third one has not entered. -/
theorem servers_connect_two
    : ∃ S r, Progress.Run (step 3 sampleServers) (init sampleMem) S
        ∧ (S.node 0).remoteCon 1 = some r ∧ r.info = 1 ∧ r.dataPeer 2 0 = 100 ∧ (S.node 2).pc = .serverEnter
        ∧ ∃ S', Progress.Run (step 3 sampleServers) S S' ∧ ∀ i, i < 3 → (S'.node i).pc = .done := by
  have hrun : ([0, 1, 0, 1, 0, 1, 0].foldlM (fun S i => step 3 sampleServers i S) (init sampleMem)).map
      (fun S => decide (((S.node 0).remoteCon 1).isSome ∧ (S.node 2).pc = .serverEnter)) = some true := by
    decide
  obtain ⟨S, hS, hfacts⟩ := Option.map_eq_some_iff.mp hrun
  obtain ⟨hcon, hpc⟩ := of_decide_eq_true hfacts
  obtain ⟨r, hr⟩ := Option.isSome_iff_exists.mp hcon
  have hrun := Progress.run_of_foldlM hS
  obtain ⟨hpeer, -, hgoes⟩ := servers_connect (by decide) ⟨rfl, fun _ _ => rfl⟩ hrun
  obtain ⟨hinfo, hqp⟩ := hpeer 0 1 r hr
  exact ⟨S, r, hrun, hr, hinfo, (hqp 0 2).2, hpc, hgoes⟩

end Connect

section Barrier

inductive BarrierPc where
  | memSet
  | memFetchAndAdd
  | memGet
  | passed
  deriving DecidableEq

variable (M : Memcached fun _ : String => Nat)

structure Barrier where
  mem : M.State
  pc : Nat → BarrierPc

variable {M}

def Barrier.init (mem : M.State) : Barrier M := ⟨mem, fun _ => .memSet⟩

/-- The next operation of the server `i`, `none` if it has none or repeats it until another server acts. -/
def Barrier.step (maxServer : Nat) (barrierKey : String) (i : Nat) (B : Barrier M) : Option (Barrier M) :=
  let key := "barrier-" ++ barrierKey
  if i < maxServer then
    match B.pc i with
    | .memSet => some ⟨if i = 0 then M.set key 0 B.mem else B.mem, Function.update B.pc i .memFetchAndAdd⟩
    | .memFetchAndAdd => do
      let (_, mem) ← M.increment key (· + 1) B.mem
      return ⟨mem, Function.update B.pc i .memGet⟩
    | .memGet => do
      let v ← M.get key B.mem
      -- `getServerNR` has 16 bits
      if v = maxServer % 2 ^ 16 then
        return ⟨B.mem, Function.update B.pc i .passed⟩
      else
        none
    | .passed => none
  else
    none

def BarrierPc.Arrived (pc : BarrierPc) : Prop := pc = .memGet ∨ pc = .passed

instance : DecidablePred BarrierPc.Arrived := fun _ => inferInstanceAs (Decidable (_ ∨ _))

def BarrierPc.work : BarrierPc → Nat
  | .memSet => 3
  | .memFetchAndAdd => 2
  | .memGet => 1
  | .passed => 0

namespace Barrier

variable {n i : Nat} {key : String} {B B' : Barrier M}

def value (B : Barrier M) (key : String) : Option Nat := M.get ("barrier-" ++ key) B.mem

theorem step_cases (hstep : step n key i B = some B')
    : i < n ∧ ((B.pc i = .memSet ∧ B'.pc = Function.update B.pc i .memFetchAndAdd
          ∧ B'.value key = if i = 0 then some 0 else B.value key)
        ∨ (∃ v, B.pc i = .memFetchAndAdd ∧ B.value key = some v ∧ B'.pc = Function.update B.pc i .memGet
          ∧ B'.value key = some (v + 1))
        ∨ (B.pc i = .memGet ∧ B.value key = some (n % 2 ^ 16) ∧ B'.pc = Function.update B.pc i .passed
          ∧ B'.value key = B.value key)) := by
  unfold Barrier.step at hstep
  dsimp only at hstep
  split at hstep
  . next hi =>
    refine ⟨hi, ?_⟩
    split at hstep
    . next hpc =>
      cases hstep
      refine .inl ⟨hpc, rfl, ?_⟩
      unfold value
      split
      . exact M.get_set_self ..
      . rfl
    . next hpc =>
      obtain ⟨⟨v', mem⟩, hinc, hstep⟩ := Option.bind_eq_some_iff.mp hstep
      obtain ⟨v, hv, hinc⟩ := Option.map_eq_some_iff.mp hinc
      cases hstep
      cases hinc
      exact .inr (.inl ⟨v, hpc, hv, rfl, M.get_set_self ..⟩)
    . next hpc =>
      obtain ⟨v, hv, hstep⟩ := Option.bind_eq_some_iff.mp hstep
      split at hstep
      . next hall =>
        cases hstep
        exact .inr (.inr ⟨hpc, hall ▸ hv, rfl, rfl⟩)
      . cases hstep
    . cases hstep
  . cases hstep

variable (n) in
def arrived (pc : Nat → BarrierPc) : Finset Nat := (Finset.range n).filter (fun i => (pc i).Arrived)

theorem mem_arrived {pc : Nat → BarrierPc} : i ∈ arrived n pc ↔ i < n ∧ (pc i).Arrived := by
  simp [arrived]

theorem arrived_update {pc : Nat → BarrierPc} {p : BarrierPc} (hi : i < n)
    : arrived n (Function.update pc i p)
        =
      if p.Arrived then Insert.insert i (arrived n pc) else (arrived n pc).erase i := by
  ext j
  split
  all_goals grind [mem_arrived]

variable (n key) in
structure Inv (B : Barrier M) : Prop where
  value : B.value key = if B.pc 0 = .memSet then none else some (arrived n B.pc).card
  early : B.pc 0 = .memSet → arrived n B.pc = ∅
  safe : ∀ i, B.pc i = .passed → arrived n B.pc = Finset.range n

theorem Inv.full (h : Inv n key B) (hv : B.value key = some n) : arrived n B.pc = Finset.range n := by
  apply Finset.eq_of_subset_of_card_le (Finset.filter_subset _ _)
  have hvalue := h.value
  rw [Finset.card_range]
  grind [arrived]

theorem Inv.step (hn : n < 2 ^ 16) (h : Inv n key B) (hstep : step n key i B = some B') : Inv n key B' := by
  obtain ⟨hi, hcases⟩ := step_cases hstep
  have hmem := @mem_arrived n i B.pc
  have harrived := fun p => @arrived_update n i B.pc p hi
  have hfull := h.full
  obtain ⟨hvalue, hearly, hsafe⟩ := h
  rcases hcases with ⟨hpc, hpc', hv⟩ | ⟨v, hpc, hv, hpc', hv'⟩ | ⟨hpc, hv, hpc', hv'⟩
  . have hnot : i ∉ arrived n B.pc := by simp [hmem, hpc, BarrierPc.Arrived]
    constructor
    all_goals
      simp only [hpc', hv, harrived, BarrierPc.Arrived, Finset.erase_eq_of_notMem hnot]
      grind
  . have hnot : i ∉ arrived n B.pc := by simp [hmem, hpc, BarrierPc.Arrived]
    constructor
    all_goals
      simp only [hpc', hv', harrived, BarrierPc.Arrived]
      grind
  . rw [Nat.mod_eq_of_lt hn] at hv
    have hfull := hfull hv
    constructor
    all_goals
      simp only [hpc', hv', harrived, BarrierPc.Arrived]
      grind

variable (n) in
def work (B : Barrier M) : Nat := ∑ i ∈ Finset.range n, (B.pc i).work

/-- Node 0 sets the key and all can add to it; when all have, it has the value they wait for. -/
theorem Inv.progress (hn : n < 2 ^ 16) (h : Inv n key B) (hlive : ¬ ∀ i, i < n → B.pc i = .passed)
    : ∃ i B', Barrier.step n key i B = some B' ∧ work n B' < work n B := by
  have hact : ∀ i mem p, i < n → Barrier.step n key i B = some ⟨mem, Function.update B.pc i p⟩ →
      p.work < (B.pc i).work → ∃ i B', Barrier.step n key i B = some B' ∧ work n B' < work n B :=
    fun i mem p hi hstep hless => ⟨i, _, hstep, Progress.sum_update_lt BarrierPc.work hi hless⟩
  have hset : ∀ j, j < n → B.pc j = .memSet →
      ∃ i B', Barrier.step n key i B = some B' ∧ work n B' < work n B := by
    intro j hj hpc
    apply hact j (if j = 0 then M.set ("barrier-" ++ key) 0 B.mem else B.mem) .memFetchAndAdd hj
    . simp only [Barrier.step, hj, hpc, if_true]
    . simp [hpc, BarrierPc.work]
  simp only [not_forall] at hlive
  obtain ⟨i, hi, hlive⟩ := hlive
  by_cases hfirst : B.pc 0 = .memSet
  . exact hset 0 (Nat.zero_lt_of_lt hi) hfirst
  have hvalue := h.value
  rw [if_neg hfirst] at hvalue
  unfold Barrier.value at hvalue
  by_cases hall : ∀ j, j < n → (B.pc j).Arrived
  . have hfull : arrived n B.pc = Finset.range n := by
      ext j
      rw [mem_arrived, Finset.mem_range]
      exact and_iff_left_of_imp (hall j)
    rw [hfull, Finset.card_range] at hvalue
    have hpc := (hall i hi).resolve_right hlive
    apply hact i B.mem .passed hi
    . simp only [Barrier.step, if_pos hi, hpc, hvalue, Nat.mod_eq_of_lt hn, Option.bind_eq_bind, Option.bind_some,
        if_true]
      rfl
    . simp [hpc, BarrierPc.work]
  . simp only [not_forall] at hall
    obtain ⟨j, hj, hnot⟩ := hall
    cases hpc : B.pc j with
    | memSet => exact hset j hj hpc
    | memFetchAndAdd =>
      apply hact j (M.set ("barrier-" ++ key) ((arrived n B.pc).card + 1) B.mem) .memGet hj
      . simp [Barrier.step, hj, hpc, Memcached.increment, hvalue]
      . simp [hpc, BarrierPc.work]
    | memGet => exact absurd (.inl hpc) hnot
    | passed => exact absurd (.inr hpc) hnot

/--
At a barrier with a key that was not used before, of as many servers as 16 bits can count: no server leaves
before all have come, and from wherever the servers have come to they can go on until all of them have left.
-/
theorem barrier_meets {mem : M.State} (hn : n < 2 ^ 16) (hfresh : M.get ("barrier-" ++ key) mem = none)
    (hrun : Progress.Run (step n key) (init mem) B)
    : (∀ i, B.pc i = .passed → ∀ j, j < n → (B.pc j).Arrived)
        ∧ ∃ B', Progress.Run (step n key) B B' ∧ ∀ i, i < n → B'.pc i = .passed := by
  have hinit : Inv n key (init mem) := ⟨hfresh, fun _ => Finset.filter_false_of_mem (fun _ _ => nofun), nofun⟩
  have hinv := hrun.keeps (Inv.step hn) hinit
  refine ⟨fun i hi j hj => ?_, ?_⟩
  . rw [← Finset.mem_range, ← hinv.safe i hi] at hj
    exact (mem_arrived.mp hj).2
  . exact Progress.run_finishes (Inv.step hn) (work n) (Inv.progress hn) hinv

/-- All three servers have come and one has left, after server 1 had to wait for the key. -/
theorem barrier_meets_three
    : ∃ B : Barrier (Memcached.ofFun fun _ : String => Nat),
        Progress.Run (step 3 "load") (init (fun _ => none)) B
          ∧ B.pc 1 = .passed ∧ B.pc 2 = .memGet ∧ (B.pc 2).Arrived
          ∧ ∃ B', Progress.Run (step 3 "load") B B' ∧ ∀ i, i < 3 → B'.pc i = .passed := by
  have hrun : (([1, 0, 1, 2, 2, 0, 1].foldlM (fun B i => step 3 "load" i B)
      (init (fun _ => none) : Barrier (Memcached.ofFun fun _ : String => Nat))).map
        (fun B => decide (B.pc 1 = .passed ∧ B.pc 2 = .memGet))) = some true := by
    decide
  obtain ⟨B, hB, hfacts⟩ := Option.map_eq_some_iff.mp hrun
  obtain ⟨hpassed, hget⟩ := of_decide_eq_true hfacts
  have hrun := Progress.run_of_foldlM hB
  obtain ⟨hsafe, hgoes⟩ := barrier_meets (by decide) rfl hrun
  exact ⟨B, hrun, hpassed, hget, hsafe 1 hpassed 2 (by decide), hgoes⟩

end Barrier

end Barrier

end Keeper

end Rolex
