import WebServer.Completion

/-!
# Every client is served

Clients that have connected wait in the backlog of the listening descriptor until
`AcceptLoop` accepts them. The descriptor is level-triggered: `epoll_wait` may report it
as long as somebody waits, and one report leads to one call of `accept`. A call that fails
leaves the client where it is, for the next report. So no client is forgotten: once nobody
sends or connects any more, the server on its own accepts all who have connected, and
answers them, with two steps more for every call of `accept` that fails.
-/
namespace WebServer.Backlog
open TransitionSystem Interaction Contexts Handler Server
open Lifecycle LifecycleInvariant Potential Projection Sockets Streams Quiescence Completion
open RequestSplitting ConcurrentOutcome Shutdown
open scoped BigOperators

/-- The sockets and the server, and how many clients wait to be accepted. -/
structure State (N : ℕ) where
  network : Sockets.State N
  waiting : ℕ

def State.initial (N : ℕ) : State N := ⟨.initial N,0⟩

inductive Action (N : ℕ) where
  | connect
  | network (a : Sockets.Action N)

variable {N : ℕ} {cfg : Config}

/-- The listening descriptor is reported only while somebody waits, and `accept` returns
a connection only then. -/
def State.admits (s : State N) : Sockets.Action N → Prop
  | .server (.epollWait ready) => .listen ∈ ready → 0 < s.waiting
  | .server (.accept (some _)) => 0 < s.waiting
  | _ => True

def State.enabled (cfg : Config) (s : State N) : Action N → Prop
  | .connect => True
  | .network a => s.network.enabled cfg a ∧ s.admits a

instance (s : State N) : (a : Sockets.Action N) → Decidable (s.admits a)
  | .server (.epollWait ready) => inferInstanceAs (Decidable (.listen ∈ ready → 0 < s.waiting))
  | .server (.accept (some _)) => inferInstanceAs (Decidable (0 < s.waiting))
  | .server (.accept none) | .server (.epollError _) | .server .setNonblocking
  | .server (.onConnection _) | .server .create | .server (.add _) | .server .delete
  | .server .close | .server .addRef | .server .submit | .server (.notify _) | .server (.look _)
  | .server (.wake _) | .server (.invoke _) | .server (.work _ _) | .server (.finish _)
  | .server .destroyMessage | .server .destroyConnection | .server .setStop
  | .server .notifyAll | .server .join | .arrive _ _ | .finish _ => isTrue trivial

instance (s : State N) : (a : Action N) → Decidable (s.enabled cfg a)
  | .connect => isTrue trivial
  | .network a => inferInstanceAs (Decidable (s.network.enabled cfg a ∧ s.admits a))

/-- How many clients a step takes from the backlog. -/
def taken : Sockets.Action N → ℕ
  | .server (.accept (some _)) => 1
  | _ => 0

def State.next (cfg : Config) (s : State N) : Action N → State N
  | .connect => {s with waiting := s.waiting+1}
  | .network a => ⟨s.network.next cfg a,s.waiting-taken a⟩

def system (N : ℕ) (cfg : Config) : System (State N) (Action N) :=
  System.guarded (fun s => s = .initial N) (State.enabled cfg) (State.next cfg)

/-- The server is up. `accept` may fail, also if somebody waits. -/
def Serving : Discipline (State N) (Action N)
  | s, .network a => Lift Completion.Serving s.network a
  | _, .connect => True

/-- The server goes on alone: nobody sends, finishes, connects or interrupts it. -/
def Alone : Discipline (State N) (Action N)
  | s, .network (.server a) => Serving s (.network (.server a)) ∧ Unprompted a
  | _, _ => False

/-- A call of `accept` which returns nobody. -/
def fails : Action N → Bool
  | .network (.server (.accept none)) => true
  | _ => false

theorem reach_network {s : State N} (h : (system N cfg).Reach Serving s) :
    (network N cfg).Reach (Lift Completion.Serving) s.network := by
  refine h.simulates (f := State.network) ?_ ?_
  · rintro _ rfl
    rfl
  · rintro s a _ - hg ⟨he,rfl⟩
    cases a with
    | connect => exact .inl rfl
    | network a => exact .inr ⟨a,hg,he.1,rfl⟩

/-! ## A reported listening descriptor -/

/-- The reports of the listening descriptor which `AcceptLoop` has still to handle. -/
def listens (s : Sockets.State N) : ℕ := s.server.loop.batch.count .listen

section Listens
variable {s : Server.State N} {a : Server.Action N}

/-- A wake-up brings at most one report of the listening descriptor. -/
theorem listens_wake {ready : List Ready} (he : s.enabled cfg (.epollWait ready)) :
    (s.next cfg (.epollWait ready)).loop.batch.count .listen =
      if .listen ∈ ready then 1 else 0 := by
  obtain ⟨-,-,-,hnodup,-,hready⟩ := he
  change (ready.map s.kernel.tag).count .listen = _
  have htag : ∀ e ∈ ready, s.kernel.tag e = .listen ↔ e = .listen := by
    intro e hmem
    cases e with
    | listen => simp [Kernel.tag]
    | conn fd =>
        obtain ⟨r,hr,-⟩ := (Option.any_eq_true _ _).mp (hready _ hmem)
        simp [Kernel.tag,hr]
  have hcount : (ready.map s.kernel.tag).count .listen = ready.count .listen := by
    rw [List.count,List.countP_map,List.count]
    refine List.countP_congr fun e hmem => ?_
    simp [htag e hmem]
  rw [hcount]
  split_ifs with hmem
  · exact List.count_eq_one_of_mem hnodup hmem
  · exact List.count_eq_zero.mpr hmem

/-- Only a wake-up and `accept` change the number of reports. -/
theorem listens_next (he : s.enabled cfg a) (hwait : ∀ ready, a ≠ .epollWait ready)
    (haccept : ∀ fd, a ≠ .accept fd) :
    (s.next cfg a).loop.batch.count .listen = s.loop.batch.count .listen := by
  have hadvances := loop_follows he
  generalize (s.next cfg a).loop = l at hadvances
  cases hadvances with
  | stays => rfl
  | wakes ready => exact (hwait ready rfl).elim
  | accepts fd => exact (haccept (some fd) rfl).elim
  | skips => exact (haccept none rfl).elim
  | nonblocking => rfl
  | dispatches hb => simp [hb]
  | goes => rfl

end Listens

/-- There is a client for every report. -/
theorem listens_le {s : State N} (h : (system N cfg).Reach Serving s) :
    listens s.network ≤ s.waiting := by
  refine h.invariant (I := fun s => listens s.network ≤ s.waiting) ?_ ?_
  · rintro _ rfl
    exact le_rfl
  · rintro s a _ - hle hg ⟨he,rfl⟩
    cases a with
    | connect => exact Nat.le_succ_of_le hle
    | network a =>
        cases a with
        | arrive c bytes => exact hle
        | finish c => exact hle
        | server a =>
            obtain ⟨⟨he,-⟩,hadmits⟩ := he
            cases a with
            | epollWait ready =>
                change (s.network.server.next cfg (.epollWait ready)).loop.batch.count .listen ≤ _
                rw [listens_wake he]
                split_ifs with hmem
                · exact hadmits hmem
                · exact Nat.zero_le _
            | accept fd =>
                obtain ⟨batch,hb⟩ := List.head?_eq_some_iff.mp he.2.2.1
                simp only [listens,hb,List.count_cons_self] at hle
                cases fd with
                | none =>
                    change s.network.server.loop.batch.tail.count .listen ≤ s.waiting
                    rw [hb,List.tail_cons]
                    exact Nat.le_of_succ_le hle
                | some f =>
                    change s.network.server.loop.batch.tail.count .listen ≤ s.waiting-1
                    rw [hb,List.tail_cons]
                    omega
            | _ => exact (listens_next he (by simp) (by simp)).trans_le hle

/-! ## What is still to be done -/

section Cost
variable {s : Sockets.State N} {G : Discipline (Server.State N) (Server.Action N)}

/-- What an accepted connection weighs at first. -/
theorem potential_accepted {v : Conn} (h : Ok cfg v) (hpos : v.pos = .setNonblocking) (r : ℕ) :
    potential cfg.bufferSize v r = 6+21*r := by
  cases h with
  | accepted fd => simp [opening,potential,setup,watching,tasks]
  | live hl => rcases hl.pos with hp | hp | hp <;> simp [hp] at hpos
  | _ => simp [Conn.blank,opening] at hpos

/-- `accept` adds a connection with what its client has sent. -/
theorem total_accept (h : (network N cfg).Reach (Lift G) s) {f : Fd}
    (he : s.server.enabled cfg (.accept (some f))) (ha : s.Answers cfg (.accept (some f))) :
    total cfg (s.next cfg (.server (.accept (some f)))) ≤
      total cfg s+(6+21*(s.sockets s.server.accepted).left) := by
  have hserver := reach_server h
  have hafter : (Server.system N cfg).Reach Free (s.server.next cfg (.accept (some f))) :=
    .step (hserver.mono fun _ _ _ => trivial) trivial ⟨he,rfl⟩
  obtain ⟨-,hpos,hhead,hfree⟩ := he
  have howner : s.server.kernel.owner f = none := hfree f rfl
  have hold : ∀ c ∈ Finset.range s.server.accepted,
      weight cfg (s.next cfg (.server (.accept (some f)))) c ≤ weight cfg s c := by
    intro c hc
    have hne : c ≠ s.server.accepted := Nat.ne_of_lt (Finset.mem_range.mp hc)
    have hview : view (s.server.next cfg (.accept (some f))) c = view s.server c :=
      view_accept_of_ne hpos hhead howner hne
    change potential _ (view (s.server.next cfg (.accept (some f))) c) _ ≤ _
    rw [hview]
    exact potential_mono (left_step ha c) _
  have hnew : weight cfg (s.next cfg (.server (.accept (some f)))) s.server.accepted ≤
      6+21*(s.sockets s.server.accepted).left := by
    have hposition : (view (s.server.next cfg (.accept (some f))) s.server.accepted).pos =
        .setNonblocking := standsAt_self (l := ⟨.setNonblocking,_,_⟩) (by simp)
    have hpotential := potential_accepted (view_ok hafter _) hposition
      (socketAfter cfg s (.accept (some f)) s.server.accepted).left
    have hleft := left_step ha s.server.accepted
    exact hpotential.trans_le (Nat.add_le_add_left (Nat.mul_le_mul_left 21 hleft) 6)
  have hover : overhead (s.server.next cfg (.accept (some f))) = overhead s.server := by
    simp [overhead,Server.State.next,State.accept,State.record,hpos]
  have hsum := Finset.sum_le_sum hold
  change ∑ c ∈ Finset.range (s.server.accepted+1),
    weight cfg (s.next cfg (.server (.accept (some f)))) c+
      overhead (s.server.next cfg (.accept (some f))) ≤ _
  rw [Finset.sum_range_succ,total]
  omega

end Cost

/-- What the clients that wait will cost: their connections, and what they have sent. -/
noncomputable def expected (x : Sockets.State N) (n : ℕ) : ℕ :=
  ∑ i ∈ Finset.range n, (6+21*(x.sockets (x.server.accepted+i)).left)

/-- A client that waits can be reported once, and accepted once. -/
noncomputable def burden (cfg : Config) (s : State N) : ℕ :=
  total cfg s.network+listens s.network+2*(s.waiting-listens s.network)+
    expected s.network s.waiting

section Burden
variable {x : Sockets.State N} {a : Server.Action N}

theorem expected_le (ha : x.Answers cfg a) (n : ℕ)
    (haccepted : (x.server.next cfg a).accepted = x.server.accepted) :
    expected (x.next cfg (.server a)) n ≤ expected x n := by
  refine Finset.sum_le_sum fun i _ => ?_
  change 6+21*(socketAfter cfg x a ((x.server.next cfg a).accepted+i)).left ≤ _
  rw [haccepted]
  exact Nat.add_le_add_left (Nat.mul_le_mul_left 21 (left_step ha _)) 6

theorem expected_accept {f : Fd} (ha : x.Answers cfg (.accept (some f))) (n : ℕ) :
    6+21*(x.sockets x.server.accepted).left+
      expected (x.next cfg (.server (.accept (some f)))) n ≤ expected x (n+1) := by
  unfold expected
  rw [Finset.sum_range_succ',Nat.add_zero,Nat.add_comm]
  refine Nat.add_le_add_right (Finset.sum_le_sum fun i _ => ?_) _
  have hleft := left_step ha (x.server.accepted+1+i)
  have hindex : x.server.accepted+1+i = x.server.accepted+(i+1) := by omega
  rw [← hindex]
  exact Nat.add_le_add_left (Nat.mul_le_mul_left 21 hleft) 6

end Burden

section Step
variable {s : State N} (h : (system N cfg).Reach Serving s)
include h

/-- Away from the listening descriptor every step takes from the burden. -/
theorem burden_elsewhere {a : Server.Action N} (he : s.enabled cfg (.network (.server a)))
    (ha : Unprompted a) (hworks : works (.server a) = true) :
    burden cfg (s.next cfg (.network (.server a))) < burden cfg s := by
  obtain ⟨⟨he,hanswers⟩,-⟩ := he
  have htotal := total_step (reach_network h) he hanswers ha hworks
  have htaken : taken (Sockets.Action.server a) = 0 := by
    cases a with
    | accept fd => cases hworks
    | _ => rfl
  have hreports : listens (s.network.next cfg (.server a)) = listens s.network := by
    cases a with
    | epollWait ready =>
        have hbatch : s.network.server.loop.batch = [] := he.2.2.1
        have hafter : listens (s.network.next cfg (.server (.epollWait ready))) = 0 :=
          (listens_wake he).trans (if_neg (of_decide_eq_true hworks))
        rw [hafter,listens,hbatch,List.count_nil]
    | accept fd => cases hworks
    | _ => exact listens_next he (by simp) (by simp)
  have hexpected := expected_le hanswers s.waiting
    (accepted_next he (acceptsNone_of_works hworks))
  change total cfg (s.network.next cfg (.server a))+
    listens (s.network.next cfg (.server a))+
    2*(s.waiting-taken (.server a)-listens (s.network.next cfg (.server a)))+
      expected (s.network.next cfg (.server a)) (s.waiting-taken (.server a)) < _
  rw [htaken,Nat.sub_zero,hreports,burden]
  omega

/-- A report is paid for by the client that waits. -/
theorem burden_wake {ready : List Ready}
    (he : s.enabled cfg (.network (.server (.epollWait ready)))) (hmem : .listen ∈ ready) :
    burden cfg (s.next cfg (.network (.server (.epollWait ready)))) < burden cfg s := by
  obtain ⟨⟨he,hanswers⟩,hadmits⟩ := he
  have htotal := total_le (reach_network h) he hanswers trivial (by simp [works,hmem])
  have hexpected := expected_le hanswers s.waiting rfl
  have hbefore : listens s.network = 0 := by
    have hbatch : s.network.server.loop.batch = [] := he.2.2.1
    simp [listens,hbatch]
  have hafter : listens (s.network.next cfg (.server (.epollWait ready))) = 1 :=
    (listens_wake he).trans (if_pos hmem)
  have hwaiting : 0 < s.waiting := hadmits hmem
  change total cfg (s.network.next cfg (.server (.epollWait ready)))+
    listens (s.network.next cfg (.server (.epollWait ready)))+
    2*(s.waiting-listens (s.network.next cfg (.server (.epollWait ready))))+
      expected (s.network.next cfg (.server (.epollWait ready))) s.waiting < _
  rw [burden]
  omega

/-- An accepted client is no longer expected. A call that fails gives the report back to
the client that waits. -/
theorem burden_accept {fd : Option Fd} (he : s.enabled cfg (.network (.server (.accept fd)))) :
    burden cfg (s.next cfg (.network (.server (.accept fd))))+1 ≤
      burden cfg s+if fd = none then 2 else 0 := by
  have hnetwork := reach_network h
  have hlistens := listens_le h
  obtain ⟨⟨he,hanswers⟩,-⟩ := he
  obtain ⟨batch,hb⟩ := List.head?_eq_some_iff.mp he.2.2.1
  have hbefore : listens s.network = batch.count .listen+1 := by simp [listens,hb]
  have hafter : listens (s.network.next cfg (.server (.accept fd))) = batch.count .listen := by
    have htail : s.network.server.loop.batch.tail = batch := by rw [hb,List.tail_cons]
    cases fd with
    | none => exact congrArg (List.count .listen) htail
    | some f => exact congrArg (List.count .listen) htail
  cases fd with
  | none =>
      have htotal := total_le hnetwork he hanswers rfl rfl
      have hexpected := expected_le hanswers s.waiting rfl
      change total cfg (s.network.next cfg (.server (.accept none)))+
        listens (s.network.next cfg (.server (.accept none)))+
        2*(s.waiting-listens (s.network.next cfg (.server (.accept none))))+
          expected (s.network.next cfg (.server (.accept none))) s.waiting+1 ≤ _
      rw [burden,if_pos rfl]
      omega
  | some f =>
      obtain ⟨n,hn⟩ := Nat.exists_eq_add_one_of_ne_zero (n := s.waiting) (by omega)
      have htotal := total_accept hnetwork he hanswers
      have hexpected := expected_accept hanswers n
      change total cfg (s.network.next cfg (.server (.accept (some f))))+
        listens (s.network.next cfg (.server (.accept (some f))))+
        2*(s.waiting-1-listens (s.network.next cfg (.server (.accept (some f)))))+
          expected (s.network.next cfg (.server (.accept (some f)))) (s.waiting-1)+1 ≤ _
      rw [hn,Nat.add_sub_cancel,burden,hn,if_neg (by simp)]
      omega

/-- Every step of the server alone takes from the burden, but for a call of `accept` that
fails, which may add one. -/
theorem burden_step {a : Action N} (he : s.enabled cfg a) (ha : Alone s a) :
    burden cfg (s.next cfg a)+1 ≤ burden cfg s+if fails a then 2 else 0 := by
  cases a with
  | connect => exact ha.elim
  | network a =>
      cases a with
      | arrive c bytes => exact ha.elim
      | finish c => exact ha.elim
      | server a =>
          cases a with
          | accept fd => cases fd <;> exact burden_accept h he
          | epollWait ready =>
              by_cases hmem : .listen ∈ ready
              · exact burden_wake h he hmem
              · exact burden_elsewhere h he ha.2 (decide_eq_true hmem)
          | _ => exact burden_elsewhere h he ha.2 rfl

end Step

theorem Alone.serving {s : State N} {a : Action N} (h : Alone s a) : Serving s a := by
  cases a with
  | connect => exact h.elim
  | network a =>
      cases a with
      | server a => exact h.1
      | _ => exact h.elim

theorem exists_bound {s : State N} (h : (system N cfg).Reach Serving s) :
    ∃ n, ∀ as t, (system N cfg).Run Alone s as t → as.length ≤ n+2*as.countP fails := by
  refine ⟨burden cfg s,fun as t hrun => ?_⟩
  refine hrun.length_le (I := fun s => (system N cfg).Reach Serving s)
    (fun _ _ _ hs halone hst => hs.step halone.serving hst) ?_ h
  rintro s a _ hs halone ⟨he,rfl⟩
  exact burden_step hs he halone

/-! ## A step on its own -/

/-- `accept` always finds a number for a new descriptor. -/
theorem exists_free {G : Discipline (Server.State N) (Server.Action N)} {s : Server.State N}
    (h : (Server.system N cfg).Reach G s) : ∃ f, s.kernel.owner f = none := by
  obtain ⟨f,hf⟩ := Infinite.exists_notMem_finset ((Finset.range s.accepted).image s.fd)
  refine ⟨f,Option.eq_none_iff_forall_ne_some.mpr fun c hc => hf ?_⟩
  have hfd := (sound h).owned f c hc
  have hne : view s c ≠ .blank := by
    intro hblank
    have hopen : owns s.kernel (s.fd c) c = false := congrArg Conn.isOpen hblank
    simp [owns,hfd,hc] at hopen
  exact Finset.mem_image.mpr ⟨c,Finset.mem_range.mpr (lt_accepted (sound h) hne),hfd⟩

/-- No client waits, and the server is at rest. -/
def Done (s : State N) : Prop := AtRest s.network ∧ s.waiting = 0

theorem progress {s : State N} (h : (system N cfg).Reach Serving s) (hN : 0 < N)
    (hevents : 0 < cfg.maxEvents) : Done s ∨ ∃ a t, Alone s a ∧ (system N cfg).step s a t := by
  have hnetwork := reach_network h
  have haborted := (up (reach_server hnetwork)).aborted
  rcases Completion.progress hnetwork hN hevents with hrest | ⟨hpos,hhead⟩ | ⟨a,t,ha,hstep⟩
  · by_cases hwaiting : s.waiting = 0
    · exact .inl ⟨hrest,hwaiting⟩
    · have he : s.network.server.enabled cfg (.epollWait [.listen]) :=
        ⟨haborted,hrest.fetch,hrest.batch,by simp,hevents,by simp [Kernel.isReady]⟩
      refine .inr ⟨.network (.server (.epollWait [.listen])),_,⟨trivial,by simp [Unprompted]⟩,
        ⟨⟨⟨he,by simp [reading],?_⟩,fun _ => Nat.pos_of_ne_zero hwaiting⟩,rfl⟩⟩
      intro e hmem
      rw [List.mem_singleton.mp hmem]
      trivial
  · obtain ⟨batch,hb⟩ := List.head?_eq_some_iff.mp hhead
    have hlistens := listens_le h
    simp only [listens,hb,List.count_cons_self] at hlistens
    obtain ⟨f,hf⟩ := exists_free (reach_server hnetwork)
    have he : s.network.server.enabled cfg (.accept (some f)) :=
      ⟨haborted,hpos,hhead,fun g hg => by cases hg; exact hf⟩
    refine .inr ⟨.network (.server (.accept (some f))),_,⟨trivial,trivial⟩,
      ⟨⟨⟨he,by simp [reading],by simp [reported]⟩,?_⟩,rfl⟩⟩
    exact Nat.lt_of_lt_of_le (Nat.succ_pos _) hlistens
  · cases a with
    | server a =>
        obtain ⟨hserving,hun,hworks⟩ := ha
        refine .inr ⟨.network (.server a),_,⟨hserving,hun⟩,⟨⟨hstep.1,?_⟩,rfl⟩⟩
        cases a with
        | epollWait ready => exact fun hmem => (of_decide_eq_true hworks hmem).elim
        | accept fd => cases hworks
        | _ => trivial
    | _ => exact ha.elim

/-! ## The end of a run -/

/-- No step is left that the server could take alone. -/
def Ended (cfg : Config) (s : State N) : Prop :=
  ∀ a t, Alone s a → ¬ (system N cfg).step s a t

/-- The clients that have connected so far. -/
def connected (s : State N) : ℕ := s.network.server.accepted+s.waiting

section Runs
variable {s t : State N} {as : List (Action N)}

theorem reach_alone (h : (system N cfg).Reach Serving s) (hrun : (system N cfg).Run Alone s as t) :
    (system N cfg).Reach Serving t := (hrun.mono fun _ _ => Alone.serving).reach h

/-- Nobody connects while the server is alone, and nobody gets lost. -/
theorem connected_alone (hrun : (system N cfg).Run Alone s as t) : connected t = connected s := by
  induction hrun with
  | done s => rfl
  | @step s u t a as ha hst _ ih =>
      rw [ih]
      obtain ⟨he,rfl⟩ := hst
      cases a with
      | connect => exact ha.elim
      | network a =>
          cases a with
          | arrive c bytes => exact ha.elim
          | finish c => exact ha.elim
          | server a =>
              obtain ⟨⟨he,-⟩,hadmits⟩ := he
              cases a with
              | accept fd =>
                  cases fd with
                  | none => rfl
                  | some f =>
                      have hwaiting : 0 < s.waiting := hadmits
                      change s.network.server.accepted+1+(s.waiting-1) = connected s
                      unfold connected
                      omega
              | _ =>
                  exact congrArg (·+s.waiting) (accepted_next he trivial)

/-- The server stops only where it has accepted everybody and is at rest. -/
theorem done_of_ended (hN : 0 < N) (hevents : 0 < cfg.maxEvents)
    (h : (system N cfg).Reach Serving s) (hrun : (system N cfg).Run Alone s as t)
    (hended : Ended cfg t) : Done t ∧ t.network.server.accepted = connected s := by
  have hdone : Done t := (progress (reach_alone h hrun) hN hevents).resolve_right
    fun ⟨a,u,ha,hu⟩ => hended a u ha hu
  refine ⟨hdone,?_⟩
  rw [← connected_alone hrun,connected,hdone.2,Nat.add_zero]

end Runs

/-- While `on_connection_` returns, `epoll_wait` fails only by a signal and nobody destroys
the server, what it does alone from a reachable state on is bounded, but for two steps for
every call of `accept` that fails. Where it comes to an end it has accepted every client
that has connected. Whatever happened to the others: each of them that was spared and whose
stream is ripe is closed after the outcome of its stream, and is armed with everything read
otherwise. -/
theorem every_client_is_served (hN : 0 < N) (hevents : 0 < cfg.maxEvents) (hcfg : Serves cfg)
    (s : State N) (h : (system N cfg).Reach Serving s) :
    ∃ n, ∀ as t, (system N cfg).Run Alone s as t → as.length ≤ n+2*as.countP fails ∧
      (Ended cfg t → t.network.server.accepted = connected s ∧ t.waiting = 0 ∧
        ∀ c < connected s, Spared cfg t.network.server c → Answers cfg t.network c) := by
  obtain ⟨n,hn⟩ := exists_bound h
  refine ⟨n,fun as t hrun => ⟨hn as t hrun,fun hended => ?_⟩⟩
  obtain ⟨⟨hrest,hwaiting⟩,hall⟩ := done_of_ended hN hevents h hrun hended
  refine ⟨hall,hwaiting,fun c hc hspared => ?_⟩
  exact hrest.answers hcfg (reach_network (reach_alone h hrun)) (hall ▸ hc) hspared

/-- Two clients have connected, and the second one has sent the greeting. -/
theorem every_client_is_served_two : ∃ s : State 1,
    s.waiting = 2 ∧ (s.network.sockets 1).sent = greeting ∧
    ∃ n, ∀ as t, (system 1 .standard).Run Alone s as t → as.length ≤ n+2*as.countP fails ∧
      (Ended .standard t → t.network.server.accepted = connected s ∧ t.waiting = 0 ∧
        ∀ c < connected s, Spared .standard t.network.server c →
          Answers .standard t.network c) := by
  have h₁ : (system 1 .standard).Reach Serving ⟨.initial 1,1⟩ :=
    .step (a := .connect) (.start rfl) trivial ⟨trivial,rfl⟩
  have h₂ : (system 1 .standard).Reach Serving ⟨.initial 1,2⟩ :=
    .step (a := .connect) h₁ trivial ⟨trivial,rfl⟩
  have h₃ : (system 1 .standard).Reach Serving
      (State.next .standard ⟨.initial 1,2⟩ (.network (.arrive 1 greeting))) :=
    .step (a := .network (.arrive 1 greeting)) h₂ trivial
      ⟨⟨⟨by simp [greeting],rfl⟩,trivial⟩,rfl⟩
  exact ⟨_,rfl,rfl,every_client_is_served Nat.one_pos (by decide) serves_standard _ h₃⟩

end WebServer.Backlog
