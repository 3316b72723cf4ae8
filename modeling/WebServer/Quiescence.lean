import WebServer.Potential
import WebServer.Shutdown
import WebServer.Streams

/-!
# A server whose peers are silent comes to rest

Edge-triggered events, re-arming and a pool of workers could keep each other busy for
ever without anything being read. They do not: once no peer sends and nobody is accepted,
every run is finite but for the reports of the level-triggered listening descriptor,
whatever the callbacks, `read` and `epoll_ctl` answer, and also while the server is being
destroyed. The reports can go on: `AcceptLoop` spins as long as a client waits whom
`accept` does not return.

Each step is a move of some connection, which its potential pays for, or one of the few
that concern no connection: a worker finds the queue empty, and what ends `AcceptLoop` or
the server. An event is reported only for a connection which can be read.
-/
namespace WebServer.Quiescence
open TransitionSystem Interaction RequestParsing Contexts Handler Server
open Lifecycle LifecycleInvariant LifecycleWork Projection Ownership Sockets Streams
open Potential Shutdown ConcurrentOutcome
open ThreadPool (Outcome Pool Worker Destructor)
open ThreadPoolWakeup (awake countAt countAt_setWorker)
open scoped BigOperators

variable {N : ℕ} {cfg : Config} {c : ConnId} {x : Socket}

/-! ## What is left to be read -/

theorem left_pos (h : x.readable = true) : 0 < x.left := by
  rw [readable_iff] at h
  simp only [Socket.left,Socket.pending,List.length_drop]
  rcases h with h | h
  · omega
  · simp [h]

theorem left_eq_zero (h : x.readable = false) : x.left = 0 := by
  have hboth : x.pending = [] ∧ x.finished = false := by
    simpa [Socket.readable] using h
  simp [Socket.left,hboth]

/-- A read that returns bytes leaves fewer. -/
theorem leaves_read {room : ℕ} {n : ReadResult} (h : x.Gives room n) :
    Leaves x.left (x.read n).left .read n := by
  cases n with
  | error e =>
      cases e with
      | again => exact left_eq_zero h
      | badf => exact le_rfl
      | other => exact le_rfl
  | data bytes =>
      cases bytes with
      | nil => exact le_rfl
      | cons b bs =>
          have hlen := List.IsPrefix.length_le h
          simp only [Socket.pending,List.length_drop,List.length_cons] at hlen
          change Socket.left {x with taken := x.taken+(bs.length+1)} < x.left
          simp only [Socket.left,Socket.pending,List.length_drop]
          omega

/-! ## Silence -/

/-- A step which nobody outside the server and its kernel causes. The clients that have
connected already wait in the kernel: `epoll_wait` reports the listening descriptor for
them, and `accept` may fail again and again. -/
def Unprompted : Server.Action N → Prop
  | .epollWait ready => ready ≠ []
  | .epollError interrupted => interrupted = false
  | .wake _ => False
  | _ => True

/-- A step in which nobody is accepted. -/
def AcceptsNone : Server.Action N → Prop
  | .accept fd => fd = none
  | _ => True

/-- No peer sends or finishes, and nobody is accepted. -/
def Quiet : Discipline (Sockets.State N) (Sockets.Action N)
  | _, .server a => Unprompted a ∧ AcceptsNone a
  | _, _ => False

/-- A step that has nothing to do with the listening descriptor. -/
def works : Sockets.Action N → Bool
  | .server (.epollWait ready) => .listen ∉ ready
  | .server (.accept _) => false
  | _ => true

/-! ## What a step is for a connection -/

theorem notify_of_next {v : Conn} {m : Move} (he : v.enabled cfg m) (hpos : v.pos = .notify)
    (hnext : (v.next cfg m).pos ≠ .notify) : m = .notify := by
  cases m with
  | notify => rfl
  | accept fd =>
      have hv : v = .blank := he
      rw [hv] at hpos
      cases hpos
  | work rest t o k x => simp [Conn.next,Conn.record,hpos] at hnext
  | addRef => exact absurd (hpos.symm.trans he.1) (by decide)
  | deliver | look | invoke _ | finish _ _ _ => exact (hnext hpos).elim
  | _ => exact absurd (hpos.symm.trans he) (by decide)

theorem finish_of_next {v : Conn} {m : Move} {outcome : Outcome} {t : Task}
    (h : (v.next cfg m).history = v.history++[.finished outcome t]) : gain m = 1 := by
  cases m with
  | finish rest t outcome => rfl
  | notify => rfl
  | onConnection outcome =>
      cases hc : cfg.onConnection <;> simp [Conn.next,Conn.record,hc] at h
  | add ok => cases ok <;> simp [Conn.next,Conn.record] at h
  | _ => simp [Conn.next,Conn.record] at h

section Step
variable {s : Server.State N} {a : Server.Action N}

/-- A connection is accepted in a step only if somebody connects. -/
theorem not_accept (he : s.enabled cfg a) (ha : AcceptsNone a) (hblank : view s c = .blank) :
    (view (s.next cfg a) c).pos ≠ .setNonblocking := by
  have hbefore : standsAt s.loop c ≠ .setNonblocking := by
    have hpos : standsAt s.loop c = .fetch := congrArg Conn.pos hblank
    simp [hpos]
  intro hpos
  have hafter : (s.next cfg a).loop.conn = c ∧ (s.next cfg a).loop.pos = .setNonblocking := by
    change standsAt (s.next cfg a).loop c = _ at hpos
    unfold standsAt at hpos
    split_ifs at hpos with hc
    exact ⟨hc.1,hpos⟩
  have hadvances := loop_follows he
  generalize (s.next cfg a).loop = l at hadvances hafter
  obtain ⟨rfl,hl⟩ := hafter
  have hsame : l.conn = s.loop.conn → l.pos = s.loop.pos → False := by
    intro hconn hsame
    apply hbefore
    rw [standsAt,if_pos ⟨hconn.symm,by simp [← hsame,hl]⟩,← hsame,hl]
  cases hadvances with
  | stays => exact hsame rfl rfl
  | wakes ready => exact hsame rfl rfl
  | accepts fd => cases ha
  | skips => exact hsame rfl rfl
  | nonblocking hp => cases hl
  | dispatches hb => cases hl
  | goes h₁ h₂ h₃ => exact h₁ hl

/-- An event is delivered only by `epoll_wait`. -/
theorem deliver_cases (he : s.enabled cfg a) (ha : AcceptsNone a)
    (h : (view s c).delivered < (view (s.next cfg a) c).delivered) :
    ∃ ready, a = .epollWait ready ∧ ∃ e ∈ ready, s.kernel.tag e = .ctx c := by
  change s.loop.batch.count (.ctx c) < (s.next cfg a).loop.batch.count (.ctx c) at h
  have hadvances := loop_follows he
  have htail : s.loop.batch.tail.count (.ctx c) ≤ s.loop.batch.count (.ctx c) :=
    (List.tail_sublist _).count_le _
  generalize (s.next cfg a).loop = l at hadvances h
  cases hadvances with
  | wakes ready =>
      have hmem : Tag.ctx c ∈ ready.map s.kernel.tag :=
        List.count_pos_iff.mp (Nat.zero_lt_of_lt h)
      obtain ⟨e,he,htag⟩ := List.mem_map.mp hmem
      exact ⟨ready,rfl,e,he,htag⟩
  | accepts fd => cases ha
  | skips => exact absurd h (Nat.not_lt.mpr htail)
  | dispatches hb =>
      rw [hb] at h htail
      exact absurd h (Nat.not_lt.mpr htail)
  | stays => exact (lt_irrefl _ h).elim
  | nonblocking => exact (lt_irrefl _ h).elim
  | goes => exact (lt_irrefl _ h).elim

end Step

section Potential
variable {s : Sockets.State N} {a : Server.Action N}
variable {G : Discipline (Server.State N) (Server.Action N)}
variable (ha : s.Answers cfg a)
include ha

/-- The socket of connection `c` after the step. -/
abbrev socketAfter (cfg : Config) (s : Sockets.State N) (a : Server.Action N) (c : ConnId) :
    Socket :=
  ((s.sockets c).take c (reading s.server a)).poll (view s.server c).watch
    (view (s.server.next cfg a) c).watch

/-- How a step of the server changes what is left for a connection. -/
theorem left_step (c : ConnId) :
    (socketAfter cfg s a c).left ≤ (s.sockets c).left := by
  change ((s.sockets c).take c (reading s.server a)).left ≤ _
  cases hr : reading s.server a with
  | none => exact le_rfl
  | some p =>
      obtain ⟨d,n⟩ := p
      by_cases hd : d = c
      · subst hd
        have hread := (leaves_read (ha.1 (d,n) hr)).le
        simpa [Socket.take] using hread
      · simp [Socket.take,hd]

/-- A task that reads takes from what is left. -/
theorem leaves_work (he : s.server.enabled cfg a) {rest : Multiset Task} {t : Task} {o : Op}
    {k : o.Res → Code} {r : o.Res}
    (hx : view (s.server.next cfg a) c = (view s.server c).next cfg (.work rest t o k r)) :
    Leaves (s.sockets c).left (socketAfter cfg s a c).left o r := by
  have hle := left_step ha c
  by_cases ho : o = .read
  · subst ho
    have hseen : traceOf cfg (s.server.next cfg a) c = traceOf cfg s.server c++
        observations cfg
          [.op .read r ((view s.server c).cell.perform cfg .read r).ctx.toSession] := by
      rw [traceOf,hx,traceOf,← observations_append]
      rfl
    by_cases hp : ∃ o' r', Performs cfg s.server a c o' r'
    · obtain ⟨o',r',hp⟩ := hp
      rw [traceOf_performs hp,List.append_cancel_left_eq] at hseen
      obtain ⟨rfl,hr⟩ : o' = .read ∧ HEq r' r := by
        unfold Semantics.observe at hseen
        split at hseen
        · cases hseen
        · have hone := (List.cons.inj hseen).1
          rw [Observation.mk.injEq] at hone
          exact ⟨hone.1,hone.2.1⟩
      cases hr
      have hread := reading_of_performs hp
      have hleaves := leaves_read (ha.1 _ hread)
      change Leaves _ ((s.sockets c).take c (reading s.server a)).left _ _
      rw [hread]
      simpa [Socket.take] using hleaves
    · rw [traceOf_idle he fun o' r' h => hp ⟨o',r',h⟩] at hseen
      exact absurd (List.self_eq_append_right.mp hseen) (by simp [observations,semantics])
  · cases o <;> first | exact (ho rfl).elim | exact hle

/-- What a connection weighs in a state. -/
noncomputable def weight (cfg : Config) (s : Sockets.State N) (c : ConnId) : ℕ :=
  potential cfg.bufferSize (view s.server c) (s.sockets c).left

/-- A step costs a connection something, or leaves it alone. -/
theorem weight_step (h : (network N cfg).Reach (Lift G) s) (he : s.server.enabled cfg a)
    (hnone : AcceptsNone a) (c : ConnId) :
    view (s.server.next cfg a) c = view s.server c ∨ ∃ m, (view s.server c).enabled cfg m ∧
      view (s.server.next cfg a) c = (view s.server c).next cfg m ∧
      weight cfg (s.next cfg (.server a)) c+gain m < weight cfg s c := by
  have hserver := reach_server h
  have hok := view_ok hserver
  rcases follows (sound hserver) hok he c with hx | ⟨-,m,-,hm,hx⟩
  · exact .inl hx
  refine .inr ⟨m,hm,hx,?_⟩
  change potential _ (view (s.server.next cfg a) c) (socketAfter cfg s a c).left+_ < _
  rw [hx]
  by_cases hwork : ∃ rest t o k r, m = .work rest t o k r
  · obtain ⟨rest,t,o,k,r,rfl⟩ := hwork
    have hmem : t ∈ (view s.server c).running := hm.1 ▸ Multiset.mem_cons_self t rest
    have hlife := (reach_views (K := Free) (fun _ _ _ _ _ _ => trivial) hserver).2 c
    obtain ⟨n,hn⟩ := bounded_tasks hlife t hmem
    have hlive := live_of_mem (hok c) hmem
    refine potential_work hm.1 hm.2.1 hn (leaves_work ha he hx) ?_
    rintro rfl
    exact (inCharge_of_op hlive hm.1 hm.2.1 (by decide)).1
  · refine lt_of_le_of_lt (Nat.add_le_add_right (potential_mono (left_step ha c) _) _) ?_
    refine potential_next rfl hm ?_ (fun rest t o k r hr => hwork ⟨rest,t,o,k,r,hr⟩) ?_
    · rintro fd rfl
      have hblank : view s.server c = .blank := hm
      exact not_accept he hnone hblank (congrArg Conn.pos hx)
    · rintro rfl
      have hdelivered : (view s.server c).delivered < (view (s.server.next cfg a) c).delivered := by
        rw [hx]
        exact Nat.lt_succ_self _
      obtain ⟨ready,rfl,e,hmem,htag⟩ := deliver_cases he hnone hdelivered
      have hready : s.server.kernel.isReady e = true := he.2.2.2.2.2 e hmem
      obtain ⟨rfl,hwatch⟩ := (tag_eq_iff (sound hserver) hready c).mp htag
      obtain ⟨r,hr,hconn⟩ := Option.bind_eq_some_iff.mp hwatch
      have hc : r.conn = c := by
        by_contra hne
        simp [hne] at hconn
      have hlisted : (s.sockets r.conn).listed = true := ha.2 _ hmem r hr
      rw [hc] at hlisted
      exact left_pos ((listed_iff h c).mp hlisted).2

theorem weight_le (h : (network N cfg).Reach (Lift G) s) (he : s.server.enabled cfg a)
    (hnone : AcceptsNone a) (c : ConnId) :
    weight cfg (s.next cfg (.server a)) c ≤ weight cfg s c := by
  rcases weight_step ha h he hnone c with hx | ⟨m,-,-,hlt⟩
  · change potential _ (view (s.server.next cfg a) c) (socketAfter cfg s a c).left ≤ _
    rw [hx]
    exact potential_mono (left_step ha c) _
  · exact (Nat.le_add_right _ _).trans hlt.le

end Potential

/-! ## What is left to do besides -/

/-- The callbacks that are not destroyed yet. -/
def callbacksLeft : Teardown → ℕ
  | .alive => 2
  | .messageDestroyed => 1
  | .connectionDestroyed => 0

/-- The steps which `~ThreadPool` has still to take; its `notify_all` wakes every worker. -/
def destructorLeft (N : ℕ) : Destructor → ℕ
  | .idle => N+3
  | .stopped => N+2
  | .notified => 1
  | .joined => 0

/-- A worker that is awake looks at the queue, `AcceptLoop` may end, and the server may be
destroyed. -/
def overhead (s : Server.State N) : ℕ :=
  awake s.pool+(if s.loop.pos = .exited then 0 else 1)+callbacksLeft s.teardown+
    destructorLeft N s.pool.destructor

section Overhead
variable {s t : Server.State N} {a : Server.Action N}

theorem overhead_le {n : ℕ} (hawake : awake t.pool ≤ awake s.pool+n)
    (hdestructor : t.pool.destructor = s.pool.destructor) (hteardown : t.teardown = s.teardown)
    (hpos : s.loop.pos = .exited → t.loop.pos = .exited) : overhead t ≤ overhead s+n := by
  have hexited : (if t.loop.pos = .exited then 0 else 1) ≤
      (if s.loop.pos = .exited then 0 else 1) := by
    split_ifs <;> simp_all
  simp only [overhead,hdestructor,hteardown]
  omega

theorem overhead_lt (hloop : t.loop = s.loop)
    (hlt : awake t.pool+callbacksLeft t.teardown+destructorLeft N t.pool.destructor <
      awake s.pool+callbacksLeft s.teardown+destructorLeft N s.pool.destructor) :
    overhead t < overhead s := by
  simp only [overhead,hloop]
  omega

/-- A step of `AcceptLoop` at the connection it stands with changes that connection. -/
theorem view_ne_of_goto {p : Position} (hl : t.loop = {s.loop with pos := p})
    (hs : s.loop.pos ≠ .exited) (ht : p ≠ .exited) (hne : p ≠ s.loop.pos) :
    view t s.loop.conn ≠ view s s.loop.conn := by
  intro h
  have hbefore : standsAt s.loop s.loop.conn = s.loop.pos := standsAt_self hs
  have hafter : standsAt t.loop s.loop.conn = p := by
    rw [hl]
    exact standsAt_self (l := {s.loop with pos := p}) ht
  exact hne (hafter.symm.trans ((congrArg Conn.pos h).trans hbefore))

theorem view_ne_of_record {e : Event} (h : t.trace = s.trace++[(c,e)]) : view t c ≠ view s c := by
  intro hx
  have hh := congrArg (fun v => v.history.length) hx
  simp [view,h] at hh

theorem awake_setWorker_le {p : Pool Unit ConnId Task N} {w : Fin N} {y : Worker ConnId Task}
    (hy : y.place ≠ .awake) : awake (p.setWorker w y) ≤ awake p := by
  have hsum := countAt_setWorker .awake p w y
  rw [if_neg hy] at hsum
  exact (Nat.le_add_right _ _).trans hsum.le

theorem awake_setWorker_lt {p : Pool Unit ConnId Task N} {w : Fin N} {y : Worker ConnId Task}
    (hw : (p.workers w).place = .awake) (hy : y.place ≠ .awake) :
    awake (p.setWorker w y) < awake p := by
  have hsum := countAt_setWorker .awake p w y
  rw [if_pos hw,if_neg hy] at hsum
  change countAt .awake _ < countAt .awake _
  omega

theorem awake_setWorker_succ (p : Pool Unit ConnId Task N) (w : Fin N) (y : Worker ConnId Task) :
    awake (p.setWorker w y) ≤ awake p+1 := by
  have hsum := countAt_setWorker .awake p w y
  have hone : (if y.place = .awake then 1 else 0) ≤ 1 := by split_ifs <;> simp
  change countAt .awake _ ≤ countAt .awake _+1
  omega

theorem awake_le (p : Pool Unit ConnId Task N) : awake p ≤ N := by
  have hle : ∑ w : Fin N, (if (p.workers w).place = .awake then 1 else 0) ≤ ∑ _w : Fin N, 1 :=
    Finset.sum_le_sum fun w _ => by split_ifs <;> simp
  simpa [awake,countAt] using hle

/-- Where a silent step is a move, what it adds to the overhead is the gain of that move. -/
def Moves (cfg : Config) (s t : Server.State N) : Prop :=
  ∃ c, view t c ≠ view s c ∧ ∀ m, (view s c).enabled cfg m → view t c = (view s c).next cfg m →
    overhead t ≤ overhead s+gain m

theorem moves_of_le (hview : view t c ≠ view s c) (hle : overhead t ≤ overhead s) :
    Moves cfg s t := ⟨c,hview,fun _ _ _ => hle.trans (Nat.le_add_right _ _)⟩

/-- `AcceptLoop` goes on with the connection it stands with. -/
theorem moves_of_goto {p : Position} (hl : t.loop = {s.loop with pos := p})
    (hs : s.loop.pos ≠ .exited) (ht : p ≠ .exited) (hne : p ≠ s.loop.pos)
    (hawake : awake t.pool ≤ awake s.pool) (hdestructor : t.pool.destructor = s.pool.destructor)
    (hteardown : t.teardown = s.teardown) : Moves cfg s t :=
  moves_of_le (view_ne_of_goto hl hs ht hne)
    (overhead_le (n := 0) hawake hdestructor hteardown fun hx => (hs hx).elim)

/-- The events which `epoll_wait` reports are those of connections. -/
theorem moves_epollWait {ready : List Ready} (he : s.enabled cfg (.epollWait ready))
    (hne : ready ≠ []) (hlisten : .listen ∉ ready) :
    Moves cfg s (s.next cfg (.epollWait ready)) := by
  obtain ⟨-,-,hbatch,-,-,hready⟩ := he
  obtain ⟨e,hmem⟩ := List.exists_mem_of_ne_nil ready hne
  obtain ⟨c,hc⟩ : ∃ c, s.kernel.tag e = .ctx c := by
    cases e with
    | listen => exact (hlisten hmem).elim
    | conn f =>
        obtain ⟨r,hr,-⟩ := (Option.any_eq_true _ _).mp (hready _ hmem)
        exact ⟨r.conn,by simp [Kernel.tag,hr]⟩
  refine moves_of_le (c := c) (fun h => ?_) le_rfl
  have hcount := congrArg Conn.delivered h
  change (ready.map s.kernel.tag).count (.ctx c) = s.loop.batch.count (.ctx c) at hcount
  rw [hbatch,List.count_nil,List.count_eq_zero] at hcount
  exact hcount (List.mem_map.mpr ⟨e,hmem,hc⟩)

theorem moves_notify {woken : Option (Fin N)} (he : s.enabled cfg (.notify woken)) :
    Moves cfg s (s.next cfg (.notify woken)) := by
  have hpos : s.loop.pos = .notify := he.2.1
  have hview : view (s.next cfg (.notify woken)) s.loop.conn ≠ view s s.loop.conn :=
    view_ne_of_goto (p := .fetch) rfl (by simp [hpos]) (by decide) (by simp [hpos])
  refine ⟨s.loop.conn,hview,fun m hm hx => ?_⟩
  have hnotify : m = .notify := by
    refine notify_of_next hm ((standsAt_self (by simp [hpos])).trans hpos) fun hn => ?_
    rw [← hx] at hn
    have hfetch : standsAt {s.loop with pos := .fetch} s.loop.conn = .fetch :=
      standsAt_fetch rfl _
    cases hfetch.symm.trans hn
  subst hnotify
  refine overhead_le ?_ ?_ rfl fun hx => ?_
  · cases woken with
    | none => exact Nat.le_succ _
    | some w => exact awake_setWorker_succ _ w _
  · cases woken <;> rfl
  · rw [hpos] at hx
    cases hx

theorem moves_invoke {w : Fin N} (he : s.enabled cfg (.invoke w)) :
    Moves cfg s (s.next cfg (.invoke w)) := by
  have hplace : (s.pool.workers w).place = .holding := he.2
  obtain ⟨job,hw⟩ : ∃ job, s.pool.workers w = .holding job := by
    cases hx : s.pool.workers w <;> simp_all
  have hpool : (s.next cfg (.invoke w)).pool =
      {s.pool.setWorker w (.running (Task.start cfg job)) with
        invoked := s.pool.invoked++[job]} := by
    simp [Server.State.next,State.setPool,Pool.next,Pool.invoke,hw]
  refine moves_of_le (c := job) (fun h => ?_) (overhead_le (n := 0) ?_ ?_ rfl fun hx => hx)
  · obtain ⟨rest,h₁,h₂⟩ := sum_update_split (heldBy job) s.pool.workers w
    have hheld := congrArg Conn.held h
    change ∑ v, heldBy job ((s.next cfg (.invoke w)).pool.workers v) = _ at hheld
    rw [hpool] at hheld
    have hafter := h₂ (.running (Task.start cfg job))
    have hbefore : (view s job).held = 1+rest := by simpa [view,hw] using h₁
    rw [hbefore] at hheld
    rw [heldBy_running] at hafter
    exact absurd (hafter.symm.trans hheld) (by omega)
  · rw [hpool]
    exact awake_setWorker_le (p := s.pool) (by simp)
  · rw [hpool]
    rfl

theorem moves_work {w : Fin N} {answer : (o : Op) → o.Res} (he : s.enabled cfg (.work w answer)) :
    Moves cfg s (s.next cfg (.work w answer)) := by
  obtain ⟨t,o,k,hw,hcode,-⟩ := canWork_cases he.2
  rw [Server.State.next,work_eq hw hcode]
  exact moves_of_le (view_ne_of_record (c := t.conn) rfl)
    (overhead_le (n := 0) (awake_setWorker_le (by simp)) rfl rfl fun hx => hx)

theorem moves_finish {w : Fin N} (he : s.enabled cfg (.finish w)) :
    Moves cfg s (s.next cfg (.finish w)) := by
  obtain ⟨t,outcome,hw,hcode⟩ := canFinish_cases he.2
  rw [Server.State.next,finish_eq hw hcode]
  refine ⟨t.conn,view_ne_of_record rfl,fun m _ hx => ?_⟩
  have hgain : gain m = 1 := by
    have hrecord : ((view s t.conn).next cfg m).history =
        (view s t.conn).history++[.finished outcome t] := by
      rw [← hx]
      simp [view]
    exact finish_of_next hrecord
  rw [hgain]
  exact overhead_le (awake_setWorker_succ _ w _) rfl rfl fun hx => hx

/-- A worker that looks at the queue is not awake afterwards. -/
theorem overhead_look {w : Fin N} (he : s.enabled cfg (.look w)) :
    overhead (s.next cfg (.look w)) < overhead s := by
  have hplace : (s.pool.workers w).place = .awake := he.2
  have hawake : awake (s.pool.look w) < awake s.pool := by
    unfold Pool.look
    split
    · exact awake_setWorker_lt hplace (by split <;> simp)
    · exact awake_setWorker_lt (p := s.pool) hplace (by simp)
  refine overhead_lt rfl ?_
  change awake (s.pool.look w)+_+destructorLeft N (s.pool.look w).destructor < _
  have hdestructor : (s.pool.look w).destructor = s.pool.destructor := by
    unfold Pool.look
    split <;> rfl
  rw [hdestructor]
  exact Nat.add_lt_add_right (Nat.add_lt_add_right hawake _) _

/-- A step away from the listening descriptor is a move of some connection, or takes from
the overhead. -/
theorem overhead_step (he : s.enabled cfg a) (ha : Unprompted a)
    (hworks : works (.server a) = true) :
    Moves cfg s (s.next cfg a) ∨ overhead (s.next cfg a) < overhead s := by
  have hr := he.2
  cases a with
  | epollWait ready => exact .inl (moves_epollWait he ha (of_decide_eq_true hworks))
  | epollError interrupted =>
      have hfalse : interrupted = false := ha
      subst hfalse
      right
      simp [overhead,Server.State.next,State.goto,hr.1]
  | accept fd => cases hworks
  | setNonblocking =>
      have hpos : s.loop.pos = .setNonblocking := hr
      exact .inl (moves_of_goto (p := .onConnection) rfl (by simp [hpos]) (by decide)
        (by simp [hpos]) le_rfl rfl rfl)
  | onConnection outcome =>
      have hpos : s.loop.pos = .onConnection := hr.1
      left
      simp only [Server.State.next,State.callConnection]
      split <;> exact moves_of_goto (p := .create) rfl (by simp [hpos]) (by decide)
        (by simp [hpos]) le_rfl rfl rfl
  | create =>
      have hpos : s.loop.pos = .create := hr
      exact .inl (moves_of_goto (p := .add) rfl (by simp [hpos]) (by decide)
        (by simp [hpos]) le_rfl rfl rfl)
  | add ok =>
      have hpos : s.loop.pos = .add := hr.1
      left
      cases ok with
      | true =>
          exact moves_of_goto (p := .fetch) rfl (by simp [hpos]) (by decide)
            (by simp [hpos]) le_rfl rfl rfl
      | false =>
          exact moves_of_goto (p := .delete) rfl (by simp [hpos]) (by decide)
            (by simp [hpos]) le_rfl rfl rfl
  | delete =>
      have hpos : s.loop.pos = .delete := hr
      exact .inl (moves_of_goto (p := .close) rfl (by simp [hpos]) (by decide)
        (by simp [hpos]) le_rfl rfl rfl)
  | close =>
      have hpos : s.loop.pos = .close := hr
      exact .inl (moves_of_goto (p := .fetch) rfl (by simp [hpos]) (by decide)
        (by simp [hpos]) le_rfl rfl rfl)
  | addRef =>
      obtain ⟨hpos,d,hd⟩ := hr
      obtain ⟨batch,hb⟩ := List.head?_eq_some_iff.mp hd
      simp only [Server.State.next,State.addRef,hb]
      refine .inl (moves_of_le (view_ne_of_record (c := d) rfl)
        (overhead_le (n := 0) le_rfl rfl rfl fun hx => ?_))
      rw [hpos] at hx
      cases hx
  | submit =>
      have hpos : s.loop.pos = .submit := hr.1
      exact .inl (moves_of_goto (p := .notify) rfl (by simp [hpos]) (by decide)
        (by simp [hpos]) le_rfl rfl rfl)
  | notify woken => exact .inl (moves_notify he)
  | look w => exact .inr (overhead_look he)
  | wake w => exact ha.elim
  | invoke w => exact .inl (moves_invoke he)
  | work w answer => exact .inl (moves_work he)
  | finish w => exact .inl (moves_finish he)
  | destroyMessage =>
      have hteardown : s.teardown = .alive := hr
      refine .inr (overhead_lt rfl ?_)
      rw [hteardown]
      exact Nat.add_lt_add_right (Nat.lt_succ_self _) _
  | destroyConnection =>
      have hteardown : s.teardown = .messageDestroyed := hr
      refine .inr (overhead_lt rfl ?_)
      rw [hteardown]
      exact Nat.add_lt_add_right (Nat.lt_succ_self _) _
  | setStop =>
      have hidle : s.pool.destructor = .idle := hr.2
      refine .inr (overhead_lt rfl ?_)
      rw [hidle]
      exact Nat.add_lt_add_left (Nat.lt_succ_self _) _
  | notifyAll =>
      have hstopped : s.pool.destructor = .stopped := hr
      have hawake := awake_le (s.next cfg .notifyAll).pool
      refine .inr (overhead_lt rfl ?_)
      rw [hstopped]
      change awake (s.next cfg .notifyAll).pool+callbacksLeft s.teardown+1 <
        awake s.pool+callbacksLeft s.teardown+(N+2)
      omega
  | join =>
      have hnotified : s.pool.destructor = .notified := hr.1
      refine .inr (overhead_lt rfl ?_)
      rw [hnotified]
      exact Nat.add_lt_add_left (Nat.lt_succ_self _) _

end Overhead

/-! ## Runs -/

theorem accepted_next {s : Server.State N} {a : Server.Action N} (he : s.enabled cfg a)
    (ha : AcceptsNone a) : (s.next cfg a).accepted = s.accepted := by
  have hr := he.2
  cases a with
  | accept fd =>
      have hnone : fd = none := ha
      subst hnone
      rfl
  | onConnection outcome =>
      simp only [Server.State.next,State.callConnection]
      split <;> rfl
  | add ok => cases ok <;> rfl
  | addRef =>
      obtain ⟨-,d,hd⟩ := hr
      obtain ⟨batch,hb⟩ := List.head?_eq_some_iff.mp hd
      simp only [Server.State.next,State.addRef,hb]
      rfl
  | work w answer =>
      obtain ⟨t,o,k,hw,hcode,-⟩ := canWork_cases hr
      rw [Server.State.next,work_eq hw hcode]
  | finish w =>
      obtain ⟨t,outcome,hw,hcode⟩ := canFinish_cases hr
      rw [Server.State.next,finish_eq hw hcode]
  | _ => rfl

/-- What all connections weigh, and the overhead. -/
noncomputable def total (cfg : Config) (s : Sockets.State N) : ℕ :=
  ∑ c ∈ Finset.range s.server.accepted, weight cfg s c+overhead s.server

theorem acceptsNone_of_works {a : Server.Action N} (h : works (.server a) = true) :
    AcceptsNone a := by
  cases a with
  | accept fd => cases h
  | _ => trivial

section Total
variable {G : Discipline (Server.State N) (Server.Action N)} {s : Sockets.State N}
variable {a : Server.Action N} (h : (network N cfg).Reach (Lift G) s)
variable (he : s.server.enabled cfg a) (ha : s.Answers cfg a)
include h he ha

theorem total_step (hun : Unprompted a) (hworks : works (.server a) = true) :
    total cfg (s.next cfg (.server a)) < total cfg s := by
  have hnone := acceptsNone_of_works hworks
  have hle : ∀ c, weight cfg (s.next cfg (.server a)) c ≤ weight cfg s c :=
    weight_le ha h he hnone
  have haccepted : (s.next cfg (.server a)).server.accepted = s.server.accepted :=
    accepted_next he hnone
  unfold total
  rw [haccepted]
  rcases overhead_step he hun hworks with ⟨c,hne,hover⟩ | hlt
  · obtain ⟨m,hm,hx,hlt⟩ := (weight_step ha h he hnone c).resolve_left hne
    have hsound := sound (reach_server h)
    have hc : c ∈ Finset.range s.server.accepted := by
      rw [Finset.mem_range]
      by_contra hge
      have hfresh : s.server.accepted ≤ c := Nat.le_of_not_lt hge
      have hafter := (sound_next hsound (view_ok (reach_server h)) he).fresh c
        (haccepted.trans_le hfresh)
      exact hne (hafter.trans (hsound.fresh c hfresh).symm)
    have hsum : ∑ d ∈ Finset.range s.server.accepted,
        (weight cfg (s.next cfg (.server a)) d+if d = c then gain m else 0) <
          ∑ d ∈ Finset.range s.server.accepted, weight cfg s d := by
      refine Finset.sum_lt_sum (fun d _ => ?_) ⟨c,hc,by simpa using hlt⟩
      by_cases hd : d = c
      · subst hd
        simpa using hlt.le
      · simpa [hd] using hle d
    rw [Finset.sum_add_distrib,Finset.sum_ite_eq' _ c,if_pos hc] at hsum
    have hover := hover m hm hx
    change _+overhead (s.server.next cfg a) < _
    omega
  · exact Nat.add_lt_add_of_le_of_lt (Finset.sum_le_sum fun c _ => hle c) hlt

/-- What concerns the listening descriptor costs nothing, and adds nothing. -/
theorem total_le (hnone : AcceptsNone a) (hworks : works (.server a) = false) :
    total cfg (s.next cfg (.server a)) ≤ total cfg s := by
  have haccepted : (s.next cfg (.server a)).server.accepted = s.server.accepted :=
    accepted_next he hnone
  have hover : overhead (s.server.next cfg a) = overhead s.server := by
    cases a with
    | epollWait ready => rfl
    | accept fd =>
        have hfd : fd = none := hnone
        subst hfd
        rfl
    | _ => cases hworks
  unfold total
  rw [haccepted]
  exact Nat.add_le_add (Finset.sum_le_sum fun c _ => weight_le ha h he hnone c) hover.le

end Total

theorem exists_bound {G : Discipline (Server.State N) (Server.Action N)} {s : Sockets.State N}
    (h : (network N cfg).Reach (Lift G) s) :
    ∃ n, ∀ as t, (network N cfg).Run Quiet s as t → as.countP works ≤ n := by
  refine ⟨total cfg s,fun as t hrun => ?_⟩
  have hbound := hrun.countP_le (μ := total cfg) (p := works) (q := fun _ => false) (m := 0)
    (I := fun s => (network N cfg).Reach (Lift Free) s) ?_ ?_ (reach_free h)
  · rw [Nat.zero_mul] at hbound
    exact (Nat.le_add_right _ _).trans hbound
  · exact fun s a t hs _ hst => .step hs (by cases a <;> trivial) hst
  · rintro s a _ hs hquiet ⟨he,rfl⟩
    cases a with
    | server a =>
        cases hworks : works (.server a) with
        | true => exact total_step hs he.1 he.2 hquiet.1 hworks
        | false => exact total_le hs he.1 he.2 hquiet.2 hworks
    | arrive c bytes => exact hquiet.elim
    | finish c => exact hquiet.elim

/-! ## Reports without end -/

section Spin
variable {G : Discipline (Server.State N) (Server.Action N)} {s : Sockets.State N}

theorem poll_same {watch : Option Bool} (h : x.listed = true → watch = some true) :
    x.poll watch watch = x := by
  obtain ⟨sent,taken,finished,listed⟩ := x
  cases watch with
  | none => cases listed <;> simp_all [Socket.poll]
  | some armed => cases armed <;> cases listed <;> simp_all [Socket.poll]

/-- A step that reads nothing and keeps every registration keeps the sockets. -/
theorem sockets_next (h : (network N cfg).Reach (Lift G) s) {a : Server.Action N}
    (hread : reading s.server a = none)
    (hwatch : ∀ c, (view (s.server.next cfg a) c).watch = (view s.server c).watch) :
    (s.next cfg (.server a)).sockets = s.sockets := by
  funext c
  change ((s.sockets c).take c (reading s.server a)).poll _
    (view (s.server.next cfg a) c).watch = _
  rw [hread,hwatch]
  exact poll_same fun hlisted => ((listed_iff h c).mp hlisted).1

/-- A report of nothing but the listening descriptor leaves the registrations alone. -/
theorem deliver_listen (k : Kernel) : k.deliver [.listen] = k := by
  simp [Kernel.deliver]

/-- While a client waits whom `accept` does not return, `AcceptLoop` goes round for ever. -/
theorem failing_accept_spins (h : (network N cfg).Reach (Lift G) s)
    (haborted : s.server.aborted = false) (hpos : s.server.loop.pos = .fetch)
    (hbatch : s.server.loop.batch = []) (hevents : 0 < cfg.maxEvents) :
    (network N cfg).Run Quiet s
      [.server (.epollWait [.listen]),.server (.accept none)] s := by
  have hwait : s.enabled cfg (.server (.epollWait [.listen])) := by
    refine ⟨⟨haborted,hpos,hbatch,by simp,hevents,by simp [Kernel.isReady]⟩,by simp [reading],?_⟩
    intro e hmem
    rw [List.mem_singleton.mp hmem]
    trivial
  have hwatch : ∀ a : Server.Action N, a = .epollWait [.listen] ∨ a = .accept none →
      ∀ (t : Server.State N) (c : ConnId),
        (view (t.next cfg a) c).watch = (view t c).watch := by
    rintro a (rfl | rfl) t c
    · simp [view,Server.State.next,deliver_listen]
    · rfl
  have hreported := sockets_next h (a := .epollWait [.listen]) rfl (hwatch _ (.inl rfl) _)
  set t := s.next cfg (.server (.epollWait [.listen]))
  have hafter : (network N cfg).Reach (Lift Free) t :=
    .step (a := .server (.epollWait [.listen])) (reach_free h) trivial ⟨hwait,rfl⟩
  have haccept : t.enabled cfg (.server (.accept none)) :=
    ⟨⟨haborted,hpos,rfl,by simp⟩,by simp [reading],by simp [reported]⟩
  have hback := sockets_next hafter (a := .accept none) rfl (hwatch _ (.inr rfl) _)
  refine .step ⟨by simp [Unprompted],trivial⟩ ⟨hwait,rfl⟩
    (.step ⟨trivial,rfl⟩ ⟨haccept,?_⟩ (.done s))
  have hserver : t.server.next cfg (.accept none) = s.server := by
    change {s.server with
      kernel := s.server.kernel.deliver [.listen], loop := {s.server.loop with batch := []}} = _
    rw [deliver_listen,← hbatch]
  change s = ⟨t.server.next cfg (.accept none),(t.next cfg (.server (.accept none))).sockets⟩
  rw [hserver,hback,hreported]

end Spin

/-! ## The bound and the reports -/

/-- From every reachable state on, the server can take a bounded number of steps before
somebody sends, finishes, is accepted or interrupts it, apart from the reports of the
listening descriptor and the calls of `accept` which these lead to. Those are not bounded:
while `AcceptLoop` waits, a report and an `accept` that fails lead back to the same state. -/
theorem quiet_runs_are_bounded (s : Sockets.State N) (h : (network N cfg).Reach Free s) :
    (∃ n, ∀ as t, (network N cfg).Run Quiet s as t → as.countP works ≤ n) ∧
    (s.server.aborted = false → s.server.loop.pos = .fetch → s.server.loop.batch = [] →
      0 < cfg.maxEvents → (network N cfg).Run Quiet s
        [.server (.epollWait [.listen]),.server (.accept none)] s) :=
  ⟨exists_bound (reach_free h),failing_accept_spins (reach_free h)⟩

/-- A byte is being read while another one waits, and `AcceptLoop` waits for events. -/
theorem quiet_runs_are_bounded_early : ∃ s : Sockets.State 1, (s.sockets 0).pending = [69] ∧
    (∃ n, ∀ as t, (network 1 .standard).Run Quiet s as t → as.countP works ≤ n) ∧
    (network 1 .standard).Run Quiet s
      [.server (.epollWait [.listen]),.server (.accept none)] s := by
  obtain ⟨s,hs,hp⟩ := Sockets.reach_of_script (K := Free) .standard earlyScript
    (fun s => (s.sockets 0).pending = [69] ∧ s.server.aborted = false ∧
      s.server.loop.pos = .fetch ∧ s.server.loop.batch = []) (by decide +kernel)
  obtain ⟨hpending,haborted,hpos,hbatch⟩ := of_decide_eq_true hp
  obtain ⟨hbound,hspins⟩ := quiet_runs_are_bounded s hs
  exact ⟨s,hpending,hbound,hspins haborted hpos hbatch (by decide)⟩

end WebServer.Quiescence
