import WebServer.ConcurrentOutcome
import WebServer.Sockets

/-!
# Every peer gets the outcome of its own stream

The bytes which a connection has received are the first bytes which its peer has sent,
and a read gives nothing only at the end of what the peer will ever send. Together with
what the handler makes of the bytes received, the calls of `on_message_` are a function
of the stream of the peer: not of the way in which it was cut or delayed, and not of
the other connections, their faults, the number of workers or their interleaving.
-/
namespace WebServer.Streams
open TransitionSystem RequestParsing Contexts Interaction Handler Server
open Lifecycle LifecycleInvariant LifecycleWork Projection Ownership
open RequestSplitting ReceiveBuffer ConcurrentOutcome Sockets
open ThreadPool (Outcome)

variable {N : ℕ} {cfg : Config} {c : ConnId}

/-! ## What a step adds to the observations -/

section Step
variable {s : Server.State N} {a : Server.Action N}

theorem observations_append (h h' : List Event) :
    observations cfg (h++h') = observations cfg h++observations cfg h' := List.filterMap_append ..

theorem history_append_list (trace es : List (ConnId × Event)) (c : ConnId) :
    history (trace++es) c = history trace c++history es c := List.filterMap_append ..

theorem observations_of_other {es : List (ConnId × Event)} (h : ∀ x ∈ es, isOp x.2 = false)
    (c : ConnId) : observations cfg (history es c) = [] := by
  rw [observations,List.filterMap_eq_nil_iff]
  intro e he
  obtain ⟨x,hx,hxe⟩ := List.mem_filterMap.mp he
  have hop := h x hx
  split_ifs at hxe
  cases hxe
  cases hev : x.2 with
  | op o r d =>
      rw [hev] at hop
      cases hop
  | _ => rfl

/-- A task performs an operation on connection `c`. -/
structure Performs (cfg : Config) (s : Server.State N) (a : Server.Action N) (c : ConnId)
    (o : Op) (r : o.Res) : Prop where
  work : ∃ w answer t k, a = .work w answer ∧ s.pool.workers w = .running t ∧
    t.code = .op o k ∧ t.conn = c ∧ r = answer o
  permits : (s.heap c).Permits cfg o r

theorem traceOf_performs {o : Op} {r : o.Res} (h : Performs cfg s a c o r) :
    traceOf cfg (s.next cfg a) c = traceOf cfg s c++
      (semantics cfg.onMessage).observe o r (s.heap c).ctx.toSession := by
  obtain ⟨w,answer,t,k,rfl,hw,hcode,rfl,rfl⟩ := h.work
  simp only [traceOf,view,Server.State.next,work_eq hw hcode,history_append,if_true,
    observations_append,perform_session]
  simp only [observations,List.filterMap_cons,List.filterMap_nil,Semantics.observe]
  split <;> simp_all

theorem traceOf_idle (he : s.enabled cfg a) (h : ∀ o r, ¬ Performs cfg s a c o r) :
    traceOf cfg (s.next cfg a) c = traceOf cfg s c := by
  obtain ⟨es,hes,htrace⟩ := trace_next he
  simp only [traceOf,view,htrace,history_append_list,observations_append]
  cases hes with
  | other hother => rw [observations_of_other hother,List.append_nil]
  | @op w answer t o k ha hw hcode hcell hkernel =>
      have hc : t.conn ≠ c := by
        rintro rfl
        exact h o (answer o) ⟨⟨w,answer,t,k,ha,hw,hcode,rfl,rfl⟩,hcell⟩
      simp [history,observations,hc]

theorem performs_of_reading (he : s.enabled cfg a) {n : ReadResult}
    (h : reading s a = some (c,n)) : Performs cfg s a c .read n := by
  obtain ⟨w,answer,t,k,rfl,hw,hcode,rfl,rfl⟩ := reading_cases h
  obtain ⟨u,o,k',hu,hcode',hcell,-⟩ := canWork_cases he.2
  rw [hw,ThreadPool.Worker.running.injEq] at hu
  subst hu
  rw [hcode,Program.op.injEq] at hcode'
  obtain ⟨rfl,-⟩ := hcode'
  exact ⟨⟨w,answer,t,k,rfl,hw,hcode,rfl,rfl⟩,hcell⟩

theorem reading_of_performs {n : ReadResult} (h : Performs cfg s a c .read n) :
    reading s a = some (c,n) := by
  obtain ⟨w,answer,t,k,rfl,hw,hcode,rfl,rfl⟩ := h.work
  simp only [reading,hw,hcode]

theorem not_reading_of_performs {o : Op} {r : o.Res} (h : Performs cfg s a c o r)
    (ho : o ≠ .read) (d : ConnId) (n : ReadResult) : reading s a ≠ some (d,n) := by
  obtain ⟨w,answer,t,k,rfl,hw,hcode,rfl,rfl⟩ := h.work
  intro hr
  obtain ⟨w',answer',t',k',ha,hw',hcode',-,-⟩ := reading_cases hr
  cases ha
  rw [hw,ThreadPool.Worker.running.injEq] at hw'
  subst hw'
  rw [hcode,Program.op.injEq] at hcode'
  exact ho hcode'.1

end Step

/-! ## What was received was sent -/

/-- The observations of a connection agree with its socket. -/
structure Tracked (size : ℕ) (tr : Trace) (x : Socket) : Prop where
  received : bytesOf tr = x.sent.take x.taken
  complete : finished size tr = true → x.finished = true ∧ x.taken = x.sent.length

section Tracked
variable {size : ℕ} {tr : Trace} {x : Socket} {d : Session}

theorem Tracked.peer (h : Tracked size tr x) (hx : x.taken ≤ x.sent.length) {y : Socket}
    (hy : Peer x y) : Tracked size tr y := by
  cases hy with
  | @arrive bytes hb hf =>
      refine ⟨?_,fun hr => by simp [(h.complete hr).1] at hf⟩
      rw [h.received]
      exact (List.take_append_of_le_length hx).symm
  | finish hf => exact ⟨h.received,fun hr => ⟨rfl,(h.complete hr).2⟩⟩

theorem Tracked.wake (h : Tracked size tr x) (watch : Option Bool) :
    Tracked size tr (x.wake watch) := ⟨h.received,h.complete⟩

theorem Tracked.poll (h : Tracked size tr x) (before after : Option Bool) :
    Tracked size tr (x.poll before after) := ⟨h.received,h.complete⟩

/-- A read takes the next bytes, or finds the end of everything sent. -/
theorem Tracked.read (h : Tracked size tr x) (hx : x.taken ≤ x.sent.length) {n : ReadResult}
    (hn : x.Gives (d.room size) n) :
    Tracked size (tr++(semantics true).observe .read n d) (x.read n) := by
  have hobserve : (semantics true).observe .read n d =
    [⟨.read,n,(semantics true).effect .read n d⟩] := rfl
  rw [hobserve]
  cases n with
  | error e =>
      refine ⟨?_,fun hr => h.complete (by simpa [ends] using hr)⟩
      rw [bytesOf_append,h.received]
      exact List.append_nil _
  | data bytes =>
      have hprefix : bytes <+: x.sent.drop x.taken := by
        cases bytes with
        | nil => exact List.nil_prefix
        | cons b bs => exact hn
      obtain ⟨rest,hrest⟩ := hprefix
      have hlen := congrArg List.length hrest
      rw [List.length_append,List.length_drop] at hlen
      refine ⟨?_,fun hr => ?_⟩
      · change _ = x.sent.take (x.taken+bytes.length)
        rw [bytesOf_append,h.received,List.take_add,← hrest,List.take_left,bytesOf_singleton]
        rfl
      · change x.finished = true ∧ x.taken+bytes.length = x.sent.length
        rw [finished_append,Bool.or_eq_true] at hr
        rcases hr with hr | hr
        · obtain ⟨hfinished,htaken⟩ := h.complete hr
          exact ⟨hfinished,by omega⟩
        · cases bytes with
          | cons b bs => simp [ends] at hr
          | nil =>
              rw [finished_singleton] at hr
              have hroom : 0 < d.room size := of_decide_eq_true hr
              obtain ⟨hpending,hfinished⟩ := hn.resolve_left (Nat.ne_of_gt hroom)
              have hz := congrArg List.length hpending
              simp only [Socket.pending,List.length_drop,List.length_nil] at hz ⊢
              exact ⟨hfinished,by omega⟩

/-- No other operation takes anything. -/
theorem Tracked.other (h : Tracked size tr x) {o : Op} (ho : o ≠ .read) (r : o.Res) :
    Tracked size (tr++(semantics true).observe o r d) x := by
  have hb : bytesOf ((semantics true).observe o r d) = [] := by
    cases o <;> first | exact (ho rfl).elim | rfl
  have hf : finished size ((semantics true).observe o r d) = false := by
    cases o <;> first | exact (ho rfl).elim | rfl
  refine ⟨?_,fun hr => ?_⟩
  · rw [bytesOf_append,hb,List.append_nil]
    exact h.received
  · rw [finished_append,hf,Bool.or_false] at hr
    exact h.complete hr

end Tracked

section Network
variable {s : Sockets.State N} {G : Discipline (Server.State N) (Server.Action N)}

theorem tracked (hcfg : Serves cfg) (h : (network N cfg).Reach (Lift G) s) (c : ConnId) :
    Tracked cfg.bufferSize (traceOf cfg s.server c) (s.sockets c) := by
  refine socket_invariant (I := fun t x => Tracked cfg.bufferSize (traceOf cfg t c) x) c ?_ ?_ ?_ h
  · exact ⟨rfl,fun hr => nomatch hr⟩
  · intro s y hr ih hy
    exact (ih.peer (taken_le hr c) hy).wake _
  · intro s a hr ih _ he ha
    apply Tracked.poll
    by_cases hp : ∃ o r, Performs cfg s.server a c o r
    · obtain ⟨o,r,hp⟩ := hp
      rw [traceOf_performs hp,hcfg.onMessage]
      by_cases ho : o = .read
      · subst ho
        have hread := reading_of_performs hp
        rw [hread]
        simpa [Socket.take] using ih.read (taken_le hr c) (ha.1 _ hread)
      · rw [take_eq_self (not_reading_of_performs hp ho c)]
        exact ih.other ho r
    · have hidle : ∀ o r, ¬ Performs cfg s.server a c o r := fun o r h => hp ⟨o,r,h⟩
      rw [traceOf_idle he hidle,take_eq_self fun n hn => hidle _ n (performs_of_reading he hn)]
      exact ih

/-! ## The outcome of a stream -/

/-- Nothing that follows can change the outcome of the stream any more. -/
def ripe (size : ℕ) (stream : Bytes) (finished : Bool) : Prop :=
  headerEnd <:+: visible size stream ∨ size-1 ≤ stream.length ∨ finished = true

theorem outcome_append {size : ℕ} (hsize : 0 < size) {u : Bytes} (h : ripe size u false)
    (v : Bytes) : outcome size (u++v) = outcome size u := by
  by_cases hend : headerEnd <:+: visible size u
  · have hlen : (u.take (size-1)).length < size := by
      rw [List.length_take]
      omega
    have hu : u.take (size-1) <+: u := List.take_prefix ..
    have huv : u.take (size-1) <+: u++v := hu.trans (List.prefix_append ..)
    have hrequest : requestOf (u++v) = requestOf u :=
      (Prod.mk.inj ((parse_eq_requestOf huv hend).symm.trans (parse_eq_requestOf hu hend))).2
    rw [outcome_of_complete huv hlen hend,outcome_of_complete hu hlen hend,hrequest]
  · have hfull : size-1 ≤ u.length := by
      rcases h with h | h | h
      · exact (hend h).elim
      · exact h
      · cases h
    have hvisible : (u++v).take (size-1) = u.take (size-1) := List.take_append_of_le_length hfull
    rw [outcome_of_incomplete hvisible.symm hend,outcome_of_incomplete rfl hend]

/-- The callback has returned, and neither `read` nor `EPOLL_CTL_MOD` has failed. -/
structure Unharmed (tr : Trace) : Prop where
  succeeded : failed tr = false
  returned : thrown tr = false

instance (tr : Trace) : Decidable (Unharmed tr) :=
  decidable_of_iff (failed tr = false ∧ thrown tr = false)
    ⟨fun h => ⟨h.1,h.2⟩,fun h => ⟨h.succeeded,h.returned⟩⟩

section Outcome
variable (hcfg : Serves cfg) (h : (network N cfg).Reach (Lift G) s)
include hcfg h

theorem bytesOf_prefix (c : ConnId) : bytesOf (traceOf cfg s.server c) <+: (s.sockets c).sent :=
  (tracked hcfg h c).received ▸ List.take_prefix ..

variable (hunharmed : Unharmed (traceOf cfg s.server c))
include hunharmed

/-- A callback was called with the request which the whole stream begins with. -/
theorem requests_of_called (hd : Called (report cfg.bufferSize (traceOf cfg s.server c))) :
    requests (traceOf cfg s.server c) = [requestOf (s.sockets c).sent] ∧
      outcome cfg.bufferSize (s.sockets c).sent = [requestOf (s.sockets c).sent] := by
  have hprefix := bytesOf_prefix hcfg h c
  have hs := sound_report hcfg (reach_server h) hunharmed.returned
  have hself := parse_eq_requestOf List.prefix_rfl hd.complete
  have hsent := parse_eq_requestOf hprefix hd.complete
  have heq : requestOf (bytesOf (traceOf cfg s.server c)) = requestOf (s.sockets c).sent :=
    (Prod.mk.inj (hself.symm.trans hsent)).2
  exact ⟨heq ▸ hd.requests,outcome_of_complete hprefix hs.fits hd.complete⟩

/-- A connection is given up only after all that could count of its stream was read. -/
theorem requests_of_givenUp (hd : GivenUp cfg.bufferSize
      (report cfg.bufferSize (traceOf cfg s.server c))) :
    requests (traceOf cfg s.server c) = outcome cfg.bufferSize (s.sockets c).sent := by
  have hprefix := bytesOf_prefix hcfg h c
  have htracked := tracked hcfg h c
  have hs := sound_report hcfg (reach_server h) hunharmed.returned
  set tr := traceOf cfg s.server c
  refine hd.requests.trans (outcome_of_incomplete ?_ hd.incomplete).symm
  change bytesOf tr = _
  rcases hd.reason with hfull | hfinished | hfailed
  · have hfull : (bytesOf tr).length = cfg.bufferSize-1 := hfull
    rw [← hfull]
    exact List.prefix_iff_eq_take.mp hprefix
  · obtain ⟨-,htaken⟩ := htracked.complete hfinished
    have hall : bytesOf tr = (s.sockets c).sent := by
      rw [htracked.received,htaken,List.take_length]
    have hfits : (bytesOf tr).length < cfg.bufferSize := hs.fits
    rw [← hall,List.take_of_length_le (Nat.le_sub_one_of_lt hfits)]
  · exact absurd (hfailed.symm.trans hunharmed.succeeded) (by decide)

theorem outcome_of_closed (hc : (view s.server c).registered)
    (hclosed : (view s.server c).isOpen = false) :
    requests (traceOf cfg s.server c) = outcome cfg.bufferSize (s.sockets c).sent := by
  rcases decided_of_closed hcfg (reach_server h) hunharmed.returned hc hclosed with hd | hd
  · obtain ⟨hrequests,houtcome⟩ := requests_of_called hcfg h hunharmed hd
    exact hrequests.trans houtcome.symm
  · exact requests_of_givenUp hcfg h hunharmed hd

end Outcome

/-- Whatever the workers, the other connections and the timing do, exceptions of other
callbacks and failures of other system calls included: `on_message_` is called at most
once for a connection that was not harmed itself, with the request which the stream of
its peer begins with, and once it is closed the calls are the outcome of that stream. -/
theorem stream_decides_outcome (hcfg : Serves cfg) (s : Sockets.State N)
    (h : (network N cfg).Reach Free s) (c : ConnId) (hc : (view s.server c).registered)
    (hunharmed : Unharmed (traceOf cfg s.server c)) :
    (requests (traceOf cfg s.server c) = [] ∨
      requests (traceOf cfg s.server c) = [requestOf (s.sockets c).sent]) ∧
    ((view s.server c).isOpen = false →
      requests (traceOf cfg s.server c) = outcome cfg.bufferSize (s.sockets c).sent) := by
  have h := reach_free h
  have hs := sound_report hcfg (reach_server h) hunharmed.returned
  exact ⟨hs.calls.imp id fun hd => (requests_of_called hcfg h hunharmed hd).1,
    outcome_of_closed hcfg h hunharmed hc⟩

end Network

/-- Steps of the server, while the peers are silent. -/
def serving (as : List (Server.Action N)) : List (Sockets.Action N) := as.map .server

/-- The greeting arrives in two parts, one before its connection is accepted and one
while a task has read the first part and has not armed the connection again. -/
def partsScript (w : Fin N) : List (Sockets.Action N) :=
  .arrive 0 (greeting.take 7)::serving (acceptScript 5 true++dispatchScript 5 w++
    workScript 2 w (storing (greeting.take 7)))++
  .arrive 0 (greeting.drop 7)::serving (workScript 7 w (storing (greeting.take 7))++
    [Server.Action.finish w]++dispatchScript 5 w++
    workScript 10 w (reply (.data (greeting.drop 7)) true .returned true))

theorem stream_decides_outcome_parts : ∃ s : Sockets.State 1,
    (s.sockets 0).sent = greeting ∧
    requests (traceOf .standard s.server 0) = outcome bufferSize greeting := by
  obtain ⟨s,hs,hp⟩ := Sockets.reach_of_script (K := Free) .standard (partsScript (0 : Fin 1))
    (fun s => (view s.server 0).history.any registers ∧ (view s.server 0).isOpen = false ∧
      Unharmed (traceOf .standard s.server 0) ∧ (s.sockets 0).sent = greeting)
    (by decide +kernel)
  obtain ⟨hc,hclosed,hunharmed,hsent⟩ := of_decide_eq_true hp
  have h := stream_decides_outcome serves_standard s hs 0 (registered_of_any hc) hunharmed
  exact ⟨s,hsent,hsent ▸ h.2 hclosed⟩

end WebServer.Streams
