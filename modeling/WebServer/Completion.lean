import WebServer.Quiescence
import WebServer.ServerPool

/-!
# Every stream is answered

As long as it is not destroyed, the server never gets stuck: while a worker has
something to do, the queue or the batch is not empty, or a connection which can be read
is armed, some step can be taken. Exceptions of the message callback and failing system
calls do not change this. Where no step is left all workers sleep, and each connection that
was spared is closed with the outcome of its stream, or armed with everything read.
-/
namespace WebServer.Completion
open TransitionSystem Interaction RequestParsing Contexts Handler Server
open Lifecycle LifecycleInvariant Projection Ownership Sockets Streams
open RequestSplitting ConcurrentOutcome Quiescence
open ThreadPool (Outcome Pool Worker)
open ThreadPoolWakeup (awake pendingNotifies countAt)

variable {N : ℕ} {cfg : Config} {c : ConnId}

/-! ## A task that re-arms finds its registration -/

/-- An open connection that is not being set up is registered, unless its task has
removed it and is about to close it. -/
def Watched (v : Conn) : Prop :=
  (v.pos = .fetch ∨ v.pos = .submit ∨ v.pos = .notify) → v.isOpen = true → v.watch = none →
    ∃ t ∈ v.running, At t .closing

/-- Only `EPOLL_CTL_DEL` is left before the descriptor is closed. -/
theorem closing_advance {t : Task} {o : Op} {k : o.Res → Code} (h : At t .closing)
    (hcode : t.code = .op o k) (ho : o ≠ .close) (r : o.Res) :
    At (t.advance (k r) o r) .closing := by
  have hobeys := h.obeys
  rw [hcode] at hobeys
  obtain ⟨_,_,hturn,-⟩ := obeys_op hobeys
  cases hturn with
  | exchange hq => rcases hq with hq | hq <;> cases hq
  | close => exact (ho rfl).elim
  | remove =>
      obtain ⟨q',hturn,hat⟩ := h.advance hcode (r := r) trivial
      cases hturn with
      | remove => exact hat

section Watched
variable {v : Conn}

theorem Watched.work (h : Watched v) (hl : Live cfg v) {rest : Multiset Task} {t : Task} {o : Op}
    {k : o.Res → Code} {r : o.Res} (hrun : v.running = t ::ₘ rest) (hcode : t.code = .op o k)
    (hr : v.cell.Permits cfg o r) (hread : v.Permits o r) :
    Watched (v.next cfg (.work rest t o k r)) := by
  intro _ hopen hwatch
  change (v.perform o r).isOpen = true at hopen
  change (v.perform o r).watch = none at hwatch
  change ∃ u ∈ t.advance (k r) o r ::ₘ rest, At u .closing
  have hclose : o ≠ .close := by
    rintro rfl
    cases hopen
  by_cases hnone : v.watch = none
  · have hbefore : v.isOpen = true := (Lifecycle.perform_isOpen v o r hclose).symm.trans hopen
    obtain ⟨u,hu,hat⟩ := h hl.pos hbefore hnone
    rw [hrun] at hu
    rcases Multiset.mem_cons.mp hu with rfl | hu
    · exact ⟨_,Multiset.mem_cons_self _ _,closing_advance hat hcode hclose r⟩
    · exact ⟨u,Multiset.mem_cons_of_mem hu,hat⟩
  · have ho : o = .epollDel := by
      cases o with
      | epollDel => rfl
      | close => exact (hclose rfl).elim
      | epollMod =>
          cases r with
          | true => cases hwatch
          | false => exact (hnone hwatch).elim
      | _ => exact (hnone hwatch).elim
    subst ho
    obtain ⟨q,hat,hheld⟩ := hl.tasks t (hrun ▸ Multiset.mem_cons_self t rest)
    obtain ⟨q',hturn,hat'⟩ := hat.advance hcode (hl.allowed hrun hat hheld hcode hr hread)
    cases hturn with
    | inside hi => cases hi
    | remove => exact ⟨_,Multiset.mem_cons_self _ _,hat'⟩

theorem watched {K : Discipline Conn Move} (h : (life cfg).Reach K v) : Watched v := by
  induction h with
  | start hi =>
      subst hi
      intro _ hopen
      cases hopen
  | @step v _ m hr _ hst ih =>
      obtain ⟨he,rfl⟩ := hst
      cases m with
      | accept fd => rintro (hp | hp | hp) <;> cases hp
      | setNonblocking => rintro (hp | hp | hp) <;> cases hp
      | onConnection outcome => rintro (hp | hp | hp) <;> cases hp
      | create => rintro (hp | hp | hp) <;> cases hp
      | add ok =>
          cases ok with
          | true =>
              intro _ _ hwatch
              cases hwatch
          | false => rintro (hp | hp | hp) <;> cases hp
      | delete => rintro (hp | hp | hp) <;> cases hp
      | close =>
          intro _ hopen
          cases hopen
      | deliver =>
          intro _ _ hwatch
          cases hwatch
      | addRef => exact fun _ => ih (.inl he.1)
      | submit => exact fun _ => ih (.inr (.inl he))
      | notify => exact fun _ => ih (.inr (.inr he))
      | look => exact ih
      | invoke c =>
          intro hp hopen hwatch
          obtain ⟨t,ht,hat⟩ := ih hp hopen hwatch
          exact ⟨t,Multiset.mem_cons_of_mem ht,hat⟩
      | work rest t o k r =>
          have hmem : t ∈ v.running := he.1 ▸ Multiset.mem_cons_self t rest
          exact ih.work (LifecycleWork.live_of_mem (LifecycleWork.ok hr) hmem) he.1 he.2.1
            he.2.2.1 he.2.2.2
      | finish rest t outcome =>
          intro hp hopen hwatch
          obtain ⟨u,hu,hat⟩ := ih hp hopen hwatch
          rw [he.1] at hu
          rcases Multiset.mem_cons.mp hu with rfl | hu
          · rcases hat.ended he.2 with ⟨-,hq⟩ | ⟨-,hq⟩ <;> cases hq
          · exact ⟨u,hu,hat⟩

/-- A task that is about to re-arm its connection finds the registration in place. -/
theorem watch_of_epollMod (hw : Watched v) (hl : Live cfg v) {rest : Multiset Task} {t : Task}
    {k : Bool → Code} (hrun : v.running = t ::ₘ rest) (hcode : t.code = .op .epollMod k) :
    v.watch ≠ none := by
  intro hnone
  obtain ⟨hcharge,hopen⟩ := LifecycleWork.inCharge_of_op hl hrun hcode (by decide)
  obtain ⟨u,hu,hat⟩ := hw hl.pos hopen hnone
  rw [hrun] at hu
  rcases Multiset.mem_cons.mp hu with rfl | hu
  · have hobeys := hat.obeys
    rw [hcode] at hobeys
    obtain ⟨_,_,hturn,-⟩ := obeys_op hobeys
    cases hturn
  · have hother := (hl.charge hrun hcharge).1
    rw [inCharge,Multiset.countP_eq_zero] at hother
    exact hother u hu hat.flags.1

end Watched

theorem unwatched_of_add {v : Conn} (h : Ok cfg v) (hpos : v.pos = .add) : v.watch = none := by
  cases h with
  | live hl => rcases hl.pos with hp | hp | hp <;> cases hpos.symm.trans hp
  | _ => rfl

/-! ## A server that is up -/

/-- `on_connection_` returns, `epoll_wait` fails only by a signal, and the server is not
destroyed. A message callback may throw, and any other system call may fail. -/
def Serving : Discipline (Server.State N) (Server.Action N)
  | _, .onConnection outcome => outcome = .returned
  | _, .epollError interrupted => interrupted = true
  | _, .destroyMessage => False
  | _, .destroyConnection => False
  | _, .setStop => False
  | _, _ => True

structure Up (s : Server.State N) : Prop where
  aborted : s.aborted = false
  loop : s.loop.pos ≠ .exited
  stop : s.pool.stop = false
  workers : ∀ w, (s.pool.workers w).place ≠ .exited

theorem up_initial : Up (Server.State.initial N) where
  aborted := rfl
  loop := nofun
  stop := rfl
  workers w := by simp [Server.State.initial,Pool.initial]

section Up
variable {s t : Server.State N} {a : Server.Action N}

/-- A worker goes to a place other than `exited`. -/
theorem Up.setWorker (h : Up s) {w : Fin N} {y : Worker ConnId Task} (hy : y.place ≠ .exited)
    (v : Fin N) : ((s.pool.setWorker w y).workers v).place ≠ .exited :=
  ServerPool.place_setWorker hy h.workers v

/-- `AcceptLoop` goes on. -/
theorem Up.goto (h : Up s) {p : Position} (hp : t.loop.pos = p) (haborted : t.aborted = false)
    (hpool : t.pool = s.pool) (hexited : p ≠ .exited) : Up t where
  aborted := haborted
  loop := hp ▸ hexited
  stop := hpool ▸ h.stop
  workers := hpool ▸ h.workers

theorem Up.look (h : Up s) (w : Fin N) : Up (s.setPool (s.pool.look w)) := by
  unfold Pool.look
  split
  · refine ⟨h.aborted,h.loop,h.stop,h.setWorker ?_⟩
    simp [h.stop]
  · exact ⟨h.aborted,h.loop,h.stop,h.setWorker (by simp)⟩

theorem Up.invoke (h : Up s) (w : Fin N) :
    Up (s.setPool (s.pool.invoke (Task.start cfg) w)) := by
  unfold Pool.invoke
  split
  · exact ⟨h.aborted,h.loop,h.stop,h.setWorker (by simp)⟩
  · exact h

theorem Up.next (h : Up s) (hg : Serving s a) (he : s.enabled cfg a) : Up (s.next cfg a) := by
  obtain ⟨-,hr⟩ := he
  cases a with
  | epollWait ready => exact ⟨h.aborted,h.loop,h.stop,h.workers⟩
  | epollError interrupted =>
      have hsignal : interrupted = true := hg
      subst hsignal
      exact h.goto (p := .fetch) rfl h.aborted rfl (by decide)
  | accept fd =>
      cases fd with
      | none => exact ⟨h.aborted,h.loop,h.stop,h.workers⟩
      | some fd => exact h.goto (p := .setNonblocking) rfl h.aborted rfl (by decide)
  | setNonblocking => exact h.goto (p := .onConnection) rfl h.aborted rfl (by decide)
  | onConnection outcome =>
      have hreturned : outcome = .returned := hg
      subst hreturned
      simp only [Server.State.next,State.callConnection]
      split
      · exact h.goto (p := .create) rfl rfl rfl (by decide)
      · exact h.goto (p := .create) rfl h.aborted rfl (by decide)
  | create => exact h.goto (p := .add) rfl h.aborted rfl (by decide)
  | add ok =>
      cases ok with
      | true => exact h.goto (p := .fetch) rfl h.aborted rfl (by decide)
      | false => exact h.goto (p := .delete) rfl h.aborted rfl (by decide)
  | delete => exact h.goto (p := .close) rfl h.aborted rfl (by decide)
  | close => exact h.goto (p := .fetch) rfl h.aborted rfl (by decide)
  | addRef =>
      obtain ⟨-,d,hd⟩ := hr
      obtain ⟨batch,hb⟩ := List.head?_eq_some_iff.mp hd
      simp only [Server.State.next,State.addRef,hb]
      exact h.goto (p := .submit) rfl h.aborted rfl (by decide)
  | submit =>
      exact ⟨h.aborted,by simp [Server.State.next,State.goto],h.stop,h.workers⟩
  | notify woken =>
      refine ⟨h.aborted,by simp [Server.State.next,State.goto],?_,?_⟩
      · cases woken <;> exact h.stop
      · cases woken with
        | none => exact h.workers
        | some w => exact h.setWorker (by simp)
  | look w => exact h.look w
  | wake w => exact ⟨h.aborted,h.loop,h.stop,h.setWorker (by simp)⟩
  | invoke w => exact h.invoke w
  | work w answer =>
      obtain ⟨t,o,k,hw,hcode,-⟩ := canWork_cases hr
      rw [Server.State.next,work_eq hw hcode]
      exact ⟨h.aborted,h.loop,h.stop,h.setWorker (by simp)⟩
  | finish w =>
      obtain ⟨t,outcome,hw,hcode⟩ := canFinish_cases hr
      rw [Server.State.next,finish_eq hw hcode]
      exact ⟨h.aborted,h.loop,h.stop,h.setWorker (by simp)⟩
  | destroyMessage => exact hg.elim
  | destroyConnection => exact hg.elim
  | setStop => exact hg.elim
  | notifyAll =>
      refine ⟨h.aborted,h.loop,h.stop,fun w => ?_⟩
      have hw := h.workers w
      exact fun hx => hw ((ThreadPool.unblock_exited _).mp hx)
  | join => exact ⟨h.aborted,h.loop,h.stop,h.workers⟩

theorem up (h : (Server.system N cfg).Reach Serving s) : Up s := by
  apply h.invariant
  · rintro _ rfl
    exact up_initial
  · rintro s a _ _ ih hg ⟨he,rfl⟩
    exact ih.next hg he

end Up

/-! ## A step on its own -/

/-- A step which needs nobody outside, and nobody who waits to be accepted. -/
def Busy : Discipline (Sockets.State N) (Sockets.Action N)
  | s, .server a => Serving s.server a ∧ Unprompted a ∧ works (.server a) = true
  | _, _ => False

/-- `AcceptLoop` is about to call `accept`. -/
def Listening (s : Sockets.State N) : Prop :=
  s.server.loop.pos = .fetch ∧ s.server.loop.batch.head? = some .listen

/-- The workers sleep, `AcceptLoop` waits for events, and there are none. -/
structure AtRest (s : Sockets.State N) : Prop where
  fetch : s.server.loop.pos = .fetch
  batch : s.server.loop.batch = []
  asleep : ∀ w, (s.server.pool.workers w).place = .blocked
  jobs : s.server.pool.jobs = []
  unlisted : ∀ c, (s.sockets c).listed = false

/-- What a socket answers to a `read`. -/
def offer (x : Socket) (room : ℕ) : ReadResult :=
  if x.readable then .data (x.pending.take room) else .error .again

theorem offer_given (x : Socket) (room : ℕ) : x.Gives room (offer x room) := by
  unfold offer
  split
  case isTrue hr =>
    cases ht : x.pending.take room with
    | nil =>
        rcases List.take_eq_nil_iff.mp ht with hroom | hpending
        · exact .inl hroom
        · exact .inr ⟨hpending,by simpa [Socket.readable,hpending] using hr⟩
    | cons b bs =>
        change b::bs <+: x.pending
        exact ht ▸ List.take_prefix ..
  case isFalse hr => exact Bool.eq_false_iff.mpr hr

/-- Every operation is answered; `EPOLL_CTL_MOD` answers `ok`. -/
def answering (cfg : Config) (d : Session) (n : ReadResult) (ok : Bool) : (o : Op) → o.Res
  | .read => n
  | .onMessage => .returned
  | .epollMod => ok
  | .loadClosed | .exchangeClosed => d.closed
  | .parse => (d.request.parse (cString d.buffer)).1
  | .testOnMessage => cfg.onMessage
  | .loadBytesRead => d.bytesRead
  | .storeClosed | .advance _ | .terminate | .epollDel | .close | .release => ()

theorem answering_permitted (d : Session) (n : ReadResult) (ok : Bool) (o : Op) :
    (semantics cfg.onMessage).Permits d o (answering cfg d n ok o) := by
  intro h
  cases o <;> first | rfl | cases h

section Progress
variable {s : Sockets.State N}

/-- The answers which the kernel and the socket have for a task. -/
def answersOf (cfg : Config) (s : Sockets.State N) (t : Task) (ok : Bool) : (o : Op) → o.Res :=
  let ctx := (s.server.heap t.conn).ctx
  answering cfg ctx.toSession (offer (s.sockets t.conn) (ctx.room cfg.bufferSize)) ok

/-- The operation which a task is about to perform can be performed. -/
theorem exists_work {G : Discipline (Server.State N) (Server.Action N)}
    (h : (network N cfg).Reach (Lift G) s) {w : Fin N} {t : Task} {o : Op} {k : o.Res → Code}
    (hw : s.server.pool.workers w = .running t) (hcode : t.code = .op o k) {b : Bool}
    (hok : o = .epollMod → b = true →
      (s.server.kernel.epoll (s.server.heap t.conn).ctx.fd).isSome = true) :
    s.server.canWork cfg w (answersOf cfg s t b) ∧
      s.Answers cfg (.work w (answersOf cfg s t b)) := by
  have howner : o ≠ .release → (s.server.heap t.conn).ctx.fd = s.server.fd t.conn ∧
      s.server.kernel.owner (s.server.heap t.conn).ctx.fd = some t.conn :=
    owner_of_work (fun c => view_ok (reach_server h) c) hw hcode
  set room := (s.server.heap t.conn).ctx.room cfg.bufferSize with hroom
  have hkernel : s.server.kernel.Permits (s.server.heap t.conn).ctx.fd room o
      (answersOf cfg s t b o) := by
    cases o with
    | read =>
        obtain ⟨-,howner⟩ := howner (by decide)
        change s.server.kernel.Permits _ room .read (offer (s.sockets t.conn) room)
        unfold offer
        split
        · exact ⟨by simp [howner],List.length_take_le ..⟩
        · change Errno.again = .badf ↔ _
          simp [howner]
    | epollMod => exact hok rfl
    | _ => trivial
  refine ⟨?_,?_,?_⟩
  · simp only [State.canWork,hw,hcode]
    exact ⟨answering_permitted _ _ _ _,hkernel⟩
  · rintro ⟨d,m⟩ hp
    obtain ⟨w',answer',u,k',ha,hw',-,rfl,rfl⟩ := reading_cases hp
    cases ha
    rw [hw,Worker.running.injEq] at hw'
    subst hw'
    exact offer_given _ _
  · intro e hmem
    cases hmem

section Serving
variable (h : (network N cfg).Reach (Lift Serving) s)
include h

theorem step_of_running {w : Fin N} {t : Task} {o : Op} {k : o.Res → Code}
    (hw : s.server.pool.workers w = .running t) (hcode : t.code = .op o k) :
    ∃ a t, Busy s a ∧ (network N cfg).step s a t := by
  have hserver := reach_server h
  obtain ⟨rest,hrun,-⟩ := running_cons hw
  have hl := LifecycleWork.live_of_mem (view_ok hserver t.conn)
    (hrun ▸ Multiset.mem_cons_self t rest)
  have hlife := (reach_views (K := Free) (fun _ _ _ _ _ _ => trivial) hserver).2 t.conn
  obtain ⟨hcan,hanswers⟩ := exists_work h hw hcode (b := true) (by
    rintro rfl -
    rw [(owner_of_work (fun c => view_ok hserver c) hw hcode (by decide)).1,
      Option.isSome_iff_ne_none]
    intro hnone
    exact watch_of_epollMod (watched hlife) hl hrun hcode (by simp [view,watch,hnone]))
  exact ⟨.server (.work w (answersOf cfg s t true)),_,⟨trivial,trivial,rfl⟩,
    ⟨⟨(up hserver).aborted,hcan⟩,hanswers⟩,rfl⟩

/-- A worker that is not asleep has something to do. -/
theorem step_of_worker {w : Fin N} (hw : (s.server.pool.workers w).place ≠ .blocked) :
    ∃ a t, Busy s a ∧ (network N cfg).step s a t := by
  have hup := up (reach_server h)
  have hexited := hup.workers w
  have hnotifying := ServerPool.not_notifying (reach_server h) w
  cases hx : s.server.pool.workers w with
  | awake =>
      exact exists_step (a := .look w) ⟨trivial,trivial,rfl⟩
        ⟨hup.aborted,by simp [State.ready,Pool.enabled,hx]⟩ rfl rfl
  | blocked => simp [hx] at hw
  | holding job =>
      exact exists_step (a := .invoke w) ⟨trivial,trivial,rfl⟩
        ⟨hup.aborted,by simp [State.ready,Pool.enabled,hx]⟩ rfl rfl
  | running t =>
      cases hcode : t.code with
      | ret outcome =>
          exact exists_step (a := .finish w) ⟨trivial,trivial,rfl⟩
            ⟨hup.aborted,by simp [State.ready,State.canFinish,hx,hcode]⟩ rfl rfl
      | op o k => exact step_of_running h hx hcode
  | notifying t => simp [hx] at hnotifying
  | exited => simp [hx] at hexited

/-- The descriptor which `AcceptLoop` adds is open and not registered yet. -/
theorem addable (hpos : s.server.loop.pos = .add) :
    (s.server.kernel.owner (s.server.fd s.server.loop.conn)).isSome = true ∧
      s.server.kernel.epoll (s.server.fd s.server.loop.conn) = none := by
  have hserver := reach_server h
  have howner := owner_of_setup (fun c => view_ok hserver c) (by simp [hpos])
  have hwatch : watch s.server.kernel (s.server.fd s.server.loop.conn) s.server.loop.conn = none :=
    unwatched_of_add (view_ok hserver s.server.loop.conn)
      ((standsAt_self (by simp [hpos])).trans hpos)
  refine ⟨by simp [howner],Option.eq_none_iff_forall_ne_some.mpr fun r hr => ?_⟩
  have hconn := (sound hserver).watched _ r hr
  rw [howner,Option.some.injEq] at hconn
  simp [watch,hr,← hconn] at hwatch

/-- `AcceptLoop` goes on until its batch is empty or it has to accept somebody. -/
theorem step_of_loop (hl : s.server.loop.pos ≠ .fetch ∨ s.server.loop.batch ≠ [])
    (hnot : ¬ Listening s) :
    ∃ a t, Busy s a ∧ (network N cfg).step s a t := by
  have hup := up (reach_server h)
  cases hpos : s.server.loop.pos with
  | fetch =>
      cases hb : s.server.loop.batch with
      | nil => simp [hpos,hb] at hl
      | cons tag batch =>
          cases tag with
          | listen =>
              exact (hnot ⟨hpos,by simp [hb]⟩).elim
          | ctx c =>
              exact exists_step (a := .addRef) ⟨trivial,trivial,rfl⟩
                ⟨hup.aborted,hpos,c,by simp [hb]⟩ rfl rfl
  | setNonblocking =>
      exact exists_step (a := .setNonblocking) ⟨trivial,trivial,rfl⟩ ⟨hup.aborted,hpos⟩
        rfl rfl
  | onConnection =>
      exact exists_step (a := .onConnection .returned) ⟨rfl,trivial,rfl⟩
        ⟨hup.aborted,hpos,fun _ => rfl⟩ rfl rfl
  | create =>
      exact exists_step (a := .create) ⟨trivial,trivial,rfl⟩ ⟨hup.aborted,hpos⟩ rfl rfl
  | add =>
      exact exists_step (a := .add true) ⟨trivial,trivial,rfl⟩
        ⟨hup.aborted,hpos,fun _ => addable h hpos⟩ rfl rfl
  | delete =>
      exact exists_step (a := .delete) ⟨trivial,trivial,rfl⟩ ⟨hup.aborted,hpos⟩ rfl rfl
  | close =>
      exact exists_step (a := .close) ⟨trivial,trivial,rfl⟩ ⟨hup.aborted,hpos⟩ rfl rfl
  | submit =>
      have hfree : () ∉ s.server.pool.notifying := fun hm => by
        have hp := (ServerPool.notifying_iff (reach_server h)).mp hm
        simp [hpos] at hp
      exact exists_step (a := .submit) ⟨trivial,trivial,rfl⟩ ⟨hup.aborted,hpos,hfree⟩
        rfl rfl
  | notify =>
      have hpending := (ServerPool.notifying_iff (reach_server h)).mpr hpos
      by_cases hblocked : ∃ w, (s.server.pool.workers w).place = .blocked
      · obtain ⟨w,hw⟩ := hblocked
        exact exists_step (a := .notify (some w)) ⟨trivial,trivial,rfl⟩
          ⟨hup.aborted,hpos,hpending,hw⟩ rfl rfl
      · exact exists_step (a := .notify none) ⟨trivial,trivial,rfl⟩
          ⟨hup.aborted,hpos,hpending,fun w hw => hblocked ⟨w,hw⟩⟩ rfl rfl
  | exited => exact (hup.loop hpos).elim

/-- The event of a connection on the list is reported to a waiting `AcceptLoop`. -/
theorem step_of_listed (hevents : 0 < cfg.maxEvents) (hpos : s.server.loop.pos = .fetch)
    (hbatch : s.server.loop.batch = []) (hc : (s.sockets c).listed = true) :
    ∃ a t, Busy s a ∧ (network N cfg).step s a t := by
  have hup := up (reach_server h)
  have harmed : watch s.server.kernel (s.server.fd c) c = some true := ((listed_iff h c).mp hc).1
  obtain ⟨r,hr,hconn⟩ := Option.bind_eq_some_iff.mp harmed
  have hrc : r.conn = c ∧ r.armed = true := by
    split_ifs at hconn with hx
    exact ⟨hx,Option.some.inj hconn⟩
  refine ⟨.server (.epollWait [.conn (s.server.fd c)]),_,
    ⟨trivial,by simp [Unprompted],by simp [works]⟩,
    ⟨⟨hup.aborted,hpos,hbatch,by simp,hevents,?_⟩,?_,?_⟩,rfl⟩
  · intro e he
    rw [List.mem_singleton] at he
    subst he
    simp [Kernel.isReady,hr,hrc.2]
  · intro p hp
    cases hp
  · intro e he
    rw [List.mem_singleton.mp he]
    intro r' hr'
    rw [hr] at hr'
    cases hr'
    exact hrc.1 ▸ hc

/-- While it is up, the server is at rest or goes on. -/
theorem progress (hN : 0 < N) (hevents : 0 < cfg.maxEvents) :
    AtRest s ∨ Listening s ∨ ∃ a t, Busy s a ∧ (network N cfg).step s a t := by
  by_cases hworker : ∃ w, (s.server.pool.workers w).place ≠ .blocked
  · obtain ⟨w,hw⟩ := hworker
    exact .inr (.inr (step_of_worker h hw))
  by_cases hlistening : Listening s
  · exact .inr (.inl hlistening)
  by_cases hloop : s.server.loop.pos ≠ .fetch ∨ s.server.loop.batch ≠ []
  · exact .inr (.inr (step_of_loop h hloop hlistening))
  rw [not_or,not_ne_iff,not_ne_iff] at hloop
  by_cases hlisted : ∃ c, (s.sockets c).listed = true
  · obtain ⟨c,hc⟩ := hlisted
    exact .inr (.inr (step_of_listed h hevents hloop.1 hloop.2 hc))
  have hasleep : ∀ w, (s.server.pool.workers w).place = .blocked := by
    simpa using hworker
  refine .inl ⟨hloop.1,hloop.2,hasleep,?_,by simpa using hlisted⟩
  have hserver := reach_server h
  have hcover := ServerPool.no_lost_wakeup hserver ⟨⟨0,hN⟩,hasleep _⟩
  have hawake : awake s.server.pool = 0 := by simp [awake,countAt,hasleep]
  have hpending : pendingNotifies s.server.pool = 0 := by
    have hnone : s.server.pool.notifying = ∅ := by
      refine Finset.eq_empty_of_forall_notMem fun u hu => ?_
      have hp := (ServerPool.notifying_iff hserver).mp hu
      simp [hloop.1] at hp
    simp [pendingNotifies,countAt,hasleep,hnone]
  rw [hawake,hpending] at hcover
  exact List.length_eq_zero_iff.mp (Nat.le_zero.mp hcover)

end Serving

end Progress

/-! ## At rest -/

section Accepted
variable {G : Discipline (Server.State N) (Server.Action N)} {s : Server.State N}

/-- Every connection that was accepted is on record. -/
theorem accepted_mem (h : (Server.system N cfg).Reach G s) : ∀ d < s.accepted,
    (d,.accepted) ∈ s.trace := by
  apply h.invariant
  · rintro _ rfl d hd
    exact (Nat.not_lt_zero d hd).elim
  · rintro s a _ - ih - ⟨he,rfl⟩ d hd
    obtain ⟨es,-,htrace⟩ := trace_next he
    rw [htrace]
    by_cases hold : d < s.accepted
    · exact List.mem_append_left _ (ih d hold)
    · cases a with
      | accept fd =>
          cases fd with
          | none => exact (hold hd).elim
          | some f =>
              obtain rfl : d = s.accepted :=
                Nat.le_antisymm (Nat.lt_succ_iff.mp hd) (Nat.not_lt.mp hold)
              rw [← htrace]
              exact List.mem_append_right _ (List.mem_singleton_self _)
      | _ => exact (hold (hd.trans_eq (accepted_next he trivial))).elim

theorem registered_of_ok {v : Conn} (h : Ok cfg v) (hpos : v.pos = .fetch)
    (haccepted : .accepted ∈ v.history) (hadded : .added false ∉ v.history) : v.registered := by
  cases h with
  | blank => cases haccepted
  | live hl =>
      obtain ⟨tail,htail,-⟩ := hl.begins
      rw [Conn.registered,htail]
      simp
  | rejected => exact (hadded (by simp)).elim
  | _ => cases hpos

/-- An accepted connection which `AcceptLoop` has left is registered, unless
`EPOLL_CTL_ADD` has failed. -/
theorem registered_of_accepted (h : (Server.system N cfg).Reach G s) (hpos : s.loop.pos = .fetch)
    (hc : c < s.accepted) (hadded : .added false ∉ (view s c).history) :
    (view s c).registered := by
  refine registered_of_ok (view_ok h c) (standsAt_fetch hpos c) ?_ hadded
  exact List.mem_filterMap.mpr ⟨_,accepted_mem h c hc,by simp⟩

end Accepted

/-- No system call for the connection has failed, and its callback has returned. -/
structure Spared (cfg : Config) (s : Server.State N) (c : ConnId) : Prop where
  added : .added false ∉ (view s c).history
  unharmed : Unharmed (traceOf cfg s c)

/-- A connection at rest: it is closed, and was called with the outcome of its stream, or
it is armed, and everything sent so far has been read and decides nothing. -/
structure Answers (cfg : Config) (s : Sockets.State N) (c : ConnId) : Prop where
  closed : ripe cfg.bufferSize (s.sockets c).sent (s.sockets c).finished →
    (view s.server c).isOpen = false
  outcome : (view s.server c).isOpen = false →
    requests (traceOf cfg s.server c) = outcome cfg.bufferSize (s.sockets c).sent
  waiting : (view s.server c).isOpen = true → (view s.server c).watch = some true ∧
    (s.sockets c).pending = []

section Rest
variable {s : Sockets.State N}

/-- Where everything is at rest no worker has anything to do with a connection. -/
theorem AtRest.carries (hrest : AtRest s) (c : ConnId) (w : Fin N) :
    heldBy c (s.server.pool.workers w) = 0 ∧ tasksOn c (s.server.pool.workers w) = 0 :=
  carries_nothing c (.inr (.inl (hrest.asleep w)))

theorem AtRest.active (hrest : AtRest s) (c : ConnId) : (view s.server c).active = 0 := by
  simp [Conn.active,view,hrest.carries,inCharge]

variable (h : (network N cfg).Reach (Lift Serving) s) (hrest : AtRest s)
  (hc : (view s.server c).registered) (hopen : (view s.server c).isOpen = true)
include h hrest hc hopen

/-- Where everything is at rest a connection is armed, unless its callback has thrown. -/
theorem AtRest.armed (hreturned : thrown (traceOf cfg s.server c) = false) :
    (view s.server c).watch = some true := by
  have hserver := reach_server h
  have htoken := (live_of_reach hserver hc).token
  have hdelivered : (view s.server c).delivered = 0 := by simp [view,hrest.batch]
  have hsubmitting : (view s.server c).submitting = 0 := by
    have hpos : (view s.server c).pos = .fetch := standsAt_fetch hrest.fetch c
    simp [Conn.submitting,hpos]
  have hqueued : (view s.server c).queued = 0 := by simp [view,hrest.jobs]
  have hheld : (view s.server c).held = 0 := by simp [view,hrest.carries]
  rw [abandoned_of_returned hserver hreturned,(view s.server c).isOpen_iff.mp hopen] at htoken
  simp only [Conn.tokens,hdelivered,hsubmitting,hqueued,hheld,hrest.active c,
    Conn.armed] at htoken
  by_contra hne
  simp [hne] at htoken

/-- Then there is nothing to read. -/
theorem AtRest.read (hreturned : thrown (traceOf cfg s.server c) = false) :
    (s.sockets c).pending = [] ∧ (s.sockets c).finished = false := by
  have harmed := hrest.armed h hc hopen hreturned
  have hreadable : (s.sockets c).readable = false := by
    by_contra hreadable
    have hlisted := (listed_iff h c).mpr ⟨harmed,Bool.not_eq_false _ ▸ hreadable⟩
    rw [hrest.unlisted c] at hlisted
    cases hlisted
  simpa [Socket.readable] using hreadable

/-- A connection is open only while its stream is not ripe. -/
theorem AtRest.not_ripe (hcfg : Serves cfg)
    (hreturned : thrown (traceOf cfg s.server c) = false) :
    ¬ ripe cfg.bufferSize (s.sockets c).sent (s.sockets c).finished := by
  obtain ⟨hpending,hunfinished⟩ := hrest.read h hc hopen hreturned
  have hall : bytesOf (traceOf cfg s.server c) = (s.sockets c).sent := by
    rw [(tracked hcfg h c).received]
    exact List.take_of_length_le (List.drop_eq_nil_iff.mp hpending)
  have hundecided := undecided_of_open hcfg (reach_server h) hreturned hc hopen (hrest.active c)
  have hroom : (s.sockets c).sent.length+1 < cfg.bufferSize := hall ▸ hundecided.room
  have hincomplete : ¬ headerEnd <:+: cString (s.sockets c).sent :=
    hall ▸ hundecided.stored.incomplete
  have hvisible : visible cfg.bufferSize (s.sockets c).sent = cString (s.sockets c).sent := by
    rw [visible,List.take_of_length_le (by omega)]
  rintro (hend | hfull | hfinished)
  · exact hincomplete (hvisible ▸ hend)
  · omega
  · rw [hunfinished] at hfinished
    cases hfinished

end Rest

theorem AtRest.answers {s : Sockets.State N} (hcfg : Serves cfg)
    (h : (network N cfg).Reach (Lift Serving) s) (hrest : AtRest s) (hc : c < s.server.accepted)
    (hspared : Spared cfg s.server c) : Answers cfg s c := by
  have hregistered := registered_of_accepted (reach_server h) hrest.fetch hc hspared.added
  have hreturned := hspared.unharmed.returned
  refine ⟨fun hripe => ?_,outcome_of_closed hcfg h hspared.unharmed hregistered,fun hopen =>
    ⟨hrest.armed h hregistered hopen hreturned,(hrest.read h hregistered hopen hreturned).1⟩⟩
  exact Bool.eq_false_iff.mpr fun hopen =>
    hrest.not_ripe h hregistered hopen hcfg hreturned hripe

end WebServer.Completion
