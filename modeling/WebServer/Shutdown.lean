import WebServer.ServerPool
import WebServer.ThreadPoolDrain

/-!
# Destroying the server

The members go in the reverse order of their declaration: `on_message_` and
`on_connection_` first, the pool last. The pool still drains its queue, so that
a queued job may call `on_message_` after it is gone, and nothing stops the
detached `AcceptLoop`. The destruction is safe in the runs in which nobody finds
work at the wrong moment.
-/
namespace WebServer.Shutdown
open TransitionSystem RequestParsing Contexts Interaction Handler Server ServerPool
open ThreadPool (Outcome Pool Worker)
open ThreadPoolDrain (accounted)

variable {N : ℕ} {cfg : Config} {s : State N}

/-- The next operation of the task of worker `w`. -/
def due (s : State N) (w : Fin N) : Option Op :=
  match s.pool.workers w with
  | .running t =>
      match t.code with
      | .op o _ => some o
      | .ret _ => none
  | _ => none

/-- The step neither uses a callback that is gone nor submits to a stopping pool. -/
def Safe (cfg : Config) (s : State N) : Action N → Prop
  | .work w _ => due s w = some .onMessage → s.teardown = .alive
  | .onConnection _ => cfg.onConnection = true → s.teardown ≠ .connectionDestroyed
  | .submit => s.pool.stop = false
  | _ => True

/-- Every step is safe, and the workers leave only when every job has been run. -/
def ShutdownSafe (N : ℕ) (cfg : Config) (G : Discipline (State N) (Action N)) : Prop :=
  (∀ s a, (system N cfg).Reach G s → G s a → s.enabled cfg a → Safe cfg s a) ∧
  ∀ s, (system N cfg).Reach G s → (∀ w, (s.pool.workers w).place = .exited) →
    s.pool.jobs = [] ∧ s.pool.invoked.Perm s.pool.submitted

/-- The buffer of the task of worker `w` holds a complete request. -/
def FindsRequest (s : State N) (w : Fin N) : Prop :=
  match s.pool.workers w with
  | .running t =>
      ((s.heap t.conn).ctx.request.parse (cString (s.heap t.conn).ctx.buffer)).1 = true
  | _ => False

/-- Nobody finds work at the wrong moment. When `on_message_` is destroyed no job
stands between recognising a request and reporting it, and none recognises one
afterwards; when `on_connection_` is destroyed `AcceptLoop` does not stand between
`accept` and the call, and accepts nobody afterwards; when `m_stop` is set no
event of a connection waits to be dispatched, and none is delivered afterwards.
An empty callback is not called, and asks for nothing. -/
def Quiescent (cfg : Config) : Discipline (State N) (Action N)
  | s, .work w _ => cfg.onMessage = true → due s w = some .parse → s.teardown ≠ .alive →
      ¬ FindsRequest s w
  | s, .destroyMessage => cfg.onMessage = true →
      ∀ w, due s w ≠ some .testOnMessage ∧ due s w ≠ some .onMessage
  | s, .accept fd => cfg.onConnection = true → s.teardown = .connectionDestroyed → fd = none
  | s, .destroyConnection => cfg.onConnection = true →
      s.loop.pos ≠ .setNonblocking ∧ s.loop.pos ≠ .onConnection
  | s, .epollWait ready => s.pool.stop = true → ∀ f, .conn f ∉ ready
  | s, .setStop => s.loop.pos ≠ .submit ∧ ∀ c, .ctx c ∉ s.loop.batch
  | _, _ => True

instance (s : State N) (w : Fin N) : Decidable (FindsRequest s w) :=
  match hw : s.pool.workers w with
  | .running t => decidable_of_iff
      (((s.heap t.conn).ctx.request.parse (cString (s.heap t.conn).ctx.buffer)).1 = true)
      (by simp only [FindsRequest,hw])
  | .awake | .blocked | .holding _ | .notifying _ | .exited =>
      isFalse (by simp only [FindsRequest,hw,not_false_eq_true])

instance (batch : List Tag) : Decidable (∀ c, .ctx c ∉ batch) :=
  decidable_of_iff (∀ e ∈ batch, e = .listen) (by
    refine ⟨fun h c hc => by simpa using h _ hc,fun h e he => ?_⟩
    cases e with
    | listen => rfl
    | ctx c => exact (h c he).elim)

instance (ready : List Ready) : Decidable (∀ f, .conn f ∉ ready) :=
  decidable_of_iff (∀ e ∈ ready, e = .listen) (by
    refine ⟨fun h f hf => by simpa using h _ hf,fun h e he => ?_⟩
    cases e with
    | listen => rfl
    | conn f => exact (h f he).elim)

instance (cfg : Config) (s : State N) : (a : Action N) → Decidable (Quiescent cfg s a)
  | .work w _ => inferInstanceAs (Decidable (cfg.onMessage = true → due s w = some .parse →
      s.teardown ≠ .alive → ¬ FindsRequest s w))
  | .destroyMessage => inferInstanceAs (Decidable (cfg.onMessage = true →
      ∀ w, due s w ≠ some .testOnMessage ∧ due s w ≠ some .onMessage))
  | .accept fd => inferInstanceAs (Decidable (cfg.onConnection = true →
      s.teardown = .connectionDestroyed → fd = none))
  | .destroyConnection => inferInstanceAs (Decidable (cfg.onConnection = true →
      s.loop.pos ≠ .setNonblocking ∧ s.loop.pos ≠ .onConnection))
  | .epollWait ready => inferInstanceAs (Decidable (s.pool.stop = true → ∀ f, .conn f ∉ ready))
  | .setStop => inferInstanceAs (Decidable (s.loop.pos ≠ .submit ∧ ∀ c, .ctx c ∉ s.loop.batch))
  | .epollError _ | .setNonblocking | .onConnection _ | .create | .add _ | .delete | .close
  | .addRef | .submit | .notify _ | .look _ | .wake _ | .invoke _ | .finish _ | .notifyAll
  | .join => inferInstanceAs (Decidable True)

/-! ## Which operations lead to the callback -/

/-- Whether a task is about to test and to call `on_message_`. -/
inductive Stage where
  | idle | recognised | calling
  deriving DecidableEq, Repr

/-- `on_message_` is tested right after a request was recognised, and called
right after it was found to hold a callback. -/
def reporting : Protocol Op Op.Res Stage where
  allowed _ _ _ := True
  next
    | .idle, .parse, complete => some (if complete then .recognised else .idle)
    | .idle, .testOnMessage, _ => none
    | .idle, .onMessage, _ => none
    | .idle, _, _ => some .idle
    | .recognised, .testOnMessage, set => some (if set then .calling else .idle)
    | .calling, .onMessage, _ => some .idle
    | _, _, _ => none

abbrev Reports (p : Code) (q : Stage) : Prop := p.Obeys reporting (fun q _ => q = .idle) q

theorem reports_leave : Reports leave .idle := fun _ _ => ⟨.idle,rfl,rfl⟩

theorem reports_conclude (shouldClose needReadd : Bool) :
    Reports (conclude shouldClose needReadd) .idle := by
  cases shouldClose with
  | true =>
      refine fun was _ => ⟨.idle,rfl,?_⟩
      cases was with
      | true => exact reports_leave
      | false => exact fun _ _ => ⟨.idle,rfl,fun _ _ => ⟨.idle,rfl,reports_leave⟩⟩
  | false =>
      cases needReadd with
      | false => exact reports_leave
      | true =>
          refine fun closed _ => ⟨.idle,rfl,?_⟩
          cases closed with
          | true => exact reports_leave
          | false =>
              refine fun ok _ => ⟨.idle,rfl,?_⟩
              cases ok with
              | true => exact reports_leave
              | false => exact fun _ _ => ⟨.idle,rfl,fun _ _ => ⟨.idle,rfl,reports_leave⟩⟩

theorem reports_receive (size : ℕ) (bytes : Bytes) : Reports (receive size bytes) .idle := by
  refine fun _ _ => ⟨.idle,rfl,fun _ _ => ⟨.idle,rfl,fun complete _ => ⟨_,rfl,?_⟩⟩⟩
  cases complete with
  | true =>
      refine fun set _ => ⟨_,rfl,?_⟩
      cases set with
      | true =>
          refine fun outcome _ => ⟨.idle,rfl,?_⟩
          cases outcome with
          | returned => exact reports_conclude true false
          | threw => rfl
      | false => exact reports_conclude true false
  | false =>
      refine fun n _ => ⟨.idle,rfl,?_⟩
      by_cases hn : size-1 ≤ n
      · simpa only [if_pos hn] using reports_conclude true false
      · simpa only [if_neg hn] using reports_conclude false true

theorem handleClientClient_reports (size : ℕ) : Reports (handleClientClient size) .idle := by
  refine fun closed _ => ⟨.idle,rfl,?_⟩
  cases closed with
  | true => exact reports_leave
  | false =>
      refine fun n _ => ⟨.idle,rfl,?_⟩
      cases n with
      | error e =>
          cases e with
          | again => exact reports_conclude false true
          | badf => exact fun _ _ => ⟨.idle,rfl,reports_leave⟩
          | other => exact reports_conclude true false
      | data bytes =>
          cases bytes with
          | nil => exact reports_conclude true false
          | cons b bs => exact reports_receive size (b::bs)

/-- A task that is not idle is due to test or to call the callback. -/
theorem due_of_stage {t : Task} {q : Stage} (h : Reports t.code q) (hq : q ≠ .idle)
    {w : Fin N} (hw : s.pool.workers w = .running t) :
    due s w = some (if q = .recognised then .testOnMessage else .onMessage) := by
  cases hc : t.code with
  | ret outcome =>
      rw [hc] at h
      exact (hq h).elim
  | op o k =>
      rw [hc] at h
      obtain ⟨r,-⟩ := exists_allowed .reading o
      obtain ⟨q',hn,-⟩ := h.step (r := r) trivial
      have ho : o = if q = .recognised then .testOnMessage else .onMessage := by
        cases q <;> cases o <;> simp [reporting] at hn hq ⊢
      simp [due,hw,hc,ho]

/-! ## The invariant of the quiescent runs -/

/-- A task stands between recognising a request and reporting it only while
`on_message_` is alive, `AcceptLoop` stands before `on_connection_` only while that
is alive, and holds an event to be dispatched only while the pool is not stopping. -/
structure Orderly (cfg : Config) (s : State N) : Prop where
  tasks : ∀ w t, s.pool.workers w = .running t → ∃ q, Reports t.code q ∧
    (q = .calling → cfg.onMessage = true) ∧
    (q ≠ .idle → cfg.onMessage = true → s.teardown = .alive)
  connecting : cfg.onConnection = true → s.teardown = .connectionDestroyed →
    s.loop.pos ≠ .setNonblocking ∧ s.loop.pos ≠ .onConnection
  dispatching : s.pool.stop = true → s.loop.pos ≠ .submit ∧ ∀ c, .ctx c ∉ s.loop.batch

theorem orderly_initial : Orderly cfg (State.initial N) where
  tasks := by simp [State.initial,Pool.initial]
  connecting := by simp [State.initial]
  dispatching := by simp [State.initial,Pool.initial]

/-- What an orderly state rules out. -/
theorem Orderly.safe (h : Orderly cfg s) {a : Action N} (he : s.enabled cfg a) :
    Safe cfg s a := by
  have hr := he.2
  cases a with
  | work w answer =>
      intro hdue
      obtain ⟨t,o,k,hw,hcode,-⟩ := canWork_cases hr
      obtain ⟨q,hq,hcalling,halive⟩ := h.tasks w t hw
      have ho : o = .onMessage := by simpa [due,hw,hcode] using hdue
      subst ho
      rw [hcode] at hq
      obtain ⟨q',hn,-⟩ := hq.step (r := .returned) trivial
      cases q with
      | calling => exact halive (by simp) (hcalling rfl)
      | idle => simp [reporting] at hn
      | recognised => simp [reporting] at hn
  | onConnection outcome => exact fun hc ht => (h.connecting hc ht).2 hr.1
  | submit =>
      refine Bool.eq_false_iff.mpr fun hstop => ?_
      exact (h.dispatching hstop).1 hr.1
  | _ => trivial

theorem teardown_next {a : Action N} (he : s.enabled cfg a) :
    (s.next cfg a).teardown = s.teardown ∨ a = .destroyMessage ∨ a = .destroyConnection := by
  have hr := he.2
  cases a with
  | work w answer =>
      obtain ⟨t,o,k,hw,hcode,-⟩ := canWork_cases hr
      exact .inl (by rw [State.next,work_eq hw hcode])
  | finish w =>
      obtain ⟨t,outcome,hw,hcode⟩ := canFinish_cases hr
      exact .inl (by rw [State.next,finish_eq hw hcode])
  | destroyMessage => exact .inr (.inl rfl)
  | destroyConnection => exact .inr (.inr rfl)
  | accept fd => exact .inl (by cases fd <;> rfl)
  | onConnection outcome =>
      exact .inl (by simp only [State.next,State.callConnection]; split <;> rfl)
  | add ok => exact .inl (by cases ok <;> rfl)
  | addRef => exact .inl (by simp only [State.next,State.addRef]; split <;> rfl)
  | _ => exact .inl rfl

/-- What a step can do to `AcceptLoop`: it stays, it gets a new batch, it takes an
event from its batch, or it goes on to a place before neither a call nor a submission. -/
inductive Advances (s : State N) : Action N → AcceptLoop → Prop
  | stays {a : Action N} : Advances s a s.loop
  | wakes (ready : List Ready) :
      Advances s (.epollWait ready) {s.loop with batch := ready.map s.kernel.tag}
  | accepts (fd : Fd) :
      Advances s (.accept (some fd)) ⟨.setNonblocking,s.accepted,s.loop.batch.tail⟩
  | skips : Advances s (.accept none) {s.loop with batch := s.loop.batch.tail}
  | nonblocking : s.loop.pos = .setNonblocking →
      Advances s .setNonblocking {s.loop with pos := .onConnection}
  | dispatches {c : ConnId} {batch : List Tag} : s.loop.batch = .ctx c::batch →
      Advances s .addRef ⟨.submit,c,batch⟩
  | goes {a : Action N} {pos : Position} : pos ≠ .setNonblocking → pos ≠ .onConnection →
      pos ≠ .submit → Advances s a {s.loop with pos := pos}

theorem loop_follows {a : Action N} (he : s.enabled cfg a) :
    Advances s a (s.next cfg a).loop := by
  have hr := he.2
  cases a with
  | epollWait ready => exact .wakes ready
  | epollError interrupted =>
      cases interrupted <;> exact .goes (by simp) (by simp) (by simp)
  | accept fd =>
      cases fd with
      | none => exact .skips
      | some fd => exact .accepts fd
  | setNonblocking => exact .nonblocking hr
  | onConnection outcome =>
      simp only [State.next,State.callConnection]
      split <;> exact .goes (by simp) (by simp) (by simp)
  | add ok => cases ok <;> exact .goes (by simp) (by simp) (by simp)
  | addRef =>
      obtain ⟨-,c,hc⟩ := hr
      obtain ⟨batch,hb⟩ := List.head?_eq_some_iff.mp hc
      simp only [State.next,State.addRef,hb]
      exact .dispatches hb
  | create | delete | close | submit | notify =>
      exact .goes (by simp) (by simp) (by simp)
  | work w answer =>
      obtain ⟨t,o,k,hw,hcode,-⟩ := canWork_cases hr
      rw [State.next,work_eq hw hcode]
      exact .stays
  | finish w =>
      obtain ⟨t,outcome,hw,hcode⟩ := canFinish_cases hr
      rw [State.next,finish_eq hw hcode]
      exact .stays
  | _ => exact .stays

section Step
variable {a : Action N} (h : Orderly cfg s) (hg : Quiescent cfg s a) (he : s.enabled cfg a)
include h hg he

/-- A task goes on to the callback only from a request which it recognised while
`on_message_` was alive. -/
theorem Orderly.perform {w : Fin N} {t : Task} {o : Op} {k : o.Res → Code}
    {answer : (o : Op) → o.Res} (ha : a = .work w answer)
    (hw : s.pool.workers w = .running t) (hcode : t.code = .op o k) :
    ∃ q, Reports (k (answer o)) q ∧ (q = .calling → cfg.onMessage = true) ∧
      (q ≠ .idle → cfg.onMessage = true → s.teardown = .alive) := by
  subst ha
  have hpermits : (s.heap t.conn).Permits cfg o (answer o) := by
    have hcan : s.canWork cfg w answer := he.2
    simp only [State.canWork,hw,hcode] at hcan
    exact hcan.1
  obtain ⟨q,hq,-,halive⟩ := h.tasks w t hw
  rw [hcode] at hq
  obtain ⟨q',hn,hk⟩ := hq.step (r := answer o) trivial
  refine ⟨q',hk,?_⟩
  cases q with
  | idle =>
      by_cases ho : o = .parse
      · subst ho
        simp only [reporting,Option.some.injEq] at hn
        have hfound : answer .parse = true → FindsRequest s w := fun hc => by
          simp only [FindsRequest,hw]
          rw [← hc]
          exact (hpermits rfl).symm
        subst hn
        split_ifs with hc
        · refine ⟨by simp,fun _ hset => ?_⟩
          by_contra halive
          exact hg hset (by simp [due,hw,hcode]) halive (hfound hc)
        · simp
      · have hidle : q' = .idle := by
          cases o <;> simp_all [reporting]
        simp [hidle]
  | recognised =>
      cases o <;> simp only [reporting,reduceCtorEq,Option.some.injEq] at hn
      have hset : answer .testOnMessage = cfg.onMessage := hpermits rfl
      subst hn
      refine ⟨fun hc => ?_,fun _ => halive (by simp)⟩
      rw [← hset]
      by_contra hne
      simp [hne] at hc
  | calling =>
      cases o <;> simp only [reporting,reduceCtorEq,Option.some.injEq] at hn
      subst hn
      simp

/-- The task of a worker after the step, with the callback as it was before. -/
theorem Orderly.tasks_before {w : Fin N} {t : Task}
    (ht : (s.next cfg a).pool.workers w = .running t) :
    ∃ q, Reports t.code q ∧ (q = .calling → cfg.onMessage = true) ∧
      (q ≠ .idle → cfg.onMessage = true → s.teardown = .alive) := by
  rcases pool_follows he with hp | ⟨b,hb,-,hp⟩
  · exact h.tasks w t (hp ▸ ht)
  · rw [hp] at ht
    rcases running_of_drives hb ht with hw | ⟨c,rfl⟩ | ⟨u,o,k,answer,ha,hw,hcode,rfl⟩
    · exact h.tasks w t hw
    · exact ⟨.idle,handleClientClient_reports _,by simp,by simp⟩
    · simpa using h.perform hg he ha hw hcode

theorem Orderly.tasks_next {w : Fin N} {t : Task}
    (ht : (s.next cfg a).pool.workers w = .running t) :
    ∃ q, Reports t.code q ∧ (q = .calling → cfg.onMessage = true) ∧
      (q ≠ .idle → cfg.onMessage = true → (s.next cfg a).teardown = .alive) := by
  obtain ⟨q,hq,hcalling,halive⟩ := h.tasks_before hg he ht
  refine ⟨q,hq,hcalling,fun hidle hset => ?_⟩
  have hbefore := halive hidle hset
  rcases teardown_next he with htd | rfl | rfl
  · rw [htd,hbefore]
  · have hdue := due_of_stage hq hidle (s := s) ht
    have hnone := hg hset w
    split_ifs at hdue
    · exact (hnone.1 hdue).elim
    · exact (hnone.2 hdue).elim
  · have hready : s.teardown = .messageDestroyed := he.2
    simp [hready] at hbefore

theorem Orderly.connecting_next (hc : cfg.onConnection = true)
    (ht : (s.next cfg a).teardown = .connectionDestroyed) :
    (s.next cfg a).loop.pos ≠ .setNonblocking ∧ (s.next cfg a).loop.pos ≠ .onConnection := by
  rcases teardown_next he with htd | rfl | rfl
  · rw [htd] at ht
    have hpos := h.connecting hc ht
    have hl := loop_follows he
    generalize (s.next cfg a).loop = l at hl ⊢
    cases hl with
    | stays => exact hpos
    | wakes ready => exact hpos
    | accepts f => simpa using hg hc ht
    | skips => exact hpos
    | nonblocking hp => exact (hpos.1 hp).elim
    | dispatches hb => simp
    | goes h₁ h₂ h₃ => exact ⟨h₁,h₂⟩
  · simp [State.next] at ht
  · exact hg hc

theorem Orderly.dispatching_next (hstop : (s.next cfg a).pool.stop = true) :
    (s.next cfg a).loop.pos ≠ .submit ∧ ∀ c, .ctx c ∉ (s.next cfg a).loop.batch := by
  have hbefore : s.pool.stop = true ∨ a = .setStop := by
    rcases pool_follows he with hp | ⟨b,hb,-,hp⟩
    · exact .inl (hp ▸ hstop)
    · exact stop_of_drives hb (hp ▸ hstop)
  rcases hbefore with hs | rfl
  · obtain ⟨hpos,hbatch⟩ := h.dispatching hs
    have htail : ∀ c, .ctx c ∉ s.loop.batch.tail := fun c hc =>
      hbatch c (List.mem_of_mem_tail hc)
    have hl := loop_follows he
    generalize (s.next cfg a).loop = l at hl ⊢
    cases hl with
    | stays => exact ⟨hpos,hbatch⟩
    | wakes ready =>
        refine ⟨hpos,fun c hc => ?_⟩
        obtain ⟨e,he,htag⟩ := List.mem_map.mp hc
        cases e with
        | listen => simp [Kernel.tag] at htag
        | conn f => exact hg hs f he
    | accepts f => exact ⟨by simp,htail⟩
    | skips => exact ⟨hpos,htail⟩
    | nonblocking hp => exact ⟨by simp,hbatch⟩
    | @dispatches c batch hb => exact (hbatch c (by simp [hb])).elim
    | goes h₁ h₂ h₃ => exact ⟨h₃,hbatch⟩
  · exact hg

theorem Orderly.next : Orderly cfg (s.next cfg a) where
  tasks _ _ ht := h.tasks_next hg he ht
  connecting hc ht := h.connecting_next hg he hc ht
  dispatching hstop := h.dispatching_next hg he hstop

end Step

theorem orderly (h : (system N cfg).Reach (Quiescent cfg) s) : Orderly cfg s := by
  apply h.invariant
  · rintro _ rfl
    exact orderly_initial
  · rintro s a _ _ ih hg ⟨he,rfl⟩
    exact ih.next hg he

/-- In every run in which nobody finds work at the wrong moment, the callbacks and
the pool are used only while they are there, and every submitted job is run. -/
theorem shutdown_is_safe (hN : 0 < N) (cfg : Config) :
    ShutdownSafe N cfg (Quiescent cfg) := by
  refine ⟨fun s a h _ he => (orderly h).safe he,fun s h hall => ?_⟩
  have hpool := pool_reach_before_stop (fun s hs _ he => (orderly hs).safe he) h
  exact (accounted hN hpool).complete hall

/-- The job of the first connection is queued when the server is destroyed, and
worker `w` starts it while the pool drains. -/
def drainScript (w : Fin N) : List (Action N) :=
  acceptScript 5 true++[.epollWait [.conn 5],.addRef,.submit,.notify none,.destroyMessage,
    .destroyConnection,.setStop,.notifyAll,.look w,.invoke w]

/-- The job finds the end of file. -/
theorem shutdown_is_safe_drained : ∃ s : State 1, s.pool.destructor = .joined ∧
    s.pool.submitted = [0] ∧ s.pool.jobs = [] ∧ s.pool.invoked.Perm s.pool.submitted := by
  obtain ⟨s,hs,hp⟩ := reach_of_script (N := 1) (G := Quiescent .standard) .standard
    (drainScript 0++workScript 6 0 (reply (.data []) false .returned true)++
      [.finish 0,.look 0,.join]) (fun s => s.pool.destructor = .joined ∧ s.pool.submitted = [0] ∧
      ∀ w, (s.pool.workers w).place = .exited) (by decide +kernel)
  obtain ⟨hjoined,hsubmitted,hall⟩ := of_decide_eq_true hp
  exact ⟨s,hjoined,hsubmitted,(shutdown_is_safe Nat.one_pos .standard).2 s hs hall⟩

/-- The job finds a request, and calls `on_message_` although it is gone. -/
theorem not_shutdownSafe : ¬ ShutdownSafe 1 .standard Free := by
  rintro ⟨hsafe,-⟩
  obtain ⟨s,hs,hp⟩ := reach_of_script (N := 1) (G := Free) .standard
    (drainScript 0++workScript 6 0 (reply (.data headerEnd) true .returned true))
    (fun s => due s 0 = some .onMessage ∧ s.teardown = .connectionDestroyed ∧
      s.enabled .standard (.work 0 (reply (.data headerEnd) true .returned true)))
    (by decide +kernel)
  obtain ⟨hdue,htd,he⟩ := of_decide_eq_true hp
  have halive := hsafe s _ hs trivial he hdue
  simp [htd] at halive

end WebServer.Shutdown
