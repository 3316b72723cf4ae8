import WebServer.Server
import WebServer.ThreadPoolWakeup

/-!
# The pool of the server

The server takes part in the runs of its pool: each of its steps leaves the pool
alone or is a step of the pool, in which the thread of `AcceptLoop` submits and a
task that performs an operation advances. What holds of every run of a pool holds
of the pool of the server.
-/
namespace WebServer.ServerPool
open TransitionSystem Interaction Handler Server
open ThreadPool (Outcome Pool Worker)
open ThreadPoolWakeup (awake pendingNotifies covered)

variable {N : ℕ} {cfg : Config} {s : State N}

/-- The step of the pool which a step of the server takes. -/
inductive Drives (s : State N) : Action N → ThreadPool.Action Unit ConnId Task N → Prop
  | submit : Drives s .submit (.emplace () s.loop.conn)
  | notify (woken : Option (Fin N)) : Drives s (.notify woken) (.notifyOne () woken)
  | look (w : Fin N) : Drives s (.look w) (.look w)
  | wake (w : Fin N) : Drives s (.wake w) (.wake w)
  | invoke (w : Fin N) : Drives s (.invoke w) (.invoke w)
  | work {w : Fin N} {t : Task} {o : Op} {k : o.Res → Code} (answer : (o : Op) → o.Res)
      (hw : s.pool.workers w = .running t) (hcode : t.code = .op o k) :
      Drives s (.work w answer) (.advance w (t.advance (k (answer o)) o (answer o)))
  | finish {w : Fin N} {t : Task} {outcome : Outcome}
      (hw : s.pool.workers w = .running t) (hcode : t.code = .ret outcome) :
      Drives s (.finish w) (.finish w outcome)
  | setStop : Drives s .setStop .setStop
  | notifyAll : Drives s .notifyAll .notifyAll
  | join : Drives s .join .join

theorem pool_follows {a : Action N} (he : s.enabled cfg a) :
    (s.next cfg a).pool = s.pool ∨ ∃ b, Drives s a b ∧ s.pool.enabled b ∧
      (s.next cfg a).pool = s.pool.next (Task.start cfg) b := by
  have hr := he.2
  cases a with
  | submit => exact .inr ⟨_,.submit,hr.2,rfl⟩
  | notify woken => exact .inr ⟨_,.notify woken,hr.2,rfl⟩
  | look w => exact .inr ⟨_,.look w,hr,rfl⟩
  | wake w => exact .inr ⟨_,.wake w,hr,rfl⟩
  | invoke w => exact .inr ⟨_,.invoke w,hr,rfl⟩
  | work w answer =>
      obtain ⟨t,o,k,hw,hcode,-⟩ := canWork_cases hr
      refine .inr ⟨_,.work answer hw hcode,?_,?_⟩
      · simp [Pool.enabled,hw]
      · rw [State.next,work_eq hw hcode]
        rfl
  | finish w =>
      obtain ⟨t,outcome,hw,hcode⟩ := canFinish_cases hr
      refine .inr ⟨_,.finish hw hcode,?_,?_⟩
      · simp [Pool.enabled,hw]
      · rw [State.next,finish_eq hw hcode]
        cases outcome <;> rfl
  | setStop => exact .inr ⟨_,.setStop,hr.2,rfl⟩
  | notifyAll => exact .inr ⟨_,.notifyAll,hr,rfl⟩
  | join => exact .inr ⟨_,.join,hr,rfl⟩
  | accept fd => exact .inl (by cases fd <;> rfl)
  | onConnection outcome =>
      exact .inl (by simp only [State.next,State.callConnection]; split <;> rfl)
  | add ok => exact .inl (by cases ok <;> rfl)
  | addRef => exact .inl (by simp only [State.next,State.addRef]; split <;> rfl)
  | _ => exact .inl rfl

theorem running_setWorker {p : Pool Unit ConnId Task N} {v w : Fin N}
    {x : Worker ConnId Task} {t : Task} (h : (p.setWorker w x).workers v = .running t) :
    v = w ∧ x = .running t ∨ p.workers v = .running t := by
  by_cases hvw : v = w
  · subst v
    exact .inl ⟨rfl,by simpa using h⟩
  · exact .inr (by simpa [ThreadPool.workers_setWorker_ne p hvw] using h)

theorem running_of_setWorker {p : Pool Unit ConnId Task N} {v w : Fin N}
    {x : Worker ConnId Task} {t : Task} (hx : x.place ≠ .running)
    (h : (p.setWorker w x).workers v = .running t) : p.workers v = .running t := by
  rcases running_setWorker h with ⟨-,rfl⟩ | h
  · exact (hx rfl).elim
  · exact h

/-- A task runs after a step if it ran before, has just started, or has just
performed an operation. -/
theorem running_of_drives {a : Action N} {b : ThreadPool.Action Unit ConnId Task N}
    (hb : Drives s a b) {v : Fin N} {t : Task}
    (h : (s.pool.next (Task.start cfg) b).workers v = .running t) :
    s.pool.workers v = .running t ∨ (∃ c, t = Task.start cfg c) ∨
    ∃ u o k answer, a = .work v answer ∧ s.pool.workers v = .running u ∧ u.code = .op o k ∧
      t = u.advance (k (answer o)) o (answer o) := by
  cases hb with
  | submit => exact .inl h
  | notify woken =>
      cases woken with
      | none => exact .inl h
      | some w => exact .inl (running_of_setWorker (by simp) h)
  | look w =>
      left
      unfold Pool.next Pool.look at h
      simp only at h
      split at h
      · refine running_of_setWorker ?_ h
        split <;> simp
      · exact running_of_setWorker (by simp) h
  | wake w => exact .inl (running_of_setWorker (by simp) h)
  | invoke w =>
      unfold Pool.next Pool.invoke at h
      simp only at h
      split at h
      · rcases running_setWorker h with ⟨-,hx⟩ | h
        · simp only [Worker.running.injEq] at hx
          exact .inr (.inl ⟨_,hx.symm⟩)
        · exact .inl h
      · exact .inl h
  | work answer hw hcode =>
      rcases running_setWorker h with ⟨rfl,hx⟩ | h
      · simp only [Worker.running.injEq] at hx
        exact .inr (.inr ⟨_,_,_,answer,rfl,hw,hcode,hx.symm⟩)
      · exact .inl h
  | @finish w _ outcome hw hcode =>
      exact .inl (running_of_setWorker (by cases outcome <;> simp [ThreadPool.afterJob]) h)
  | setStop => exact .inl h
  | notifyAll =>
      left
      have hx : (s.pool.workers v).unblock = .running t := h
      cases hw : s.pool.workers v <;> simp_all [Worker.unblock]
  | join => exact .inl h

theorem stop_of_drives {a : Action N} {b : ThreadPool.Action Unit ConnId Task N}
    (hb : Drives s a b) (h : (s.pool.next (Task.start cfg) b).stop = true) :
    s.pool.stop = true ∨ a = .setStop := by
  cases hb with
  | setStop => exact .inr rfl
  | notify woken => exact .inl (by cases woken <;> exact h)
  | look w =>
      unfold Pool.next Pool.look at h
      simp only at h
      split at h <;> exact .inl h
  | invoke w =>
      unfold Pool.next Pool.invoke at h
      simp only at h
      split at h <;> exact .inl h
  | _ => exact .inl h

theorem place_setWorker {p : Pool Unit ConnId Task N} {w : Fin N} {x : Worker ConnId Task}
    {y : ThreadPool.Place} (hx : x.place ≠ y) (hp : ∀ v, (p.workers v).place ≠ y) (v : Fin N) :
    ((p.setWorker w x).workers v).place ≠ y := by
  by_cases hvw : v = w
  · subst hvw
    rwa [ThreadPool.workers_setWorker]
  · rw [ThreadPool.workers_setWorker_ne p hvw]
    exact hp v

section Runs
variable {G : Discipline (State N) (Action N)}

/-- No task of the server submits a job. -/
theorem not_notifying (h : (system N cfg).Reach G s) :
    ∀ w, (s.pool.workers w).place ≠ .notifying := by
  apply h.invariant
  · rintro _ rfl w
    simp [State.initial,Pool.initial]
  · rintro s a _ - ih - ⟨he,rfl⟩
    rcases pool_follows he with hp | ⟨b,hb,-,hp⟩
    · rwa [hp]
    · rw [hp]
      cases hb with
      | submit => exact ih
      | notify woken =>
          cases woken with
          | none => exact ih
          | some w => exact place_setWorker (by simp) ih
      | look w =>
          simp only [Pool.next,Pool.look]
          split
          · exact place_setWorker (by split <;> simp) ih
          · exact place_setWorker (by simp) ih
      | wake w => exact place_setWorker (by simp) ih
      | invoke w =>
          simp only [Pool.next,Pool.invoke]
          split
          · exact place_setWorker (by simp) ih
          · exact ih
      | work answer hw hcode => exact place_setWorker (by simp) ih
      | @finish w _ outcome hw hcode =>
          exact place_setWorker (by cases outcome <;> simp [ThreadPool.afterJob]) ih
      | setStop => exact ih
      | notifyAll =>
          intro w
          have hw := ih w
          change (s.pool.workers w).unblock.place ≠ _
          cases hx : s.pool.workers w <;> simp_all [Worker.unblock]
      | join => exact ih

/-- The server runs its pool as a pool may be run, as long as its own discipline
keeps to that of the pool. -/
theorem pool_reach {K : Discipline (Pool Unit ConnId Task N) (ThreadPool.Action Unit ConnId Task N)}
    (hK : ∀ s a b, (system N cfg).Reach G s → G s a → s.enabled cfg a → Drives s a b →
      K s.pool b) (h : (system N cfg).Reach G s) :
    (ThreadPool.system N (Task.start cfg)).Reach K s.pool := by
  apply h.simulates
  · rintro s rfl
    rfl
  · rintro s a _ hr hg ⟨he,rfl⟩
    rcases pool_follows he with hp | ⟨b,hb,hen,hp⟩
    · exact .inl hp
    · exact .inr ⟨b,hK s a b hr hg he hb,hen,hp⟩

/-- Outside submissions precede `m_stop` if `AcceptLoop` makes none to a stopping pool. -/
theorem pool_reach_before_stop (hG : ∀ s, (system N cfg).Reach G s → G s .submit →
      s.enabled cfg .submit → s.pool.stop = false) (h : (system N cfg).Reach G s) :
    (ThreadPool.system N (Task.start cfg)).Reach ThreadPool.OutsideBeforeStop s.pool := by
  refine pool_reach (fun s a b hr hg he hb => ?_) h
  cases hb with
  | submit => exact hG s hr hg he
  | _ => trivial

theorem pool_covered (h : (system N cfg).Reach G s) : ThreadPoolWakeup.Covered s.pool :=
  covered (pool_reach (K := Free) (fun _ _ _ _ _ _ _ => trivial) h)

/-- No job of the server waits for a sleeping worker. -/
theorem no_lost_wakeup (h : (system N cfg).Reach G s)
    (hw : ∃ w, (s.pool.workers w).place = .blocked) :
    s.pool.jobs.length ≤ awake s.pool+pendingNotifies s.pool := (pool_covered h).covered hw

/-- `AcceptLoop` owes a notification exactly between its submission and its `notify_one`. -/
theorem notifying_iff (h : (system N cfg).Reach G s) :
    () ∈ s.pool.notifying ↔ s.loop.pos = .notify := by
  refine h.invariant (I := fun s => () ∈ s.pool.notifying ↔ s.loop.pos = .notify) ?_ ?_
  · rintro _ rfl
    simp [State.initial,Pool.initial]
  · rintro s a _ - ih - ⟨he,rfl⟩
    -- a step of `AcceptLoop` which has nothing to do with the pool
    have hgoes : ∀ {t : State N}, t.pool = s.pool → s.loop.pos ≠ .notify →
        t.loop.pos ≠ .notify → (() ∈ t.pool.notifying ↔ t.loop.pos = .notify) := by
      intro t hp hs ht
      rw [hp,ih]
      exact ⟨fun hx => (hs hx).elim,fun hx => (ht hx).elim⟩
    have hr := he.2
    cases a with
    | epollError interrupted =>
        refine hgoes rfl (by simp [hr.1]) ?_
        cases interrupted <;> simp [State.next,State.goto]
    | accept fd =>
        cases fd with
        | none => exact ih
        | some fd => exact hgoes rfl (by simp [hr.1]) (by simp [State.next,State.accept])
    | setNonblocking | create | delete | close =>
        have hpos : s.loop.pos = _ := hr
        refine hgoes rfl (by simp [hpos]) ?_
        simp [State.next,State.goto,State.create,State.delete,State.close]
    | onConnection outcome =>
        simp only [State.next,State.callConnection]
        split <;> exact hgoes rfl (by simp [hr.1]) (by simp [State.goto])
    | add ok =>
        cases ok <;> exact hgoes rfl (by simp [hr.1]) (by simp [State.next,State.add,State.goto])
    | addRef =>
        obtain ⟨hpos,d,hd⟩ := hr
        obtain ⟨batch,hb⟩ := List.head?_eq_some_iff.mp hd
        have hpool : (s.next cfg .addRef).pool = s.pool := by
          simp only [State.next,State.addRef,hb]
          rfl
        exact hgoes hpool (by simp [hpos]) (by simp [State.next,State.addRef,hb])
    | submit => simp [State.next,State.goto,State.setPool,Pool.next]
    | notify woken => simp [State.next,State.goto,State.setPool,Pool.next]
    | look w =>
        simp only [State.next,Pool.next,Pool.look]
        split <;> exact ih
    | invoke w =>
        simp only [State.next,Pool.next,Pool.invoke]
        split <;> exact ih
    | work w answer =>
        obtain ⟨t,o,k,hw,hcode,-⟩ := canWork_cases hr
        rw [State.next,work_eq hw hcode]
        exact ih
    | finish w =>
        obtain ⟨t,outcome,hw,hcode⟩ := canFinish_cases hr
        rw [State.next,finish_eq hw hcode]
        exact ih
    | _ => exact ih

/-- Workers which `~ThreadPool` has joined have left. -/
theorem exited_of_joined (h : (system N cfg).Reach G s) :
    s.pool.destructor = .joined → ∀ w, (s.pool.workers w).place = .exited := by
  apply h.invariant
  · rintro _ rfl hd
    cases hd
  · rintro s a _ - ih - ⟨he,rfl⟩
    rcases pool_follows he with hp | ⟨b,hb,hen,hp⟩
    · rwa [hp]
    · rw [hp]
      -- a worker that is not exited shows that nobody has been joined
      have hunjoined : ∀ w, (s.pool.workers w).place ≠ .exited → s.pool.destructor ≠ .joined :=
        fun w hw hd => hw (ih hd w)
      cases hb with
      | submit => exact ih
      | notify woken =>
          cases woken with
          | none => exact ih
          | some w =>
              have hw : (s.pool.workers w).place = .blocked := hen.2
              exact fun hd => (hunjoined w (by simp [hw]) hd).elim
      | look w =>
          have hw : (s.pool.workers w).place = .awake := hen
          have hsame : (s.pool.look w).destructor = s.pool.destructor := by
            unfold Pool.look
            split <;> rfl
          exact fun hd => (hunjoined w (by simp [hw]) (hsame.symm.trans hd)).elim
      | wake w =>
          have hw : (s.pool.workers w).place = .blocked := hen
          exact fun hd => (hunjoined w (by simp [hw]) hd).elim
      | invoke w =>
          have hw : (s.pool.workers w).place = .holding := hen
          have hsame : (s.pool.invoke (Task.start cfg) w).destructor = s.pool.destructor := by
            unfold Pool.invoke
            split <;> rfl
          exact fun hd => (hunjoined w (by simp [hw]) (hsame.symm.trans hd)).elim
      | @work w _ _ _ _ hw _ => exact fun hd => (hunjoined w (by simp [hw]) hd).elim
      | @finish w _ _ hw _ => exact fun hd => (hunjoined w (by simp [hw]) hd).elim
      | setStop =>
          intro hd
          cases hd
      | notifyAll =>
          intro hd
          cases hd
      | join => exact fun _ => hen.2

end Runs

end WebServer.ServerPool
