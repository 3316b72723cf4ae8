import WebServer.ThreadPool

/-!
# The pool loses no job, runs none twice, keeps the order and drains

`Accounted` balances the history of the pool against its queue and its
workers. It is preserved by every action as long as submissions from outside
precede the setting of `m_stop`; a running job may submit even during the
shutdown, because its own worker returns to the queue afterwards.
-/
namespace WebServer.ThreadPoolDrain
open TransitionSystem ThreadPool
open scoped BigOperators

variable {ι J R : Type} {N : ℕ}

structure Accounted (s : Pool ι J R N) : Prop where
  fifo : s.submitted = s.dequeued++s.jobs
  started : (s.dequeued : Multiset J) = s.invoked+∑ w, (s.workers w).held
  exits : ∀ w, (s.workers w).place = .exited → s.stop = true
  drained : (∀ w, (s.workers w).place = .exited) → s.jobs = []

theorem accounted_initial : Accounted (Pool.initial : Pool ι J R N) where
  fifo := rfl
  started := by simp [Pool.initial]
  exits := by simp [Pool.initial]
  drained := fun _ => rfl

/-- A worker may move without touching the queue if it neither loses nor gains
a dequeued job, and may leave only once `m_stop` is set and nothing is queued. -/
theorem Accounted.setWorker {s : Pool ι J R N} (h : Accounted s) {w : Fin N}
    {x : Worker J R} (hheld : x.held = (s.workers w).held)
    (hexit : x.place = .exited → s.stop = true ∧ s.jobs = []) :
    Accounted (s.setWorker w x) where
  fifo := h.fifo
  started := by
    simp only [Pool.setWorker]
    rw [sum_update_same Worker.held s.workers w hheld]
    exact h.started
  exits := by
    intro v hv
    by_cases hvw : v = w
    · subst v
      exact (hexit (by simpa using hv)).1
    · exact h.exits v (by simpa [workers_setWorker_ne s hvw] using hv)
  drained := by
    intro hall
    exact (hexit (by simpa using hall w)).2

theorem Accounted.push {s : Pool ι J R N} (h : Accounted s) (job : J) {w : Fin N}
    (hw : (s.workers w).place ≠ .exited) : Accounted (s.push job) where
  fifo := by simp [Pool.push,h.fifo]
  started := h.started
  exits := h.exits
  drained := fun hall => (hw (hall w)).elim

theorem Accounted.wakeOne {s : Pool ι J R N} (h : Accounted s) {woken : Option (Fin N)}
    (hc : s.CanWake woken) : Accounted (s.wakeOne woken) := by
  cases woken with
  | none => exact h
  | some v =>
      have hv : (s.workers v).place = .blocked := hc
      exact h.setWorker (held_eq (by simp) (by simp [hv])) (by simp)

/-- Popping moves the front job from the queue to the worker. -/
theorem Accounted.pop {s : Pool ι J R N} (h : Accounted s) {w : Fin N} {job : J}
    {jobs : List J} (hw : (s.workers w).place = .awake) (hjobs : s.jobs = job::jobs) :
    Accounted {s.setWorker w (.holding job) with
      jobs := jobs, dequeued := s.dequeued++[job]} where
  fifo := by simp [Pool.setWorker,h.fifo,hjobs]
  started := by
    obtain ⟨rest,h₁,h₂⟩ := sum_update_split Worker.held s.workers w
    have hsum := h.started
    rw [h₁,held_eq_zero (by simp [hw]),zero_add] at hsum
    simp only [Pool.setWorker,h₂,held_holding]
    rw [← Multiset.coe_add,hsum,Multiset.coe_singleton,add_assoc,add_comm rest]
  exits := by
    intro v hv
    by_cases hvw : v = w
    · subst v
      simp at hv
    · exact h.exits v (by simpa [workers_setWorker_ne s hvw] using hv)
  drained := fun hall => by simpa using hall w

theorem Accounted.look {s : Pool ι J R N} (h : Accounted s) {w : Fin N}
    (hw : (s.workers w).place = .awake) : Accounted (s.look w) := by
  unfold Pool.look
  split
  case h_1 hjobs =>
    apply h.setWorker
    · refine held_eq ?_ (by simp [hw])
      split <;> simp
    · intro hx
      cases hs : s.stop with
      | false => simp [hs] at hx
      | true => exact ⟨rfl,hjobs⟩
  case h_2 job jobs hjobs => exact h.pop hw hjobs

theorem Accounted.invoke {s : Pool ι J R N} (h : Accounted s) (start : J → R) (w : Fin N) :
    Accounted (s.invoke start w) := by
  unfold Pool.invoke
  split
  case h_1 job hw =>
    obtain ⟨rest,h₁,h₂⟩ := sum_update_split Worker.held s.workers w
    refine ⟨h.fifo,?_,?_,fun hall => by simpa using hall w⟩
    · have hsum := h.started
      rw [h₁,hw,held_holding] at hsum
      simp only [Pool.setWorker,h₂,held_running,zero_add]
      rw [hsum,← Multiset.coe_add,Multiset.coe_singleton,add_assoc]
    · intro v hv
      by_cases hvw : v = w
      · subst v
        simp at hv
      · exact h.exits v (by simpa [workers_setWorker_ne s hvw] using hv)
  case h_2 => exact h

theorem Accounted.pushFrom {s : Pool ι J R N} (h : Accounted s) (w : Fin N) (job : J) :
    Accounted (s.pushFrom w job) := by
  unfold Pool.pushFrom
  split
  case h_1 task hw =>
    refine (h.push job (w := w) (by simp [hw])).setWorker ?_ (by simp)
    simp [Pool.push,hw]
  case h_2 => exact h

theorem Accounted.notifyFrom {s : Pool ι J R N} (h : Accounted s) {w : Fin N}
    {woken : Option (Fin N)} (hc : s.CanWake woken) :
    Accounted (s.notifyFrom w woken) := by
  unfold Pool.notifyFrom
  split
  case h_1 task hw =>
    exact (h.setWorker (by simp [hw]) (by simp)).wakeOne
      (hc.setWorker (by simp [hw]) (by simp))
  case h_2 => exact h

/-- Once every worker has left nothing is queued and every job has been invoked once. -/
theorem Accounted.complete {s : Pool ι J R N} (h : Accounted s)
    (hall : ∀ w, (s.workers w).place = .exited) :
    s.jobs = [] ∧ s.invoked.Perm s.submitted := by
  have hjobs := h.drained hall
  have hheld : ∑ w, (s.workers w).held = 0 :=
    Finset.sum_eq_zero fun w _ => held_eq_zero (by simp [hall w])
  have hstarted := h.started
  rw [hheld,add_zero] at hstarted
  rw [h.fifo,hjobs,List.append_nil]
  exact ⟨rfl,(Multiset.coe_eq_coe.mp hstarted).symm⟩

variable [DecidableEq ι]

theorem Accounted.next (hN : 0 < N) {start : J → R} {s : Pool ι J R N}
    {a : Action ι J R N} (h : Accounted s) (hg : OutsideBeforeStop s a)
    (he : s.enabled a) : Accounted (s.next start a) := by
  cases a with
  | emplace t job =>
      have hstop : s.stop = false := hg
      have hw : (s.workers ⟨0,hN⟩).place ≠ .exited := fun hx => by
        simp [h.exits _ hx] at hstop
      obtain ⟨h₁,h₂,h₃,h₄⟩ := h.push job hw
      exact ⟨h₁,h₂,h₃,h₄⟩
  | notifyOne t woken =>
      obtain ⟨h₁,h₂,h₃,h₄⟩ := h.wakeOne he.2
      exact ⟨h₁,h₂,h₃,h₄⟩
  | look w => exact h.look he
  | wake w =>
      have hw : (s.workers w).place = .blocked := he
      exact h.setWorker (held_eq (by simp) (by simp [hw])) (by simp)
  | invoke w => exact h.invoke start w
  | advance w task =>
      have hw : (s.workers w).place = .running := he
      exact h.setWorker (held_eq (by simp) (by simp [hw])) (by simp)
  | emplaceFrom w job => exact h.pushFrom w job
  | notifyFrom w woken => exact h.notifyFrom he.2
  | finish w outcome =>
      have hw : (s.workers w).place = .running := he
      refine h.setWorker (held_eq ?_ (by simp [hw])) ?_ <;>
        cases outcome <;> simp [afterJob]
  | setStop => exact ⟨h.fifo,h.started,fun _ _ => rfl,h.drained⟩
  | notifyAll =>
      refine ⟨h.fifo,?_,?_,?_⟩
      · simpa [Pool.next,unblock_held] using h.started
      · intro w hw
        exact h.exits w ((unblock_exited _).mp hw)
      · intro hall
        exact h.drained fun w => (unblock_exited _).mp (hall w)
  | join => exact ⟨h.fifo,h.started,h.exits,h.drained⟩

theorem accounted (hN : 0 < N) {start : J → R} {s : Pool ι J R N}
    (h : (system N start).Reach OutsideBeforeStop s) : Accounted s := by
  apply h.invariant
  · rintro _ rfl
    exact accounted_initial
  · rintro s a _ _ ih hg ⟨he,rfl⟩
    exact ih.next hN hg he

/-- Submission order is preserved, no worker leaves before the shutdown, and
once every worker has left each submitted job has been invoked exactly once. -/
theorem pool_runs_every_job_once (hN : 0 < N) (start : J → R) (s : Pool ι J R N)
    (h : (system N start).Reach OutsideBeforeStop s) :
    s.submitted = s.dequeued++s.jobs ∧
    (∀ w, (s.workers w).place = .exited → s.stop = true) ∧
    ((∀ w, (s.workers w).place = .exited) →
      s.jobs = [] ∧ s.invoked.Perm s.submitted) := by
  have ha := accounted hN h
  exact ⟨ha.fifo,ha.exits,ha.complete⟩

/-- One worker runs a throwing job and leaves during the shutdown. -/
theorem pool_runs_every_job_once_shutdown : ∃ s : Pool Unit ℕ Unit 1,
    s.submitted = [7] ∧ (∀ w, (s.workers w).place = .exited) ∧ s.jobs = [] ∧
      s.invoked.Perm s.submitted := by
  obtain ⟨s,hs,hp⟩ := reach_of_script (fun _ => ()) ([.emplace () 7,.notifyOne () none,
    .look 0,.invoke 0,.finish 0 .threw,.setStop,.notifyAll,.look 0] : List (Action Unit ℕ Unit 1))
    (fun s => s.submitted = [7] ∧ ∀ w, (s.workers w).place = .exited) (by decide +kernel)
  obtain ⟨hsubmitted,hall⟩ := of_decide_eq_true hp
  exact ⟨s,hsubmitted,hall,(pool_runs_every_job_once Nat.one_pos _ s hs).2.2 hall⟩

end WebServer.ThreadPoolDrain
