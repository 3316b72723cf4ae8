import WebServer.TransitionSystem
import Mathlib.Data.Fintype.BigOperators
import Mathlib.Algebra.Order.BigOperators.Group.Finset
import Mathlib.Algebra.Order.Group.Multiset

/-!
# ThreadPool: JobHandler, enqueue, emplace and the destructor

Critical sections of `m_mutex` are atomic steps. `m_condition.wait` releases
the mutex and blocks in one step, `notify_one` unblocks one blocked worker if
there is one, `notify_all` unblocks all of them, and a blocked worker may wake
spuriously. The push of a submission and its `notify_one` are two steps, as are
the setting of `m_stop` and the `notify_all` of the destructor.

The pool is generic in the type `J` of the queued jobs, the type `R` of the
state of a job that is being run, and the type `ι` of the outside threads that
submit jobs. A running job may change its state and submit jobs at any time,
and may return or throw.
-/
namespace WebServer.ThreadPool
open TransitionSystem
open scoped BigOperators

variable {ι J R : Type} {N : ℕ}

/-- Where one worker thread is in `JobHandler`. An `awake` worker is about to
enter the critical section, a `holding` worker has popped a job and has not
invoked it yet, and `notifying` is a running job between its own push and
the `notify_one` that follows. -/
inductive Worker (J R : Type) where
  | awake
  | blocked
  | holding (job : J)
  | running (task : R)
  | notifying (task : R)
  | exited

/-- The position of a worker without the data it carries. -/
inductive Place where
  | awake | blocked | holding | running | notifying | exited
  deriving DecidableEq, Repr

def Worker.place : Worker J R → Place
  | .awake => .awake
  | .blocked => .blocked
  | .holding _ => .holding
  | .running _ => .running
  | .notifying _ => .notifying
  | .exited => .exited

@[simp] theorem place_awake : (.awake : Worker J R).place = .awake := rfl
@[simp] theorem place_blocked : (.blocked : Worker J R).place = .blocked := rfl
@[simp] theorem place_holding (job : J) : (.holding job : Worker J R).place = .holding := rfl
@[simp] theorem place_running (task : R) : (.running task : Worker J R).place = .running := rfl
@[simp] theorem place_notifying (task : R) :
    (.notifying task : Worker J R).place = .notifying := rfl
@[simp] theorem place_exited : (.exited : Worker J R).place = .exited := rfl

/-- The jobs which a worker has dequeued and not yet invoked. -/
def Worker.held : Worker J R → Multiset J
  | .holding job => {job}
  | _ => 0

@[simp] theorem held_awake : (.awake : Worker J R).held = 0 := rfl
@[simp] theorem held_blocked : (.blocked : Worker J R).held = 0 := rfl
@[simp] theorem held_holding (job : J) : (.holding job : Worker J R).held = {job} := rfl
@[simp] theorem held_running (task : R) : (.running task : Worker J R).held = 0 := rfl
@[simp] theorem held_notifying (task : R) : (.notifying task : Worker J R).held = 0 := rfl
@[simp] theorem held_exited : (.exited : Worker J R).held = 0 := rfl

theorem held_eq_zero {x : Worker J R} (h : x.place ≠ .holding) : x.held = 0 := by
  cases x <;> simp_all

theorem held_eq {x y : Worker J R} (hx : x.place ≠ .holding) (hy : y.place ≠ .holding) :
    x.held = y.held := (held_eq_zero hx).trans (held_eq_zero hy).symm

/-- How the body of a job ended: the pool catches every exception. -/
inductive Outcome where
  | returned
  | threw
  deriving DecidableEq, Repr

/-- Progress of `~ThreadPool`. -/
inductive Destructor where
  | idle | stopped | notified | joined
  deriving DecidableEq, Repr

/-- The last three fields record the history of the pool: which jobs were
pushed, popped and invoked, in the order of these steps. -/
structure Pool (ι J R : Type) (N : ℕ) where
  stop : Bool
  jobs : List J
  workers : Fin N → Worker J R
  notifying : Finset ι
  destructor : Destructor
  submitted : List J
  dequeued : List J
  invoked : List J

/-- The constructor has started its workers. -/
def Pool.initial : Pool ι J R N := ⟨false,[],fun _ => .awake,∅,.idle,[],[],[]⟩

inductive Action (ι J R : Type) (N : ℕ) where
  | emplace (thread : ι) (job : J)
  | notifyOne (thread : ι) (woken : Option (Fin N))
  | look (w : Fin N)
  | wake (w : Fin N)
  | invoke (w : Fin N)
  | advance (w : Fin N) (task : R)
  | emplaceFrom (w : Fin N) (job : J)
  | notifyFrom (w : Fin N) (woken : Option (Fin N))
  | finish (w : Fin N) (outcome : Outcome)
  | setStop
  | notifyAll
  | join

/-- `notify_one` unblocks one blocked worker, or nobody if nobody is blocked. -/
def Pool.CanWake (s : Pool ι J R N) : Option (Fin N) → Prop
  | some w => (s.workers w).place = .blocked
  | none => ∀ w, (s.workers w).place ≠ .blocked

instance (s : Pool ι J R N) : (woken : Option (Fin N)) → Decidable (s.CanWake woken)
  | some w => inferInstanceAs (Decidable ((s.workers w).place = .blocked))
  | none => inferInstanceAs (Decidable (∀ w, (s.workers w).place ≠ .blocked))

def Pool.setWorker (s : Pool ι J R N) (w : Fin N) (x : Worker J R) : Pool ι J R N :=
  {s with workers := Function.update s.workers w x}

def Pool.wakeOne (s : Pool ι J R N) : Option (Fin N) → Pool ι J R N
  | some w => s.setWorker w .awake
  | none => s

@[simp] theorem workers_setWorker (s : Pool ι J R N) (w : Fin N) (x : Worker J R) :
    (s.setWorker w x).workers w = x := Function.update_self ..

theorem workers_setWorker_ne (s : Pool ι J R N) {v w : Fin N} (h : v ≠ w) (x : Worker J R) :
    (s.setWorker w x).workers v = s.workers v := Function.update_of_ne h ..

/-- Moving a worker that is not blocked does not change whom `notify_one` may unblock. -/
theorem Pool.CanWake.setWorker {s : Pool ι J R N} {woken : Option (Fin N)}
    (h : s.CanWake woken) {w : Fin N} {x : Worker J R} (hw : (s.workers w).place ≠ .blocked)
    (hx : x.place ≠ .blocked) : (s.setWorker w x).CanWake woken := by
  cases woken with
  | none =>
      intro v
      by_cases hvw : v = w
      · subst v
        simpa using hx
      · simpa [workers_setWorker_ne s hvw] using h v
  | some v =>
      have hvw : v ≠ w := by
        rintro rfl
        exact hw h
      simpa [Pool.CanWake,workers_setWorker_ne s hvw] using h

/-- `m_jobs.emplace` under the lock. -/
def Pool.push (s : Pool ι J R N) (job : J) : Pool ι J R N :=
  {s with jobs := s.jobs++[job], submitted := s.submitted++[job]}

/-- The critical section of `JobHandler`. The wait returns only when a job is
queued or `m_stop` is set; the worker leaves when `m_stop` is set and nothing
is queued, and pops the front job otherwise. -/
def Pool.look (s : Pool ι J R N) (w : Fin N) : Pool ι J R N :=
  match s.jobs with
  | [] => s.setWorker w (if s.stop then .exited else .blocked)
  | job::jobs => {s.setWorker w (.holding job) with jobs := jobs, dequeued := s.dequeued++[job]}

/-- `job()` starts. -/
def Pool.invoke (start : J → R) (s : Pool ι J R N) (w : Fin N) : Pool ι J R N :=
  match s.workers w with
  | .holding job => {s.setWorker w (.running (start job)) with invoked := s.invoked++[job]}
  | _ => s

/-- The two `catch` clauses of `JobHandler` report the exception and fall
through to the next iteration, as a normal return does. -/
def afterJob : Outcome → Worker J R
  | .returned => .awake
  | .threw => .awake

/-- A running job pushes; its `notify_one` is still to come. -/
def Pool.pushFrom (s : Pool ι J R N) (w : Fin N) (job : J) : Pool ι J R N :=
  match s.workers w with
  | .running task => (s.push job).setWorker w (.notifying task)
  | _ => s

def Pool.notifyFrom (s : Pool ι J R N) (w : Fin N) (woken : Option (Fin N)) : Pool ι J R N :=
  match s.workers w with
  | .notifying task => (s.setWorker w (.running task)).wakeOne woken
  | _ => s

def Worker.unblock : Worker J R → Worker J R
  | .blocked => .awake
  | x => x

theorem unblock_held (x : Worker J R) : x.unblock.held = x.held := by cases x <;> rfl

theorem unblock_ne_blocked (x : Worker J R) : x.unblock.place ≠ .blocked := by
  cases x <;> simp [Worker.unblock]

theorem unblock_exited (x : Worker J R) : x.unblock.place = .exited ↔ x.place = .exited := by
  cases x <;> simp [Worker.unblock]

section Steps
variable [DecidableEq ι]

def Pool.enabled (s : Pool ι J R N) : Action ι J R N → Prop
  | .emplace t _ => t ∉ s.notifying
  | .notifyOne t woken => t ∈ s.notifying ∧ s.CanWake woken
  | .look w => (s.workers w).place = .awake
  | .wake w => (s.workers w).place = .blocked
  | .invoke w => (s.workers w).place = .holding
  | .advance w _ => (s.workers w).place = .running
  | .emplaceFrom w _ => (s.workers w).place = .running
  | .notifyFrom w woken => (s.workers w).place = .notifying ∧ s.CanWake woken
  | .finish w _ => (s.workers w).place = .running
  | .setStop => s.destructor = .idle
  | .notifyAll => s.destructor = .stopped
  | .join => s.destructor = .notified ∧ ∀ w, (s.workers w).place = .exited

instance (s : Pool ι J R N) : (a : Action ι J R N) → Decidable (s.enabled a)
  | .emplace t _ => inferInstanceAs (Decidable (t ∉ s.notifying))
  | .notifyOne t woken => inferInstanceAs (Decidable (t ∈ s.notifying ∧ s.CanWake woken))
  | .look w => inferInstanceAs (Decidable ((s.workers w).place = .awake))
  | .wake w => inferInstanceAs (Decidable ((s.workers w).place = .blocked))
  | .invoke w => inferInstanceAs (Decidable ((s.workers w).place = .holding))
  | .advance w _ => inferInstanceAs (Decidable ((s.workers w).place = .running))
  | .emplaceFrom w _ => inferInstanceAs (Decidable ((s.workers w).place = .running))
  | .notifyFrom w woken =>
      inferInstanceAs (Decidable ((s.workers w).place = .notifying ∧ s.CanWake woken))
  | .finish w _ => inferInstanceAs (Decidable ((s.workers w).place = .running))
  | .setStop => inferInstanceAs (Decidable (s.destructor = .idle))
  | .notifyAll => inferInstanceAs (Decidable (s.destructor = .stopped))
  | .join => inferInstanceAs
      (Decidable (s.destructor = .notified ∧ ∀ w, (s.workers w).place = .exited))

def Pool.next (start : J → R) (s : Pool ι J R N) : Action ι J R N → Pool ι J R N
  | .emplace t job => {s.push job with notifying := insert t s.notifying}
  | .notifyOne t woken => {s.wakeOne woken with notifying := s.notifying.erase t}
  | .look w => s.look w
  | .wake w => s.setWorker w .awake
  | .invoke w => s.invoke start w
  | .advance w task => s.setWorker w (.running task)
  | .emplaceFrom w job => s.pushFrom w job
  | .notifyFrom w woken => s.notifyFrom w woken
  | .finish w outcome => s.setWorker w (afterJob outcome)
  | .setStop => {s with stop := true, destructor := .stopped}
  | .notifyAll => {s with workers := fun w => (s.workers w).unblock, destructor := .notified}
  | .join => {s with destructor := .joined}

/-- The pool of `N` workers with any number of submitting threads. -/
def system (N : ℕ) (start : J → R) : System (Pool ι J R N) (Action ι J R N) :=
  System.guarded (fun s => s = Pool.initial) Pool.enabled (Pool.next start)

/-- Every submission from outside the pool is made before `m_stop` is set. -/
def OutsideBeforeStop : Discipline (Pool ι J R N) (Action ι J R N)
  | s, .emplace _ _ => s.stop = false
  | _, _ => True

instance (s : Pool ι J R N) : (a : Action ι J R N) → Decidable (OutsideBeforeStop s a)
  | .emplace _ _ => inferInstanceAs (Decidable (s.stop = false))
  | .notifyOne _ _ | .look _ | .wake _ | .invoke _ | .advance _ _ | .emplaceFrom _ _
  | .notifyFrom _ _ | .finish _ _ | .setStop | .notifyAll | .join =>
      inferInstanceAs (Decidable True)

theorem reach_of_script (start : J → R) (as : List (Action ι J R N)) (p : Pool ι J R N → Bool)
    (h : (execute (fun s a => OutsideBeforeStop s a ∧ s.enabled a) (Pool.next start)
      Pool.initial as).any p = true) :
    ∃ s, (system N start).Reach OutsideBeforeStop s ∧ p s = true :=
  execute_reach (fun s => s = Pool.initial) (fun _ _ hc => hc) rfl h

end Steps

end WebServer.ThreadPool
