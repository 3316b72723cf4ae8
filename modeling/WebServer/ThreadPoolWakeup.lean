import WebServer.ThreadPool

/-!
# No lost wake-up

A notification is sent after the lock is dropped, so it may reach a worker
which finds the queue empty, or nobody. What survives is a count: while some
worker is blocked, every queued job is covered by a worker that is about to
look at the queue or by a `notify_one` that is still to come.
-/
namespace WebServer.ThreadPoolWakeup
open TransitionSystem ThreadPool
open scoped BigOperators

variable {ι J R : Type} {N : ℕ}

def countAt (p : Place) (s : Pool ι J R N) : ℕ :=
  ∑ w, if (s.workers w).place = p then 1 else 0

/-- Workers which are awake and not running a job. A worker which has popped
a job counts as running it. -/
def awake (s : Pool ι J R N) : ℕ := countAt .awake s

/-- Submissions, from outside and from running jobs, whose `notify_one` is still to come. -/
def pendingNotifies (s : Pool ι J R N) : ℕ := s.notifying.card+countAt .notifying s

/-- The number of queued jobs that are looked after while a worker is blocked. -/
def cover (s : Pool ι J R N) : ℕ := awake s+pendingNotifies s

def weight : Place → ℕ
  | .awake | .notifying => 1
  | _ => 0

theorem weight_eq (p : Place) :
    weight p = (if p = .awake then 1 else 0)+(if p = .notifying then 1 else 0) := by
  cases p <;> rfl

theorem countAt_setWorker (p : Place) (s : Pool ι J R N) (w : Fin N) (x : Worker J R) :
    countAt p (s.setWorker w x)+(if (s.workers w).place = p then 1 else 0) =
      countAt p s+(if x.place = p then 1 else 0) := by
  obtain ⟨rest,h₁,h₂⟩ :=
    sum_update_split (fun y : Worker J R => if y.place = p then 1 else 0) s.workers w
  have hs : countAt p s = _ := h₁
  have hx : countAt p (s.setWorker w x) = _ := h₂ x
  omega

theorem cover_setWorker (s : Pool ι J R N) (w : Fin N) (x : Worker J R) :
    cover (s.setWorker w x)+weight (s.workers w).place = cover s+weight x.place := by
  have ha := countAt_setWorker .awake s w x
  have hn := countAt_setWorker .notifying s w x
  have hnotifying : (s.setWorker w x).notifying = s.notifying := rfl
  simp only [cover,awake,pendingNotifies,hnotifying,weight_eq]
  omega

/-- A worker woken by `notify_one` becomes awake. -/
theorem cover_wakeOne {s : Pool ι J R N} {woken : Option (Fin N)} (hc : s.CanWake woken) :
    cover (s.wakeOne woken) = cover s+(if woken.isSome then 1 else 0) := by
  cases woken with
  | none => rfl
  | some v =>
      have hv : (s.workers v).place = .blocked := hc
      have hsum := cover_setWorker s v .awake
      simp only [hv,place_awake,weight,add_zero] at hsum
      exact hsum

theorem blocked_setWorker {s : Pool ι J R N} {w : Fin N} {x : Worker J R}
    (hx : x.place ≠ .blocked) (v : Fin N)
    (hv : ((s.setWorker w x).workers v).place = .blocked) :
    (s.workers v).place = .blocked := by
  by_cases hvw : v = w
  · subst v
    exact (hx (by simpa using hv)).elim
  · simpa [workers_setWorker_ne s hvw] using hv

theorem blocked_wakeOne {s : Pool ι J R N} {woken : Option (Fin N)} (v : Fin N)
    (hv : ((s.wakeOne woken).workers v).place = .blocked) :
    (s.workers v).place = .blocked := by
  cases woken with
  | none => exact hv
  | some u => exact blocked_setWorker (by simp) v hv

structure Covered (s : Pool ι J R N) : Prop where
  covered : (∃ w, (s.workers w).place = .blocked) → s.jobs.length ≤ cover s
  stopped : s.destructor ≠ .idle → s.stop = true
  woken : s.destructor = .notified ∨ s.destructor = .joined →
    ∀ w, (s.workers w).place ≠ .blocked

theorem covered_initial : Covered (Pool.initial : Pool ι J R N) where
  covered := fun _ => Nat.zero_le _
  stopped := fun h => (h rfl).elim
  woken := fun h => by simp [Pool.initial] at h

/-- A step on which no worker becomes blocked. While somebody stays blocked
the queue grows no faster than its cover. -/
theorem Covered.keep {s t : Pool ι J R N} (h : Covered s)
    (hdestructor : t.destructor = s.destructor) (hstop : t.stop = s.stop)
    (hblocked : ∀ v, (t.workers v).place = .blocked → (s.workers v).place = .blocked)
    (hcount : ∀ v, (t.workers v).place = .blocked →
      t.jobs.length+cover s ≤ s.jobs.length+cover t) : Covered t where
  covered := by
    rintro ⟨v,hv⟩
    have hc := h.covered ⟨v,hblocked v hv⟩
    have hn := hcount v hv
    omega
  stopped := by
    rw [hdestructor,hstop]
    exact h.stopped
  woken := by
    rw [hdestructor]
    exact fun hd v hv => h.woken hd v (hblocked v hv)

/-- A worker which moves without touching the queue to a place that covers no less. -/
theorem Covered.setWorker {s : Pool ι J R N} (h : Covered s) {w : Fin N}
    {x : Worker J R} (hx : x.place ≠ .blocked)
    (hweight : weight (s.workers w).place ≤ weight x.place) :
    Covered (s.setWorker w x) := by
  refine h.keep rfl rfl (fun v hv => blocked_setWorker hx v hv) fun v _ => ?_
  have hsum := cover_setWorker s w x
  have hjobs : (s.setWorker w x).jobs = s.jobs := rfl
  rw [hjobs]
  omega

theorem Covered.look {s : Pool ι J R N} (h : Covered s) {w : Fin N}
    (hw : (s.workers w).place = .awake) : Covered (s.look w) := by
  unfold Pool.look
  split
  case h_1 hjobs =>
    refine ⟨fun _ => ?_,h.stopped,?_⟩
    · simp [Pool.setWorker,hjobs]
    · intro hd v
      have hstop : s.stop = true := h.stopped fun hi => by
        simp [Pool.setWorker,hi] at hd
      by_cases hvw : v = w
      · subst v
        simp [hstop]
      · rw [workers_setWorker_ne s hvw]
        exact h.woken hd v
  case h_2 job jobs hjobs =>
    refine h.keep rfl rfl (fun v hv => blocked_setWorker (by simp) v hv) fun v _ => ?_
    have hsum := cover_setWorker s w (.holding job)
    simp only [hw,place_holding,weight] at hsum
    simp only [hjobs,List.length_cons]
    change jobs.length+cover s ≤ jobs.length+1+cover (s.setWorker w (.holding job))
    omega

theorem Covered.invoke {s : Pool ι J R N} (h : Covered s) (start : J → R) (w : Fin N) :
    Covered (s.invoke start w) := by
  unfold Pool.invoke
  split
  case h_1 job hw =>
    obtain ⟨h₁,h₂,h₃⟩ := h.setWorker (w := w) (x := .running (start job)) (by simp)
      (by simp [hw,weight])
    exact ⟨h₁,h₂,h₃⟩
  case h_2 => exact h

/-- A push is covered by its own pending notification. -/
theorem Covered.pushFrom {s : Pool ι J R N} (h : Covered s) (w : Fin N) (job : J) :
    Covered (s.pushFrom w job) := by
  unfold Pool.pushFrom
  split
  case h_1 task hw =>
    have hsum := cover_setWorker (s.push job) w (.notifying task)
    have hplace : ((s.push job).workers w).place = .running := by simp [Pool.push,hw]
    have hpush : cover (s.push job) = cover s := rfl
    simp only [hplace,hpush,place_notifying,weight] at hsum
    refine h.keep rfl rfl
      (fun v hv => blocked_setWorker (s := s.push job) (by simp) v hv) fun v _ => ?_
    have hjobs : ((s.push job).setWorker w (.notifying task)).jobs = s.jobs++[job] := rfl
    simp only [hjobs,List.length_append,List.length_singleton]
    omega
  case h_2 => exact h

theorem Covered.notifyFrom {s : Pool ι J R N} (h : Covered s) (w : Fin N)
    {woken : Option (Fin N)} (hc : s.CanWake woken) : Covered (s.notifyFrom w woken) := by
  unfold Pool.notifyFrom
  split
  case h_1 task hw =>
    have hc' : (s.setWorker w (.running task)).CanWake woken :=
      hc.setWorker (by simp [hw]) (by simp)
    have hsum := cover_setWorker s w (.running task)
    have hwake := cover_wakeOne hc'
    simp only [hw,place_notifying,place_running,weight] at hsum
    refine h.keep (by cases woken <;> rfl) (by cases woken <;> rfl)
      (fun v hv => blocked_setWorker (by simp) v (blocked_wakeOne v hv)) fun v hv => ?_
    cases woken with
    | none => exact (hc' v hv).elim
    | some u =>
        have hjobs : ((s.setWorker w (.running task)).wakeOne (some u)).jobs = s.jobs := rfl
        simp only [Option.isSome_some,if_true] at hwake
        rw [hjobs]
        omega
  case h_2 => exact h

variable [DecidableEq ι]

theorem Covered.emplace {s : Pool ι J R N} (h : Covered s) {t : ι} (ht : t ∉ s.notifying)
    (job : J) : Covered {s.push job with notifying := insert t s.notifying} := by
  refine h.keep rfl rfl (fun v hv => hv) fun v _ => ?_
  have hcard := Finset.card_insert_of_notMem ht
  simp only [Pool.push,List.length_append,List.length_singleton]
  change s.jobs.length+1+(countAt .awake s+(s.notifying.card+countAt .notifying s)) ≤
    s.jobs.length+(countAt .awake s+((insert t s.notifying).card+countAt .notifying s))
  omega

theorem Covered.notifyOne {s : Pool ι J R N} (h : Covered s) {t : ι} (ht : t ∈ s.notifying)
    {woken : Option (Fin N)} (hc : s.CanWake woken) :
    Covered {s.wakeOne woken with notifying := s.notifying.erase t} := by
  refine h.keep (by cases woken <;> rfl) (by cases woken <;> rfl)
    (fun v hv => blocked_wakeOne v hv) fun v hv => ?_
  cases woken with
  | none => exact (hc v hv).elim
  | some u =>
      have hcard := Finset.card_erase_add_one ht
      have hwake := cover_wakeOne hc
      have hnotifying : (s.wakeOne (some u)).notifying = s.notifying := rfl
      simp only [Option.isSome_some,if_true,cover,awake,pendingNotifies,hnotifying] at hwake
      simp only [cover,awake,pendingNotifies]
      change s.jobs.length+_ ≤ s.jobs.length+(countAt .awake (s.wakeOne (some u))+
        ((s.notifying.erase t).card+countAt .notifying (s.wakeOne (some u))))
      omega

theorem Covered.next {start : J → R} {s : Pool ι J R N} {a : Action ι J R N}
    (h : Covered s) (he : s.enabled a) : Covered (s.next start a) := by
  cases a with
  | emplace t job => exact h.emplace he job
  | notifyOne t woken => exact h.notifyOne he.1 he.2
  | look w => exact h.look he
  | wake w =>
      have hw : (s.workers w).place = .blocked := he
      exact h.setWorker (by simp) (by simp [hw,weight])
  | invoke w => exact h.invoke start w
  | advance w task =>
      have hw : (s.workers w).place = .running := he
      exact h.setWorker (by simp) (by simp [hw,weight])
  | emplaceFrom w job => exact h.pushFrom w job
  | notifyFrom w woken => exact h.notifyFrom w he.2
  | finish w outcome =>
      have hw : (s.workers w).place = .running := he
      exact h.setWorker (by cases outcome <;> simp [afterJob]) (by simp [hw,weight])
  | setStop => exact ⟨h.covered,fun _ => rfl,fun hd => by simp [Pool.next] at hd⟩
  | notifyAll =>
      have hd : s.destructor = .stopped := he
      refine ⟨?_,fun _ => h.stopped (by simp [hd]),fun _ w => unblock_ne_blocked _⟩
      rintro ⟨w,hw⟩
      exact (unblock_ne_blocked _ hw).elim
  | join =>
      exact ⟨h.covered,fun _ => h.stopped (by simp [he.1]),fun _ => h.woken (.inl he.1)⟩

theorem covered {G : Discipline (Pool ι J R N) (Action ι J R N)} {start : J → R}
    {s : Pool ι J R N} (h : (system N start).Reach G s) : Covered s := by
  apply h.invariant
  · rintro _ rfl
    exact covered_initial
  · rintro s a _ _ ih _ ⟨he,rfl⟩
    exact ih.next he

/-- While a worker is blocked every queued job is covered, and from the
destructor's `notify_all` on no worker is blocked. Neither needs the
submissions from outside to precede `m_stop`. -/
theorem pool_loses_no_wakeup (G : Discipline (Pool ι J R N) (Action ι J R N))
    (start : J → R) (s : Pool ι J R N) (h : (system N start).Reach G s) :
    ((∃ w, (s.workers w).place = .blocked) →
      s.jobs.length ≤ awake s+pendingNotifies s) ∧
    (s.destructor = .notified ∨ s.destructor = .joined →
      ∀ w, (s.workers w).place ≠ .blocked) :=
  ⟨(covered h).covered,(covered h).woken⟩

/-- A job is pushed while both workers sleep, and its notification is still to come. -/
theorem pool_loses_no_wakeup_pushed : ∃ s : Pool Unit ℕ Unit 2, s.jobs = [7] ∧
    (s.workers 0).place = .blocked ∧ s.jobs.length ≤ awake s+pendingNotifies s := by
  obtain ⟨s,hs,hp⟩ := reach_of_script (fun _ => ())
    ([.look 0,.look 1,.emplace () 7] : List (Action Unit ℕ Unit 2))
    (fun s => s.jobs = [7] ∧ (s.workers 0).place = .blocked) (by decide +kernel)
  obtain ⟨hjobs,hblocked⟩ := of_decide_eq_true hp
  exact ⟨s,hjobs,hblocked,(pool_loses_no_wakeup _ _ s hs).1 ⟨0,hblocked⟩⟩

end WebServer.ThreadPoolWakeup
