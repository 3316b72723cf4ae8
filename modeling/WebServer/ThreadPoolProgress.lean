import WebServer.ThreadPoolDrain
import WebServer.ThreadPoolWakeup

/-!
# The pool comes to rest

Once nobody submits anything, the pool works off what it has been given. Every step then
takes from a potential: a job that waits counts for more than a worker that looks for it,
a pending notification for more than the worker which it wakes. Where no step is left
every job was invoked, and the workers sleep, or have left and were joined.
-/
namespace WebServer.ThreadPoolProgress
open TransitionSystem ThreadPool ThreadPoolDrain ThreadPoolWakeup
open scoped BigOperators

variable {ι J R : Type} {N : ℕ} {start : J → R} {μ : R → ℕ}

/-! ## What is still to be done -/

/-- `μ` bounds the steps which a running job still takes. -/
def load (start : J → R) (μ : R → ℕ) : Worker J R → ℕ
  | .awake => 1
  | .holding job => μ (start job)+3
  | .running task => μ task+2
  | .notifying task => μ task+4
  | .blocked | .exited => 0

/-- `notify_all` may wake every worker. -/
def remaining (N : ℕ) : Destructor → ℕ
  | .stopped => N+2
  | .notified => 1
  | .idle | .joined => 0

def queued (start : J → R) (μ : R → ℕ) : List J → ℕ
  | [] => 0
  | job::jobs => μ (start job)+3+queued start μ jobs

def potential (start : J → R) (μ : R → ℕ) (s : Pool ι J R N) : ℕ :=
  ∑ w, load start μ (s.workers w)+queued start μ s.jobs+2*s.notifying.card+
    remaining N s.destructor

section Potential
variable {s : Pool ι J R N}

theorem potential_setWorker (start : J → R) (μ : R → ℕ) (s : Pool ι J R N) (w : Fin N)
    (x : Worker J R) :
    potential start μ (s.setWorker w x)+load start μ (s.workers w) =
      potential start μ s+load start μ x := by
  obtain ⟨rest,h₁,h₂⟩ := sum_update_split (load start μ) s.workers w
  have hx := h₂ x
  simp only [potential,Pool.setWorker]
  omega

/-- A worker that was woken is awake. -/
theorem potential_wakeOne (start : J → R) (μ : R → ℕ) {woken : Option (Fin N)}
    (hc : s.CanWake woken) :
    potential start μ (s.wakeOne woken) ≤ potential start μ s+1 := by
  cases woken with
  | none => exact Nat.le_succ _
  | some w =>
      have hsum := potential_setWorker start μ s w .awake
      change potential start μ (s.setWorker w .awake) ≤ _
      simp only [load] at hsum
      omega

theorem potential_look {w : Fin N} (hw : (s.workers w).place = .awake) :
    potential start μ (s.look w) < potential start μ s := by
  have hawake : s.workers w = .awake := by
    cases hx : s.workers w <;> simp [hx] at hw
    rfl
  unfold Pool.look
  split
  case h_1 hjobs =>
    have hsum := potential_setWorker start μ s w
      (if s.stop then .exited else .blocked)
    have hleft : load start μ (if s.stop then .exited else .blocked : Worker J R) = 0 := by
      split <;> rfl
    rw [hleft,hawake] at hsum
    simp only [load] at hsum
    omega
  case h_2 job jobs hjobs =>
    have hsum := potential_setWorker start μ s w (.holding job)
    rw [hawake] at hsum
    simp only [potential,Pool.setWorker,hjobs,queued,load] at hsum ⊢
    omega

theorem potential_invoke {w : Fin N} (hw : (s.workers w).place = .holding) :
    potential start μ (s.invoke start w) < potential start μ s := by
  unfold Pool.invoke
  split
  case h_1 job hjob =>
    have hsum := potential_setWorker start μ s w (.running (start job))
    rw [hjob] at hsum
    change potential start μ (s.setWorker w (.running (start job))) < _
    simp only [load] at hsum
    omega
  case h_2 hnone => cases hx : s.workers w <;> simp_all

theorem potential_notifyFrom {w : Fin N} {woken : Option (Fin N)}
    (hw : (s.workers w).place = .notifying) (hc : s.CanWake woken) :
    potential start μ (s.notifyFrom w woken) < potential start μ s := by
  unfold Pool.notifyFrom
  split
  case h_1 task htask =>
    have hsum := potential_setWorker start μ s w (.running task)
    have hwake := potential_wakeOne start μ
      (hc.setWorker (w := w) (x := .running task) (by simp [hw]) (by simp))
    rw [htask] at hsum
    simp only [load] at hsum
    omega
  case h_2 hnone => cases hx : s.workers w <;> simp_all

theorem potential_notifyAll (hd : s.destructor = .stopped) :
    potential start μ {s with
      workers := fun w => (s.workers w).unblock
      destructor := .notified} < potential start μ s := by
  have hone : ∀ x : Worker J R, load start μ x.unblock ≤ load start μ x+1 := by
    intro x
    cases x <;> simp [Worker.unblock,load]
  have hsum := Finset.sum_le_sum fun w (_ : w ∈ Finset.univ) => hone (s.workers w)
  rw [Finset.sum_add_distrib,Finset.sum_const,Finset.card_univ,Fintype.card_fin,
    Nat.nsmul_eq_mul,Nat.mul_one] at hsum
  simp only [potential,hd,remaining]
  omega

end Potential

/-- A notification can always be sent. -/
theorem exists_canWake (s : Pool ι J R N) : ∃ woken, s.CanWake woken := by
  by_cases h : ∃ w, (s.workers w).place = .blocked
  · exact ⟨some h.choose,h.choose_spec⟩
  · exact ⟨none,fun w hw => h ⟨w,hw⟩⟩

section Runs
variable [DecidableEq ι] {s t : Pool ι J R N} {a : Action ι J R N}

/-- Nobody submits, wakes up spuriously or destroys the pool, and a running job gets
closer to its end. -/
def Quiet (μ : R → ℕ) : Discipline (Pool ι J R N) (Action ι J R N)
  | _, .emplace _ _ => False
  | _, .emplaceFrom _ _ => False
  | _, .wake _ => False
  | _, .setStop => False
  | s, .advance w task => ∀ u, s.workers w = .running u → μ task < μ u
  | _, _ => True

theorem potential_next (hg : Quiet μ s a) (he : s.enabled a) :
    potential start μ (s.next start a) < potential start μ s := by
  cases a with
  | emplace t job => exact hg.elim
  | notifyOne t woken =>
      have hcard := Finset.card_erase_add_one he.1
      have hwake := potential_wakeOne start μ he.2
      have hnotifying : (s.wakeOne woken).notifying = s.notifying := by cases woken <;> rfl
      change potential start μ {s.wakeOne woken with notifying := s.notifying.erase t} < _
      simp only [potential,hnotifying] at hwake ⊢
      omega
  | look w => exact potential_look he
  | wake w => exact hg.elim
  | invoke w => exact potential_invoke he
  | advance w task =>
      have hw : (s.workers w).place = .running := he
      cases hx : s.workers w with
      | running u =>
          have hless : μ task < μ u := hg u hx
          have hsum := potential_setWorker start μ s w (.running task)
          rw [hx] at hsum
          change potential start μ (s.setWorker w (.running task)) < _
          simp only [load] at hsum
          omega
      | _ => simp [hx] at hw
  | emplaceFrom w job => exact hg.elim
  | notifyFrom w woken => exact potential_notifyFrom he.1 he.2
  | finish w outcome =>
      have hw : (s.workers w).place = .running := he
      have hafter : afterJob outcome = (.awake : Worker J R) := by cases outcome <;> rfl
      cases hx : s.workers w with
      | running u =>
          have hsum := potential_setWorker start μ s w .awake
          rw [hx] at hsum
          change potential start μ (s.setWorker w (afterJob outcome)) < _
          rw [hafter]
          simp only [load] at hsum
          omega
      | _ => simp [hx] at hw
  | setStop => exact hg.elim
  | notifyAll => exact potential_notifyAll he
  | join =>
      have hd : s.destructor = .notified := he.1
      simp only [Pool.next,potential,hd,remaining]
      omega

theorem exists_bound (start : J → R) (s : Pool ι J R N) :
    ∃ n, ∀ as t, (system N start).Run (Quiet μ) s as t → as.length ≤ n := by
  refine ⟨potential start μ s,fun as t hrun => ?_⟩
  have hbound := hrun.length_le (μ := potential start μ) (I := fun _ => True)
    (q := fun _ => false) (m := 0) (fun _ _ _ _ _ _ => trivial) ?_ trivial
  · rwa [Nat.zero_mul] at hbound
  · rintro s a _ - hg ⟨he,rfl⟩
    exact potential_next hg he

/-! ## The end of a run -/

/-- Only the destructor sets `m_stop`. -/
theorem stop_of_next (he : s.enabled a) (h : s.stop = true ↔ s.destructor ≠ .idle) :
    (s.next start a).stop = true ↔ (s.next start a).destructor ≠ .idle := by
  cases a with
  | notifyOne t woken => cases woken <;> exact h
  | look w =>
      simp only [Pool.next,Pool.look]
      split <;> exact h
  | invoke w =>
      simp only [Pool.next,Pool.invoke]
      split <;> exact h
  | emplaceFrom w job =>
      simp only [Pool.next,Pool.pushFrom]
      split <;> exact h
  | notifyFrom w woken =>
      simp only [Pool.next,Pool.notifyFrom]
      split
      · cases woken <;> exact h
      · exact h
  | setStop => simp [Pool.next]
  | notifyAll =>
      have hd : s.destructor = .stopped := he
      simpa [Pool.next,hd] using h
  | join =>
      have hd : s.destructor = .notified := he.1
      simpa [Pool.next,hd] using h
  | _ => exact h

theorem stop_iff {G : Discipline (Pool ι J R N) (Action ι J R N)}
    (h : (system N start).Reach G s) : s.stop = true ↔ s.destructor ≠ .idle := by
  apply h.invariant
  · rintro _ rfl
    simp [Pool.initial]
  · rintro s a _ - ih - ⟨he,rfl⟩
    exact stop_of_next he ih

/-- A quiet step submits nothing, and does not begin the destruction. -/
theorem quiet_next (start : J → R) (hg : Quiet μ s a) (he : s.enabled a) :
    (s.next start a).submitted = s.submitted ∧
      ((s.next start a).destructor = .idle ↔ s.destructor = .idle) := by
  cases a with
  | emplace t job => exact hg.elim
  | emplaceFrom w job => exact hg.elim
  | setStop => exact hg.elim
  | notifyOne t woken => cases woken <;> exact ⟨rfl,Iff.rfl⟩
  | look w =>
      simp only [Pool.next,Pool.look]
      split <;> exact ⟨rfl,Iff.rfl⟩
  | invoke w =>
      simp only [Pool.next,Pool.invoke]
      split <;> exact ⟨rfl,Iff.rfl⟩
  | notifyFrom w woken =>
      simp only [Pool.next,Pool.notifyFrom]
      split
      · cases woken <;> exact ⟨rfl,Iff.rfl⟩
      · exact ⟨rfl,Iff.rfl⟩
  | notifyAll =>
      have hd : s.destructor = .stopped := he
      exact ⟨rfl,by simp [Pool.next,hd]⟩
  | join =>
      have hd : s.destructor = .notified := he.1
      exact ⟨rfl,by simp [Pool.next,hd]⟩
  | _ => exact ⟨rfl,Iff.rfl⟩

theorem quiet_run {as : List (Action ι J R N)} (hrun : (system N start).Run (Quiet μ) s as t) :
    t.submitted = s.submitted ∧ (t.destructor = .idle ↔ s.destructor = .idle) := by
  induction hrun with
  | done s => exact ⟨rfl,Iff.rfl⟩
  | step hg hst _ ih =>
      obtain ⟨he,rfl⟩ := hst
      obtain ⟨hsubmitted,hidle⟩ := quiet_next start hg he
      exact ⟨ih.1.trans hsubmitted,ih.2.trans hidle⟩

/-- No quiet step is left. -/
def Settled (start : J → R) (μ : R → ℕ) (s : Pool ι J R N) : Prop :=
  ∀ a t, Quiet μ s a → ¬ (system N start).step s a t

section Settled
variable (h : Settled start μ s)
include h

/-- A worker that is left sleeps or has gone: a running job could return. -/
theorem Settled.workers (w : Fin N) :
    (s.workers w).place = .blocked ∨ (s.workers w).place = .exited := by
  cases hx : s.workers w with
  | awake => exact (h (.look w) _ trivial ⟨by simp [Pool.enabled,hx],rfl⟩).elim
  | blocked => exact .inl rfl
  | holding job => exact (h (.invoke w) _ trivial ⟨by simp [Pool.enabled,hx],rfl⟩).elim
  | running task =>
      exact (h (.finish w .returned) _ trivial ⟨by simp [Pool.enabled,hx],rfl⟩).elim
  | notifying task =>
      obtain ⟨woken,hc⟩ := exists_canWake s
      exact (h (.notifyFrom w woken) _ trivial ⟨⟨by simp [hx],hc⟩,rfl⟩).elim
  | exited => exact .inr rfl

theorem Settled.notifying : s.notifying = ∅ := by
  refine Finset.eq_empty_of_forall_notMem fun t ht => ?_
  obtain ⟨woken,hc⟩ := exists_canWake s
  exact h (.notifyOne t woken) _ trivial ⟨⟨ht,hc⟩,rfl⟩

theorem Settled.invoked (hN : 0 < N) (hr : (system N start).Reach OutsideBeforeStop s) :
    s.jobs = [] ∧ s.invoked.Perm s.submitted := by
  have haccounted := accounted hN hr
  have hjobs : s.jobs = [] := by
    by_cases hblocked : ∃ w, (s.workers w).place = .blocked
    · have hcover := (covered hr).covered hblocked
      have hnone : ∀ p, p = .awake ∨ p = .notifying → countAt p s = 0 := by
        rintro p hp
        refine Finset.sum_eq_zero fun w _ => if_neg ?_
        rcases h.workers w with hw | hw <;> rcases hp with rfl | rfl <;> simp [hw]
      simp only [cover,awake,pendingNotifies,h.notifying,Finset.card_empty,
        hnone _ (.inl rfl),hnone _ (.inr rfl)] at hcover
      exact List.length_eq_zero_iff.mp (Nat.le_zero.mp hcover)
    · exact haccounted.drained fun w => (h.workers w).resolve_left fun hw => hblocked ⟨w,hw⟩
  have hheld : ∑ w, (s.workers w).held = 0 :=
    Finset.sum_eq_zero fun w _ => held_eq_zero (by rcases h.workers w with hw | hw <;> simp [hw])
  refine ⟨hjobs,?_⟩
  have hstarted := haccounted.started
  rw [hheld,add_zero,Multiset.coe_eq_coe] at hstarted
  rw [haccounted.fifo,hjobs,List.append_nil]
  exact hstarted.symm

/-- The workers sleep as long as the pool is not destroyed. -/
theorem Settled.ends (hr : (system N start).Reach OutsideBeforeStop s) (hN : 0 < N) :
    (s.destructor = .idle → ∀ w, (s.workers w).place = .blocked) ∧
    (s.destructor ≠ .idle → s.destructor = .joined ∧ ∀ w, (s.workers w).place = .exited) := by
  constructor
  · intro hidle w
    refine (h.workers w).resolve_right fun hw => ?_
    exact (stop_iff hr).mp ((accounted hN hr).exits w hw) hidle
  · intro hd
    have hexited : s.destructor ≠ .stopped → ∀ w, (s.workers w).place = .exited := by
      intro hstopped w
      refine (h.workers w).resolve_left ((covered hr).woken ?_ w)
      cases hx : s.destructor <;> simp_all
    cases hx : s.destructor with
    | idle => exact (hd hx).elim
    | stopped => exact (h .notifyAll _ trivial ⟨hx,rfl⟩).elim
    | notified =>
        exact (h .join _ trivial ⟨⟨hx,hexited (by simp [hx])⟩,rfl⟩).elim
    | joined => exact ⟨rfl,hexited (by simp [hx])⟩

end Settled

/-- Once nobody submits any more and the running jobs come to an end, the pool settles
within a bound, however its workers interleave and whatever the jobs throw: every job
ever submitted was then invoked exactly once, and the workers sleep, or all have left and
the destructor has joined them if it has begun. -/
theorem pool_settles (hN : 0 < N) (start : J → R) (μ : R → ℕ) (s : Pool ι J R N)
    (h : (system N start).Reach OutsideBeforeStop s) :
    ∃ n, ∀ as t, (system N start).Run (Quiet μ) s as t → as.length ≤ n ∧
      (Settled start μ t → t.jobs = [] ∧ t.invoked.Perm s.submitted ∧
        (s.destructor = .idle → ∀ w, (t.workers w).place = .blocked) ∧
        (s.destructor ≠ .idle →
          t.destructor = .joined ∧ ∀ w, (t.workers w).place = .exited)) := by
  obtain ⟨n,hn⟩ := exists_bound (μ := μ) start s
  refine ⟨n,fun as t hrun => ⟨hn as t hrun,fun hsettled => ?_⟩⟩
  obtain ⟨hsubmitted,hidle⟩ := quiet_run hrun
  have hreach : (system N start).Reach OutsideBeforeStop t := by
    refine (hrun.mono fun s a hg => ?_).reach h
    cases a with
    | emplace t job => exact hg.elim
    | _ => trivial
  obtain ⟨hjobs,hinvoked⟩ := hsettled.invoked hN hreach
  obtain ⟨hsleep,hjoined⟩ := hsettled.ends hreach hN
  refine ⟨hjobs,hsubmitted ▸ hinvoked,fun hd => hsleep (hidle.mpr hd),fun hd => hjoined ?_⟩
  exact fun ht => hd (hidle.mp ht)

end Runs

/-- The destructor has begun while a running job has submitted another one, and its
notification is still to come. -/
theorem pool_settles_stopped : ∃ s : Pool Unit ℕ Unit 2, s.submitted = [7,8] ∧
    s.destructor = .stopped ∧ (s.workers 1).place = .blocked ∧
    ∃ n, ∀ as t, (system 2 fun _ => ()).Run (Quiet fun _ => 0) s as t → as.length ≤ n ∧
      (Settled (fun _ => ()) (fun _ => 0) t → t.jobs = [] ∧ t.invoked.Perm [7,8] ∧
        t.destructor = .joined ∧ ∀ w, (t.workers w).place = .exited) := by
  obtain ⟨s,hs,hp⟩ := reach_of_script (fun _ => ())
    ([.look 1,.look 0,.emplace () 7,.notifyOne () (some 0),.look 0,.invoke 0,.emplaceFrom 0 8,
      .setStop] : List (Action Unit ℕ Unit 2))
    (fun s => s.submitted = [7,8] ∧ s.destructor = .stopped ∧ (s.workers 1).place = .blocked)
    (by decide +kernel)
  obtain ⟨hsubmitted,hd,hblocked⟩ := of_decide_eq_true hp
  obtain ⟨n,hn⟩ := pool_settles Nat.two_pos (fun _ => ()) (fun _ => 0) s hs
  refine ⟨s,hsubmitted,hd,hblocked,n,fun as t hrun => ⟨(hn as t hrun).1,fun ht => ?_⟩⟩
  obtain ⟨hjobs,hinvoked,-,hjoined⟩ := (hn as t hrun).2 ht
  exact ⟨hjobs,hsubmitted ▸ hinvoked,hjoined (by simp [hd])⟩

end WebServer.ThreadPoolProgress
