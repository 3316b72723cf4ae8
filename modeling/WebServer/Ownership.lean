import WebServer.Projection

/-!
# Every connection has one owner

A registered connection has one token, wherever the threads stand: it is armed
in epoll, or its event is being dispatched, or one job for it is queued, or one
task is in charge of it, or its descriptor is closed. A task that has passed the
token on may overlap its successor, but touches nothing but the reference count.
-/
namespace WebServer.Ownership
open TransitionSystem Handler Server Lifecycle LifecycleInvariant LifecycleWork Projection
open ThreadPool (Outcome)
open scoped BigOperators

variable {N : ℕ} {cfg : Config} {s : State N}

/-- The next operation of the task uses the connection or its context, and not
only the reference count. -/
def Touches (t : Task) : Prop := ∃ o k, t.code = .op o k ∧ o ≠ .release

theorem inCharge_sum {ι : Type} (f : ι → Multiset Task) (I : Finset ι) :
    inCharge (∑ i ∈ I, f i) = ∑ i ∈ I, inCharge (f i) :=
  map_sum (Multiset.countPAddMonoidHom fun t : Task => t.handed = none) f I

theorem live_of_reach {G : Discipline (State N) (Action N)} (h : (system N cfg).Reach G s)
    {c : ConnId} (hc : (view s c).registered) : Live cfg (view s c) :=
  live_of_registered (view_ok h c) hc

theorem abandoned_eq_zero {G : Discipline (State N) (Action N)}
    (hG : ∀ s a, G s a → MessageReturns s a) (h : (system N cfg).Reach G s) (c : ConnId) :
    (view s c).abandoned = 0 := (calm (view_returns hG h c)).2

/-- A task that touches its connection is in charge of it. -/
theorem inCharge_of_touches {G : Discipline (State N) (Action N)}
    (h : (system N cfg).Reach G s) {w : Fin N} {t : Task}
    (hw : s.pool.workers w = .running t) (ht : Touches t) :
    Live cfg (view s t.conn) ∧ t.handed = none := by
  obtain ⟨o,k,hcode,ho⟩ := ht
  obtain ⟨rest,hrun,-⟩ := running_cons hw
  have hl := live_of_mem (view_ok h t.conn) (hrun ▸ Multiset.mem_cons_self t rest)
  exact ⟨hl,(inCharge_of_op hl hrun hcode ho).1⟩

/-- Two workers never touch one connection at the same time. -/
theorem touches_exclusive {G : Discipline (State N) (Action N)}
    (h : (system N cfg).Reach G s) {v w : Fin N} {t u : Task}
    (hv : s.pool.workers v = .running t) (hw : s.pool.workers w = .running u)
    (hconn : t.conn = u.conn) (ht : Touches t) (hu : Touches u) : v = w := by
  by_contra hne
  obtain ⟨hl,hnt⟩ := inCharge_of_touches h hv ht
  obtain ⟨-,hnu⟩ := inCharge_of_touches h hw hu
  have hpair : ∑ i ∈ ({v,w} : Finset (Fin N)), inCharge (tasksOn t.conn (s.pool.workers i)) ≤
      ∑ i, inCharge (tasksOn t.conn (s.pool.workers i)) :=
    Finset.sum_le_sum_of_subset (Finset.subset_univ _)
  rw [Finset.sum_pair hne,hv,hw,← inCharge_sum] at hpair
  have hone : ∀ x : Task, x.handed = none → inCharge {x} = 1 := fun x hx => by
    rw [← Multiset.cons_zero,inCharge_cons,if_pos hx]
    rfl
  simp only [tasksOn_running,if_true,← hconn,hone t hnt,hone u hnu] at hpair
  have hactive : 2 ≤ (view s t.conn).active := hpair
  have htoken := hl.token
  simp only [Conn.tokens] at htoken
  omega

/-- A registered connection is in exactly one of five situations, and at most
one task touches it. -/
theorem connection_has_one_owner (s : State N) (h : (system N cfg).Reach MessageReturns s)
    (c : ConnId) (hc : (view s c).registered) :
    (view s c).armed+((view s c).delivered+(view s c).submitting)+(view s c).queued+
      ((view s c).held+(view s c).active)+(view s c).shut = 1 ∧
    ∀ v w t u, s.pool.workers v = .running t → s.pool.workers w = .running u →
      t.conn = c → u.conn = c → Touches t → Touches u → v = w := by
  have htoken := (live_of_reach h hc).token
  rw [abandoned_eq_zero (fun _ _ => id) h c,add_zero] at htoken
  refine ⟨htoken,fun v w t u hv hw ht hu => touches_exclusive h hv hw ?_⟩
  rw [ht,hu]

theorem connection_has_one_owner_dispatched : ∃ s : State 1, (view s 0).registered ∧
    (view s 0).armed+((view s 0).delivered+(view s 0).submitting)+(view s 0).queued+
      ((view s 0).held+(view s 0).active)+(view s 0).shut = 1 := by
  obtain ⟨s,hs,hp⟩ := reach_of_script (G := CallbacksReturn) (N := 1) .standard
    (acceptScript 5 true++dispatchScript 5 0)
    (fun s => (view s 0).history.any registers) (by decide +kernel)
  exact ⟨s,registered_of_any hp,(connection_has_one_owner s
    (hs.mono fun _ _ => CallbacksReturn.message) 0 (registered_of_any hp)).1⟩

end WebServer.Ownership
