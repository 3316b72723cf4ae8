import WebServer.Descriptors

/-!
# Concurrent service refines sequential service

What the tasks on one connection do, read off the run of the whole server, is a
prefix of what a single-threaded loop does that calls the handler on this
connection again and again, with the same answers to `read`, to the callback and
to `EPOLL_CTL_MOD`. Tasks overlap only in their releases, which the loop makes
as well and which touch nothing but the reference count.
-/
namespace WebServer.SequentialService
open TransitionSystem Interaction Contexts Handler Server Lifecycle LifecycleInvariant
open LifecycleWork Projection Ownership Descriptors

variable {N : ℕ} {cfg : Config} {s : State N}

theorem silent_effect {on : Bool} (o : Op) (r : o.Res) (d : Session)
    (h : (semantics on).silent o = true) : (semantics on).effect o r d = d := by
  cases o <;> first | rfl | simp [semantics] at h

/-- A live connection is an interrupted run of the loop, inside a call while a
task is in charge and between two calls otherwise. -/
theorem serial_of_live {v : Conn} (h : Live cfg v) : ∃ c,
    (semantics cfg.onMessage).Serial (handleClientClient cfg.bufferSize)
      (Session.fresh cfg.bufferSize) (observations cfg v.history) c v.cell.ctx.toSession := by
  by_cases hz : v.active = 0
  · exact ⟨none,h.between hz⟩
  · obtain ⟨t,ht,hnone⟩ := Multiset.countP_pos.mp (Nat.pos_of_ne_zero hz)
    exact ⟨some t.code,h.during t ht hnone⟩

theorem observations_eq_nil {v : Conn} (h : Ok cfg v) (hl : ¬ Live cfg v) :
    observations cfg v.history = [] := by
  rcases history_cases h with hp | hl'
  · refine List.eq_nil_of_sublist_nil ((hp.sublist.filterMap _).trans ?_)
    cases hc : cfg.onConnection <;> simp [prologue,LifecycleInvariant.calls,hc]
  · exact (hl hl').elim

/-- The run of the server, projected on one connection, is a prefix of a run of the
sequential loop; and the session of a registered connection is where that prefix ends. -/
theorem service_is_sequential (s : State N) (h : (system N cfg).Reach CallbacksReturn s)
    (c : ConnId) : (∀ as, ∃ n, observations cfg (view s c).history <+:
      (semantics cfg.onMessage).loop (handleClientClient cfg.bufferSize) n
        (Session.fresh cfg.bufferSize)
        ((semantics cfg.onMessage).answers (observations cfg (view s c).history)++as)) ∧
    ((view s c).registered → (s.heap c).ctx.toSession =
      ((observations cfg (view s c).history).getLast?.map Observation.state).getD
        (Session.fresh cfg.bufferSize)) := by
  have hok := view_ok h c
  refine ⟨fun as => ?_,fun hc => ?_⟩
  · by_cases hl : Live cfg (view s c)
    · obtain ⟨code,hserial⟩ := serial_of_live hl
      exact hserial.prefix_loop as
    · rw [observations_eq_nil hok hl]
      exact ⟨0,List.nil_prefix⟩
  · obtain ⟨code,hserial⟩ := serial_of_live (live_of_registered hok hc)
    exact hserial.state_eq silent_effect

/-- A task that has just stored a fragment is in the middle of its call. -/
theorem service_is_sequential_reading : ∃ s : State 1, ∃ n,
    (observations .standard (view s 0).history).length = 3 ∧
    observations .standard (view s 0).history <+:
      (semantics true).loop (handleClientClient Contexts.bufferSize) n
        (Session.fresh Contexts.bufferSize)
        ((semantics true).answers (observations .standard (view s 0).history)) := by
  obtain ⟨s,hs,hp⟩ := reach_of_script (G := CallbacksReturn) (N := 1) .standard
    (acceptScript 5 true++dispatchScript 5 0++
      workScript 3 0 (reply (.data [71]) false .returned true))
    (fun s => (observations .standard (view s 0).history).length = 3) (by decide +kernel)
  obtain ⟨n,hn⟩ := (service_is_sequential s hs 0).1 []
  rw [List.append_nil] at hn
  exact ⟨s,n,of_decide_eq_true hp,hn⟩

end WebServer.SequentialService
