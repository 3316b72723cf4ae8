import WebServer.Completion

/-!
# The destruction of the server completes

`~HttpServerImpl` waits in `~ThreadPool` for every worker. No failure of a system call, no
callback that throws, no job that is still queued and no thread of `AcceptLoop` that goes
on dispatching or listening can make it wait for ever. From every reachable state of a
process that has not been ended, the steps of the server alone lead to the end of the
destructor, unless a task gets to `on_message_` when it is gone: what happens then is left
open.
-/
namespace WebServer.Destruction
open TransitionSystem Interaction Handler Server
open Projection Sockets Quiescence Completion Shutdown
open ThreadPool (Pool Worker Destructor)
open scoped BigOperators

variable {N : ℕ} {cfg : Config}

/-- Worker `w` is about to test or to call `on_message_`, which is destroyed. -/
def Strayed (s : Server.State N) (w : Fin N) : Prop :=
  s.teardown ≠ .alive ∧ (due s w = some .testOnMessage ∨ due s w = some .onMessage)

/-- The step uses what is destroyed: a callback, or anything once the workers are joined. -/
def Dangling (s : Server.State N) : Server.Action N → Prop
  | .work w _ => Strayed s w
  | .onConnection _ => s.teardown = .connectionDestroyed
  | _ => s.pool.destructor = .joined

/-- A step of the server alone, as long as it uses nothing that is destroyed. -/
def Tearing : Discipline (Sockets.State N) (Sockets.Action N)
  | s, .server a => Quiet s (.server a) ∧ ¬ Dangling s.server a
  | _, _ => False

/-- Such a step, away from the listening descriptor. -/
def Working : Discipline (Sockets.State N) (Sockets.Action N)
  | s, a => Tearing s a ∧ works a = true

theorem Tearing.quiet {s : Sockets.State N} {a : Sockets.Action N} (h : Tearing s a) :
    Quiet s a := by
  cases a with
  | server a => exact h.1
  | _ => exact h

section Progress
variable {s : Sockets.State N} {G : Discipline (Server.State N) (Server.Action N)}
variable (h : (network N cfg).Reach (Lift G) s) (haborted : s.server.aborted = false)
include h haborted

/-- A worker that has not left is not blocked for ever. -/
theorem step_of_unjoined {w : Fin N} (hd : s.server.pool.destructor = .notified)
    (hw : (s.server.pool.workers w).place ≠ .exited) (hstrayed : ¬ Strayed s.server w) :
    ∃ a t, Working s a ∧ (network N cfg).step s a t := by
  have hserver := reach_server h
  have hnotifying := ServerPool.not_notifying hserver w
  have hblocked := (ServerPool.pool_covered hserver).woken (.inl hd) w
  have hunjoined : s.server.pool.destructor ≠ .joined := by simp [hd]
  cases hx : s.server.pool.workers w with
  | awake =>
      exact exists_step (a := .look w) ⟨⟨⟨trivial,trivial⟩,hunjoined⟩,rfl⟩
        ⟨haborted,by simp [State.ready,Pool.enabled,hx]⟩ rfl rfl
  | blocked => simp [hx] at hblocked
  | holding job =>
      exact exists_step (a := .invoke w) ⟨⟨⟨trivial,trivial⟩,hunjoined⟩,rfl⟩
        ⟨haborted,by simp [State.ready,Pool.enabled,hx]⟩ rfl rfl
  | running t =>
      cases hcode : t.code with
      | ret outcome =>
          exact exists_step (a := .finish w) ⟨⟨⟨trivial,trivial⟩,hunjoined⟩,rfl⟩
            ⟨haborted,by simp [State.ready,State.canFinish,hx,hcode]⟩ rfl rfl
      | op o k =>
          obtain ⟨hcan,hanswers⟩ := exists_work h hx hcode (b := false) (by simp)
          exact ⟨.server (.work w (answersOf cfg s t false)),_,
            ⟨⟨⟨trivial,trivial⟩,hstrayed⟩,rfl⟩,⟨⟨haborted,hcan⟩,hanswers⟩,rfl⟩
  | notifying t => simp [hx] at hnotifying
  | exited => simp [hx] at hw

/-- The destroying thread goes on, or waits for a worker that does. -/
theorem step_of_destructor (hd : s.server.pool.destructor ≠ .joined)
    (hstrayed : ∀ w, ¬ Strayed s.server w) :
    ∃ a t, Working s a ∧ (network N cfg).step s a t := by
  cases hdestructor : s.server.pool.destructor with
  | idle =>
      cases hteardown : s.server.teardown with
      | alive =>
          exact exists_step (a := .destroyMessage) ⟨⟨⟨trivial,trivial⟩,hd⟩,rfl⟩
            ⟨haborted,hteardown⟩ rfl rfl
      | messageDestroyed =>
          exact exists_step (a := .destroyConnection) ⟨⟨⟨trivial,trivial⟩,hd⟩,rfl⟩
            ⟨haborted,hteardown⟩ rfl rfl
      | connectionDestroyed =>
          exact exists_step (a := .setStop) ⟨⟨⟨trivial,trivial⟩,hd⟩,rfl⟩
            ⟨haborted,hteardown,hdestructor⟩ rfl rfl
  | stopped =>
      exact exists_step (a := .notifyAll) ⟨⟨⟨trivial,trivial⟩,hd⟩,rfl⟩
        ⟨haborted,hdestructor⟩ rfl rfl
  | notified =>
      by_cases hw : ∃ w, (s.server.pool.workers w).place ≠ .exited
      · obtain ⟨w,hw⟩ := hw
        exact step_of_unjoined h haborted hdestructor hw (hstrayed w)
      · have hexited : ∀ w, (s.server.pool.workers w).place = .exited := by simpa using hw
        exact exists_step (a := .join) ⟨⟨⟨trivial,trivial⟩,hd⟩,rfl⟩
          ⟨haborted,hdestructor,hexited⟩ rfl rfl
  | joined => exact (hd hdestructor).elim

end Progress

/-- Nothing is left to the server alone but the listening descriptor. -/
def Over (cfg : Config) (s : Sockets.State N) : Prop :=
  ∀ a t, Working s a → ¬ (network N cfg).step s a t

/-- What the server has come to: a task waits for a callback that is gone, or the
destructor has joined every worker, and no task is cut off. -/
def Settled (s : Server.State N) : Prop :=
  (∃ w, Strayed s w) ∨ s.pool.destructor = .joined ∧ ∀ c, (view s c).running = 0

/-- Whatever the callbacks, `read` and `epoll_ctl` answer and wherever the threads stand:
the steps of the server alone come to an end but for those that concern the listening
descriptor, and at that end the destructor has joined every worker, unless an exception of
the connection callback has ended the process or a task has come upon `on_message_` when
it was gone. -/
theorem destruction_completes (s : Sockets.State N) (h : (network N cfg).Reach Free s) :
    ∃ n, ∀ as t, (network N cfg).Run Tearing s as t → as.countP works ≤ n ∧
      (Over cfg t → t.server.aborted = false → Settled t.server) := by
  have hfree := reach_free h
  obtain ⟨n,hn⟩ := exists_bound hfree
  refine ⟨n,fun as t hrun => ⟨hn as t (hrun.mono fun _ _ => Tearing.quiet),
    fun hover haborted => ?_⟩⟩
  have hreach : (network N cfg).Reach (Lift Free) t := by
    refine (hrun.mono fun s a _ => ?_).reach hfree
    cases a <;> trivial
  rw [Settled,or_iff_not_imp_left,not_exists]
  intro hstrayed
  have hjoined : t.server.pool.destructor = .joined := by
    by_contra hd
    obtain ⟨a,u,ha,hu⟩ := step_of_destructor hreach haborted hd hstrayed
    exact hover a u ha hu
  refine ⟨hjoined,fun c => ?_⟩
  change ∑ w, tasksOn c (t.server.pool.workers w) = 0
  refine Finset.sum_eq_zero fun w _ => ?_
  have hexited := ServerPool.exited_of_joined (reach_server hreach) hjoined w
  exact (carries_nothing c (.inr (.inr hexited))).2

/-- The server is destroyed while a task is reading. -/
theorem destruction_completes_reading : ∃ s : Sockets.State 1,
    (s.server.pool.workers 0).place = .running ∧ s.server.pool.stop = true ∧
    ∃ n, ∀ as t, (network 1 .standard).Run Tearing s as t →
      as.countP works ≤ n ∧
        (Over .standard t → t.server.aborted = false → Settled t.server) := by
  obtain ⟨s,hs,hp⟩ := Sockets.reach_of_script (K := Free) .standard
    (earlyScript++[.server .destroyMessage,.server .destroyConnection,.server .setStop])
    (fun s => (s.server.pool.workers 0).place = .running ∧ s.server.pool.stop = true)
    (by decide +kernel)
  obtain ⟨hplace,hstop⟩ := of_decide_eq_true hp
  exact ⟨s,hplace,hstop,destruction_completes s hs⟩

end WebServer.Destruction
