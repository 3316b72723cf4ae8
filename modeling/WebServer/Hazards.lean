import WebServer.Shutdown

/-!
# Work found at the wrong moment

The destruction of the server is safe in the runs in which nobody finds work at the wrong
moment. Here the converse: whoever does find some can be led into the use of a callback
that is gone, or into a submission to a pool that is stopping, by the choice of the
schedule alone. A task that has recognised a request goes on to `on_message_`, a connection
that has been accepted to `on_connection_`, and an event to the queue.
-/
namespace WebServer.Hazards
open TransitionSystem RequestParsing Contexts Interaction Handler Server ServerPool Shutdown
open ThreadPool (Outcome Pool Worker)

variable {N : ℕ} {cfg : Config} {s : State N} {c : ConnId}

/-- The run can go on to an unsafe step. -/
def Strikes (cfg : Config) (s : State N) : Prop :=
  (system N cfg).Leads (fun t a => ¬ Safe cfg t a) s

theorem Strikes.now {a : Action N} (he : s.enabled cfg a) (ha : ¬ Safe cfg s a) :
    Strikes cfg s := System.Leads.now ⟨he,rfl⟩ ha

theorem Strikes.later {a : Action N} (he : s.enabled cfg a) (h : Strikes cfg (s.next cfg a)) :
    Strikes cfg s := System.Leads.later ⟨he,rfl⟩ h

/-! ## A task before `on_message_` -/

section Message
variable {w : Fin N} {u : Task} (haborted : s.aborted = false) (hgone : s.teardown ≠ .alive)
variable (hset : cfg.onMessage = true) (hw : s.pool.workers w = .running u)
include haborted hgone hw

end Message

/-! ## `AcceptLoop` before `on_connection_` -/

theorem strikes_of_onConnection (haborted : s.aborted = false) (hset : cfg.onConnection = true)
    (hgone : s.teardown = .connectionDestroyed) (hpos : s.loop.pos = .onConnection) :
    Strikes cfg s :=
  .now (a := .onConnection .returned) ⟨haborted,hpos,fun _ => rfl⟩
    fun hsafe => hsafe hset hgone

theorem strikes_of_submit (haborted : s.aborted = false) (hstop : s.pool.stop = true)
    (hfree : () ∉ s.pool.notifying) (hpos : s.loop.pos = .submit) : Strikes cfg s :=
  .now (a := .submit) ⟨haborted,hpos,hfree⟩ (by simp [Safe,hstop])

/-- The clients that wait in front of the event need not be accepted. -/
theorem strikes_of_event {batch : List Tag} (haborted : s.aborted = false)
    (hstop : s.pool.stop = true) (hfree : () ∉ s.pool.notifying) (hpos : s.loop.pos = .fetch)
    (hb : s.loop.batch = batch) (hc : .ctx c ∈ batch) : Strikes cfg s := by
  induction batch generalizing s with
  | nil => cases hc
  | cons tag batch ih =>
      cases tag with
      | ctx d =>
          refine .later (a := .addRef) ⟨haborted,hpos,d,by simp [hb]⟩ ?_
          simp only [State.next,State.addRef,hb]
          exact strikes_of_submit haborted hstop hfree rfl
      | listen =>
          refine .later (a := .accept none) ⟨haborted,hpos,by simp [hb],by simp⟩ ?_
          exact ih haborted hstop hfree hpos (by simp [State.next,State.accept,hb])
            (by simpa using hc)

/-- The pool is stopping, and the event of a connection waits to be dispatched. -/
structure Stopping (s : State N) (c : ConnId) : Prop where
  aborted : s.aborted = false
  stop : s.pool.stop = true
  owes : () ∈ s.pool.notifying ↔ s.loop.pos = .notify
  event : .ctx c ∈ s.loop.batch

namespace Stopping
variable (h : Stopping s c)
include h

theorem free (hpos : s.loop.pos ≠ .notify) : () ∉ s.pool.notifying :=
  fun hmem => hpos (h.owes.mp hmem)

theorem fetch (hpos : s.loop.pos = .fetch) : Strikes cfg s :=
  strikes_of_event h.aborted h.stop (h.free (by simp [hpos])) hpos rfl h.event

/-- `AcceptLoop` goes on with the connection it stands with. -/
theorem goes {a : Action N} {p : Position} (he : s.enabled cfg a)
    (hpos : s.loop.pos ≠ .notify) (hp : p ≠ .notify)
    (haborted : (s.next cfg a).aborted = s.aborted) (hpool : (s.next cfg a).pool = s.pool)
    (hloop : (s.next cfg a).loop = {s.loop with pos := p})
    (hrest : Stopping (s.next cfg a) c → Strikes cfg (s.next cfg a)) : Strikes cfg s := by
  refine .later he (hrest ⟨haborted.trans h.aborted,hpool ▸ h.stop,?_,?_⟩)
  · rw [hpool,hloop]
    exact ⟨fun hmem => (hpos (h.owes.mp hmem)).elim,fun hx => (hp hx).elim⟩
  · rw [hloop]
    exact h.event

theorem close (hpos : s.loop.pos = .close) : Strikes cfg s :=
  h.goes (a := .close) (p := .fetch) ⟨h.aborted,hpos⟩ (by simp [hpos]) (by decide) rfl rfl rfl
    fun h => h.fetch rfl

theorem delete (hpos : s.loop.pos = .delete) : Strikes cfg s :=
  h.goes (a := .delete) (p := .close) ⟨h.aborted,hpos⟩ (by simp [hpos]) (by decide) rfl rfl rfl
    fun h => h.close rfl

theorem add (hpos : s.loop.pos = .add) : Strikes cfg s :=
  h.goes (a := .add false) (p := .delete) ⟨h.aborted,hpos,by simp⟩ (by simp [hpos]) (by decide)
    rfl rfl rfl fun h => h.delete rfl

theorem create (hpos : s.loop.pos = .create) : Strikes cfg s :=
  h.goes (a := .create) (p := .add) ⟨h.aborted,hpos⟩ (by simp [hpos]) (by decide) rfl rfl rfl
    fun h => h.add rfl

/-- `on_connection_` is gone, or holds no callback. -/
theorem onConnection (hgone : s.teardown = .connectionDestroyed)
    (hpos : s.loop.pos = .onConnection) : Strikes cfg s := by
  cases hset : cfg.onConnection with
  | true => exact strikes_of_onConnection h.aborted hset hgone hpos
  | false =>
      have hnext : s.next cfg (.onConnection .returned) = s.goto .create := by
        simp [State.next,State.callConnection,hset]
      exact h.goes (a := .onConnection .returned) (p := .create) ⟨h.aborted,hpos,fun _ => rfl⟩
        (by simp [hpos]) (by decide) (by rw [hnext]; rfl) (by rw [hnext]; rfl)
        (by rw [hnext]; rfl) fun h => h.create (by rw [hnext]; rfl)

theorem setNonblocking (hgone : s.teardown = .connectionDestroyed)
    (hpos : s.loop.pos = .setNonblocking) : Strikes cfg s :=
  h.goes (a := .setNonblocking) (p := .onConnection) ⟨h.aborted,hpos⟩ (by simp [hpos])
    (by decide) rfl rfl rfl fun h => h.onConnection hgone rfl

theorem notify (hpos : s.loop.pos = .notify) : Strikes cfg s := by
  have hgoes : ∀ woken, s.pool.CanWake woken → Strikes cfg s := by
    intro woken hwake
    refine .later (a := .notify woken) ⟨h.aborted,hpos,h.owes.mpr hpos,hwake⟩ ?_
    refine Stopping.fetch (c := c) ⟨h.aborted,?_,?_,h.event⟩ rfl
    · cases woken <;> exact h.stop
    · simp [State.next,State.goto,State.setPool,Pool.next]
  by_cases hblocked : ∃ w, (s.pool.workers w).place = .blocked
  · obtain ⟨w,hw⟩ := hblocked
    exact hgoes (some w) hw
  · exact hgoes none fun w hw => hblocked ⟨w,hw⟩

end Stopping

section Hazard
variable (h : (system N cfg).Reach (Quiescent cfg) s)
include h

end Hazard

end WebServer.Hazards
