import WebServer.Ownership

/-!
# Descriptors under reuse

`accept` may return a number the instant `close` has freed it, so that one stray
operation after `close` would hit another connection. Every operation on a
descriptor happens while the descriptor is open and belongs to the connection it
was accepted for; each connection is closed at most once, and the callbacks are
called at most once and in order.
-/
namespace WebServer.Descriptors
open TransitionSystem Handler Server Lifecycle LifecycleInvariant LifecycleWork
open Projection Ownership
open ThreadPool (Outcome)

variable {N : ℕ} {cfg : Config} {s : State N}

/-- The operations of a task which name `ctx->fd`. -/
def usesFd : Op → Bool
  | .read | .onMessage | .epollDel | .close | .epollMod => true
  | _ => false

/-- The places where `AcceptLoop` is about to use `conn_fd`. -/
def loopUsesFd : Position → Bool
  | .setNonblocking | .onConnection | .create | .add | .close => true
  | _ => false

def connects : Event → Bool
  | .onConnection => true
  | _ => false

theorem task_owns {G : Discipline (State N) (Action N)} (h : (system N cfg).Reach G s)
    {w : Fin N} {t : Task} {o : Op} {k : o.Res → Code} (hw : s.pool.workers w = .running t)
    (hcode : t.code = .op o k) (ho : usesFd o = true) :
    s.kernel.owner (s.heap t.conn).ctx.fd = some t.conn :=
  (owner_of_work (fun c => view_ok h c) hw hcode (by rintro rfl; simp [usesFd] at ho)).2

theorem loop_owns {G : Discipline (State N) (Action N)} (h : (system N cfg).Reach G s)
    (hpos : loopUsesFd s.loop.pos = true) :
    s.kernel.owner (s.fd s.loop.conn) = some s.loop.conn := by
  refine owner_of_setup (fun c => view_ok h c) ?_
  cases hp : s.loop.pos <;> simp [hp,loopUsesFd] at hpos ⊢

section History
variable {v : Conn}

/-- What is recorded of a connection that has not been registered. -/
theorem history_cases (h : Ok cfg v) :
    v.history <+: prologue cfg++[.added false,.deleted,.closed] ∨ Live cfg v := by
  cases h with
  | live hl => exact .inr hl
  | _ =>
      left
      cases hc : cfg.onConnection <;>
        simp [opening,Conn.blank,prologue,LifecycleInvariant.calls,hc]

theorem closes_le_one (h : Ok cfg v) : v.history.countP closes ≤ 1 := by
  rcases history_cases h with hp | hl
  · apply hp.sublist.countP_le.trans
    rw [List.countP_append,countP_prologue cfg rfl rfl rfl]
    simp [List.countP_cons,closes]
  · rw [hl.closedOnce,Conn.shut]
    split <;> simp

/-- Nothing of the set-up is recorded after the registration. -/
theorem Live.not_mem (h : Live cfg v) {e : Event} (hs : serves e = false)
    (ht : e ≠ .added true) (hp : e ∉ prologue cfg) : e ∉ v.history := by
  obtain ⟨tail,hh,htail⟩ := h.begins
  intro hm
  rw [hh,List.mem_append,List.mem_cons] at hm
  rcases hm with hm | rfl | hm
  · exact hp hm
  · exact ht rfl
  · simp [htail e hm] at hs

theorem failed_add_closes (h : Ok cfg v) (hm : .added false ∈ v.history)
    (hpos : v.pos = .fetch) : v.history.countP closes = 1 := by
  cases h with
  | live hl =>
      refine (Live.not_mem hl rfl (by simp) ?_ hm).elim
      cases hc : cfg.onConnection <;> simp [prologue,LifecycleInvariant.calls,hc]
  | rejected fd =>
      cases hc : cfg.onConnection <;> simp [prologue,LifecycleInvariant.calls,hc,closes]
  | failed fd => simp [opening] at hpos
  | deleted fd => simp [opening] at hpos
  | _ =>
      cases hc : cfg.onConnection <;>
        simp [opening,Conn.blank,prologue,LifecycleInvariant.calls,hc] at hm

theorem failed_mod_closes (h : Live cfg v) {outcome : Outcome} {t : Task}
    (hm : .finished outcome t ∈ v.history) (hf : t.failed = true) :
    v.history.countP closes = 1 := by
  have he := h.ended outcome t hm
  cases outcome with
  | threw => simp [(he.threw rfl).2.2.2] at hf
  | returned =>
      have hclosed := (he.released rfl).2.2.2 hf
      have hopen := h.gone t (.inr ⟨_,hm⟩) hclosed
      simp [h.closedOnce,Conn.shut,hopen]

theorem connects_le_one (h : Ok cfg v) : v.history.countP connects ≤ 1 := by
  have hone : (prologue cfg).countP connects ≤ 1 := by
    cases hc : cfg.onConnection <;>
      simp [prologue,LifecycleInvariant.calls,hc,connects,List.countP_cons]
  rcases history_cases h with hp | hl
  · apply hp.sublist.countP_le.trans
    simpa [List.countP_append,List.countP_cons,connects] using hone
  · obtain ⟨tail,hh,htail⟩ := hl.begins
    have hz : tail.countP connects = 0 := by
      rw [List.countP_eq_zero]
      intro e he
      have hs := htail e he
      cases e <;> simp_all [serves,connects]
    rw [hh,List.countP_append,List.countP_cons,hz]
    simpa [connects] using hone

/-- `on_connection_` is called right after `accept`. -/
theorem connects_first (h : Ok cfg v) :
    v.history.Pairwise fun a b => connects b = true → a = .accepted := by
  have hfirst : ∀ l, (∀ e ∈ l, connects e = false) →
      (prologue cfg++l).Pairwise fun a b => connects b = true → a = .accepted := by
    intro l hl
    have hlater : l.Pairwise fun a b => connects b = true → a = .accepted :=
      List.pairwise_of_forall_mem_list fun a _ b hb hx => by simp [hl b hb] at hx
    refine List.pairwise_append.mpr ⟨?_,hlater,fun a _ b hb hx => by simp [hl b hb] at hx⟩
    cases hc : cfg.onConnection <;>
      simp [prologue,LifecycleInvariant.calls,hc,connects]
  rcases history_cases h with hp | hl
  · exact (hfirst _ (by simp [connects])).sublist hp.sublist
  · obtain ⟨tail,hh,htail⟩ := hl.begins
    rw [hh]
    refine hfirst _ fun e he => ?_
    rcases List.mem_cons.mp he with rfl | he
    · rfl
    · have hs := htail e he
      cases e <;> simp_all [serves,connects]

/-- `on_message_` is called after the registration, and after `on_connection_`
where that is installed. -/
theorem message_after (h : Ok cfg v) {r : Outcome} {session : Contexts.Session}
    (hm : .op .onMessage r session ∈ v.history) : ∃ setup tail,
      v.history = setup++.added true::tail ∧ (∀ e ∈ setup, messages e = false) ∧
      (cfg.onConnection = true → .onConnection ∈ setup) := by
  rcases history_cases h with hp | hl
  · have hx := hp.subset hm
    cases hc : cfg.onConnection <;>
      simp [prologue,LifecycleInvariant.calls,hc] at hx
  · obtain ⟨tail,hh,-⟩ := hl.begins
    refine ⟨prologue cfg,tail,hh,?_,fun hc => ?_⟩
    · cases hc : cfg.onConnection <;>
        simp [prologue,LifecycleInvariant.calls,hc,messages]
    · simp [prologue,LifecycleInvariant.calls,hc]

theorem messages_le_one (h : Ok cfg v) : v.history.countP messages ≤ 1 := by
  rcases history_cases h with hp | hl
  · apply hp.sublist.countP_le.trans
    rw [List.countP_append,countP_prologue cfg rfl rfl rfl]
    simp [messages]
  · exact hl.calledOnce

end History

/-- Every operation on a descriptor finds it open and in the hands of its own
connection; it is closed at most once, and exactly once where its `EPOLL_CTL_ADD`
or `EPOLL_CTL_MOD` failed; the callbacks are called at most once and in order. -/
theorem descriptors_are_safe (s : State N) (h : (system N cfg).Reach CallbacksReturn s) :
    (∀ w t o k, s.pool.workers w = .running t → t.code = .op o k → usesFd o = true →
      s.kernel.owner (s.heap t.conn).ctx.fd = some t.conn) ∧
    (loopUsesFd s.loop.pos = true → s.kernel.owner (s.fd s.loop.conn) = some s.loop.conn) ∧
    ∀ c, (view s c).history.countP closes ≤ 1 ∧
      (.added false ∈ (view s c).history → (view s c).pos = .fetch →
        (view s c).history.countP closes = 1) ∧
      (∀ outcome t, .finished outcome t ∈ (view s c).history → t.failed = true →
        (view s c).history.countP closes = 1) ∧
      (view s c).history.countP connects ≤ 1 ∧
      (view s c).history.countP messages ≤ 1 ∧
      ((view s c).history.Pairwise fun a b => connects b = true → a = .accepted) ∧
      ∀ r session, .op .onMessage r session ∈ (view s c).history → ∃ setup tail,
        (view s c).history = setup++.added true::tail ∧ (∀ e ∈ setup, messages e = false) ∧
        (cfg.onConnection = true → .onConnection ∈ setup) := by
  refine ⟨fun w t o k hw hcode ho => task_owns h hw hcode ho,fun hpos => loop_owns h hpos,
    fun c => ?_⟩
  have hok := view_ok h c
  exact ⟨closes_le_one hok,failed_add_closes hok,
    fun outcome t hm hf => failed_mod_closes (live_of_finished hok hm) hm hf,
    connects_le_one hok,messages_le_one hok,connects_first hok,
    fun r session hm => message_after hok hm⟩

/-- Descriptor 5 goes from one connection to the next while the task that closed
it has not released yet. -/
def reuseScript (v w : Fin N) : List (Action N) :=
  acceptScript 5 true++dispatchScript 5 v++workScript 5 v (reply (.data []) false .returned true)++
    acceptScript 5 true++dispatchScript 5 w++workScript 1 w (reply (.data []) false .returned true)

theorem descriptors_are_safe_reused : ∃ s : State 2, (view s 0).fd = 5 ∧ (view s 1).fd = 5 ∧
    (view s 0).history.countP closes = 1 ∧ (view s 1).history.countP closes ≤ 1 := by
  obtain ⟨s,hs,hp⟩ := reach_of_script (N := 2) (G := CallbacksReturn) .standard (reuseScript 0 1)
    (fun s => (view s 0).fd = 5 ∧ (view s 1).fd = 5 ∧ (view s 0).history.countP closes = 1)
    (by decide +kernel)
  obtain ⟨h₀,h₁,hclosed⟩ := of_decide_eq_true hp
  exact ⟨s,h₀,h₁,hclosed,((descriptors_are_safe s hs).2.2 1).1⟩

end WebServer.Descriptors
