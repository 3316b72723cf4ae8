import WebServer.Ownership

/-!
# The reference count

The count of a registered context is one more than the number of tasks that
hold a reference. The comments of the source promise 1 in epoll and 2 in
processing; but a task releases after it has re-armed the connection, so that
each worker may still hold a reference when the next event is dispatched.
-/
namespace WebServer.References
open TransitionSystem Interaction Contexts Handler Server Lifecycle LifecycleInvariant
open LifecycleWork Projection Ownership
open ThreadPool (Outcome Pool Worker)
open scoped BigOperators

variable {N : ℕ} {cfg : Config} {s : State N}

theorem refCount_eq {G : Discipline (State N) (Action N)}
    (hG : ∀ s a, G s a → MessageReturns s a) (h : (system N cfg).Reach G s) {c : ConnId}
    (hc : (view s c).registered) :
    (s.heap c).ctx.refCount = 1+((view s c).outstanding : ℤ) := by
  have hr := (live_of_reach h hc).refs
  rw [abandoned_eq_zero hG h c] at hr
  exact hr.trans (by simp)

/-! ## No deleted context is used -/

theorem live_cell {v : Conn} (h : Live cfg v) : v.cell.live := ⟨h.created,h.kept⟩

/-- A running task uses a context which exists. -/
theorem live_of_running {G : Discipline (State N) (Action N)} (h : (system N cfg).Reach G s)
    {w : Fin N} {t : Task} (hw : s.pool.workers w = .running t) : (s.heap t.conn).live := by
  obtain ⟨rest,hrun,-⟩ := running_cons hw
  exact live_cell (live_of_mem (view_ok h t.conn) (hrun ▸ Multiset.mem_cons_self t rest))

theorem live_of_delivered {v : Conn} (h : Ok cfg v) (hd : 0 < v.delivered) : Live cfg v := by
  cases h with
  | live hl => exact hl
  | _ => exact absurd hd (lt_irrefl 0)

/-- `AcceptLoop` takes a reference of a context which exists. -/
theorem live_of_event {G : Discipline (State N) (Action N)} (h : (system N cfg).Reach G s)
    {c : ConnId} (hc : s.loop.batch.head? = some (.ctx c)) : (s.heap c).live := by
  refine live_cell (live_of_delivered (view_ok h c) ?_)
  exact List.count_pos_iff.mpr (List.mem_of_mem_head? hc)

/-- `AcceptLoop` deletes a context which exists. -/
theorem live_of_delete {v : Conn} (h : Ok cfg v) (hpos : v.pos = .delete) : v.cell.live := by
  cases h with
  | failed fd => exact ⟨rfl,rfl⟩
  | live hl => rcases hl.pos with hp | hp | hp <;> simp [hp] at hpos
  | _ => simp [Conn.blank,opening] at hpos

theorem deletes_le_one {v : Conn} (h : Ok cfg v) : v.cell.deletes ≤ 1 := by
  cases h with
  | live hl => simp [hl.kept]
  | _ => simp [Conn.blank,opening,newCell]

/-! ## The bound -/

theorem unreleased_sum {ι : Type} (f : ι → Multiset Task) (I : Finset ι) :
    unreleased (∑ i ∈ I, f i) = ∑ i ∈ I, unreleased (f i) :=
  map_sum (Multiset.countPAddMonoidHom fun t : Task => t.released = 0) f I

/-- One worker holds at most one reference. -/
theorem worker_le_one (c : ConnId) (x : Worker ConnId Task) :
    heldBy c x+unreleased (tasksOn c x) ≤ 1 := by
  have hone : ∀ t : Task, unreleased (if t.conn = c then {t} else 0) ≤ 1 := by
    intro t
    split
    · rw [← Multiset.cons_zero,unreleased_cons]
      split <;> simp [unreleased]
    · simp [unreleased]
  cases x with
  | holding job =>
      simp only [heldBy_holding,tasksOn_holding]
      split <;> simp [unreleased]
  | running t => simpa using hone t
  | notifying t => simpa [heldBy,tasksOn] using hone t
  | _ => simp [heldBy,tasksOn,unreleased]

theorem workers_le (s : State N) (c : ConnId) :
    (view s c).held+unreleased (view s c).running ≤ N := by
  have hsum : ∑ w, (heldBy c (s.pool.workers w)+unreleased (tasksOn c (s.pool.workers w))) ≤
      ∑ _w : Fin N, 1 := Finset.sum_le_sum fun w _ => worker_le_one c _
  rw [Finset.sum_add_distrib,← unreleased_sum] at hsum
  exact hsum.trans (by simp)

/-- The token is outside the workers at most once. -/
theorem outstanding_le {v : Conn} (h : Live cfg v) :
    v.outstanding ≤ 1+(v.held+unreleased v.running) := by
  have ht := h.token
  simp only [Conn.tokens] at ht
  simp only [Conn.outstanding]
  omega

/-! ## Runs that reach the bound -/

/-- `AcceptLoop` is idle, nothing is queued, and connection 0 has `n` references. -/
structure Scene (cfg : Config) (s : State N) (n : ℤ) : Prop where
  reach : (system N cfg).Reach CallbacksReturn s
  alive : s.aborted = false
  pos : s.loop.pos = .fetch
  batch : s.loop.batch = []
  jobs : s.pool.jobs = []
  notifying : s.pool.notifying = ∅
  unblocked : ∀ w, (s.pool.workers w).place ≠ .blocked
  registered : (view s 0).registered
  refs : (s.heap 0).ctx.refCount = n

def Armed (s : State N) : Prop := s.kernel.epoll (s.fd 0) = some ⟨0,true⟩

theorem reach_next {a : Action N} (h : (system N cfg).Reach CallbacksReturn s)
    (hg : CallbacksReturn s a) (he : s.enabled cfg a) :
    (system N cfg).Reach CallbacksReturn (s.next cfg a) := .step h hg ⟨he,rfl⟩

/-- The event of connection 0 is delivered and the reference for its task taken. -/
theorem Scene.deliver {n : ℤ} (h : Scene cfg s n) (hmax : 0 < cfg.maxEvents)
    (harmed : Armed s) : ∃ t : State N, (system N cfg).Reach CallbacksReturn t ∧
      t.aborted = false ∧ t.loop = ⟨.submit,0,[]⟩ ∧ t.pool = s.pool ∧ t.fd = s.fd ∧
      t.kernel = s.kernel.deliver [.conn (s.fd 0)] ∧ (t.heap 0).ctx = (s.heap 0).ctx.addRef ∧
      (view t 0).registered := by
  have harmed : s.kernel.epoll (s.fd 0) = some ⟨0,true⟩ := harmed
  have hready : s.kernel.isReady (.conn (s.fd 0)) = true := by simp [Kernel.isReady,harmed]
  have htag : s.kernel.tag (.conn (s.fd 0)) = .ctx 0 := by simp [Kernel.tag,harmed]
  have h₁ := reach_next (a := .epollWait [.conn (s.fd 0)]) h.reach trivial
    ⟨h.alive,h.pos,h.batch,by simp,hmax,by simpa using hready⟩
  set s₁ := s.next cfg (.epollWait [.conn (s.fd 0)])
  have hbatch : s₁.loop.batch = [.ctx 0] := by simp [s₁,State.next,htag]
  have h₂ := reach_next (a := .addRef) h₁ trivial ⟨h.alive,h.pos,0,by rw [hbatch]; rfl⟩
  have hnext : s₁.next cfg .addRef =
      {(s₁.setCell 0 {s₁.heap 0 with ctx := (s₁.heap 0).ctx.addRef}).record 0 .addRef with
        loop := ⟨.submit,0,[]⟩} := by
    simp only [State.next,State.addRef,hbatch]
  rw [hnext] at h₂
  have hr : .added true ∈ history s.trace 0 := h.registered
  refine ⟨_,h₂,h.alive,rfl,rfl,rfl,rfl,?_,?_⟩
  · simp [State.record,State.setCell,s₁,State.next]
  · simp [Conn.registered,view,State.record,State.setCell,s₁,State.next,hr]

/-- The job is pushed and started by worker `w`. -/
theorem Scene.dispatch {n : ℤ} (h : Scene cfg s n) (hmax : 0 < cfg.maxEvents)
    (harmed : Armed s) {w : Fin N} (hw : s.pool.workers w = .awake) :
    ∃ t : State N, (system N cfg).Reach CallbacksReturn t ∧ t.aborted = false ∧
      t.loop = ⟨.fetch,0,[]⟩ ∧ t.pool.jobs = [] ∧ t.pool.notifying = ∅ ∧
      t.pool.workers = Function.update s.pool.workers w (.running (Task.start cfg 0)) ∧
      t.fd = s.fd ∧ t.kernel = s.kernel.deliver [.conn (s.fd 0)] ∧
      (t.heap 0).ctx = (s.heap 0).ctx.addRef ∧ (view t 0).registered := by
  obtain ⟨t,ht,halive,hloop,hpool,hfd,hkernel,hheap,hreg⟩ := h.deliver hmax harmed
  have h₁ := reach_next (a := .submit) ht trivial
    ⟨halive,by rw [hloop],by simp [Pool.enabled,hpool,h.notifying]⟩
  set t₁ := t.next cfg .submit
  have hjobs : t₁.pool.jobs = [0] := by
    simp [t₁,State.next,State.goto,State.setPool,Pool.next,Pool.push,
      hpool,h.jobs,hloop]
  have hworkers : t₁.pool.workers = s.pool.workers := by
    simp [t₁,State.next,State.goto,State.setPool,Pool.next,Pool.push,hpool]
  have hnotifying : t₁.pool.notifying = {()} := by
    simp [t₁,State.next,State.goto,State.setPool,Pool.next,hpool,h.notifying]
  have h₂ := reach_next (a := .notify none) h₁ trivial
    ⟨halive,rfl,by simp [hnotifying],by simpa [Pool.CanWake,hworkers] using h.unblocked⟩
  set t₂ := t₁.next cfg (.notify none)
  have h₃ := reach_next (a := .look w) h₂ trivial
    ⟨halive,by
      change (t₁.pool.workers w).place = .awake
      rw [hworkers,hw]
      rfl⟩
  have hlook : t₂.next cfg (.look w) = t₂.setPool {t₂.pool.setWorker w (.holding 0) with
      jobs := [], dequeued := t₂.pool.dequeued++[0]} := by
    have hj : t₂.pool.jobs = [0] := hjobs
    simp only [State.next,Pool.next,Pool.look,hj]
  rw [hlook] at h₃
  set p : Pool Unit ConnId Task N :=
    {t₂.pool.setWorker w (.holding 0) with jobs := [], dequeued := t₂.pool.dequeued++[0]}
  have hholding : p.workers w = .holding 0 := by simp [p]
  have h₄ := reach_next (a := .invoke w) h₃ trivial ⟨halive,by
    change (p.workers w).place = .holding
    rw [hholding]
    rfl⟩
  have hinvoke : (t₂.setPool p).next cfg (.invoke w) = t₂.setPool
      {p.setWorker w (.running (Task.start cfg 0)) with invoked := p.invoked++[0]} := by
    simp [State.next,State.setPool,Pool.next,Pool.invoke,hholding]
  rw [hinvoke] at h₄
  refine ⟨_,h₄,halive,?_,rfl,?_,?_,hfd,hkernel,hheap,hreg⟩
  · simp [State.setPool,t₂,t₁,State.next,State.goto,hloop]
  · simp [State.setPool,p,Pool.setWorker,t₂,State.next,State.goto,
      Pool.next,Pool.wakeOne,hnotifying]
  · have hw₂ : t₂.pool.workers = s.pool.workers := hworkers
    simp [State.setPool,p,Pool.setWorker,hw₂]

/-- Worker `w` stands before `code` in a task on connection 0, whose cell is `x`. -/
structure Flight (cfg : Config) (s : State N) (w : Fin N) (code : Code) (x : Cell) : Prop where
  reach : (system N cfg).Reach CallbacksReturn s
  alive : s.aborted = false
  loop : s.loop = ⟨.fetch,0,[]⟩
  jobs : s.pool.jobs = []
  notifying : s.pool.notifying = ∅
  task : ∃ t, s.pool.workers w = .running t ∧ t.conn = 0 ∧ t.code = code
  cell : s.heap 0 = x
  registered : (view s 0).registered

theorem Flight.step {w : Fin N} {o : Op} {k : o.Res → Code} {x : Cell}
    (h : Flight cfg s w (.op o k) x) (answer : (o : Op) → o.Res)
    (hcell : x.Permits cfg o (answer o))
    (hkernel : s.kernel.Permits x.ctx.fd (x.ctx.room cfg.bufferSize) o (answer o))
    (hreturned : answer .onMessage = .returned) :
    ∃ t : State N, Flight cfg t w (k (answer o)) (x.perform cfg o (answer o)) ∧
      t.kernel = s.kernel.perform x.ctx.fd 0 o (answer o) ∧ t.fd = s.fd ∧
      ∀ v, v ≠ w → t.pool.workers v = s.pool.workers v := by
  obtain ⟨t,hw,hconn,hcode⟩ := h.task
  have hx : s.heap t.conn = x := by rw [hconn,h.cell]
  have hr := reach_next (a := .work w answer) h.reach hreturned ⟨h.alive,by
    change s.canWork cfg w answer
    simp only [State.canWork,hw,hcode,hx]
    exact ⟨hcell,hkernel⟩⟩
  have hreg : .added true ∈ history s.trace 0 := h.registered
  rw [State.next,work_eq hw hcode,hx,hconn] at hr
  refine ⟨_,⟨hr,h.alive,h.loop,h.jobs,h.notifying,⟨_,ThreadPool.workers_setWorker ..,?_,?_⟩,?_,?_⟩,
    rfl,rfl,fun v hv => ThreadPool.workers_setWorker_ne _ hv _⟩
  · rw [advance_conn,hconn]
  · rw [advance_code]
  · simp
  · simp [Conn.registered,view,hreg]

/-- The task finds nothing to read and re-arms; its release is still to come. -/
theorem Scene.round {n : ℤ} (h : Scene cfg s n) (hmax : 0 < cfg.maxEvents)
    (harmed : Armed s) {w : Fin N} (hw : s.pool.workers w = .awake) :
    ∃ t : State N, Scene cfg t (n+1) ∧ Armed t ∧
      ∀ v, v ≠ w → t.pool.workers v = s.pool.workers v := by
  have hwatch : (view s 0).watch = some true := by
    simp [view,watch,show s.kernel.epoll (s.fd 0) = _ from harmed]
  have hlive := live_of_reach h.reach h.registered
  obtain ⟨-,-,hopen,hclosed,-⟩ := hlive.idle (by simp [Conn.armed,hwatch])
  have howner : s.kernel.owner (s.fd 0) = some 0 := by simpa [view,owns] using hopen
  obtain ⟨t,ht,halive,hloop,hjobs,hnotifying,hworkers,hfd,hkernel,hheap,hreg⟩ :=
    h.dispatch hmax harmed hw
  have hcellfd : (t.heap 0).ctx.fd = s.fd 0 := by
    rw [hheap]
    exact hlive.fd
  have hcellclosed : (t.heap 0).ctx.closed = false := by
    rw [hheap]
    exact hclosed
  have h₀ : Flight cfg t w (handleClientClient cfg.bufferSize) (t.heap 0) :=
    ⟨ht,halive,hloop,hjobs,hnotifying,
      ⟨_,by rw [hworkers,Function.update_self],rfl,rfl⟩,rfl,hreg⟩
  set answer := reply (.error .again) false .returned true
  obtain ⟨t₁,h₁,hk₁,hfd₁,hothers₁⟩ := h₀.step answer (fun _ => hcellclosed.symm) trivial rfl
  have howner₁ : t₁.kernel.owner (t.heap 0).ctx.fd = some 0 := by
    rw [hk₁,hcellfd,hkernel]
    exact howner
  obtain ⟨t₂,h₂,hk₂,hfd₂,hothers₂⟩ := h₁.step (o := .read) answer
    (fun hx => by simp [semantics] at hx)
    (by
      change Errno.again = .badf ↔ t₁.kernel.owner (t.heap 0).ctx.fd = none
      simp [howner₁]) rfl
  obtain ⟨t₃,h₃,hk₃,hfd₃,hothers₃⟩ := h₂.step (o := .loadClosed) answer
    (fun _ => hcellclosed.symm) trivial rfl
  have hepoll₃ : t₃.kernel.epoll (t.heap 0).ctx.fd = some ⟨0,false⟩ := by
    rw [hk₃,hk₂,hk₁,hcellfd,hkernel]
    simp [Kernel.perform,Kernel.deliver,show s.kernel.epoll (s.fd 0) = _ from harmed]
  obtain ⟨t₄,h₄,hk₄,hfd₄,hothers₄⟩ := h₃.step (o := .epollMod) answer
    (fun hx => by simp [semantics] at hx) (fun _ => by
      change (t₃.kernel.epoll (t.heap 0).ctx.fd).isSome = true
      simp [hepoll₃]) rfl
  have hothers : ∀ v, v ≠ w → t₄.pool.workers v = s.pool.workers v := by
    intro v hv
    rw [hothers₄ v hv,hothers₃ v hv,hothers₂ v hv,hothers₁ v hv,hworkers,
      Function.update_of_ne hv]
  obtain ⟨u,hu,-,-⟩ := h₄.task
  refine ⟨t₄,⟨h₄.reach,h₄.alive,by rw [h₄.loop],by rw [h₄.loop],h₄.jobs,h₄.notifying,?_,
    h₄.registered,?_⟩,?_,hothers⟩
  · intro v
    by_cases hv : v = w
    · subst hv
      simp [hu]
    · rw [hothers v hv]
      exact h.unblocked v
  · rw [h₄.cell]
    change (t.heap 0).ctx.refCount = n+1
    rw [hheap]
    exact congrArg (·+1) h.refs
  · have hfd₀ : t₄.fd 0 = (t.heap 0).ctx.fd := by
      rw [hfd₄,hfd₃,hfd₂,hfd₁,hfd,hcellfd]
    rw [Armed,hfd₀,hk₄]
    change (t₃.kernel.arm (t.heap 0).ctx.fd 0).epoll (t.heap 0).ctx.fd = _
    simp [Kernel.arm]

/-- The first connection is accepted and registered. -/
theorem exists_scene (N : ℕ) (hmax : 0 < cfg.maxEvents) : ∃ s : State N,
    Scene cfg s 1 ∧ Armed s ∧ ∀ w, s.pool.workers w = .awake := by
  have h₀ : (system N cfg).Reach CallbacksReturn (State.initial N) := .start rfl
  have h₁ := reach_next (a := .epollWait [.listen]) h₀ trivial
    ⟨rfl,rfl,rfl,by simp,hmax,by simp [Kernel.isReady]⟩
  have h₂ := reach_next (a := .accept (some 0)) h₁ trivial ⟨rfl,rfl,rfl,fun _ _ => rfl⟩
  have h₃ := reach_next (a := .setNonblocking) h₂ trivial ⟨rfl,rfl⟩
  set s₃ := (((State.initial N).next cfg (.epollWait [.listen])).next cfg
    (.accept (some 0))).next cfg .setNonblocking
  have h₄ := reach_next (a := .onConnection .returned) h₃ rfl ⟨rfl,rfl,fun _ => rfl⟩
  obtain ⟨trace,hs₄⟩ : ∃ trace, s₃.next cfg (.onConnection .returned) =
      {s₃.goto .create with trace := trace} := by
    simp only [State.next,State.callConnection]
    split
    · exact ⟨s₃.trace++[(0,.onConnection)],rfl⟩
    · exact ⟨s₃.trace,rfl⟩
  rw [hs₄] at h₄
  have h₅ := reach_next (a := .create) h₄ trivial ⟨rfl,rfl⟩
  have h₆ := reach_next (a := .add true) h₅ trivial ⟨rfl,rfl,fun _ => ⟨rfl,rfl⟩⟩
  refine ⟨_,⟨h₆,rfl,rfl,rfl,rfl,rfl,fun w => ?_,?_,rfl⟩,rfl,fun w => rfl⟩
  · exact (by decide : ThreadPool.Place.awake ≠ .blocked)
  · simp [Conn.registered,view,State.next,State.add,State.create,State.goto,State.record]
    exact .inr rfl

/-- Each worker parks behind a re-arming, with its release still to come. -/
theorem exists_parked (hmax : 0 < cfg.maxEvents) (k : ℕ) (hk : k ≤ N) : ∃ s : State N,
    Scene cfg s (1+k) ∧ Armed s ∧ ∀ w : Fin N, k ≤ w.val → s.pool.workers w = .awake := by
  induction k with
  | zero =>
      obtain ⟨s,hs,ha,hw⟩ := exists_scene N hmax
      exact ⟨s,by simpa using hs,ha,fun w _ => hw w⟩
  | succ k ih =>
      obtain ⟨s,hs,ha,hw⟩ := ih (Nat.le_of_succ_le hk)
      obtain ⟨t,ht,hb,hothers⟩ := hs.round hmax ha (hw ⟨k,hk⟩ le_rfl)
      refine ⟨t,?_,hb,fun v hv => ?_⟩
      · have hn : (1+k : ℤ)+1 = 1+((k+1 : ℕ) : ℤ) := by
          push_cast
          omega
        exact hn ▸ ht
      · have hne : v ≠ ⟨k,hk⟩ := by
          rintro rfl
          exact absurd hv (by simp)
        rw [hothers v hne]
        exact hw v (Nat.le_of_succ_le hv)

/-- The count balances, no deleted context is used and none is deleted twice. With
`N` workers the count is at most `N+2`, and some run reaches that. -/
theorem references_balance (N : ℕ) (cfg : Config) (hmax : 0 < cfg.maxEvents) :
    (∀ s : State N, (system N cfg).Reach CallbacksReturn s →
      (∀ c, (view s c).registered →
        (s.heap c).ctx.refCount = 1+((view s c).outstanding : ℤ) ∧
        (s.heap c).ctx.refCount ≤ N+2) ∧
      (∀ w t, s.pool.workers w = .running t → (s.heap t.conn).live) ∧
      (∀ c, s.loop.batch.head? = some (.ctx c) → (s.heap c).live) ∧
      (s.loop.pos = .delete → (s.heap s.loop.conn).live) ∧
      ∀ c, (s.heap c).deletes ≤ 1) ∧
    ∃ s : State N, (system N cfg).Reach CallbacksReturn s ∧
      ∃ c, (view s c).registered ∧ (s.heap c).ctx.refCount = N+2 := by
  refine ⟨fun s h => ⟨fun c hc => ?_,fun w t hw => live_of_running h hw,
    fun c hc => live_of_event h hc,fun hpos => ?_,fun c => deletes_le_one (view_ok h c)⟩,?_⟩
  · have heq := refCount_eq (fun _ _ => CallbacksReturn.message) h hc
    have hworkers := workers_le s c
    have houtstanding := outstanding_le (live_of_reach h hc)
    exact ⟨heq,by omega⟩
  · apply live_of_delete (view_ok h s.loop.conn)
    exact (standsAt_self (by simp [hpos])).trans hpos
  · obtain ⟨s,hs,harmed,-⟩ := exists_parked (N := N) hmax N le_rfl
    obtain ⟨t,ht,-,-,-,-,-,hheap,hreg⟩ := hs.deliver hmax harmed
    refine ⟨t,ht,0,hreg,?_⟩
    have hrefs := hs.refs
    rw [hheap]
    simp only [ConnectionContext.addRef,hrefs]
    omega

theorem references_balance_four : ∃ s, httpServerImpl.Reach CallbacksReturn s ∧
    ∃ c, (view s c).registered ∧ (s.heap c).ctx.refCount = 6 :=
  (references_balance threadPoolSize .standard (by decide)).2

end WebServer.References
