import WebServer.LifecycleWork

/-!
# The server, seen from one connection

The view of a connection forgets the other connections, the descriptor table and
the identity of the workers. Every step of the server leaves the view of a
connection alone or is a move of that connection's life. What one connection
does to a descriptor cannot be seen by another one, because it owns the
descriptor at that moment: the invariant of its own life says so.
-/
namespace WebServer.Projection
open TransitionSystem Interaction Contexts Handler Server Lifecycle LifecycleInvariant
open LifecycleWork
open ThreadPool (Outcome Pool Worker)
open scoped BigOperators

variable {N : ℕ} {cfg : Config}

/-- The dequeued jobs for connection `c` which a worker has not invoked yet. -/
def heldBy (c : ConnId) : Worker ConnId Task → ℕ
  | .holding job => if job = c then 1 else 0
  | _ => 0

/-- The tasks on connection `c` which a worker runs. -/
def tasksOn (c : ConnId) : Worker ConnId Task → Multiset Task
  | .running t | .notifying t => if t.conn = c then {t} else 0
  | _ => 0

@[simp] theorem heldBy_holding (c job : ConnId) :
    heldBy c (.holding job) = if job = c then 1 else 0 := rfl

@[simp] theorem heldBy_running (c : ConnId) (t : Task) : heldBy c (.running t) = 0 := rfl

@[simp] theorem tasksOn_running (c : ConnId) (t : Task) :
    tasksOn c (.running t) = if t.conn = c then {t} else 0 := rfl

@[simp] theorem tasksOn_holding (c job : ConnId) : tasksOn c (.holding job) = 0 := rfl

/-- Where `AcceptLoop` stands with connection `c`. -/
def standsAt (l : AcceptLoop) (c : ConnId) : Position :=
  if l.conn = c ∧ l.pos ≠ .exited then l.pos else .fetch

/-- The registration of connection `c` under descriptor `fd`. -/
def watch (k : Kernel) (fd : Fd) (c : ConnId) : Option Bool :=
  (k.epoll fd).bind fun r => if r.conn = c then some r.armed else none

def owns (k : Kernel) (fd : Fd) (c : ConnId) : Bool := k.owner fd = some c

/-- What has happened to connection `c`. -/
def history (trace : List (ConnId × Event)) (c : ConnId) : List Event :=
  trace.filterMap fun e => if e.1 = c then some e.2 else none

def view (s : State N) (c : ConnId) : Conn where
  pos := standsAt s.loop c
  isOpen := owns s.kernel (s.fd c) c
  watch := watch s.kernel (s.fd c) c
  delivered := s.loop.batch.count (.ctx c)
  queued := s.pool.jobs.count c
  held := ∑ w, heldBy c (s.pool.workers w)
  running := ∑ w, tasksOn c (s.pool.workers w)
  fd := s.fd c
  cell := s.heap c
  history := history s.trace c

/-- The descriptor table is consistent, and connection numbers which have not
been given out are blank. -/
structure Sound (s : State N) : Prop where
  owned : ∀ f c, s.kernel.owner f = some c → s.fd c = f
  watched : ∀ f r, s.kernel.epoll f = some r → s.kernel.owner f = some r.conn
  fresh : ∀ c, s.accepted ≤ c → view s c = .blank

theorem sound_initial : Sound (State.initial N) where
  owned := by simp [State.initial]
  watched := by simp [State.initial]
  fresh := fun c _ => by
    simp [view,State.initial,Conn.blank,standsAt,owns,watch,history,Pool.initial,heldBy,tasksOn]

/-! ## The views of unrelated connections -/

@[simp] theorem history_append (trace : List (ConnId × Event)) (c d : ConnId) (e : Event) :
    history (trace++[(d,e)]) c = history trace c++(if d = c then [e] else []) := by
  rw [history,List.filterMap_append]
  by_cases hd : d = c <;> simp [history,hd]

theorem standsAt_goto {l : AcceptLoop} {c : ConnId} (h : c ≠ l.conn) (pos : Position) :
    standsAt {l with pos := pos} c = .fetch := by
  simp [standsAt,Ne.symm h]

theorem standsAt_other {l : AcceptLoop} {c : ConnId} (h : c ≠ l.conn) :
    standsAt l c = .fetch := standsAt_goto h l.pos

theorem standsAt_self {l : AcceptLoop} (h : l.pos ≠ .exited) : standsAt l l.conn = l.pos := by
  simp [standsAt,h]

theorem standsAt_fetch {l : AcceptLoop} (h : l.pos = .fetch) (c : ConnId) :
    standsAt l c = .fetch := by
  simp [standsAt,h]

/-! ## The descriptor table -/

/-- `k'` differs from `k` at most at `f`, which connection `c` owns. -/
structure Within (k k' : Kernel) (f : Fd) (c : ConnId) : Prop where
  owns : k.owner f = some c
  elsewhere : ∀ g, g ≠ f → k'.owner g = k.owner g ∧ k'.epoll g = k.epoll g
  owner : k'.owner f = some c ∨ k'.owner f = none ∧ k'.epoll f = none
  epoll : ∀ r, k'.epoll f = some r → r.conn = c

section Kernel
variable {k : Kernel} {f : Fd} {c : ConnId}

theorem within_close (h : k.owner f = some c) : Within k (k.close f) f c where
  owns := h
  elsewhere g hg := by simp [Kernel.close,hg]
  owner := .inr (by simp [Kernel.close])
  epoll r hr := by simp [Kernel.close] at hr

theorem within_arm (h : k.owner f = some c) : Within k (k.arm f c) f c where
  owns := h
  elsewhere g hg := by simp [Kernel.arm,hg]
  owner := .inl (by simpa [Kernel.arm] using h)
  epoll r hr := by
    simp only [Kernel.arm,Function.update_self,Option.some.injEq] at hr
    exact hr ▸ rfl

theorem within_remove (h : k.owner f = some c) : Within k (k.remove f) f c where
  owns := h
  elsewhere g hg := by simp [Kernel.remove,hg]
  owner := .inl (by simpa [Kernel.remove] using h)
  epoll r hr := by simp [Kernel.remove] at hr

theorem within_self (h : k.owner f = some c)
    (hw : ∀ r, k.epoll f = some r → k.owner f = some r.conn) : Within k k f c where
  owns := h
  elsewhere g hg := ⟨rfl,rfl⟩
  owner := .inl h
  epoll r hr := by
    have hx := hw r hr
    rw [h] at hx
    exact (Option.some.inj hx).symm

theorem within_perform (h : k.owner f = some c)
    (hw : ∀ r, k.epoll f = some r → k.owner f = some r.conn) (o : Op) (r : o.Res) :
    Within k (k.perform f c o r) f c := by
  cases o with
  | epollDel => exact within_remove h
  | close => exact within_close h
  | epollMod =>
      cases r with
      | true => exact within_arm h
      | false => exact within_self h hw
  | _ => exact within_self h hw

variable {k' : Kernel} {d : ConnId}

/-- No other connection sees the difference. -/
theorem Within.isOpen (h : Within k k' f c) (hd : d ≠ c) (g : Fd) :
    Projection.owns k' g d = Projection.owns k g d := by
  by_cases hg : g = f
  · subst hg
    rcases h.owner with ho | ⟨ho,-⟩ <;> simp [Projection.owns,ho,h.owns,Ne.symm hd]
  · simp only [Projection.owns,(h.elsewhere g hg).1]

theorem Within.watch (h : Within k k' f c) (hd : d ≠ c)
    (hw : ∀ r, k.epoll f = some r → k.owner f = some r.conn) (g : Fd) :
    watch k' g d = watch k g d := by
  by_cases hg : g = f
  · subst hg
    have hnone : ∀ l : Kernel, (∀ r, l.epoll g = some r → r.conn = c) →
        Projection.watch l g d = none := by
      intro l hl
      cases hr : l.epoll g with
      | none => simp [Projection.watch,hr]
      | some r =>
          have hx := hl r hr
          simp [Projection.watch,hr,hx,Ne.symm hd]
    rw [hnone k' h.epoll,hnone k (within_self h.owns hw).epoll]
  · simp only [Projection.watch,(h.elsewhere g hg).2]

end Kernel

/-- The table stays consistent when a connection changes its own entry. -/
theorem Within.sound {s : State N} {k' : Kernel} {f : Fd} {c : ConnId} (hs : Sound s)
    (h : Within s.kernel k' f c) : (∀ g d, k'.owner g = some d → s.fd d = g) ∧
    ∀ g r, k'.epoll g = some r → k'.owner g = some r.conn := by
  refine ⟨fun g d hg => ?_,fun g r hr => ?_⟩
  · by_cases hgf : g = f
    · subst hgf
      rcases h.owner with ho | ⟨ho,-⟩
      · rw [ho] at hg
        exact hs.owned g d (h.owns.trans hg)
      · simp [ho] at hg
    · exact hs.owned g d ((h.elsewhere g hgf).1 ▸ hg)
  · by_cases hgf : g = f
    · subst hgf
      rcases h.owner with ho | ⟨-,he⟩
      · rw [ho,h.epoll r hr]
      · simp [he] at hr
    · rw [(h.elsewhere g hgf).1]
      exact hs.watched g r ((h.elsewhere g hgf).2 ▸ hr)

/-! ## The steps of AcceptLoop -/

/-- What a step of the server is for connection `c`: nothing, or a move of its life. -/
def Follows (cfg : Config) (calm : Prop) (s t : State N) (c : ConnId) : Prop :=
  view t c = view s c ∨ c < t.accepted ∧ ∃ m, (calm → Returns (view s c) m) ∧
    (view s c).enabled cfg m ∧ view t c = (view s c).next cfg m

/-- A step of `AcceptLoop` which is a move of the connection it stands at, and
which the other connections do not see. -/
theorem follows_loop {calm : Prop} {s t : State N} {m : Move} (hs : Sound s)
    (haccepted : t.accepted = s.accepted) (hpos : standsAt s.loop s.loop.conn ≠ .fetch)
    (hcalm : calm → Returns (view s s.loop.conn) m)
    (he : (view s s.loop.conn).enabled cfg m)
    (hself : view t s.loop.conn = (view s s.loop.conn).next cfg m)
    (hother : ∀ c, c ≠ s.loop.conn → view t c = view s c) (c : ConnId) :
    Follows cfg calm s t c := by
  by_cases hc : c = s.loop.conn
  · subst hc
    refine .inr ⟨?_,m,hcalm,he,hself⟩
    rw [haccepted]
    by_contra hlt
    have hb := congrArg Conn.pos (hs.fresh s.loop.conn (Nat.le_of_not_lt hlt))
    exact hpos hb
  · exact .inl (hother c hc)

section Loop
variable {calm : Prop} {s : State N} (hs : Sound s)
include hs

theorem follows_setNonblocking (h : s.loop.pos = .setNonblocking) (c : ConnId) :
    Follows cfg calm s (s.goto .onConnection) c := by
  have hpos := standsAt_self (l := s.loop) (by simp [h])
  refine follows_loop (t := s.goto .onConnection) (m := .setNonblocking) hs rfl
    (by simp [hpos,h]) (fun _ => trivial) (hpos.trans h) ?_ ?_ c
  · ext1 <;> try rfl
    simp [view,State.goto,standsAt,Conn.next]
  · intro d hd
    ext1 <;> try rfl
    exact (standsAt_goto hd _).trans (standsAt_other hd).symm

theorem follows_onConnection (h : s.loop.pos = .onConnection) (outcome : Outcome)
    (c : ConnId) : Follows cfg calm s (s.callConnection cfg outcome) c := by
  have hpos := standsAt_self (l := s.loop) (by simp [h])
  refine follows_loop (t := s.callConnection cfg outcome) (m := .onConnection outcome) hs ?_
    (by simp [hpos,h]) (fun _ => trivial) (hpos.trans h) ?_ ?_ c
  · cases hc : cfg.onConnection <;> simp [State.callConnection,hc,State.goto,State.record]
  · cases hc : cfg.onConnection <;>
      simp [view,State.callConnection,hc,State.goto,State.record,Conn.next,Conn.record,standsAt]
  · intro d hd
    have ho := standsAt_other hd
    have hg := standsAt_goto hd .create
    cases hc : cfg.onConnection <;>
      simp [view,State.callConnection,hc,State.goto,State.record,ho,hg,Ne.symm hd]

theorem follows_create (h : s.loop.pos = .create) (c : ConnId) :
    Follows cfg calm s (s.create cfg) c := by
  have hpos := standsAt_self (l := s.loop) (by simp [h])
  refine follows_loop (t := s.create cfg) (m := .create) hs rfl
    (by simp [hpos,h]) (fun _ => trivial) (hpos.trans h) ?_ ?_ c
  · simp [view,State.create,State.goto,State.record,State.setCell,Conn.next,Conn.record,standsAt]
  · intro d hd
    simp [view,State.create,State.goto,State.record,State.setCell,hd,Ne.symm hd,
      standsAt_goto hd]

theorem follows_delete (h : s.loop.pos = .delete) (c : ConnId) :
    Follows cfg calm s s.delete c := by
  have hpos := standsAt_self (l := s.loop) (by simp [h])
  refine follows_loop (t := s.delete) (m := .delete) hs rfl
    (by simp [hpos,h]) (fun _ => trivial) (hpos.trans h) ?_ ?_ c
  · simp [view,State.delete,State.goto,State.record,State.setCell,Conn.next,Conn.record,standsAt]
  · intro d hd
    simp [view,State.delete,State.goto,State.record,State.setCell,hd,Ne.symm hd,
      standsAt_goto hd]

theorem follows_add (h : s.loop.pos = .add) {ok : Bool}
    (hopen : s.kernel.owner (s.fd s.loop.conn) = some s.loop.conn) (c : ConnId) :
    Follows cfg calm s (s.add ok) c := by
  have hpos := standsAt_self (l := s.loop) (by simp [h])
  refine follows_loop (t := s.add ok) (m := .add ok) hs ?_
    (by simp [hpos,h]) (fun _ => trivial) (hpos.trans h) ?_ ?_ c
  · cases ok <;> rfl
  · cases ok <;>
      simp [view,State.add,State.goto,State.record,State.setKernel,Conn.next,Conn.record,
        standsAt,Kernel.arm,watch,owns]
  · intro d hd
    have hwithin := within_arm hopen
    cases ok
    · simp [view,State.add,State.goto,State.record,Ne.symm hd,standsAt_goto hd]
    · simp [view,State.add,State.goto,State.record,State.setKernel,Ne.symm hd,
        standsAt_goto hd,hwithin.isOpen hd,hwithin.watch hd (hs.watched _)]

theorem follows_close (h : s.loop.pos = .close)
    (hopen : s.kernel.owner (s.fd s.loop.conn) = some s.loop.conn) (c : ConnId) :
    Follows cfg calm s s.close c := by
  have hpos := standsAt_self (l := s.loop) (by simp [h])
  refine follows_loop (t := s.close) (m := .close) hs rfl
    (by simp [hpos,h]) (fun _ => trivial) (hpos.trans h) ?_ ?_ c
  · simp [view,State.close,State.goto,State.record,State.setKernel,Conn.next,Conn.record,
      standsAt,Kernel.close,watch,owns]
  · intro d hd
    have hwithin := within_close hopen
    simp [view,State.close,State.goto,State.record,State.setKernel,Ne.symm hd,
      standsAt_goto hd,hwithin.isOpen hd,hwithin.watch hd (hs.watched _)]

theorem follows_submit (h : s.loop.pos = .submit) (c : ConnId) :
    Follows cfg calm s ((s.setPool (s.pool.next (Task.start cfg)
      (.emplace () s.loop.conn))).goto .notify) c := by
  have hpos := standsAt_self (l := s.loop) (by simp [h])
  refine follows_loop (t := (s.setPool (s.pool.next (Task.start cfg)
    (.emplace () s.loop.conn))).goto .notify) (m := .submit) hs rfl
    (by simp [hpos,h]) (fun _ => trivial) (hpos.trans h) ?_ ?_ c
  · simp [view,State.goto,State.setPool,Pool.next,Pool.push,Conn.next,standsAt]
  · intro d hd
    simp [view,State.goto,State.setPool,Pool.next,Pool.push,standsAt_goto hd,Ne.symm hd]

omit hs in
/-- The connections which were accepted before do not see `accept`. -/
theorem view_accept_of_ne (h : s.loop.pos = .fetch) (hb : s.loop.batch.head? = some .listen)
    {f : Fd} (howner : s.kernel.owner f = none) {c : ConnId} (hc : c ≠ s.accepted) :
    view (s.accept (some f)) c = view s c := by
  obtain ⟨batch,hbatch⟩ := List.head?_eq_some_iff.mp hb
  have hpos : standsAt ⟨.setNonblocking,s.accepted,batch⟩ c = .fetch := by
    simp [standsAt,Ne.symm hc]
  have howns : owns (s.kernel.accept f s.accepted) (s.fd c) c = owns s.kernel (s.fd c) c := by
    by_cases hf : s.fd c = f
    · simp [owns,Kernel.accept,hf,howner,Ne.symm hc]
    · simp [owns,Kernel.accept,hf]
  ext1 <;> try rfl
  · simp [view,State.accept,hbatch,hpos,standsAt_fetch h]
  · simp [view,State.accept,hc,howns]
  · simp [view,State.accept,hc,watch,Kernel.accept]
  · simp [view,State.accept,hbatch]
  · simp [view,State.accept,hc]
  · simp [view,State.accept,State.record,Ne.symm hc]

/-- A connection number is given out with the first free entry of the context table. -/
theorem follows_accept (h : s.loop.pos = .fetch) (hb : s.loop.batch.head? = some .listen)
    {fd : Option Fd} (hfree : ∀ f ∈ fd, s.kernel.owner f = none) (c : ConnId) :
    Follows cfg calm s (s.accept fd) c := by
  obtain ⟨batch,hbatch⟩ : ∃ batch, s.loop.batch = .listen::batch := by
    cases hl : s.loop.batch <;> simp_all
  cases fd with
  | none =>
      left
      simp [view,State.accept,standsAt,h,hbatch]
  | some f =>
      have howner : s.kernel.owner f = none := hfree f rfl
      have hepoll : s.kernel.epoll f = none := by
        by_contra hne
        obtain ⟨r,hr⟩ := Option.ne_none_iff_exists'.mp hne
        simpa [howner] using hs.watched f r hr
      by_cases hc : c = s.accepted
      · subst hc
        have hblank := hs.fresh s.accepted le_rfl
        have hwatch : watch s.kernel (s.fd s.accepted) s.accepted = none :=
          congrArg Conn.watch hblank
        refine .inr ⟨Nat.lt_succ_self _,.accept f,fun _ => trivial,hblank,?_⟩
        ext1 <;> try rfl
        · simp [view,State.accept,Conn.next,standsAt]
        · simp [view,State.accept,Conn.next,owns,Kernel.accept]
        · simpa [view,State.accept,Conn.next,Conn.record,watch,Kernel.accept,hepoll]
            using hwatch.symm
        · simp [view,State.accept,Conn.next,Conn.record,hbatch]
        · simp [view,State.accept,Conn.next]
        · simp [view,State.accept,Conn.next,Conn.record,State.record]
      · exact .inl (view_accept_of_ne h hb howner hc)

theorem lt_accepted {c : ConnId} (h : view s c ≠ .blank) : c < s.accepted := by
  by_contra hlt
  exact h (hs.fresh c (Nat.le_of_not_lt hlt))

theorem follows_addRef (h : s.loop.pos = .fetch) {d : ConnId} {batch : List Tag}
    (hb : s.loop.batch = .ctx d::batch) (c : ConnId) : Follows cfg calm s s.addRef c := by
  by_cases hc : c = d
  · subst hc
    have hdelivered : (view s c).delivered = batch.count (.ctx c)+1 := by
      simp [view,hb]
    refine .inr ⟨?_,.addRef,fun _ => trivial,⟨standsAt_fetch h c,by omega⟩,?_⟩
    · have hlt := lt_accepted hs fun hx : view s c = .blank => by
        simp [hx,Conn.blank] at hdelivered
      simpa [State.addRef,hb,State.record,State.setCell] using hlt
    · ext1
      all_goals simp [view,State.addRef,hb,State.record,State.setCell,Conn.next,Conn.record,
        standsAt]
  · left
    have hpos : standsAt ⟨.submit,d,batch⟩ c = .fetch := by simp [standsAt,Ne.symm hc]
    simp [view,State.addRef,hb,State.record,State.setCell,hc,Ne.symm hc,hpos,standsAt_fetch h]

theorem tag_eq_iff {e : Ready} (he : s.kernel.isReady e = true) (c : ConnId) :
    s.kernel.tag e = .ctx c ↔
      e = .conn (s.fd c) ∧ watch s.kernel (s.fd c) c = some true := by
  cases e with
  | listen => simp [Kernel.tag]
  | conn f =>
      obtain ⟨r,hr,harmed⟩ : ∃ r, s.kernel.epoll f = some r ∧ r.armed = true := by
        simpa [Kernel.isReady,Option.any_eq_true] using he
      constructor
      · intro h
        have hc : r.conn = c := by simpa [Kernel.tag,hr] using h
        have hf : s.fd c = f := hs.owned f c (hc ▸ hs.watched f r hr)
        simp [hf,watch,hr,hc,harmed]
      · rintro ⟨hf,hw⟩
        have hf : f = s.fd c := by simpa using hf
        subst hf
        have hc : r.conn = c := by
          by_contra hne
          simp [watch,hr,hne] at hw
        simp [Kernel.tag,hr,hc]

theorem follows_epollWait {ready : List Ready} (hb : s.loop.batch = [])
    (hnodup : ready.Nodup) (hready : ∀ e ∈ ready, s.kernel.isReady e = true) (c : ConnId) :
    Follows cfg calm s {s with
      kernel := s.kernel.deliver ready
      loop := {s.loop with batch := ready.map s.kernel.tag}} c := by
  have hcount : (ready.map s.kernel.tag).count (.ctx c) =
      ready.countP fun e => e = .conn (s.fd c) ∧ watch s.kernel (s.fd c) c = some true := by
    rw [List.count,List.countP_map]
    refine List.countP_congr fun e he => ?_
    simpa using tag_eq_iff hs (hready e he) c
  by_cases hd : .conn (s.fd c) ∈ ready ∧ watch s.kernel (s.fd c) c = some true
  · have hone : (ready.map s.kernel.tag).count (.ctx c) = 1 := by
      rw [hcount]
      simp only [hd.2,and_true]
      exact List.count_eq_one_of_mem hnodup hd.1
    have hwatch : watch (s.kernel.deliver ready) (s.fd c) c = some false := by
      have hw := hd.2
      simp only [watch,Option.bind_eq_some_iff] at hw
      obtain ⟨r,hr,hc⟩ := hw
      have hconn : r.conn = c := by
        by_contra hne
        simp [hne] at hc
      simp [watch,Kernel.deliver,hr,hd.1,hconn]
    refine .inr ⟨lt_accepted hs fun hx => ?_,.deliver,fun _ => trivial,hd.2,?_⟩
    · have hw := congrArg Conn.watch hx
      exact absurd (hd.2.symm.trans hw) (by simp [Conn.blank])
    · ext1 <;> try rfl
      · exact hwatch
      · simp [view,Conn.next,hb,hone]
  · have hzero : (ready.map s.kernel.tag).count (.ctx c) = 0 := by
      rw [hcount,List.countP_eq_zero]
      intro e he hx
      simp only [decide_eq_true_eq] at hx
      exact hd ⟨hx.1 ▸ he,hx.2⟩
    left
    ext1 <;> try rfl
    · by_cases hm : .conn (s.fd c) ∈ ready
      · have harmed := hready _ hm
        cases hr : s.kernel.epoll (s.fd c) with
        | none => simp [view,watch,Kernel.deliver,hr]
        | some r =>
            have hc : r.conn ≠ c := by
              intro hc
              refine hd ⟨hm,?_⟩
              simp only [Kernel.isReady,hr,Option.any_some] at harmed
              simp [watch,hr,hc,harmed]
            simp [view,watch,Kernel.deliver,hr,hm,hc]
      · simp [view,watch,Kernel.deliver,hm]
    · simp [view,hzero,hb]

end Loop

theorem follows_epollError {calm : Prop} {s : State N} (h : s.loop.pos = .fetch)
    (interrupted : Bool) (c : ConnId) :
    Follows cfg calm s (s.goto (if interrupted then .fetch else .exited)) c := by
  left
  cases interrupted <;> simp [view,State.goto,standsAt,h]

/-! ## The steps of the pool -/

section Steps
variable {calm : Prop} {s : State N}

theorem view_setPool {p : Pool Unit ConnId Task N} {c : ConnId}
    (hjobs : p.jobs.count c = s.pool.jobs.count c)
    (hheld : ∑ w, heldBy c (p.workers w) = ∑ w, heldBy c (s.pool.workers w))
    (htasks : ∑ w, tasksOn c (p.workers w) = ∑ w, tasksOn c (s.pool.workers w)) :
    view (s.setPool p) c = view s c := by
  simp [view,State.setPool,hjobs,hheld,htasks]

/-- A worker that neither holds nor runs a job carries nothing. -/
theorem carries_nothing {x : Worker ConnId Task} (c : ConnId)
    (hx : x.place = .awake ∨ x.place = .blocked ∨ x.place = .exited) :
    heldBy c x = 0 ∧ tasksOn c x = 0 := by
  cases x <;> simp_all [heldBy,tasksOn]

theorem view_setWorker {w : Fin N} {x : Worker ConnId Task}
    (hx : x.place = .awake ∨ x.place = .blocked ∨ x.place = .exited)
    (hw : (s.pool.workers w).place = .awake ∨ (s.pool.workers w).place = .blocked ∨
      (s.pool.workers w).place = .exited) (c : ConnId) :
    view (s.setPool (s.pool.setWorker w x)) c = view s c := by
  obtain ⟨h₁,h₂⟩ := carries_nothing c hx
  obtain ⟨k₁,k₂⟩ := carries_nothing c hw
  exact view_setPool rfl (sum_update_same _ _ _ (h₁.trans k₁.symm))
    (sum_update_same _ _ _ (h₂.trans k₂.symm))

theorem view_wakeOne {woken : Option (Fin N)} (hc : s.pool.CanWake woken) (c : ConnId) :
    view (s.setPool (s.pool.wakeOne woken)) c = view s c := by
  cases woken with
  | none => rfl
  | some w => exact view_setWorker (.inl rfl) (.inr (.inl hc)) c

theorem follows_notify (hs : Sound s) (h : s.loop.pos = .notify) {woken : Option (Fin N)}
    (hc : s.pool.CanWake woken) (c : ConnId) :
    Follows cfg calm s ((s.setPool (s.pool.next (Task.start cfg)
      (.notifyOne () woken))).goto .fetch) c := by
  have hpos := standsAt_self (l := s.loop) (by simp [h])
  have hview : ∀ d, view ((s.setPool (s.pool.next (Task.start cfg)
      (.notifyOne () woken))).goto .fetch) d = {view s d with pos := .fetch} := by
    intro d
    rw [← view_wakeOne hc d]
    ext1 <;> try rfl
    simp [view,State.goto,State.setPool,standsAt]
  refine follows_loop (t := (s.setPool (s.pool.next (Task.start cfg)
    (.notifyOne () woken))).goto .fetch) (m := .notify) hs ?_ (by simp [hpos,h])
    (fun _ => trivial) (hpos.trans h) (hview _) (fun d hd => ?_) c
  · cases woken <;> rfl
  rw [hview]
  ext1 <;> try rfl
  exact (standsAt_goto hd _).symm

theorem follows_look (hs : Sound s) {w : Fin N} (hw : (s.pool.workers w).place = .awake)
    (c : ConnId) : Follows cfg calm s (s.setPool (s.pool.look w)) c := by
  unfold Pool.look
  split
  case h_1 hjobs =>
    refine .inl (view_setWorker ?_ (.inl hw) c)
    split
    · exact .inr (.inr rfl)
    · exact .inr (.inl rfl)
  case h_2 job jobs hjobs =>
    obtain ⟨k₁,k₂⟩ := carries_nothing c (.inl hw)
    have htasks : ∑ v, tasksOn c ((s.pool.setWorker w (.holding job)).workers v) =
        ∑ v, tasksOn c (s.pool.workers v) := sum_update_same _ _ _ (by rw [k₂]; rfl)
    obtain ⟨rest,h₁,h₂⟩ := sum_update_split (heldBy c) s.pool.workers w
    rw [k₁,zero_add] at h₁
    by_cases hc : job = c
    · subst hc
      have hqueued : (view s job).queued = jobs.count job+1 := by simp [view,hjobs]
      refine .inr ⟨lt_accepted hs fun hx => ?_,.look,fun _ => trivial,?_,?_⟩
      · simp [hx,Conn.blank] at hqueued
      · change 0 < (view s job).queued
        omega
      · ext1 <;> try rfl
        · simp [view,State.setPool,Conn.next,hjobs]
        · simp only [view,State.setPool,Conn.next,Pool.setWorker,h₁,h₂,heldBy_holding,if_true]
          omega
        · exact htasks
    · refine .inl (view_setPool ?_ ?_ htasks)
      · simp [hjobs,hc]
      · simp only [Pool.setWorker,h₁,h₂,heldBy_holding,if_neg hc,zero_add]

theorem follows_invoke (hs : Sound s) (w : Fin N) (c : ConnId) :
    Follows cfg calm s (s.setPool (s.pool.invoke (Task.start cfg) w)) c := by
  unfold Pool.invoke
  split
  case h_1 job hw =>
    obtain ⟨rest,h₁,h₂⟩ := sum_update_split (heldBy c) s.pool.workers w
    obtain ⟨others,k₁,k₂⟩ := sum_update_split (tasksOn c) s.pool.workers w
    rw [hw] at h₁ k₁
    by_cases hc : job = c
    · subst hc
      have hheld : (view s job).held = 1+rest := by simpa [view] using h₁
      refine .inr ⟨lt_accepted hs fun hx => ?_,.invoke job,fun _ => trivial,?_,?_⟩
      · simp [hx,Conn.blank] at hheld
        omega
      · change 0 < (view s job).held
        omega
      · ext1 <;> try rfl
        · simp only [view,State.setPool,Conn.next,Pool.setWorker,h₁,h₂,heldBy_holding,
            heldBy_running,if_true]
          omega
        · simp [view,State.setPool,Conn.next,Pool.setWorker,k₁,k₂,Task.start]
    · refine .inl (view_setPool rfl ?_ ?_)
      · simp only [Pool.setWorker,h₁,h₂,heldBy_holding,heldBy_running,if_neg hc]
      · simp [Pool.setWorker,k₁,k₂,Task.start,hc]
  case h_2 => exact .inl rfl

/-- The tasks on the connection of a running task, that task first. -/
theorem running_cons {w : Fin N} {t : Task} (hw : s.pool.workers w = .running t) :
    ∃ rest, (view s t.conn).running = t ::ₘ rest ∧ ∀ u : Task, u.conn = t.conn →
      ∑ v, tasksOn t.conn (Function.update s.pool.workers w (.running u) v) = u ::ₘ rest := by
  obtain ⟨rest,h₁,h₂⟩ := sum_update_split (tasksOn t.conn) s.pool.workers w
  refine ⟨rest,?_,fun u hu => ?_⟩
  · simpa [view,hw] using h₁
  · simpa [hu] using h₂ (.running u)

theorem isOpen_perform (k : Kernel) (v : Conn) {f : Fd} {c : ConnId}
    (hv : v.isOpen = owns k f c) (o : Op) (r : o.Res) :
    owns (k.perform f c o r) f c = (v.perform o r).isOpen := by
  cases o with
  | close => simp [owns,Kernel.perform,Kernel.close,Conn.perform]
  | epollMod => cases r <;> exact hv.symm
  | _ => exact hv.symm

theorem watch_perform (k : Kernel) (v : Conn) {f : Fd} {c : ConnId}
    (hv : v.watch = watch k f c) (o : Op) (r : o.Res) :
    watch (k.perform f c o r) f c = (v.perform o r).watch := by
  cases o with
  | close => simp [watch,Kernel.perform,Kernel.close,Conn.perform]
  | epollDel => simp [watch,Kernel.perform,Kernel.remove,Conn.perform]
  | epollMod =>
      cases r with
      | false => exact hv.symm
      | true => simp [watch,Kernel.perform,Kernel.arm,Conn.perform]
  | _ => exact hv.symm

/-- A task owns the descriptor on which it performs an operation. -/
theorem owner_of_work (hok : ∀ c, Ok cfg (view s c)) {w : Fin N} {t : Task} {o : Op}
    {k : o.Res → Code} (hw : s.pool.workers w = .running t) (hcode : t.code = .op o k)
    (ho : o ≠ .release) : (s.heap t.conn).ctx.fd = s.fd t.conn ∧
      s.kernel.owner (s.heap t.conn).ctx.fd = some t.conn := by
  obtain ⟨rest,hrun,-⟩ := running_cons hw
  have hl := live_of_mem (hok t.conn) (hrun ▸ Multiset.mem_cons_self t rest)
  have hfd : (s.heap t.conn).ctx.fd = s.fd t.conn := hl.fd
  refine ⟨hfd,?_⟩
  rw [hfd]
  simpa [view,owns] using (inCharge_of_op hl hrun hcode ho).2

theorem follows_work (hs : Sound s) (hok : ∀ c, Ok cfg (view s c)) {w : Fin N}
    {answer : (o : Op) → o.Res} (he : s.canWork cfg w answer) (c : ConnId) :
    Follows cfg (answer .onMessage = .returned) s (s.work cfg w answer) c := by
  obtain ⟨t,o,k,hw,hcode,hcell,hkernel⟩ := canWork_cases he
  rw [work_eq hw hcode]
  obtain ⟨rest,hrun,hrest⟩ := running_cons hw
  have hl := live_of_mem (hok t.conn) (hrun ▸ Multiset.mem_cons_self t rest)
  have hfd : (s.heap t.conn).ctx.fd = s.fd t.conn := hl.fd
  have hheld : ∀ u d, ∑ v, heldBy d (Function.update s.pool.workers w (.running u) v) =
      ∑ v, heldBy d (s.pool.workers v) :=
    fun u d => sum_update_same _ _ _ (by rw [hw]; rfl)
  by_cases hc : c = t.conn
  · subst hc
    refine .inr ⟨lt_accepted hs fun hx => ?_,.work rest t o k (answer o),?_,
      ⟨hrun,hcode,hcell,?_⟩,?_⟩
    · have hz := congrArg Conn.running hx
      rw [hrun] at hz
      exact Multiset.cons_ne_zero hz
    · intro hcalm
      cases o <;> trivial
    · cases o <;> try trivial
      cases hr : answer .read with
      | data bytes => trivial
      | error e =>
          cases e <;> try trivial
          rw [hr] at hkernel
          have hnone := hkernel.mp rfl
          simp [Conn.Permits,view,owns,← hfd,hnone]
    · ext1
      · simp [view,Conn.next,Conn.record]
      · change owns (s.kernel.perform (s.heap t.conn).ctx.fd t.conn o (answer o)) _ _ = _
        rw [hfd]
        exact isOpen_perform s.kernel (view s t.conn) rfl o (answer o)
      · change watch (s.kernel.perform (s.heap t.conn).ctx.fd t.conn o (answer o)) _ _ = _
        rw [hfd]
        exact watch_perform s.kernel (view s t.conn) rfl o (answer o)
      · simp [view,Conn.next,Conn.record]
      · simp [view,Conn.next,Conn.record,Pool.setWorker]
      · simpa [view,Conn.next,Conn.record,Pool.setWorker] using hheld _ _
      · exact hrest _ (advance_conn ..)
      · simp [view,Conn.next,Conn.record]
      · simp [view,Conn.next,Conn.record]
      · simp [view,Conn.next,Conn.record]
  · have htasks : ∀ u : Task, u.conn = t.conn →
        ∑ v, tasksOn c (Function.update s.pool.workers w (.running u) v) =
          ∑ v, tasksOn c (s.pool.workers v) := fun u hu =>
      sum_update_same _ _ _ (by simp [hw,hu,Ne.symm hc])
    have hkernel : owns (s.kernel.perform (s.heap t.conn).ctx.fd t.conn o (answer o))
        (s.fd c) c = owns s.kernel (s.fd c) c ∧
        watch (s.kernel.perform (s.heap t.conn).ctx.fd t.conn o (answer o)) (s.fd c) c =
          watch s.kernel (s.fd c) c := by
      by_cases ho : o = .release
      · subst ho
        exact ⟨rfl,rfl⟩
      · have hopen := (owner_of_work hok hw hcode ho).2
        have hwithin := within_perform hopen (hs.watched _) o (answer o)
        exact ⟨hwithin.isOpen hc _,hwithin.watch hc (hs.watched _) _⟩
    left
    ext1 <;> try rfl
    · exact hkernel.1
    · exact hkernel.2
    · exact hheld _ _
    · exact htasks _ (advance_conn ..)
    · simp [view,hc]
    · simp [view,Ne.symm hc]

theorem follows_finish (hs : Sound s) {w : Fin N} (he : s.canFinish w) (c : ConnId) :
    Follows cfg calm s (s.finish cfg w) c := by
  obtain ⟨t,outcome,hw,hcode⟩ := canFinish_cases he
  rw [finish_eq hw hcode]
  have hheld : ∀ d, ∑ v, heldBy d (Function.update s.pool.workers w .awake v) =
      ∑ v, heldBy d (s.pool.workers v) :=
    fun d => sum_update_same _ _ _ (by rw [hw]; rfl)
  by_cases hc : c = t.conn
  · subst hc
    obtain ⟨rest,h₁,h₂⟩ := sum_update_split (tasksOn t.conn) s.pool.workers w
    have hrun : (view s t.conn).running = t ::ₘ rest := by simpa [view,hw] using h₁
    refine .inr ⟨lt_accepted hs fun hx => ?_,.finish rest t outcome,fun _ => trivial,
      ⟨hrun,hcode⟩,?_⟩
    · have hz := congrArg Conn.running hx
      rw [hrun] at hz
      exact Multiset.cons_ne_zero hz
    · ext1 <;> try rfl
      · exact hheld _
      · exact (h₂ .awake).trans (zero_add rest)
      · simp [view,Conn.next,Conn.record]
  · have htasks : ∑ v, tasksOn c (Function.update s.pool.workers w .awake v) =
        ∑ v, tasksOn c (s.pool.workers v) :=
      sum_update_same _ _ _ (by rw [hw,tasksOn_running,if_neg (Ne.symm hc)]; rfl)
    left
    ext1 <;> try rfl
    · exact hheld _
    · exact htasks
    · simp [view,Ne.symm hc]

theorem view_notifyAll (c : ConnId) :
    view (s.setPool (s.pool.next (Task.start cfg) .notifyAll)) c = view s c := by
  have hheld : ∀ x : Worker ConnId Task, heldBy c x.unblock = heldBy c x := by
    intro x
    cases x <;> rfl
  have htasks : ∀ x : Worker ConnId Task, tasksOn c x.unblock = tasksOn c x := by
    intro x
    cases x <;> rfl
  exact view_setPool rfl (Finset.sum_congr rfl fun w _ => hheld _)
    (Finset.sum_congr rfl fun w _ => htasks _)

end Steps

/-! ## Runs -/

section Runs
variable {s : State N} {a : Action N}

/-- The connection which `AcceptLoop` is setting up owns its descriptor. -/
theorem owner_of_setup (hok : ∀ c, Ok cfg (view s c))
    (h : s.loop.pos ≠ .fetch ∧ s.loop.pos ≠ .submit ∧ s.loop.pos ≠ .notify ∧
      s.loop.pos ≠ .exited) : s.kernel.owner (s.fd s.loop.conn) = some s.loop.conn := by
  obtain ⟨hfetch,hsubmit,hnotify,hexited⟩ := h
  have hpos : (view s s.loop.conn).pos = s.loop.pos := standsAt_self hexited
  have hopen := isOpen_of_setup (hok s.loop.conn) (hpos ▸ hfetch) (hpos ▸ hsubmit)
    (hpos ▸ hnotify)
  simpa [view,owns] using hopen

/-- Every step of the server is, for each connection, nothing or a move of its life. -/
theorem follows (hs : Sound s) (hok : ∀ c, Ok cfg (view s c)) (he : s.enabled cfg a)
    (c : ConnId) : Follows cfg (MessageReturns s a) s (s.next cfg a) c := by
  obtain ⟨-,he⟩ := he
  cases a with
  | epollWait ready => exact follows_epollWait hs he.2.1 he.2.2.1 he.2.2.2.2 c
  | epollError interrupted => exact follows_epollError he.1 interrupted c
  | accept fd => exact follows_accept hs he.1 he.2.1 he.2.2 c
  | setNonblocking => exact follows_setNonblocking hs he c
  | onConnection outcome => exact follows_onConnection hs he.1 outcome c
  | create => exact follows_create hs he c
  | add ok => exact follows_add hs he.1 (owner_of_setup hok (by simp [he.1])) c
  | delete => exact follows_delete hs he c
  | close =>
      have hpos : s.loop.pos = .close := he
      exact follows_close hs he (owner_of_setup hok (by simp [hpos])) c
  | addRef =>
      obtain ⟨hpos,d,hd⟩ := he
      obtain ⟨batch,hb⟩ : ∃ batch, s.loop.batch = .ctx d::batch := by
        cases hl : s.loop.batch <;> simp_all
      exact follows_addRef hs hpos hb c
  | submit => exact follows_submit hs he.1 c
  | notify woken => exact follows_notify hs he.1 he.2.2 c
  | look w => exact follows_look hs he c
  | wake w =>
      have hw : (s.pool.workers w).place = .blocked := he
      exact .inl (view_setWorker (.inl rfl) (.inr (.inl hw)) c)
  | invoke w => exact follows_invoke hs w c
  | work w answer => exact follows_work hs hok he c
  | finish w => exact follows_finish hs he c
  | notifyAll => exact .inl (view_notifyAll c)
  | _ => exact .inl rfl

theorem owned_accept (hs : Sound s) {f : Fd} (hfree : s.kernel.owner f = none) :
    (∀ g d, (s.accept (some f)).kernel.owner g = some d → (s.accept (some f)).fd d = g) ∧
    ∀ g r, (s.accept (some f)).kernel.epoll g = some r →
      (s.accept (some f)).kernel.owner g = some r.conn := by
  have hblank : s.kernel.owner (s.fd s.accepted) ≠ some s.accepted := by
    have hx := congrArg Conn.isOpen (hs.fresh s.accepted le_rfl)
    simpa [view,owns,Conn.blank] using hx
  refine ⟨fun g d hg => ?_,fun g r hr => ?_⟩
  · by_cases hgf : g = f
    · subst hgf
      have hd : s.accepted = d := by simpa [State.accept,Kernel.accept] using hg
      simp [State.accept,← hd]
    · have hg : s.kernel.owner g = some d := by
        simpa [State.accept,Kernel.accept,hgf] using hg
      have hfd := hs.owned g d hg
      have hd : d ≠ s.accepted := by
        rintro rfl
        exact hblank (hfd ▸ hg)
      simpa [State.accept,hd] using hfd
  · have hr : s.kernel.epoll g = some r := hr
    have howner := hs.watched g r hr
    have hgf : g ≠ f := by
      rintro rfl
      simp [hfree] at howner
    simpa [State.accept,Kernel.accept,hgf] using howner

theorem sound_next (hs : Sound s) (hok : ∀ c, Ok cfg (view s c)) (he : s.enabled cfg a) :
    Sound (s.next cfg a) := by
  suffices h : (∀ g d, (s.next cfg a).kernel.owner g = some d → (s.next cfg a).fd d = g) ∧
      (∀ g r, (s.next cfg a).kernel.epoll g = some r →
        (s.next cfg a).kernel.owner g = some r.conn) ∧ s.accepted ≤ (s.next cfg a).accepted by
    refine ⟨h.1,h.2.1,fun c hc => ?_⟩
    rcases follows hs hok he c with hv | ⟨hlt,-⟩
    · exact hv.trans (hs.fresh c (h.2.2.trans hc))
    · exact absurd hlt (Nat.not_lt.mpr hc)
  have hsame := And.intro hs.owned (And.intro hs.watched (le_refl s.accepted))
  obtain ⟨-,he⟩ := he
  cases a with
  | epollWait ready =>
      refine ⟨hs.owned,fun g r hr => ?_,le_rfl⟩
      simp only [State.next,Kernel.deliver,Option.map_eq_some_iff] at hr ⊢
      obtain ⟨r',hr',rfl⟩ := hr
      rw [hs.watched g r' hr']
      split <;> rfl
  | accept fd =>
      cases fd with
      | none => exact hsame
      | some f =>
          obtain ⟨h₁,h₂⟩ := owned_accept hs (he.2.2 f rfl)
          exact ⟨h₁,h₂,Nat.le_succ _⟩
  | onConnection outcome =>
      simp only [State.next,State.callConnection]
      split <;> exact hsame
  | add ok =>
      cases ok with
      | false => exact hsame
      | true =>
          obtain ⟨h₁,h₂⟩ := (within_arm (owner_of_setup hok (by simp [he.1]))).sound hs
          exact ⟨h₁,h₂,le_rfl⟩
  | close =>
      have hpos : s.loop.pos = .close := he
      obtain ⟨h₁,h₂⟩ := (within_close (owner_of_setup hok (by simp [hpos]))).sound hs
      exact ⟨h₁,h₂,le_rfl⟩
  | addRef =>
      obtain ⟨hpos,d,hd⟩ := he
      cases hl : s.loop.batch with
      | nil => simp [hl] at hd
      | cons tag batch =>
          have ht : tag = .ctx d := by simpa [hl] using hd
          subst ht
          simp only [State.next,State.addRef,hl]
          exact hsame
  | work w answer =>
      obtain ⟨t,o,k,hw,hcode,-⟩ := canWork_cases he
      rw [State.next,work_eq hw hcode]
      by_cases ho : o = .release
      · subst ho
        exact hsame
      · have hopen := (owner_of_work hok hw hcode ho).2
        obtain ⟨h₁,h₂⟩ := (within_perform hopen (hs.watched _) o (answer o)).sound hs
        exact ⟨h₁,h₂,le_rfl⟩
  | finish w =>
      obtain ⟨t,outcome,hw,hcode⟩ := canFinish_cases he
      rw [State.next,finish_eq hw hcode]
      exact hsame
  | _ => exact hsame

/-- What every reachable state of the server satisfies: its descriptor table is
sound, and each view is reachable in the life of a single connection. -/
theorem reach_views {G : Discipline (State N) (Action N)} {K : Discipline Conn Move}
    (hGK : ∀ s a, G s a → ∀ v m, (MessageReturns s a → Returns v m) → K v m)
    (h : (system N cfg).Reach G s) : Sound s ∧ ∀ c, (life cfg).Reach K (view s c) := by
  induction h with
  | start hi =>
      subst hi
      exact ⟨sound_initial,fun c => .start (sound_initial.fresh c (Nat.zero_le c))⟩
  | @step s t a hr hg hst ih =>
      obtain ⟨hs,hv⟩ := ih
      obtain ⟨he,rfl⟩ := hst
      have hok := fun c => ok (hv c)
      refine ⟨sound_next hs hok he,fun c => ?_⟩
      rcases follows hs hok he c with hx | ⟨-,m,hcalm,hm,hx⟩
      · exact hx ▸ hv c
      · exact .step (hv c) (hGK s a hg _ m hcalm) ⟨hm,hx⟩

theorem sound {G : Discipline (State N) (Action N)} (h : (system N cfg).Reach G s) :
    Sound s :=
  (reach_views (K := Free) (fun _ _ _ _ _ _ => trivial) h).1

theorem view_ok {G : Discipline (State N) (Action N)} (h : (system N cfg).Reach G s)
    (c : ConnId) : Ok cfg (view s c) :=
  ok ((reach_views (K := Free) (fun _ _ _ _ _ _ => trivial) h).2 c)

theorem view_returns {G : Discipline (State N) (Action N)}
    (hG : ∀ s a, G s a → MessageReturns s a) (h : (system N cfg).Reach G s) (c : ConnId) :
    (life cfg).Reach Returns (view s c) :=
  (reach_views (fun s a hg _ _ hr => hr (hG s a hg)) h).2 c

end Runs

end WebServer.Projection
