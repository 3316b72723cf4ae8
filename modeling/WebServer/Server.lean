import WebServer.Handler

/-!
# HttpServerImpl: AcceptLoop, the workers, the kernel and the destroying thread

The system interleaves the detached `AcceptLoop` thread, the workers of the
pool, and the thread that destroys the server. Each system call, each access to
a context and each queue operation is a step of its own.

The kernel keeps the table of open descriptors, by the connection a descriptor
was accepted for, and the interest set of the epoll instance. A registration is
one-shot: it yields one event per arming. `EPOLL_CTL_ADD` and a successful
`EPOLL_CTL_MOD` arm it, `EPOLL_CTL_DEL` and `close` remove it. `accept` may
return every descriptor number that is not open. A read reports `EBADF` exactly
for a descriptor that is not open. An event carries what was registered, so that
it is dispatched to the branch of the object it was registered for.

Connections are numbered in the order in which they are accepted. The context
created for a connection keeps its own cell of the heap: no step is blocked by
the deletion of a context, so an access to a deleted one would be visible.
-/
namespace WebServer.Server
open TransitionSystem RequestParsing Contexts Interaction Handler
open ThreadPool (Outcome Pool Worker Destructor)
open scoped BigOperators

abbrev ConnId := ℕ
abbrev Fd := ℕ

/-- The sizes, and whether `on_connection_` and `on_message_` hold a callback. -/
structure Config where
  bufferSize : ℕ
  maxEvents : ℕ
  onConnection : Bool
  onMessage : Bool

/-- The values of `common.h`, with the callbacks which the constructor installs. -/
def Config.standard : Config := ⟨Contexts.bufferSize,Contexts.maxEvents,true,true⟩

/-! ## The kernel -/

structure Registration where
  conn : ConnId
  armed : Bool
  deriving DecidableEq, Repr

structure Kernel where
  owner : Fd → Option ConnId
  epoll : Fd → Option Registration

def Kernel.accept (k : Kernel) (fd : Fd) (c : ConnId) : Kernel :=
  {k with owner := Function.update k.owner fd (some c)}

/-- The last reference to the file goes, and with it its registration. -/
def Kernel.close (k : Kernel) (fd : Fd) : Kernel :=
  ⟨Function.update k.owner fd none,Function.update k.epoll fd none⟩

/-- `EPOLL_CTL_ADD` and a successful `EPOLL_CTL_MOD`. -/
def Kernel.arm (k : Kernel) (fd : Fd) (c : ConnId) : Kernel :=
  {k with epoll := Function.update k.epoll fd (some ⟨c,true⟩)}

def Kernel.remove (k : Kernel) (fd : Fd) : Kernel :=
  {k with epoll := Function.update k.epoll fd none}

/-- What `epoll_wait` finds ready. The listening descriptor is level-triggered. -/
inductive Ready where
  | listen
  | conn (fd : Fd)
  deriving DecidableEq, Repr

/-- `events[i].data`. -/
inductive Tag where
  | listen
  | ctx (c : ConnId)
  deriving DecidableEq, Repr

def Kernel.isReady (k : Kernel) : Ready → Bool
  | .listen => true
  | .conn fd => (k.epoll fd).any Registration.armed

def Kernel.tag (k : Kernel) : Ready → Tag
  | .listen => .listen
  | .conn fd => (k.epoll fd).elim .listen fun r => .ctx r.conn

/-- A delivered one-shot registration stays in the interest set, disarmed. -/
def Kernel.deliver (k : Kernel) (ready : List Ready) : Kernel :=
  {k with epoll := fun fd => (k.epoll fd).map fun r =>
    if .conn fd ∈ ready then {r with armed := false} else r}

/-! ## The state -/

/-- How a task gave its connection up. -/
inductive Handover where
  | rearmed | closed
  deriving DecidableEq, Repr

/-- A `HandleClientClient` job being run. The fields after the code record what
it has done: whether it gave the connection up, how often it has released,
whether its `EPOLL_CTL_MOD` failed and whether its callback threw. -/
structure Task where
  conn : ConnId
  code : Code
  handed : Option Handover
  released : ℕ
  failed : Bool
  threw : Bool

def Task.start (cfg : Config) (c : ConnId) : Task :=
  ⟨c,handleClientClient cfg.bufferSize,none,0,false,false⟩

/-- The task after an operation, with the rest of its code. -/
def Task.advance (t : Task) (code : Code) : (o : Op) → o.Res → Task
  | .epollMod, true => {t with code := code, handed := some .rearmed}
  | .epollMod, false => {t with code := code, failed := true}
  | .close, _ => {t with code := code, handed := some .closed}
  | .release, _ => {t with code := code, released := t.released+1}
  | .onMessage, .threw => {t with code := code, threw := true}
  | _, _ => {t with code := code}

@[simp] theorem advance_code (t : Task) (code : Code) (o : Op) (r : o.Res) :
    (t.advance code o r).code = code := by
  cases o <;> first | rfl | (cases r <;> rfl)

@[simp] theorem advance_conn (t : Task) (code : Code) (o : Op) (r : o.Res) :
    (t.advance code o r).conn = t.conn := by
  cases o <;> first | rfl | (cases r <;> rfl)

/-- A context, whether its constructor has run, and how often it was deleted. -/
structure Cell where
  ctx : ConnectionContext
  created : Bool
  deletes : ℕ

def Cell.live (x : Cell) : Prop := x.created = true ∧ x.deletes = 0

/-- Where `AcceptLoop` is. At `fetch` it looks at the rest of its batch, and
calls `epoll_wait` if there is none. -/
inductive Position where
  | fetch | setNonblocking | onConnection | create | add | delete | close
  | submit | notify | exited
  deriving DecidableEq, Repr

structure AcceptLoop where
  pos : Position
  conn : ConnId
  batch : List Tag

/-- What has happened to one connection. An operation of a task is recorded
with its answer and the session after it, a finished job with its own record. -/
inductive Event where
  | accepted
  | onConnection
  | created
  | added (ok : Bool)
  | deleted
  | closed
  | addRef
  | op (o : Op) (r : o.Res) (s : Session)
  | finished (outcome : Outcome) (t : Task)

/-- The callbacks are destroyed in the reverse order of their declaration,
then the pool, whose destructor is part of its own state. -/
inductive Teardown where
  | alive | messageDestroyed | connectionDestroyed
  deriving DecidableEq, Repr

structure State (N : ℕ) where
  pool : Pool Unit ConnId Task N
  loop : AcceptLoop
  kernel : Kernel
  accepted : ℕ
  fd : ConnId → Fd
  heap : ConnId → Cell
  teardown : Teardown
  aborted : Bool
  trace : List (ConnId × Event)

/-- `Server` has returned: the listening descriptor is registered and the
detached thread stands before its first `epoll_wait`. -/
def State.initial (N : ℕ) : State N where
  pool := .initial
  loop := ⟨.fetch,0,[]⟩
  kernel := ⟨fun _ => none,fun _ => none⟩
  accepted := 0
  fd := fun _ => 0
  heap := fun _ => ⟨.new 0 0,false,0⟩
  teardown := .alive
  aborted := false
  trace := []

/-! ## The actions -/

/-- An action carries what the environment decides: the result of a system
call, the outcome of a callback, and the worker which a notification reaches.
A work step carries an answer to every operation; the one that is due is used. -/
inductive Action (N : ℕ) where
  | epollWait (ready : List Ready)
  | epollError (interrupted : Bool)
  | accept (fd : Option Fd)
  | setNonblocking
  | onConnection (outcome : Outcome)
  | create
  | add (ok : Bool)
  | delete
  | close
  | addRef
  | submit
  | notify (woken : Option (Fin N))
  | look (w : Fin N)
  | wake (w : Fin N)
  | invoke (w : Fin N)
  | work (w : Fin N) (answer : (o : Op) → o.Res)
  | finish (w : Fin N)
  | destroyMessage
  | destroyConnection
  | setStop
  | notifyAll
  | join

variable {N : ℕ}

/-- What the kernel may answer to an operation on a descriptor. -/
def Kernel.Permits (k : Kernel) (fd : Fd) (room : ℕ) : (o : Op) → o.Res → Prop
  | .read, .data bytes => (k.owner fd).isSome = true ∧ bytes.length ≤ room
  | .read, .error e => e = .badf ↔ k.owner fd = none
  | .epollMod, ok => ok = true → (k.epoll fd).isSome = true
  | _, _ => True

/-- What an operation of the task in charge of connection `c` does to the kernel. -/
def Kernel.perform (k : Kernel) (fd : Fd) (c : ConnId) : (o : Op) → o.Res → Kernel
  | .epollDel, _ => k.remove fd
  | .close, _ => k.close fd
  | .epollMod, true => k.arm fd c
  | _, _ => k

def Cell.perform (cfg : Config) (x : Cell) (o : Op) (r : o.Res) : Cell :=
  let ctx := {x.ctx with toSession := (semantics cfg.onMessage).effect o r x.ctx.toSession}
  if o = .release then
    {x with ctx := ctx.dropRef, deletes := if ctx.lastRef then x.deletes+1 else x.deletes}
  else {x with ctx := ctx}

section Perform
variable (cfg : Config) (x : Cell) (o : Op) (r : o.Res)

@[simp] theorem perform_session : (x.perform cfg o r).ctx.toSession =
    (semantics cfg.onMessage).effect o r x.ctx.toSession := by
  unfold Cell.perform
  split <;> rfl

@[simp] theorem perform_created : (x.perform cfg o r).created = x.created := by
  unfold Cell.perform
  split <;> rfl

@[simp] theorem perform_fd : (x.perform cfg o r).ctx.fd = x.ctx.fd := by
  unfold Cell.perform
  split <;> rfl

theorem perform_refCount : (x.perform cfg o r).ctx.refCount =
    x.ctx.refCount-(if o = .release then 1 else 0) := by
  unfold Cell.perform
  split <;> simp [ConnectionContext.dropRef]

/-- Only the release of the last reference deletes the context. -/
theorem perform_deletes (h : o = .release → x.ctx.refCount ≠ 1) :
    (x.perform cfg o r).deletes = x.deletes := by
  unfold Cell.perform
  split_ifs with ho
  · simp [ConnectionContext.lastRef,h ho]
  · rfl

end Perform

def Cell.Permits (cfg : Config) (x : Cell) (o : Op) (r : o.Res) : Prop :=
  (semantics cfg.onMessage).Permits x.ctx.toSession o r

/-- The task of a worker whose next operation is `o`. -/
def State.work (cfg : Config) (s : State N) (w : Fin N) (answer : (o : Op) → o.Res) : State N :=
  match s.pool.workers w with
  | .running t =>
      match t.code with
      | .op o k =>
          let r := answer o
          let x := s.heap t.conn
          let y := x.perform cfg o r
          { s with
            pool := s.pool.next (Task.start cfg) (.advance w (t.advance (k r) o r))
            kernel := s.kernel.perform x.ctx.fd t.conn o r
            heap := Function.update s.heap t.conn y
            trace := s.trace++[(t.conn,.op o r y.ctx.toSession)] }
      | .ret _ => s
  | _ => s

/-- `JobHandler` catches whatever the job threw and goes on. -/
def State.finish (cfg : Config) (s : State N) (w : Fin N) : State N :=
  match s.pool.workers w with
  | .running t =>
      match t.code with
      | .ret outcome =>
          { s with
            pool := s.pool.next (Task.start cfg) (.finish w outcome)
            trace := s.trace++[(t.conn,.finished outcome t)] }
      | .op _ _ => s
  | _ => s

def State.canWork (cfg : Config) (s : State N) (w : Fin N) (answer : (o : Op) → o.Res) : Prop :=
  match s.pool.workers w with
  | .running t =>
      match t.code with
      | .op o _ =>
          (s.heap t.conn).Permits cfg o (answer o) ∧
          s.kernel.Permits (s.heap t.conn).ctx.fd
            ((s.heap t.conn).ctx.room cfg.bufferSize) o (answer o)
      | .ret _ => False
  | _ => False

def State.canFinish (s : State N) (w : Fin N) : Prop :=
  match s.pool.workers w with
  | .running t =>
      match t.code with
      | .ret _ => True
      | .op _ _ => False
  | _ => False

/-- What it takes for a worker to perform an operation. -/
theorem canWork_cases {cfg : Config} {s : State N} {w : Fin N} {answer : (o : Op) → o.Res}
    (h : s.canWork cfg w answer) : ∃ t o k, s.pool.workers w = .running t ∧ t.code = .op o k ∧
      (s.heap t.conn).Permits cfg o (answer o) ∧
      s.kernel.Permits (s.heap t.conn).ctx.fd
        ((s.heap t.conn).ctx.room cfg.bufferSize) o (answer o) := by
  unfold State.canWork at h
  split at h
  case h_1 t hw =>
    split at h
    case h_1 o k hcode => exact ⟨t,o,k,hw,hcode,h⟩
    case h_2 => exact h.elim
  case h_2 => exact h.elim

theorem work_eq {cfg : Config} {s : State N} {w : Fin N} {answer : (o : Op) → o.Res}
    {t : Task} {o : Op} {k : o.Res → Code} (hw : s.pool.workers w = .running t)
    (hcode : t.code = .op o k) : s.work cfg w answer =
      { s with
        pool := s.pool.setWorker w (.running (t.advance (k (answer o)) o (answer o)))
        kernel := s.kernel.perform (s.heap t.conn).ctx.fd t.conn o (answer o)
        heap := Function.update s.heap t.conn ((s.heap t.conn).perform cfg o (answer o))
        trace := s.trace++[(t.conn,.op o (answer o)
          ((s.heap t.conn).perform cfg o (answer o)).ctx.toSession)] } := by
  unfold State.work
  rw [hw]
  simp only
  rw [hcode]
  rfl

theorem canFinish_cases {s : State N} {w : Fin N} (h : s.canFinish w) :
    ∃ t outcome, s.pool.workers w = .running t ∧ t.code = .ret outcome := by
  unfold State.canFinish at h
  split at h
  case h_1 t hw =>
    split at h
    case h_1 outcome hcode => exact ⟨t,outcome,hw,hcode⟩
    case h_2 => exact h.elim
  case h_2 => exact h.elim

theorem finish_eq {cfg : Config} {s : State N} {w : Fin N} {t : Task} {outcome : Outcome}
    (hw : s.pool.workers w = .running t) (hcode : t.code = .ret outcome) : s.finish cfg w =
      { s with
        pool := s.pool.setWorker w .awake
        trace := s.trace++[(t.conn,.finished outcome t)] } := by
  unfold State.finish
  rw [hw]
  simp only
  rw [hcode]
  cases outcome <;> rfl

def State.ready (cfg : Config) (s : State N) : Action N → Prop
  | .epollWait ready => s.loop.pos = .fetch ∧ s.loop.batch = [] ∧ ready.Nodup ∧
      ready.length ≤ cfg.maxEvents ∧ ∀ e ∈ ready, s.kernel.isReady e = true
  | .epollError _ => s.loop.pos = .fetch ∧ s.loop.batch = []
  | .accept fd => s.loop.pos = .fetch ∧ s.loop.batch.head? = some .listen ∧
      ∀ f ∈ fd, s.kernel.owner f = none
  | .setNonblocking => s.loop.pos = .setNonblocking
  | .onConnection outcome => s.loop.pos = .onConnection ∧
      (cfg.onConnection = false → outcome = .returned)
  | .create => s.loop.pos = .create
  | .add ok => s.loop.pos = .add ∧
      (ok = true → (s.kernel.owner (s.fd s.loop.conn)).isSome = true ∧
        s.kernel.epoll (s.fd s.loop.conn) = none)
  | .delete => s.loop.pos = .delete
  | .close => s.loop.pos = .close
  | .addRef => s.loop.pos = .fetch ∧ ∃ c, s.loop.batch.head? = some (.ctx c)
  | .submit => s.loop.pos = .submit ∧ s.pool.enabled (.emplace () s.loop.conn)
  | .notify woken => s.loop.pos = .notify ∧ s.pool.enabled (.notifyOne () woken)
  | .look w => s.pool.enabled (.look w)
  | .wake w => s.pool.enabled (.wake w)
  | .invoke w => s.pool.enabled (.invoke w)
  | .work w answer => s.canWork cfg w answer
  | .finish w => s.canFinish w
  | .destroyMessage => s.teardown = .alive
  | .destroyConnection => s.teardown = .messageDestroyed
  | .setStop => s.teardown = .connectionDestroyed ∧ s.pool.enabled .setStop
  | .notifyAll => s.pool.enabled .notifyAll
  | .join => s.pool.enabled .join

def State.record (s : State N) (c : ConnId) (e : Event) : State N :=
  {s with trace := s.trace++[(c,e)]}

def State.goto (s : State N) (pos : Position) : State N :=
  {s with loop := {s.loop with pos := pos}}

def State.setCell (s : State N) (c : ConnId) (x : Cell) : State N :=
  {s with heap := Function.update s.heap c x}

def State.setPool (s : State N) (pool : Pool Unit ConnId Task N) : State N :=
  {s with pool := pool}

def State.setKernel (s : State N) (kernel : Kernel) : State N :=
  {s with kernel := kernel}

/-- `accept` returned: a new connection, or an error after which the loop continues. -/
def State.accept (s : State N) : Option Fd → State N
  | none => {s with loop := {s.loop with batch := s.loop.batch.tail}}
  | some fd =>
      { s.record s.accepted .accepted with
        loop := ⟨.setNonblocking,s.accepted,s.loop.batch.tail⟩
        kernel := s.kernel.accept fd s.accepted
        accepted := s.accepted+1
        fd := Function.update s.fd s.accepted fd }

/-- `if (on_connection_) on_connection_(conn_fd)`. An exception leaves the
thread function, which ends the process. -/
def State.callConnection (cfg : Config) (s : State N) (outcome : Outcome) : State N :=
  if cfg.onConnection then
    {(s.record s.loop.conn .onConnection).goto .create with
      aborted := decide (outcome = .threw)}
  else s.goto .create

/-- `new ConnectionContext(conn_fd)`. -/
def State.create (cfg : Config) (s : State N) : State N :=
  ((s.setCell s.loop.conn ⟨.new cfg.bufferSize (s.fd s.loop.conn),true,0⟩).record
    s.loop.conn .created).goto .add

def State.add (s : State N) (ok : Bool) : State N :=
  if ok then
    ((s.setKernel (s.kernel.arm (s.fd s.loop.conn) s.loop.conn)).record
      s.loop.conn (.added true)).goto .fetch
  else (s.record s.loop.conn (.added false)).goto .delete

def State.delete (s : State N) : State N :=
  let x := s.heap s.loop.conn
  ((s.setCell s.loop.conn {x with deletes := x.deletes+1}).record
    s.loop.conn .deleted).goto .close

def State.close (s : State N) : State N :=
  ((s.setKernel (s.kernel.close (s.fd s.loop.conn))).record s.loop.conn .closed).goto .fetch

/-- `ctx->add_ref()` for the first event of the batch. -/
def State.addRef (s : State N) : State N :=
  match s.loop.batch with
  | .ctx c::batch =>
      {(s.setCell c {s.heap c with ctx := (s.heap c).ctx.addRef}).record c .addRef with
        loop := ⟨.submit,c,batch⟩}
  | _ => s

def State.next (cfg : Config) (s : State N) : Action N → State N
  | .epollWait ready => { s with
      kernel := s.kernel.deliver ready
      loop := {s.loop with batch := ready.map s.kernel.tag} }
  | .epollError interrupted => s.goto (if interrupted then .fetch else .exited)
  | .accept fd => s.accept fd
  | .setNonblocking => s.goto .onConnection
  | .onConnection outcome => s.callConnection cfg outcome
  | .create => s.create cfg
  | .add ok => s.add ok
  | .delete => s.delete
  | .close => s.close
  | .addRef => s.addRef
  | .submit => (s.setPool (s.pool.next (Task.start cfg) (.emplace () s.loop.conn))).goto .notify
  | .notify woken =>
      (s.setPool (s.pool.next (Task.start cfg) (.notifyOne () woken))).goto .fetch
  | .look w => s.setPool (s.pool.next (Task.start cfg) (.look w))
  | .wake w => s.setPool (s.pool.next (Task.start cfg) (.wake w))
  | .invoke w => s.setPool (s.pool.next (Task.start cfg) (.invoke w))
  | .work w answer => s.work cfg w answer
  | .finish w => s.finish cfg w
  | .destroyMessage => {s with teardown := .messageDestroyed}
  | .destroyConnection => {s with teardown := .connectionDestroyed}
  | .setStop => s.setPool (s.pool.next (Task.start cfg) .setStop)
  | .notifyAll => s.setPool (s.pool.next (Task.start cfg) .notifyAll)
  | .join => s.setPool (s.pool.next (Task.start cfg) .join)

def State.enabled (cfg : Config) (s : State N) (a : Action N) : Prop :=
  s.aborted = false ∧ s.ready cfg a

/-- The server with `N` workers. -/
def system (N : ℕ) (cfg : Config) : System (State N) (Action N) :=
  System.guarded (fun s => s = State.initial N) (State.enabled cfg) (State.next cfg)

/-- `HttpServerImpl` with the sizes of `common.h`. -/
abbrev httpServerImpl : System (State threadPoolSize) (Action threadPoolSize) :=
  system threadPoolSize .standard

/-! ## Decidability -/

instance : (o : Op) → DecidableEq o.Res
  | .loadClosed | .exchangeClosed | .parse | .testOnMessage | .epollMod =>
      inferInstanceAs (DecidableEq Bool)
  | .read => inferInstanceAs (DecidableEq ReadResult)
  | .loadBytesRead => inferInstanceAs (DecidableEq ℕ)
  | .onMessage => inferInstanceAs (DecidableEq Outcome)
  | .storeClosed | .advance _ | .terminate | .epollDel | .close | .release =>
      inferInstanceAs (DecidableEq Unit)

instance (k : Kernel) (fd : Fd) (room : ℕ) :
    (o : Op) → (r : o.Res) → Decidable (k.Permits fd room o r)
  | .read, .data bytes =>
      inferInstanceAs (Decidable ((k.owner fd).isSome = true ∧ bytes.length ≤ room))
  | .read, .error e => inferInstanceAs (Decidable (e = .badf ↔ k.owner fd = none))
  | .epollMod, ok => inferInstanceAs (Decidable (ok = true → (k.epoll fd).isSome = true))
  | .loadClosed, _ | .storeClosed, _ | .exchangeClosed, _ | .advance _, _ | .terminate, _
  | .parse, _ | .loadBytesRead, _ | .testOnMessage, _ | .onMessage, _ | .epollDel, _
  | .close, _ | .release, _ => inferInstanceAs (Decidable True)

instance (cfg : Config) (x : Cell) (o : Op) (r : o.Res) : Decidable (x.Permits cfg o r) :=
  inferInstanceAs (Decidable (∀ h : (semantics cfg.onMessage).external o = false,
    r = (semantics cfg.onMessage).known o h x.ctx.toSession))

instance (cfg : Config) (s : State N) (w : Fin N) (answer : (o : Op) → o.Res) :
    Decidable (s.canWork cfg w answer) :=
  match hw : s.pool.workers w with
  | .running t =>
      match hcode : t.code with
      | .op o k => decidable_of_iff ((s.heap t.conn).Permits cfg o (answer o) ∧
          s.kernel.Permits (s.heap t.conn).ctx.fd
            ((s.heap t.conn).ctx.room cfg.bufferSize) o (answer o))
          (by simp only [State.canWork,hw,hcode])
      | .ret _ => isFalse (by simp only [State.canWork,hw,hcode,not_false_eq_true])
  | .awake | .blocked | .holding _ | .notifying _ | .exited =>
      isFalse (by simp only [State.canWork,hw,not_false_eq_true])

instance (s : State N) (w : Fin N) : Decidable (s.canFinish w) :=
  match hw : s.pool.workers w with
  | .running t =>
      match hcode : t.code with
      | .ret _ => isTrue (by simp only [State.canFinish,hw,hcode])
      | .op _ _ => isFalse (by simp only [State.canFinish,hw,hcode,not_false_eq_true])
  | .awake | .blocked | .holding _ | .notifying _ | .exited =>
      isFalse (by simp only [State.canFinish,hw,not_false_eq_true])

instance (batch : List Tag) : Decidable (∃ c, batch.head? = some (.ctx c)) :=
  match batch with
  | .ctx c::_ => isTrue ⟨c,rfl⟩
  | [] | .listen::_ => isFalse (by simp)

instance (cfg : Config) (s : State N) : (a : Action N) → Decidable (s.ready cfg a)
  | .epollWait ready => inferInstanceAs (Decidable (s.loop.pos = .fetch ∧ s.loop.batch = [] ∧
      ready.Nodup ∧ ready.length ≤ cfg.maxEvents ∧ ∀ e ∈ ready, s.kernel.isReady e = true))
  | .epollError _ => inferInstanceAs (Decidable (s.loop.pos = .fetch ∧ s.loop.batch = []))
  | .accept fd => inferInstanceAs (Decidable (s.loop.pos = .fetch ∧
      s.loop.batch.head? = some .listen ∧ ∀ f ∈ fd, s.kernel.owner f = none))
  | .setNonblocking => inferInstanceAs (Decidable (s.loop.pos = .setNonblocking))
  | .onConnection outcome => inferInstanceAs (Decidable (s.loop.pos = .onConnection ∧
      (cfg.onConnection = false → outcome = .returned)))
  | .create => inferInstanceAs (Decidable (s.loop.pos = .create))
  | .add ok => inferInstanceAs (Decidable (s.loop.pos = .add ∧
      (ok = true → (s.kernel.owner (s.fd s.loop.conn)).isSome = true ∧
        s.kernel.epoll (s.fd s.loop.conn) = none)))
  | .delete => inferInstanceAs (Decidable (s.loop.pos = .delete))
  | .close => inferInstanceAs (Decidable (s.loop.pos = .close))
  | .addRef => inferInstanceAs (Decidable (s.loop.pos = .fetch ∧
      ∃ c, s.loop.batch.head? = some (.ctx c)))
  | .submit => inferInstanceAs (Decidable (s.loop.pos = .submit ∧
      s.pool.enabled (.emplace () s.loop.conn)))
  | .notify woken => inferInstanceAs (Decidable (s.loop.pos = .notify ∧
      s.pool.enabled (.notifyOne () woken)))
  | .look w => inferInstanceAs (Decidable (s.pool.enabled (.look w)))
  | .wake w => inferInstanceAs (Decidable (s.pool.enabled (.wake w)))
  | .invoke w => inferInstanceAs (Decidable (s.pool.enabled (.invoke w)))
  | .work w answer => inferInstanceAs (Decidable (s.canWork cfg w answer))
  | .finish w => inferInstanceAs (Decidable (s.canFinish w))
  | .destroyMessage => inferInstanceAs (Decidable (s.teardown = .alive))
  | .destroyConnection => inferInstanceAs (Decidable (s.teardown = .messageDestroyed))
  | .setStop => inferInstanceAs (Decidable (s.teardown = .connectionDestroyed ∧
      s.pool.enabled .setStop))
  | .notifyAll => inferInstanceAs (Decidable (s.pool.enabled .notifyAll))
  | .join => inferInstanceAs (Decidable (s.pool.enabled .join))

instance (cfg : Config) (s : State N) (a : Action N) : Decidable (s.enabled cfg a) :=
  inferInstanceAs (Decidable (s.aborted = false ∧ s.ready cfg a))

/-! ## Disciplines -/

/-- The message callback returns normally. -/
def MessageReturns : Discipline (State N) (Action N)
  | _, .work _ answer => answer .onMessage = .returned
  | _, _ => True

/-- Both callbacks return normally. -/
def CallbacksReturn : Discipline (State N) (Action N)
  | _, .work _ answer => answer .onMessage = .returned
  | _, .onConnection outcome => outcome = .returned
  | _, _ => True

theorem CallbacksReturn.message {s : State N} {a : Action N} (h : CallbacksReturn s a) :
    MessageReturns s a := by
  cases a <;> first | exact h | trivial

instance (s : State N) : (a : Action N) → Decidable (CallbacksReturn s a)
  | .work _ answer => inferInstanceAs (Decidable (answer .onMessage = .returned))
  | .onConnection outcome => inferInstanceAs (Decidable (outcome = .returned))
  | .epollWait _ | .epollError _ | .accept _ | .setNonblocking | .create | .add _ | .delete
  | .close | .addRef | .submit | .notify _ | .look _ | .wake _ | .invoke _ | .finish _
  | .destroyMessage | .destroyConnection | .setStop | .notifyAll | .join =>
      inferInstanceAs (Decidable True)

/-! ## Scripts -/

/-- A connection is accepted under descriptor `fd`, and `EPOLL_CTL_ADD` answers `ok`. -/
def acceptScript (fd : Fd) (ok : Bool) : List (Action N) :=
  [.epollWait [.listen],.accept (some fd),.setNonblocking,.onConnection .returned,.create,.add ok]

/-- The event of descriptor `fd` is dispatched while no worker is blocked, and
worker `w` starts the job. -/
def dispatchScript (fd : Fd) (w : Fin N) : List (Action N) :=
  [.epollWait [.conn fd],.addRef,.submit,.notify none,.look w,.invoke w]

/-- Worker `w` performs `n` operations. -/
def workScript (n : ℕ) (w : Fin N) (answer : (o : Op) → o.Res) : List (Action N) :=
  List.replicate n (.work w answer)

theorem reach_of_script {G : Discipline (State N) (Action N)} [∀ s a, Decidable (G s a)]
    (cfg : Config) (as : List (Action N)) (p : State N → Bool)
    (h : (execute (fun s a => G s a ∧ s.enabled cfg a) (State.next cfg)
      (State.initial N) as).any p = true) :
    ∃ s, (system N cfg).Reach G s ∧ p s = true :=
  execute_reach (fun s => s = State.initial N) (fun _ _ hc => hc) rfl h

end WebServer.Server
