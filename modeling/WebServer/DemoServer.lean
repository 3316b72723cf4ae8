import WebServer.EventTags
import WebServer.ResponseWriting

/-!
# The context-per-event server

`demo/test.cc` keeps no table of its connections. Its main loop takes a
descriptor out of an event and makes a new context for it; the task that gets
the context reads once and either closes the connection or arms it again. The
loop registers a connection through `data.fd`, the task through `data.ptr`.

`HttpRequest::parse` and `build_response` are those of the library. A task owns
the context it was given, and no other task refers to it, since the loop never
takes a pointer out of an event. What events and tasks there are is an unordered
collection: any of them may be next.
-/
namespace WebServer.DemoServer
open RequestParsing Response Contexts Interaction TransitionSystem EventTags
open Server (ConnId)
open Handler (ReadResult)
open ResponseWriting (WriteResult)

/-! ## The task -/

structure ConnectionContext where
  fd : CInt
  buffer : Bytes
  bytesRead : ℕ
  request : HttpRequest
  deriving DecidableEq

/-- `ConnectionContext(fd)`. -/
def ConnectionContext.new (size : ℕ) (fd : CInt) : ConnectionContext :=
  ⟨fd,List.replicate size 0,0,.empty⟩

inductive Op where
  | read
  | advance (n : ℕ)
  | terminate
  | parse
  | loadRequest
  | write (response : Bytes)
  | loadBytesRead
  | epollDel
  | epollMod
  | close
  | delete
  deriving DecidableEq

@[reducible] def Op.Res : Op → Type
  | .read => ReadResult
  | .parse | .epollMod => Bool
  | .loadRequest => HttpRequest
  | .write _ => WriteResult
  | .loadBytesRead => ℕ
  | .advance _ | .terminate | .epollDel | .close | .delete => Unit

abbrev Code := Program Op Op.Res Unit

/-- `delete ctx; return;` -/
def leave : Code := .op .delete fun _ => .ret ()

/-- The tail of the task, from the test of `should_close` on. -/
def conclude (shouldClose shouldRead : Bool) : Code :=
  if shouldClose then .op .epollDel fun _ => .op .close fun _ => leave
  else if shouldRead then .op .epollMod fun ok => if ok then .ret () else leave
  else .op .close fun _ => leave

/-- The branch of a read that returned `bytes`. A failed `write` is only reported. -/
def receive (size : ℕ) (bytes : Bytes) : Code :=
  .op (.advance bytes.length) fun _ =>
    .op .terminate fun _ =>
      .op .parse fun complete =>
        if complete then
          .op .loadRequest fun request =>
            .op (.write (buildResponse request)) fun _ => conclude true false
        else
          .op .loadBytesRead fun n =>
            if size-1 ≤ n then conclude true false else conclude false true

def afterRead (size : ℕ) : ReadResult → Code
  | .error .again => conclude false true
  | .error .badf => leave
  | .error .other => conclude true false
  | .data [] => conclude true false
  | .data (b::bs) => receive size (b::bs)

def handleClientTask (size : ℕ) : Code := .op .read fun n => afterRead size n

/-- What an operation does to the context of its task. -/
def ConnectionContext.perform (ctx : ConnectionContext) : (o : Op) → o.Res → ConnectionContext
  | .read, .data bytes => {ctx with buffer := store ctx.buffer ctx.bytesRead bytes}
  | .advance n, _ => {ctx with bytesRead := ctx.bytesRead+n}
  | .terminate, _ => {ctx with buffer := store ctx.buffer ctx.bytesRead [0]}
  | .parse, _ => {ctx with request := (ctx.request.parse (cString ctx.buffer)).2}
  | _, _ => ctx

/-- `BUFFER_SIZE - ctx->bytes_read - 1`. -/
def ConnectionContext.room (size : ℕ) (ctx : ConnectionContext) : ℕ :=
  toSize (size-ctx.bytesRead-1)

/-- What may be answered. The context fixes what the task finds in it; the kernel
may answer anything, but no more bytes than were asked for. -/
def ConnectionContext.Allows (size : ℕ) (ctx : ConnectionContext) : (o : Op) → o.Res → Prop
  | .read, .data bytes => bytes.length ≤ ctx.room size
  | .parse, r => r = (ctx.request.parse (cString ctx.buffer)).1
  | .loadRequest, r => r = ctx.request
  | .loadBytesRead, r => r = ctx.bytesRead
  | _, _ => True

/-! ## The kernel -/

/-- Who registered an event: the loop by `EPOLL_CTL_ADD`, or the task of the context
at an address by `EPOLL_CTL_MOD`. -/
inductive Source where
  | add
  | mod (ctx : Address)
  deriving DecidableEq

/-- What the kernel hands back, and who left it there. -/
structure Registration where
  source : Source
  data : EpollData
  deriving DecidableEq

/-- A connection with all bytes that were read from it and all that were given to
`write` for it. An event disarms it, since `EPOLLONESHOT` is set. -/
structure Conn where
  fd : CInt
  isOpen : Bool
  received : Bytes
  responses : List Bytes
  armed : Option Registration

/-- A connection which has not been accepted yet. -/
def Conn.none : Conn := ⟨0,false,[],[],.none⟩

/-- What an operation on its descriptor does to a connection, for a task whose
context stands at `place`. -/
def Conn.perform (place : Address) (v : Conn) : (o : Op) → o.Res → Conn
  | .read, .data bytes => {v with received := v.received++bytes}
  | .write response, _ => {v with responses := v.responses++[response]}
  | .epollDel, _ => {v with armed := .none}
  | .epollMod, true => {v with armed := some ⟨.mod place,EpollData.zero.setPtr place⟩}
  | .close, _ => {v with isOpen := false, armed := .none}
  | _, _ => v

/-! ## The server -/

/-- An event which `epoll_wait` has returned, or a task that has something left to do. -/
inductive Work where
  | event (registration : Registration)
  | task (place : Address) (ctx : ConnectionContext) (code : Code)

/-- A piece of work and the connection it stems from. -/
structure Flight where
  conn : ConnId
  work : Work

/-- How an event was handled: its connection at that time, and the context made for
it. There is none if the event was taken for one of the listening socket. -/
structure Handling where
  conn : Conn
  ctx : Option ConnectionContext

structure State where
  conns : ConnId → Conn
  accepted : ConnId
  flights : Multiset Flight
  ev : EpollData
  handled : List Handling

/-- `ev` still holds the registration of the listening socket. -/
def State.initial (listenFd : CInt) : State :=
  ⟨fun _ => .none,0,0,EpollData.zero.setFd listenFd,[]⟩

/-- `if (fd == listen_fd)`, and otherwise the descriptor of the new context. -/
def decode (listenFd : CInt) (d : EpollData) : Option CInt :=
  if d.fd = listenFd then none else some d.fd

/-- What is left of a task, if anything is. -/
def remaining (place : Address) (ctx : ConnectionContext) : Code → Option Work
  | .ret _ => none
  | code => some (.task place ctx code)

/-- The task for an event. -/
def submit (size : ℕ) (place : Address) (fd : CInt) : Work :=
  .task place (.new size fd) (handleClientTask size)

/-- The flights after one of them has led to `next`. -/
def replaced (c : ConnId) (next : Option Work) (rest : Multiset Flight) : Multiset Flight :=
  match next with
  | none => rest
  | some work => ⟨c,work⟩ ::ₘ rest

inductive Action where
  | accept (fd : CInt) (ok : Bool)
  | deliver (c : ConnId)
  | dispatch (c : ConnId) (registration : Registration) (place : Address)
  | op (c : ConnId) (o : Op) (r : o.Res)

namespace State
variable (s : State)

/-- `accept` returned `fd`, and `EPOLL_CTL_ADD` answered `ok`. -/
def accept (fd : CInt) (ok : Bool) : State :=
  let ev := s.ev.setFd fd
  { s with
    conns := Function.update s.conns s.accepted
      ⟨fd,true,[],[],if ok then some ⟨.add,ev⟩ else none⟩
    accepted := s.accepted+1
    ev := ev }

def deliver (c : ConnId) (registration : Registration) : State :=
  { s with
    conns := Function.update s.conns c {s.conns c with armed := none}
    flights := replaced c (some (.event registration)) s.flights }

/-- The loop handles an event, with the new context at `place`. What is taken for an
event of the listening socket leads to a call of `accept`, which is a step of its own. -/
def dispatch (size : ℕ) (listenFd : CInt) (c : ConnId) (d : EpollData) (place : Address)
    (rest : Multiset Flight) : State :=
  { s with
    flights := replaced c ((decode listenFd d).map (submit size place)) rest
    handled := ⟨s.conns c,(decode listenFd d).map (.new size)⟩::s.handled }

/-- The kernel finds the connection by the descriptor. -/
def onFd (fd : CInt) (f : Conn → Conn) (c : ConnId) : Conn :=
  if (s.conns c).isOpen = true ∧ (s.conns c).fd = fd then f (s.conns c) else s.conns c

def perform (c : ConnId) (place : Address) (ctx : ConnectionContext) (o : Op) (r : o.Res)
    (code : Code) (rest : Multiset Flight) : State :=
  { s with
    conns := s.onFd ctx.fd fun v => v.perform place o r
    flights := replaced c (remaining place (ctx.perform o r) code) rest }

end State

/-- One step of the loop, of the kernel or of a task. -/
inductive Step (size : ℕ) (listenFd : CInt) : State → Action → State → Prop
  | accept {s : State} {fd : CInt} {ok : Bool} : 0 ≤ fd.toInt → fd ≠ listenFd →
      (∀ c, (s.conns c).isOpen = true → (s.conns c).fd ≠ fd) →
      Step size listenFd s (.accept fd ok) (s.accept fd ok)
  | deliver {s : State} {c : ConnId} {registration : Registration} :
      (s.conns c).armed = some registration →
      Step size listenFd s (.deliver c) (s.deliver c registration)
  | dispatch {s : State} {c : ConnId} {registration : Registration} {place : Address}
      {rest : Multiset Flight} : s.flights = ⟨c,.event registration⟩ ::ₘ rest →
      Step size listenFd s (.dispatch c registration place)
        (s.dispatch size listenFd c registration.data place rest)
  | op {s : State} {c : ConnId} {place : Address} {ctx : ConnectionContext} {o : Op}
      {k : o.Res → Code} {r : o.Res} {rest : Multiset Flight} :
      s.flights = ⟨c,.task place ctx (.op o k)⟩ ::ₘ rest → ctx.Allows size o r →
      Step size listenFd s (.op c o r) (s.perform c place ctx o r (k r) rest)

def server (size : ℕ) (listenFd : CInt) : System State Action :=
  ⟨fun s => s = .initial listenFd,Step size listenFd⟩

end WebServer.DemoServer
