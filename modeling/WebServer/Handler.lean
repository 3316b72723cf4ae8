import WebServer.Contexts
import WebServer.Interaction
import WebServer.ThreadPool

/-!
# HttpServerImpl::HandleClientClient

The handler is a program over the operations it performs on the connection and
on the kernel. Each system call, each access to `closed` and `ref_count`, and
each access to the buffer, to `bytes_read` and to the request is an operation of
its own; the two flags `should_close` and `need_readd` are locals.

The protocol describes one call from the point of view of the connection: the
call owns it while reading, and gives it up by a successful `EPOLL_CTL_MOD` or
by `close`, after which only the final `release` may follow.
-/
namespace WebServer.Handler
open RequestParsing Contexts Interaction
open ThreadPool (Outcome)

/-- `EAGAIN` and `EWOULDBLOCK` are one number; every other error is `other`. -/
inductive Errno where
  | again | badf | other
  deriving DecidableEq, Repr

/-- A read of `n ≥ 0` bytes, which end of file makes empty, or the value -1. -/
inductive ReadResult where
  | data (bytes : Bytes)
  | error (errno : Errno)
  deriving DecidableEq, Repr

inductive Op where
  | loadClosed
  | storeClosed
  | exchangeClosed
  | read
  | advance (n : ℕ)
  | terminate
  | parse
  | loadBytesRead
  | testOnMessage
  | onMessage
  | epollDel
  | close
  | epollMod
  | release
  deriving DecidableEq, Repr

@[reducible] def Op.Res : Op → Type
  | .loadClosed | .exchangeClosed | .parse | .testOnMessage | .epollMod => Bool
  | .read => ReadResult
  | .loadBytesRead => ℕ
  | .onMessage => Outcome
  | .storeClosed | .advance _ | .terminate | .epollDel | .close | .release => Unit

abbrev Code := Program Op Op.Res Outcome

/-- `ctx->release(); return;` -/
def leave : Code := .op .release fun _ => .ret .returned

/-- The tail of the handler, from the test of `should_close` on. -/
def conclude (shouldClose needReadd : Bool) : Code :=
  if shouldClose then
    .op .exchangeClosed fun wasClosed =>
      if wasClosed then leave
      else .op .epollDel fun _ => .op .close fun _ => leave
  else if needReadd then
    .op .loadClosed fun closed =>
      if closed then leave
      else .op .epollMod fun ok =>
        if ok then leave
        else .op .storeClosed fun _ => .op .close fun _ => leave
  else leave

/-- The branch of a read that returned `bytes`, of which there is at least one.
An exception of the message callback leaves the handler at once. -/
def receive (size : ℕ) (bytes : Bytes) : Code :=
  .op (.advance bytes.length) fun _ =>
    .op .terminate fun _ =>
      .op .parse fun complete =>
        if complete then
          .op .testOnMessage fun set =>
            if set then
              .op .onMessage fun outcome =>
                match outcome with
                | .returned => conclude true false
                | .threw => .ret .threw
            else conclude true false
        else
          .op .loadBytesRead fun n =>
            if size-1 ≤ n then conclude true false else conclude false true

def afterRead (size : ℕ) : ReadResult → Code
  | .error .again => conclude false true
  | .error .badf => .op .storeClosed fun _ => leave
  | .error .other => conclude true false
  | .data [] => conclude true false
  | .data (b::bs) => receive size (b::bs)

def handleClientClient (size : ℕ) : Code :=
  .op .loadClosed fun closed =>
    if closed then leave else .op .read fun n => afterRead size n

/-- What one operation answers from and does to the session. Whether a message
callback is installed is fixed; the answers of `read`, of the callback and of
`EPOLL_CTL_MOD` come from outside. -/
def semantics (onMessage : Bool) : Semantics Op Op.Res Session where
  external
    | .read | .onMessage | .epollMod => true
    | _ => false
  silent
    | .release => true
    | _ => false
  silent_internal o h := by cases o <;> simp_all
  known
    | .loadClosed, _, s => s.closed
    | .exchangeClosed, _, s => s.closed
    | .parse, _, s => (s.request.parse (cString s.buffer)).1
    | .testOnMessage, _, _ => onMessage
    | .loadBytesRead, _, s => s.bytesRead
    | .storeClosed, _, _ => ()
    | .advance _, _, _ => ()
    | .terminate, _, _ => ()
    | .epollDel, _, _ => ()
    | .close, _, _ => ()
    | .release, _, _ => ()
  effect
    | .storeClosed, _, s => {s with closed := true}
    | .exchangeClosed, _, s => {s with closed := true}
    | .read, .data bytes, s => {s with buffer := store s.buffer s.bytesRead bytes}
    | .advance n, _, s => {s with bytesRead := s.bytesRead+n}
    | .terminate, _, s => {s with buffer := store s.buffer s.bytesRead [0]}
    | .parse, _, s => {s with request := (s.request.parse (cString s.buffer)).2}
    | _, _, s => s

/-- An environment that answers every operation. -/
def reply (n : ReadResult) (complete : Bool) (outcome : Outcome) (ok : Bool) :
    (o : Op) → o.Res
  | .loadClosed | .exchangeClosed => false
  | .read => n
  | .parse => complete
  | .testOnMessage => true
  | .loadBytesRead => 0
  | .onMessage => outcome
  | .epollMod => ok
  | .storeClosed | .advance _ | .terminate | .epollDel | .close | .release => ()

/-- The operations of a call that is still reading and decides nothing. -/
def Op.inside : Op → Bool
  | .loadClosed | .read | .advance _ | .terminate | .parse | .loadBytesRead
  | .testOnMessage => true
  | _ => false

/-- Where one call stands with respect to its connection. It owns the
connection up to `closing`; `handed` means that it has given the connection up. -/
inductive Phase where
  | reading | served | failed | closing | handed | released | threw
  deriving DecidableEq, Repr

/-- A call in charge sees `closed` clear and its descriptor open. -/
def protocol : Protocol Op Op.Res Phase where
  allowed _
    | .loadClosed, r => r = false
    | .exchangeClosed, r => r = false
    | .read, r => r ≠ .error .badf
    | _, _ => True
  next
    | .reading, .loadClosed, _ => some .reading
    | .reading, .read, _ => some .reading
    | .reading, .advance _, _ => some .reading
    | .reading, .terminate, _ => some .reading
    | .reading, .parse, _ => some .reading
    | .reading, .loadBytesRead, _ => some .reading
    | .reading, .testOnMessage, _ => some .reading
    | .reading, .onMessage, .returned => some .served
    | .reading, .onMessage, .threw => some .threw
    | .reading, .exchangeClosed, _ => some .closing
    | .served, .exchangeClosed, _ => some .closing
    | .reading, .epollMod, true => some .handed
    | .reading, .epollMod, false => some .failed
    | .failed, .storeClosed, _ => some .closing
    | .closing, .epollDel, _ => some .closing
    | .closing, .close, _ => some .handed
    | .handed, .release, _ => some .released
    | _, _, _ => none

/-- The moves of the control, without the operations that it rules out. -/
inductive Turn : Phase → (o : Op) → o.Res → Phase → Prop
  | inside {o : Op} {r : o.Res} (h : o.inside = true) : Turn .reading o r .reading
  | returned : Turn .reading .onMessage .returned .served
  | threw : Turn .reading .onMessage .threw .threw
  | exchange {q : Phase} (hq : q = .reading ∨ q = .served) (r : Bool) :
      Turn q .exchangeClosed r .closing
  | rearm : Turn .reading .epollMod true .handed
  | fail : Turn .reading .epollMod false .failed
  | store : Turn .failed .storeClosed () .closing
  | remove : Turn .closing .epollDel () .closing
  | close : Turn .closing .close () .handed
  | release : Turn .handed .release () .released

theorem turn_of_next {q q' : Phase} {o : Op} {r : o.Res}
    (h : protocol.next q o r = some q') : Turn q o r q' := by
  cases q <;> cases o <;> simp only [protocol,reduceCtorEq,Option.some.injEq] at h
  all_goals first
    | subst h
    | skip
  case reading.onMessage =>
    cases r <;> simp only [Option.some.injEq] at h <;> subst h <;> constructor
  case reading.epollMod =>
    cases r <;> simp only [Option.some.injEq] at h <;> subst h <;> constructor
  case reading.exchangeClosed => exact .exchange (.inl rfl) r
  case served.exchangeClosed => exact .exchange (.inr rfl) r
  all_goals first
    | exact .inside rfl
    | constructor

/-- A call ends after its release, or at once by an exception. -/
def final : Phase → Outcome → Prop
  | .released, .returned => True
  | .threw, .threw => True
  | _, _ => False

abbrev Obeys (p : Code) (q : Phase) : Prop := p.Obeys protocol final q

/-- In every control state every operation has an answer which is allowed. -/
theorem exists_allowed (q : Phase) (o : Op) : ∃ r, protocol.allowed q o r := by
  cases o
  case loadClosed => exact ⟨false,rfl⟩
  case exchangeClosed => exact ⟨false,rfl⟩
  case read => exact ⟨.data [],by simp [protocol]⟩
  case parse => exact ⟨false,trivial⟩
  case loadBytesRead => exact ⟨0,trivial⟩
  case testOnMessage => exact ⟨false,trivial⟩
  case onMessage => exact ⟨.returned,trivial⟩
  case epollMod => exact ⟨false,trivial⟩
  all_goals exact ⟨(),trivial⟩

/-- A call that is not over performs an operation on which its control moves. -/
theorem obeys_op {o : Op} {k : o.Res → Code} {q : Phase} (h : Obeys (.op o k) q) :
    ∃ r q', Turn q o r q' ∧ Obeys (k r) q' := by
  obtain ⟨r,hr⟩ := exists_allowed q o
  obtain ⟨q',hn,hk⟩ := h r hr
  exact ⟨r,q',turn_of_next hn,hk⟩

theorem eq_ret_of_obeys {c : Code} {q : Phase} (hq : q = .released ∨ q = .threw)
    (h : Obeys c q) : ∃ outcome, c = .ret outcome := by
  cases c with
  | ret outcome => exact ⟨outcome,rfl⟩
  | op o k =>
      obtain ⟨r,q',ht,-⟩ := obeys_op h
      rcases hq with rfl | rfl <;> cases ht <;> simp_all

/-- A call which has given the connection up only releases its reference. -/
theorem eq_release_of_obeys {c : Code} (h : Obeys c .handed) :
    ∃ k, c = .op .release k ∧ k () = .ret .returned := by
  cases c with
  | ret outcome => cases outcome <;> exact h.elim
  | op o k =>
      obtain ⟨r,q',ht,hk⟩ := obeys_op h
      cases ht with
      | exchange hq => simp_all
      | release =>
          refine ⟨k,rfl,?_⟩
          obtain ⟨outcome,hc⟩ := eq_ret_of_obeys (.inl rfl) hk
          rw [hc] at hk ⊢
          cases outcome with
          | returned => rfl
          | threw => exact hk.elim

theorem obeys_leave : Obeys leave .handed := fun _ _ => ⟨.released,rfl,trivial⟩

theorem obeys_close : Obeys (.op .close fun _ => leave) .closing :=
  fun _ _ => ⟨.handed,rfl,obeys_leave⟩

theorem obeys_should_close {q : Phase} (hq : q = .reading ∨ q = .served) :
    Obeys (conclude true false) q := by
  intro was hwas
  have hf : was = false := hwas
  subst hf
  refine ⟨.closing,?_,fun _ _ => ⟨.closing,rfl,obeys_close⟩⟩
  rcases hq with rfl | rfl <;> rfl

theorem obeys_need_readd : Obeys (conclude false true) .reading := by
  intro closed hclosed
  have hf : closed = false := hclosed
  subst hf
  refine ⟨.reading,rfl,fun ok _ => ?_⟩
  cases ok with
  | true => exact ⟨.handed,rfl,obeys_leave⟩
  | false => exact ⟨.failed,rfl,fun _ _ => ⟨.closing,rfl,obeys_close⟩⟩

theorem obeys_receive (size : ℕ) (bytes : Bytes) : Obeys (receive size bytes) .reading := by
  refine fun _ _ => ⟨.reading,rfl,fun _ _ => ⟨.reading,rfl,fun complete _ => ⟨.reading,rfl,?_⟩⟩⟩
  cases complete with
  | true =>
      refine fun set _ => ⟨.reading,rfl,?_⟩
      cases set with
      | true =>
          intro outcome _
          cases outcome with
          | returned => exact ⟨.served,rfl,obeys_should_close (.inr rfl)⟩
          | threw => exact ⟨.threw,rfl,trivial⟩
      | false => exact obeys_should_close (.inl rfl)
  | false =>
      refine fun n _ => ⟨.reading,rfl,?_⟩
      by_cases hn : size-1 ≤ n
      · simpa only [if_pos hn] using obeys_should_close (.inl rfl)
      · simpa only [if_neg hn] using obeys_need_readd

/-- Every path of the handler follows the protocol. -/
theorem handleClientClient_obeys (size : ℕ) : Obeys (handleClientClient size) .reading := by
  intro closed hclosed
  have hf : closed = false := hclosed
  subst hf
  refine ⟨.reading,rfl,fun n hn => ⟨.reading,rfl,?_⟩⟩
  cases n with
  | error e =>
      cases e with
      | again => exact obeys_need_readd
      | badf => exact (hn rfl).elim
      | other => exact obeys_should_close (.inl rfl)
  | data bytes =>
      cases bytes with
      | nil => exact obeys_should_close (.inl rfl)
      | cons b bs => exact obeys_receive size (b::bs)

end WebServer.Handler
