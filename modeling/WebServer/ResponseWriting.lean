import WebServer.Response
import WebServer.RequestSplitting

/-!
# The default message callback and the socket

`OnMessage` hands the response to `write` once and looks at the result only to
tell a hard error from `EAGAIN`. The handler then closes the connection whatever
`write` has accepted. Here the callback is put in the place of the handler's
call, and the socket records the bytes it accepts.
-/
namespace WebServer.ResponseWriting
open RequestParsing Response Contexts Interaction Handler RequestSplitting
open ThreadPool (Outcome)

/-- What `write` returns: the number of bytes accepted, or -1 with `EAGAIN` or
with another error. -/
inductive WriteResult where
  | count (n : ℕ)
  | again
  | error
  deriving DecidableEq, Repr

/-- The part of a buffer which the socket accepts. A count is at most the length. -/
def WriteResult.accepted : WriteResult → Bytes → Bytes
  | .count n, bytes => bytes.take n
  | .again, _ => []
  | .error, _ => []

/-- The operations of a task that runs `OnMessage` itself. -/
inductive TaskOp where
  | handler (o : Op)
  | loadRequest
  | write (bytes : Bytes)

@[reducible] def TaskOp.Res : TaskOp → Type
  | .handler o => o.Res
  | .loadRequest => HttpRequest
  | .write _ => WriteResult

/-- `OnMessage(ctx->fd, ctx->request)`. The branch for a hard error is empty. -/
def onMessage : Program TaskOp TaskOp.Res Outcome :=
  .op .loadRequest fun request =>
    .op (.write (buildResponse request)) fun _ => .ret .returned

/-- The handler's operations, with the callback in its place. -/
def callbacks : (o : Op) → Program TaskOp TaskOp.Res o.Res
  | .onMessage => onMessage
  | o => .op (.handler o) .ret

def task (size : ℕ) : Program TaskOp TaskOp.Res Outcome :=
  (handleClientClient size).inline callbacks

/-- The session of a connection and its socket. `writes` counts the calls of
`write`, and `failed` tells whether one reported a hard error. -/
structure Served where
  session : Session
  accepted : Bytes
  writes : ℕ
  failed : Bool

/-- The `k`-th call of `write` on the connection returns `results k`. -/
def socket (results : ℕ → WriteResult) : Semantics TaskOp TaskOp.Res Served where
  external
    | .handler o => (semantics true).external o
    | .loadRequest | .write _ => false
  silent
    | .handler o => (semantics true).silent o
    | .loadRequest | .write _ => false
  silent_internal o h := by
    cases o with
    | handler o => exact (semantics true).silent_internal o h
    | loadRequest => rfl
    | write bytes => rfl
  known
    | .handler o, h, s => (semantics true).known o h s.session
    | .loadRequest, _, s => s.session.request
    | .write _, _, s => results s.writes
  effect
    | .handler o, r, s => {s with session := (semantics true).effect o r s.session}
    | .loadRequest, _, s => s
    | .write bytes, r, s =>
        { s with
          accepted := s.accepted++WriteResult.accepted r bytes
          writes := s.writes+1
          failed := s.failed || decide (r = .error) }

abbrev TaskTrace := List (Observation TaskOp TaskOp.Res Served)

def respond (n : ReadResult) (ok : Bool) : (o : TaskOp) → o.Res
  | .handler o => reply n false .returned ok o
  | .loadRequest => .empty
  | .write _ => .again

/-- One task, in which `read` answers `n` and `EPOLL_CTL_MOD` answers `ok`. -/
def serve (size : ℕ) (results : ℕ → WriteResult) (n : ReadResult) (ok : Bool) (s : Served) :
    TaskTrace × Served :=
  (socket results).run (respond n ok) (task size) s

/-- The requests with which a task called `OnMessage`. -/
def served (tr : TaskTrace) : List HttpRequest :=
  tr.filterMap fun e => match e with
    | ⟨.loadRequest,request,_⟩ => some request
    | _ => none

def isClose : TaskOp → Bool
  | .handler .close => true
  | _ => false

/-- The tasks of one connection, one after the other. -/
inductive Connection (size : ℕ) (results : ℕ → WriteResult) : Served → Prop
  | start : Connection size results ⟨.fresh size,[],0,false⟩
  | task {s : Served} (n : ReadResult) (ok : Bool) :
      Connection size results s → Connection size results (serve size results n ok s).2

/-- If the task that called `OnMessage` closes the connection, and no hard write
error was reported, the socket has accepted the whole response. -/
def Complete (e : TaskTrace × Served) : Prop :=
  ∀ request ∈ served e.1, (e.1.any fun o => isClose o.op) = true → e.2.failed = false →
    e.2.accepted = buildResponse request

/-- `write` accepts all of the bytes, or fails for good. -/
def WriteResult.Whole (bytes : Bytes) : WriteResult → Prop
  | .count n => bytes.length ≤ n
  | .again => False
  | .error => True

section
variable {size : ℕ} {results : ℕ → WriteResult} {s : Served} {n : ReadResult} {ok : Bool}
variable {bytes : Bytes}

/-- The read completes a request, so that the task calls `OnMessage`. -/
def Completes (s : Session) (n : ReadResult) : Prop :=
  ∃ bytes, n = .data bytes ∧ bytes ≠ [] ∧ s.closed = false ∧ (parsed s bytes).1 = true

theorem serve_message (size : ℕ) (results : ℕ → WriteResult) (ok : Bool)
    (h : s.session.closed = false) (hb : bytes ≠ []) (hp : (parsed s.session bytes).1 = true) :
    let e := serve size results (.data bytes) ok s
    let response := buildResponse (parsed s.session bytes).2
    served e.1 = [(parsed s.session bytes).2] ∧ (e.1.any fun o => isClose o.op) = true ∧
      e.2.session.closed = true ∧
      e.2.accepted = s.accepted++(results s.writes).accepted response ∧
      e.2.failed = (s.failed || decide (results s.writes = .error)) := by
  simp only [parsed,received] at hp
  simp [serve,task,handleClientClient,afterRead_data hb,receive,conclude,leave,
    Program.inline,Program.bind,callbacks,onMessage,Semantics.run,Semantics.answered,
    Semantics.observe,socket,semantics,respond,reply,served,isClose,parsed,received,h,hp]

/-- A task that finds the connection closed does nothing. -/
theorem serve_closed (size : ℕ) (results : ℕ → WriteResult) (n : ReadResult) (ok : Bool)
    (h : s.session.closed = true) :
    served (serve size results n ok s).1 = [] ∧ (serve size results n ok s).2 = s := by
  simp [serve,task,handleClientClient,leave,Program.inline,Program.bind,callbacks,Semantics.run,
    Semantics.answered,Semantics.observe,socket,semantics,served,h]

/-- The execution `e` from `s` calls no `OnMessage` and leaves the socket alone. -/
structure Quiet (s : Served) (e : TaskTrace × Served) : Prop where
  served : served e.1 = []
  accepted : e.2.accepted = s.accepted
  writes : e.2.writes = s.writes
  failed : e.2.failed = s.failed

/-- No path of the code calls the callback. -/
abbrev Silent (c : Code) : Prop :=
  c.Within (fun _ _ _ => True) (fun _ o => o ≠ .onMessage) (fun q _ _ => q) ()

/-- An operation of the handler other than the callback touches the session only. -/
theorem quiet_op {answer : (o : TaskOp) → o.Res} {o : Op} {k : o.Res → Code}
    (ho : o ≠ .onMessage)
    (h : let r := (socket results).answered answer (.handler o) s
      let t := (socket results).effect (.handler o) r s
      Quiet t ((socket results).run answer ((k r).inline callbacks) t)) :
    Quiet s ((socket results).run answer ((Program.op o k).inline callbacks) s) := by
  have hcall : callbacks o = .op (.handler o) .ret := by
    cases o <;> first | rfl | exact (ho rfl).elim
  obtain ⟨hserved,haccepted,hwrites,hfailed⟩ := h
  simp only [Program.inline,hcall,Program.bind,Semantics.run]
  constructor
  · rw [served,List.filterMap_append]
    refine List.append_eq_nil_iff.mpr ⟨?_,hserved⟩
    unfold Semantics.observe
    split_ifs <;> rfl
  · exact haccepted
  · exact hwrites
  · exact hfailed

theorem quiet_of_silent {answer : (o : TaskOp) → o.Res} {c : Code} (h : Silent c) (s : Served) :
    Quiet s ((socket results).run answer (c.inline callbacks) s) := by
  induction c generalizing s with
  | ret outcome => exact ⟨rfl,rfl,rfl,rfl⟩
  | op o k ih => exact quiet_op h.guard (ih _ (h.step trivial) _)

theorem silent_leave : Silent leave := Program.within_op (by decide) fun _ _ => trivial

theorem silent_close : Silent (.op .close fun _ => leave) :=
  Program.within_op (by decide) fun _ _ => silent_leave

theorem silent_should_close : Silent (conclude true false) := by
  refine Program.within_op (by decide) fun wasClosed _ => ?_
  cases wasClosed with
  | true => exact silent_leave
  | false => exact Program.within_op (by decide) fun _ _ => silent_close

theorem silent_need_readd : Silent (conclude false true) := by
  refine Program.within_op (by decide) fun closed _ => ?_
  cases closed with
  | true => exact silent_leave
  | false =>
      refine Program.within_op (by decide) fun ok _ => ?_
      cases ok with
      | true => exact silent_leave
      | false => exact Program.within_op (by decide) fun _ _ => silent_close

/-- What follows a parse that has not recognised a request. -/
theorem silent_incomplete (size : ℕ) (c : Code) {complete : Bool} (h : complete = false) :
    Silent (if complete = true then c
      else .op .loadBytesRead fun n =>
        if size-1 ≤ n then conclude true false else conclude false true) := by
  subst h
  refine Program.within_op (by decide) fun n _ => ?_
  by_cases hfull : size-1 ≤ n
  · simpa only [if_pos hfull] using silent_should_close
  · simpa only [if_neg hfull] using silent_need_readd

/-- A task that does not call `OnMessage` leaves the socket alone. -/
theorem serve_quiet (size : ℕ) (results : ℕ → WriteResult) (ok : Bool)
    (h : ¬ Completes s.session n) : Quiet s (serve size results n ok s) := by
  refine quiet_op (by decide) ?_
  change Quiet s ((socket results).run (respond n ok) (Program.inline callbacks
    (if s.session.closed = true then leave else .op .read fun n => afterRead size n)) s)
  cases hc : s.session.closed with
  | true => exact quiet_of_silent silent_leave s
  | false =>
      refine quiet_op (by decide) ?_
      cases n with
      | error e =>
          cases e with
          | again => exact quiet_of_silent silent_need_readd s
          | badf => exact quiet_of_silent (Program.within_op (by decide) fun _ _ => silent_leave) s
          | other => exact quiet_of_silent silent_should_close s
      | data bytes =>
          cases bytes with
          | nil => exact quiet_of_silent silent_should_close _
          | cons b bs =>
              have hp : (parsed s.session (b::bs)).1 = false := by
                rw [← Bool.not_eq_true]
                exact fun hp => h ⟨_,rfl,List.cons_ne_nil b bs,hc,hp⟩
              refine quiet_op (by simp) (quiet_op (by decide) (quiet_op (by decide) ?_))
              exact quiet_of_silent (silent_incomplete size _ hp) _

/-- Until the connection is closed its socket is untouched. -/
theorem Connection.untouched (h : Connection size results s) (hs : s.session.closed = false) :
    s.accepted = [] ∧ s.writes = 0 ∧ s.failed = false := by
  induction h with
  | start => exact ⟨rfl,rfl,rfl⟩
  | @task s n ok _ ih =>
      cases hc : s.session.closed with
      | true =>
          rw [(serve_closed size results n ok hc).2,hc] at hs
          simp at hs
      | false =>
          by_cases hm : Completes s.session n
          · obtain ⟨bytes,rfl,hb,-,hp⟩ := hm
            rw [(serve_message size results ok hc hb hp).2.2.1] at hs
            simp at hs
          · obtain ⟨-,haccepted,hwrites,hfailed⟩ := serve_quiet size results ok hm
            rw [haccepted,hwrites,hfailed]
            exact ih hc

/-- A task of a connection leaves no response cut off exactly if it does not call
`OnMessage`, or the first call of `write` accepts the whole response or fails for good. -/
theorem response_complete_iff (h : Connection size results s) (n : ReadResult) (ok : Bool) :
    Complete (serve size results n ok s) ↔ ∀ bytes, n = .data bytes → Completes s.session n →
      (results 0).Whole (buildResponse (parsed s.session bytes).2) := by
  by_cases hm : Completes s.session n
  · obtain ⟨bytes,rfl,hb,hc,hp⟩ := id hm
    obtain ⟨haccepted,hwrites,hfailed⟩ := h.untouched hc
    obtain ⟨hserved,hclose,-,hbytes,hfail⟩ := serve_message size results ok hc hb hp
    rw [haccepted,hwrites,List.nil_append] at hbytes
    rw [hfailed,hwrites,Bool.false_or] at hfail
    simp only [Complete,hserved,hclose,hbytes,hfail,List.mem_singleton,forall_eq,true_implies,
      ReadResult.data.injEq,forall_eq',hm]
    cases results 0 with
    | count k => simp [WriteResult.accepted,WriteResult.Whole,List.take_eq_self_iff]
    | again => simp [WriteResult.accepted,WriteResult.Whole,buildResponse_ne_nil]
    | error => simp [WriteResult.Whole]
  · simp [Complete,(serve_quiet size results ok hm).served,hm]

end

/-- The socket accepts the response to the greeting in one piece. -/
theorem response_complete_iff_accepted :
    let response := buildResponse (parsed (.fresh bufferSize) greeting).2
    Complete (serve bufferSize (fun _ => .count response.length) (.data greeting) true
      ⟨.fresh bufferSize,[],0,false⟩) := by
  apply (response_complete_iff .start (.data greeting) true).mpr
  intro bytes hbytes _
  cases hbytes
  exact Nat.le_refl _

/-- The socket accepts the first hundred bytes only. -/
theorem not_everyResponseComplete : ¬ ∀ results s n ok, Connection bufferSize results s →
    Complete (serve bufferSize results n ok s) := by
  intro hall
  have hcomplete := hall (fun _ => .count 100) _ (.data greeting) true .start
  have hp : (parsed (.fresh bufferSize) greeting).1 = true := by decide +kernel
  have hfresh : (⟨.fresh bufferSize,[],0,false⟩ : Served).session.closed = false := rfl
  obtain ⟨hserved,hclose,-,haccepted,hfailed⟩ := serve_message bufferSize
    (fun _ => .count 100) true hfresh (by decide) hp
  have hwhole := hcomplete _ (by rw [hserved]; exact List.mem_singleton_self _) hclose
    (by rw [hfailed]; rfl)
  rw [haccepted] at hwhole
  have hlength := congrArg List.length hwhole
  revert hlength
  decide +kernel

end WebServer.ResponseWriting
