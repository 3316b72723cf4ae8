import WebServer.ReceiveBuffer
import WebServer.RequestSplitting
import WebServer.SequentialService

/-!
# The outcome of a connection under concurrency

What a connection leads to is decided by the bytes which its reads have returned,
whatever the other connections do and however the workers interleave. On the way
`on_message_` is called with nothing but the request which these bytes begin with;
where the descriptor has been closed the calls are exactly the outcome of these
bytes, and if there was no call then the buffer is full, the peer has finished, or
a system call has failed. Whenever no task is in charge the buffer holds these bytes.
Faults of other connections do not matter: the pool catches what their callbacks throw.

What a call has done so far is the control of the handler. It is read off the
observations of the connection.
-/
namespace WebServer.ConcurrentOutcome
open TransitionSystem Interaction RequestParsing Contexts Handler Server
open Lifecycle LifecycleInvariant LifecycleWork Projection Ownership SequentialService
open RequestSplitting ReceiveBuffer
open ThreadPool (Outcome)

/-! ## What is read off the observations -/

/-- A read that was asked for something and gave nothing: the end of the file. -/
def ends (size : ℕ) (d : Session) : (o : Op) → o.Res → Bool
  | .read, .data [] => 0 < d.room size
  | _, _ => false

/-- A failure of `read` or of `EPOLL_CTL_MOD`. -/
def fails : (o : Op) → o.Res → Bool
  | .read, .error .badf => true
  | .read, .error .other => true
  | .epollMod, ok => !ok
  | _, _ => false

/-- An exception of the message callback. -/
def throws : (o : Op) → o.Res → Bool
  | .onMessage, .threw => true
  | _, _ => false

/-- The bytes which the reads have returned. -/
def bytesOf (tr : Trace) : Bytes := tr.flatMap fun e => taken e.op e.res

def finished (size : ℕ) (tr : Trace) : Bool := tr.any fun e => ends size e.state e.op e.res

def failed (tr : Trace) : Bool := tr.any fun e => fails e.op e.res

def thrown (tr : Trace) : Bool := tr.any fun e => throws e.op e.res

@[simp] theorem bytesOf_append (tr tr' : Trace) :
    bytesOf (tr++tr') = bytesOf tr++bytesOf tr' := List.flatMap_append ..

@[simp] theorem finished_append (size : ℕ) (tr tr' : Trace) :
    finished size (tr++tr') = (finished size tr || finished size tr') := List.any_append

@[simp] theorem failed_append (tr tr' : Trace) :
    failed (tr++tr') = (failed tr || failed tr') := List.any_append

@[simp] theorem bytesOf_singleton (e : Observation Op Op.Res Session) :
    bytesOf [e] = taken e.op e.res := by
  simp [bytesOf]

@[simp] theorem finished_singleton (size : ℕ) (e : Observation Op Op.Res Session) :
    finished size [e] = ends size e.state e.op e.res := by
  simp [finished]

@[simp] theorem failed_singleton (e : Observation Op Op.Res Session) :
    failed [e] = fails e.op e.res := by
  simp [failed]

/-! ## The control -/

/-- What the calls on a connection have done so far. -/
structure Report where
  received : Bytes
  requests : List HttpRequest
  closings : ℕ
  finished : Bool
  failed : Bool

def report (size : ℕ) (tr : Trace) : Report :=
  ⟨bytesOf tr,requests tr,closings tr,finished size tr,failed tr⟩

/-- The report after an operation that leaves the session `d`. -/
def Report.after (size : ℕ) (R : Report) (o : Op) (r : o.Res) (d : Session) : Report where
  received := R.received++taken o r
  requests := R.requests++(if o = .onMessage then [d.request] else [])
  closings := R.closings+(if o = .close then 1 else 0)
  finished := R.finished || ends size d o r
  failed := R.failed || fails o r

structure Progress where
  session : Session
  report : Report

def Progress.perform (size : ℕ) (q : Progress) (o : Op) (r : o.Res) : Progress :=
  let d := (semantics true).effect o r q.session
  ⟨d,q.report.after size o r d⟩

/-- The callback returns, and `read` gives no more than there is room for. -/
def Answered (size : ℕ) : (o : Op) → o.Res → Session → Prop
  | .read, .data bytes, d => bytes.length ≤ d.room size
  | .onMessage, outcome, _ => outcome = .returned
  | _, _, _ => True

def Progress.Allows (size : ℕ) (q : Progress) (o : Op) (r : o.Res) : Prop :=
  (semantics true).Permits q.session o r ∧ Answered size o r q.session

theorem report_append (size : ℕ) (tr : Trace) (e : Observation Op Op.Res Session) :
    report size (tr++[e]) = (report size tr).after size e.op e.res e.state := by
  have hrequests : requests [e] = if e.op = .onMessage then [e.state.request] else [] := by
    by_cases ho : e.op = .onMessage <;> simp [requests,ho]
  have hclosings : closings [e] = if e.op = .close then 1 else 0 := by
    by_cases ho : e.op = .close <;> simp [closings,ho]
  simp only [report,Report.after,bytesOf_append,bytesOf_singleton,requests_append,hrequests,
    closings_append,hclosings,finished_append,finished_singleton,failed_append,failed_singleton]

/-- An operation is reported as it is observed; a release is not observed. -/
theorem report_after (size : ℕ) (tr : Trace) (o : Op) (r : o.Res) (d : Session) :
    (report size tr).after size o r ((semantics true).effect o r d) =
      report size (tr++(semantics true).observe o r d) := by
  cases o
  case release => simp [report,Report.after,Semantics.observe,semantics,taken,ends,fails]
  all_goals exact (report_append size tr ⟨_,r,_⟩).symm

/-- Reading leaves the room as it is. -/
theorem answered_effect {size : ℕ} {o : Op} {r : o.Res} {d : Session}
    (h : Answered size o r ((semantics true).effect o r d)) : Answered size o r d := by
  cases o
  case read => cases r <;> exact h
  all_goals exact h

theorem allows_of_observe {size : ℕ} {q : Progress} {o : Op} {r : o.Res}
    (hr : (semantics true).Permits q.session o r)
    (h : ∀ e ∈ (semantics true).observe o r q.session, Answered size e.op e.res e.state) :
    q.Allows size o r := by
  refine ⟨hr,?_⟩
  cases o
  case release => trivial
  all_goals exact answered_effect (h ⟨_,r,_⟩ (List.mem_singleton_self _))

/-! ## What a call keeps -/

/-- The callback was called with the request which the bytes received begin with. -/
structure Called (R : Report) : Prop where
  requests : R.requests = [requestOf R.received]
  complete : headerEnd <:+: cString R.received

/-- No header ends among the bytes received, and there is a reason to give up. -/
structure GivenUp (size : ℕ) (R : Report) : Prop where
  requests : R.requests = []
  incomplete : ¬ headerEnd <:+: cString R.received
  reason : R.received.length = size-1 ∨ R.finished = true ∨ R.failed = true

structure Sound (size : ℕ) (R : Report) : Prop where
  fits : R.received.length < size
  calls : R.requests = [] ∨ Called R
  decided : 0 < R.closings → R.closings = 1 ∧ (Called R ∨ GivenUp size R)

/-- Nothing has been decided: the connection waits for more bytes, and has room for one. -/
structure Undecided (size : ℕ) (d : Session) (R : Report) : Prop where
  stored : Open size R.received d
  room : R.received.length+1 < size
  requests : R.requests = []
  closings : R.closings = 0

theorem Undecided.sound {size : ℕ} {d : Session} {R : Report} (h : Undecided size d R) :
    Sound size R where
  fits := h.stored.fits
  calls := .inl h.requests
  decided hpos := by simp [h.closings] at hpos

/-- Between two calls a connection is closed, or nothing has been decided. -/
def Idle (size : ℕ) (q : Progress) : Prop :=
  q.session.closed = true ∨ Undecided size q.session q.report

abbrev Keeps (size : ℕ) (c : Code) (q : Progress) : Prop :=
  c.Keeps (Progress.Allows size) (Progress.perform size) (fun q => Sound size q.report)
    (Idle size) q

section
variable {size : ℕ} {d : Session} {R : Report}

/-- An operation that is not reported changes at most the session. -/
theorem perform_quiet {o : Op} {r : o.Res} (htaken : taken o r = [])
    (hends : ∀ d, ends size d o r = false) (hfails : fails o r = false)
    (ho : o ≠ .onMessage ∧ o ≠ .close) :
    Progress.perform size ⟨d,R⟩ o r = ⟨(semantics true).effect o r d,R⟩ := by
  simp [Progress.perform,Report.after,htaken,hends,hfails,ho.1,ho.2]

theorem perform_close :
    Progress.perform size ⟨d,R⟩ .close () = ⟨d,{R with closings := R.closings+1}⟩ := by
  simp [Progress.perform,Report.after,semantics,taken,ends,fails]

theorem perform_failed :
    Progress.perform size ⟨d,R⟩ .epollMod false = ⟨d,{R with failed := true}⟩ := by
  simp [Progress.perform,Report.after,semantics,taken,ends,fails]

theorem keeps_leave (h : Sound size R) (hidle : Idle size ⟨d,R⟩) : Keeps size leave ⟨d,R⟩ := by
  refine Program.keeps_op h fun _ _ => ?_
  rw [perform_quiet rfl (fun _ => rfl) rfl (by decide)]
  exact ⟨h,hidle⟩

/-- A decision is carried out: the descriptor is closed, and once only. -/
theorem keeps_close (hfits : R.received.length < size) (hd : Called R ∨ GivenUp size R)
    (hz : R.closings = 0) (hc : d.closed = true) :
    Keeps size (.op .close fun _ => leave) ⟨d,R⟩ := by
  have hcalls : R.requests = [] ∨ Called R := hd.symm.imp GivenUp.requests id
  refine Program.keeps_op ⟨hfits,hcalls,fun hpos => ?_⟩ fun _ _ => ?_
  · simp [hz] at hpos
  · rw [perform_close,hz]
    refine keeps_leave ⟨hfits,?_,fun _ => ⟨rfl,?_⟩⟩ (.inl hc)
    · exact hcalls.imp id fun h => ⟨h.requests,h.complete⟩
    · exact hd.imp (fun h => ⟨h.requests,h.complete⟩)
        fun h => ⟨h.requests,h.incomplete,h.reason⟩

theorem keeps_should_close (hfits : R.received.length < size) (hd : Called R ∨ GivenUp size R)
    (hz : R.closings = 0) : Keeps size (conclude true false) ⟨d,R⟩ := by
  have hcalls : R.requests = [] ∨ Called R := hd.symm.imp GivenUp.requests id
  have hsound : Sound size R := ⟨hfits,hcalls,fun hpos => by simp [hz] at hpos⟩
  refine Program.keeps_op hsound fun wasClosed _ => ?_
  rw [perform_quiet rfl (fun _ => rfl) rfl (by decide)]
  cases wasClosed with
  | true => exact keeps_leave hsound (.inl rfl)
  | false =>
      refine Program.keeps_op hsound fun _ _ => ?_
      rw [perform_quiet rfl (fun _ => rfl) rfl (by decide)]
      exact keeps_close hfits hd hz rfl

theorem keeps_need_readd (h : Undecided size d R) : Keeps size (conclude false true) ⟨d,R⟩ := by
  refine Program.keeps_op h.sound fun closed hclosed => ?_
  rw [perform_quiet rfl (fun _ => rfl) rfl (by decide)]
  cases closed with
  | true => exact keeps_leave h.sound (.inr h)
  | false =>
      refine Program.keeps_op h.sound fun ok _ => ?_
      cases ok with
      | true =>
          rw [perform_quiet rfl (fun _ => rfl) rfl (by decide)]
          exact keeps_leave h.sound (.inr h)
      | false =>
          rw [perform_failed]
          have hsound : Sound size {R with failed := true} :=
            ⟨h.sound.fits,.inl h.requests,fun hpos => by simp [h.closings] at hpos⟩
          refine Program.keeps_op hsound fun _ _ => ?_
          rw [perform_quiet rfl (fun _ => rfl) rfl (by decide)]
          exact keeps_close hsound.fits
            (.inr ⟨h.requests,h.stored.incomplete,.inr (.inr rfl)⟩) h.closings rfl

/-- The header has ended: the callback is called once, and the connection closed. -/
theorem keeps_complete (hs : Sound size R) (hr : R.requests = []) (hz : R.closings = 0)
    (hend : headerEnd <:+: cString R.received) (hd : d.request = requestOf R.received) :
    Keeps size (.op .testOnMessage fun set =>
      if set then .op .onMessage fun outcome => match outcome with
        | .returned => conclude true false
        | .threw => .ret .threw
      else conclude true false) ⟨d,R⟩ := by
  refine Program.keeps_op hs fun set hset => ?_
  have hset : set = true := hset.1 rfl
  subst hset
  rw [perform_quiet rfl (fun _ => rfl) rfl (by decide)]
  refine Program.keeps_op hs fun outcome houtcome => ?_
  have houtcome : outcome = .returned := houtcome.2
  subst houtcome
  have hafter : Progress.perform size ⟨d,R⟩ .onMessage .returned =
      ⟨d,{R with requests := [requestOf R.received]}⟩ := by
    simp [Progress.perform,Report.after,semantics,taken,ends,fails,hr,hd]
  have hload : (semantics true).effect .testOnMessage true d = d := rfl
  rw [hload,hafter]
  exact keeps_should_close hs.fits (.inl ⟨rfl,hend⟩) hz

/-- The header has not ended: the buffer is full, or the connection waits for more. -/
theorem keeps_incomplete (hs : Sound size R) (hr : R.requests = []) (hz : R.closings = 0)
    (hstored : Open size R.received d) :
    Keeps size (.op .loadBytesRead fun n =>
      if size-1 ≤ n then conclude true false else conclude false true) ⟨d,R⟩ := by
  refine Program.keeps_op hs fun n hn => ?_
  have hn : n = R.received.length := (hn.1 rfl).trans hstored.bytesRead
  rw [perform_quiet rfl (fun _ => rfl) rfl (by decide),hn]
  by_cases hfull : size-1 ≤ R.received.length
  · rw [if_pos hfull]
    have hlength : R.received.length = size-1 :=
      Nat.le_antisymm (Nat.le_sub_one_of_lt hs.fits) hfull
    exact keeps_should_close hs.fits (.inr ⟨hr,hstored.incomplete,.inl hlength⟩) hz
  · rw [if_neg hfull]
    exact keeps_need_readd ⟨hstored,by omega,hr,hz⟩

/-- A fragment is stored, terminated and parsed. -/
theorem keeps_receive (h : Undecided size d R) {bytes : Bytes} (hb : bytes ≠ [])
    (hlen : bytes.length ≤ d.room size) :
    Keeps size (receive size bytes) (Progress.perform size ⟨d,R⟩ .read (.data bytes)) := by
  have hfits := h.stored.room hlen
  set R' : Report := {R with received := R.received++bytes} with hR'
  have hread : Progress.perform size ⟨d,R⟩ .read (.data bytes) =
      ⟨{d with buffer := store d.buffer d.bytesRead bytes},R'⟩ := by
    cases bytes with
    | nil => exact (hb rfl).elim
    | cons b bs => simp [Progress.perform,Report.after,semantics,taken,ends,fails,R']
  have hs : Sound size R' :=
    ⟨hfits,.inl h.requests,fun hpos => by simp [R',h.closings] at hpos⟩
  rw [hread]
  refine Program.keeps_op hs fun _ _ => ?_
  rw [perform_quiet rfl (fun _ => rfl) rfl (by simp)]
  refine Program.keeps_op hs fun _ _ => ?_
  rw [perform_quiet rfl (fun _ => rfl) rfl (by decide)]
  change Keeps size _ ⟨received d bytes,R'⟩
  refine Program.keeps_op hs fun complete hcomplete => ?_
  have hcomplete : complete = (parsed d bytes).1 := hcomplete.1 rfl
  rw [perform_quiet rfl (fun _ => rfl) rfl (by decide)]
  change Keeps size _ ⟨{received d bytes with request := (parsed d bytes).2},R'⟩
  cases complete with
  | true =>
      rw [h.stored.parsed_eq] at hcomplete ⊢
      have hend : headerEnd <:+: cString R'.received :=
        (parse_fst_iff .empty _).mp hcomplete.symm
      rw [parse_eq_requestOf List.prefix_rfl hend]
      exact keeps_complete hs h.requests h.closings hend rfl
  | false =>
      have hkeep : (parsed d bytes).2 = d.request := parse_snd_of_false _ hcomplete.symm
      rw [hkeep]
      exact keeps_incomplete hs h.requests h.closings
        (h.stored.received_open hlen hcomplete.symm)

theorem keeps_error (h : Undecided size d R) (e : Errno) :
    Keeps size (afterRead size (.error e)) (Progress.perform size ⟨d,R⟩ .read (.error e)) := by
  have hfailed : ∀ e, e = .badf ∨ e = .other → Progress.perform size ⟨d,R⟩ .read (.error e) =
      ⟨d,{R with failed := true}⟩ := by
    rintro e (rfl | rfl) <;> simp [Progress.perform,Report.after,semantics,taken,ends,fails]
  have hs : Sound size {R with failed := true} :=
    ⟨h.sound.fits,.inl h.requests,fun hpos => by simp [h.closings] at hpos⟩
  cases e with
  | again =>
      rw [perform_quiet rfl (fun _ => rfl) rfl (by decide)]
      exact keeps_need_readd h
  | badf =>
      rw [hfailed _ (.inl rfl)]
      refine Program.keeps_op hs fun _ _ => ?_
      rw [perform_quiet rfl (fun _ => rfl) rfl (by decide)]
      exact keeps_leave hs (.inl rfl)
  | other =>
      rw [hfailed _ (.inr rfl)]
      exact keeps_should_close h.sound.fits
        (.inr ⟨h.requests,h.stored.incomplete,.inr (.inr rfl)⟩) h.closings

theorem keeps_endOfFile (hint : size < 2^31) (h : Undecided size d R) :
    Keeps size (conclude true false) (Progress.perform size ⟨d,R⟩ .read (.data [])) := by
  have hroom : ∀ x : Session, x.bytesRead = d.bytesRead → 0 < x.room size := by
    intro x hx
    have hlength := h.room
    rw [← h.stored.bytesRead] at hlength
    rw [Session.room,toSize,hx]
    omega
  have hread : Progress.perform size ⟨d,R⟩ .read (.data []) =
      ⟨(semantics true).effect .read (.data []) d,{R with finished := true}⟩ := by
    simp [Progress.perform,Report.after,taken,ends,fails,hroom,semantics]
  rw [hread]
  exact keeps_should_close h.sound.fits
    (.inr ⟨h.requests,h.stored.incomplete,.inr (.inl rfl)⟩) h.closings

theorem keeps_handleClientClient (hint : size < 2^31) (hs : Sound size R)
    (hidle : Idle size ⟨d,R⟩) : Keeps size (handleClientClient size) ⟨d,R⟩ := by
  refine Program.keeps_op hs fun closed hclosed => ?_
  have hclosed : closed = d.closed := hclosed.1 rfl
  rw [perform_quiet rfl (fun _ => rfl) rfl (by decide)]
  cases closed with
  | true => exact keeps_leave hs (.inl hclosed.symm)
  | false =>
      have h : Undecided size d R := hidle.resolve_left (by simp [← hclosed])
      refine Program.keeps_op hs fun n hn => ?_
      cases n with
      | error e => exact keeps_error h e
      | data bytes =>
          have hlen : bytes.length ≤ d.room size := hn.2
          cases bytes with
          | nil => exact keeps_endOfFile hint h
          | cons b bs => exact keeps_receive h (List.cons_ne_nil b bs) hlen

/-- A loop of calls, wherever it is interrupted, and between two calls. -/
theorem sound_of_serial (h2 : 2 ≤ size) (hint : size < 2^31) {tr : Trace} {c : Option Code}
    (h : (semantics true).Serial (handleClientClient size) (.fresh size) tr c d)
    (ha : ∀ e ∈ tr, Answered size e.op e.res e.state) :
    Sound size (report size tr) ∧ (c = none → Idle size ⟨d,report size tr⟩) := by
  have hstart : Undecided size (.fresh size) (report size []) :=
    ⟨open_fresh (Nat.lt_of_lt_of_le Nat.two_pos h2),h2,rfl,rfl⟩
  refine Semantics.Serial.keeps (fun tr d => (⟨d,report size tr⟩ : Progress))
    (fun tr d o r hr he => allows_of_observe hr he) ?_ ⟨hstart.sound,.inr hstart⟩
    (fun q hs hidle => keeps_handleClientClient hint hs hidle) h ha
  intro tr d o r
  rw [Progress.perform,report_after]

end

/-! ## The server -/

variable {N : ℕ} {cfg : Config} {s : State N} {c : ConnId}

def isOp : Event → Bool
  | .op _ _ _ => true
  | _ => false

/-- What a step adds to the record of a run: an operation of a task, or nothing that
is one. -/
inductive Records (cfg : Config) (s : State N) (a : Action N) : List (ConnId × Event) → Prop
  | other {es : List (ConnId × Event)} : (∀ x ∈ es, isOp x.2 = false) → Records cfg s a es
  | op {w : Fin N} {answer : (o : Op) → o.Res} {t : Task} {o : Op} {k : o.Res → Code} :
      a = .work w answer → s.pool.workers w = .running t → t.code = .op o k →
      (s.heap t.conn).Permits cfg o (answer o) →
      s.kernel.Permits (s.heap t.conn).ctx.fd
        ((s.heap t.conn).ctx.room cfg.bufferSize) o (answer o) →
      Records cfg s a [(t.conn,.op o (answer o)
        ((s.heap t.conn).perform cfg o (answer o)).ctx.toSession)]

theorem records_nil {a : Action N} : Records cfg s a [] := .other (by simp)

theorem records_other {a : Action N} {e : Event} (he : isOp e = false) :
    Records cfg s a [(c,e)] :=
  .other fun x hx => by rwa [List.mem_singleton.mp hx]

theorem trace_next {a : Action N} (he : s.enabled cfg a) :
    ∃ es, Records cfg s a es ∧ (s.next cfg a).trace = s.trace++es := by
  obtain ⟨-,he⟩ := he
  have hnone : (s.next cfg a).trace = s.trace →
      ∃ es, Records cfg s a es ∧ (s.next cfg a).trace = s.trace++es :=
    fun h => ⟨[],records_nil,by rw [h,List.append_nil]⟩
  cases a with
  | accept fd =>
      cases fd with
      | none => exact hnone rfl
      | some f => exact ⟨_,records_other rfl,rfl⟩
  | onConnection outcome =>
      cases hc : cfg.onConnection with
      | false =>
          apply hnone
          simp [State.next,State.callConnection,hc,State.goto]
      | true =>
          refine ⟨_,records_other (c := s.loop.conn) (e := .onConnection) rfl,?_⟩
          simp [State.next,State.callConnection,hc,State.goto,State.record]
  | create => exact ⟨_,records_other rfl,rfl⟩
  | add ok => cases ok <;> exact ⟨_,records_other rfl,rfl⟩
  | delete => exact ⟨_,records_other rfl,rfl⟩
  | close => exact ⟨_,records_other rfl,rfl⟩
  | addRef =>
      obtain ⟨-,d,hd⟩ := he
      obtain ⟨batch,hb⟩ : ∃ batch, s.loop.batch = .ctx d::batch := by
        cases hl : s.loop.batch <;> simp_all
      refine ⟨_,records_other (c := d) (e := .addRef) rfl,?_⟩
      simp [State.next,State.addRef,hb,State.record,State.setCell]
  | work w answer =>
      obtain ⟨t,o,k,hw,hcode,hcell,hkernel⟩ := canWork_cases he
      exact ⟨_,.op rfl hw hcode hcell hkernel,by rw [State.next,work_eq hw hcode]⟩
  | finish w =>
      obtain ⟨t,outcome,hw,hcode⟩ := canFinish_cases he
      exact ⟨_,records_other rfl,by rw [State.next,finish_eq hw hcode]⟩
  | _ => exact hnone rfl

/-- What is recorded of an operation was allowed, unless the callback threw. -/
def Recorded (size : ℕ) : Event → Prop
  | .op o r d => throws o r = false → Answered size o r d
  | _ => True

/-- The session after a read has the room which the kernel was asked to fill. -/
theorem answered_of_permits {x : Cell} {k : Kernel} {fd : Fd} {o : Op} {r : o.Res}
    (hreturned : throws o r = false) (hk : k.Permits fd (x.ctx.room cfg.bufferSize) o r) :
    Answered cfg.bufferSize o r (x.perform cfg o r).ctx.toSession := by
  rw [perform_session]
  cases o
  case read =>
    cases r with
    | error e => trivial
    | data bytes => exact hk.2
  case onMessage =>
    cases r with
    | returned => rfl
    | threw => cases hreturned
  all_goals trivial

theorem recorded_next {a : Action N} (h : ∀ x ∈ s.trace, Recorded cfg.bufferSize x.2)
    (he : s.enabled cfg a) : ∀ x ∈ (s.next cfg a).trace, Recorded cfg.bufferSize x.2 := by
  obtain ⟨es,hes,htrace⟩ := trace_next he
  rw [htrace]
  refine List.forall_mem_append.mpr ⟨h,?_⟩
  cases hes with
  | other hother =>
      intro x hx
      have hop := hother x hx
      cases hev : x.2 with
      | op o r d =>
          rw [hev] at hop
          cases hop
      | _ => trivial
  | op ha hw hcode hcell hkernel =>
      subst ha
      simpa [Recorded] using fun hreturned => answered_of_permits hreturned hkernel

theorem recorded {G : Discipline (State N) (Action N)} (h : (system N cfg).Reach G s) :
    ∀ x ∈ s.trace, Recorded cfg.bufferSize x.2 := by
  apply h.invariant
  · rintro _ rfl
    simp [Server.State.initial]
  · rintro s a _ - ih - ⟨he,rfl⟩
    exact recorded_next ih he

/-- What the tasks have observed on connection `c`. -/
def traceOf (cfg : Config) (s : State N) (c : ConnId) : Trace :=
  observations cfg (view s c).history

theorem answered {G : Discipline (State N) (Action N)} (h : (system N cfg).Reach G s)
    (hreturned : thrown (traceOf cfg s c) = false) :
    ∀ e ∈ traceOf cfg s c, Answered cfg.bufferSize e.op e.res e.state := by
  intro e he
  have hnot : throws e.op e.res = false := by
    simpa using List.any_eq_false.mp hreturned e he
  obtain ⟨x,hx,hxe⟩ := List.mem_filterMap.mp he
  obtain ⟨y,hy,hyx⟩ := List.mem_filterMap.mp (show x ∈ history s.trace c from hx)
  have hr := recorded h y hy
  split_ifs at hyx with hc
  cases hyx
  cases hev : y.2 with
  | op o r d =>
      rw [hev] at hxe hr
      simp only at hxe
      split_ifs at hxe
      cases hxe
      exact hr hnot
  | _ =>
      rw [hev] at hxe
      cases hxe

theorem closings_observations {h : List Event} (hc : .closed ∉ h) :
    closings (observations cfg h) = h.countP closes := by
  induction h with
  | nil => rfl
  | cons e h ih =>
      rw [List.mem_cons,not_or] at hc
      have ih := ih hc.2
      have hone : closings (observations cfg [e]) = if closes e then 1 else 0 := by
        cases e with
        | closed => exact (hc.1 rfl).elim
        | op o r d => cases o <;> rfl
        | _ => rfl
      rw [show observations cfg (e::h) = observations cfg [e]++observations cfg h from
        List.filterMap_append (l := [e]),closings_append,hone,ih,List.countP_cons,add_comm]

/-- A registered connection was closed once if its descriptor is not open any more. -/
theorem closings_eq (h : Live cfg (view s c)) : closings (traceOf cfg s c) = (view s c).shut := by
  rw [← h.closedOnce,traceOf]
  refine closings_observations (Descriptors.Live.not_mem h rfl (by simp) ?_)
  cases hc : cfg.onConnection <;> simp [prologue,LifecycleInvariant.calls,hc]

theorem history_grows (v : Conn) (m : Move) : v.history <+: (v.next cfg m).history := by
  cases m with
  | accept fd => exact List.prefix_append ..
  | onConnection outcome =>
      cases hc : cfg.onConnection <;> simp [Conn.next,Conn.record,hc]
  | create => exact List.prefix_append ..
  | add ok => cases ok <;> exact List.prefix_append ..
  | delete => exact List.prefix_append ..
  | close => exact List.prefix_append ..
  | addRef => exact List.prefix_append ..
  | work rest t o k r =>
      rw [Performs.history]
      exact List.prefix_append ..
  | finish rest t outcome => exact List.prefix_append ..
  | _ => exact List.prefix_rfl

/-- A life in which no exception was recorded is one in which the callback returns. -/
theorem reach_returns {K : Discipline Conn Move} {v : Conn} (h : (life cfg).Reach K v)
    (hnone : ∀ d, .op .onMessage .threw d ∉ v.history) : (life cfg).Reach Returns v := by
  induction h with
  | start hi => exact .start hi
  | @step v _ m _ _ hst ih =>
      obtain ⟨he,rfl⟩ := hst
      refine .step (ih fun d hd => hnone d ((history_grows v m).subset hd)) ?_ ⟨he,rfl⟩
      cases m with
      | work rest t o k r =>
          cases o
          case onMessage =>
            cases r with
            | returned => rfl
            | threw =>
                refine (hnone ((semantics cfg.onMessage).effect .onMessage .threw
                  v.cell.ctx.toSession) ?_).elim
                rw [Performs.history]
                exact List.mem_append_right _ (List.mem_singleton_self _)
          all_goals trivial
      | _ => trivial

/-- Where the callback has returned, no task of the connection was cut off. -/
theorem abandoned_of_returned {G : Discipline (State N) (Action N)}
    (h : (system N cfg).Reach G s) (hreturned : thrown (traceOf cfg s c) = false) :
    (view s c).abandoned = 0 := by
  have hlife := (reach_views (K := Free) (fun _ _ _ _ _ _ => trivial) h).2 c
  refine (calm (reach_returns hlife fun d hd => ?_)).2
  have hmem : (⟨.onMessage,.threw,d⟩ : Observation Op Op.Res Session) ∈ traceOf cfg s c :=
    List.mem_filterMap.mpr ⟨_,hd,rfl⟩
  simpa [throws] using List.any_eq_false.mp hreturned _ hmem

/-- A byte and its terminator fit into the buffer, whose size is an `int`, and a
message callback is installed. -/
structure Serves (cfg : Config) : Prop where
  two : 2 ≤ cfg.bufferSize
  int : cfg.bufferSize < 2^31
  onMessage : cfg.onMessage = true

theorem serves_standard : Serves .standard := ⟨by decide,by decide,rfl⟩

section Outcome
variable {G : Discipline (State N) (Action N)} (hcfg : Serves cfg)
  (h : (system N cfg).Reach G s) (hreturned : thrown (traceOf cfg s c) = false)
include hcfg h hreturned

theorem sound_of_live (hl : Live cfg (view s c)) :
    Sound cfg.bufferSize (report cfg.bufferSize (traceOf cfg s c)) ∧
    ((view s c).active = 0 → Idle cfg.bufferSize
      ⟨(s.heap c).ctx.toSession,report cfg.bufferSize (traceOf cfg s c)⟩) := by
  have hanswered := answered h hreturned
  by_cases hz : (view s c).active = 0
  · have hserial := hl.between hz
    rw [hcfg.onMessage] at hserial
    obtain ⟨hsound,hidle⟩ := sound_of_serial hcfg.two hcfg.int hserial hanswered
    exact ⟨hsound,fun _ => hidle rfl⟩
  · obtain ⟨code,hserial⟩ := serial_of_live hl
    rw [hcfg.onMessage] at hserial
    exact ⟨(sound_of_serial hcfg.two hcfg.int hserial hanswered).1,fun ha => (hz ha).elim⟩

theorem sound_report : Sound cfg.bufferSize (report cfg.bufferSize (traceOf cfg s c)) := by
  by_cases hl : Live cfg (view s c)
  · exact (sound_of_live hcfg h hreturned hl).1
  · rw [traceOf,observations_eq_nil (view_ok h c) hl]
    exact ⟨Nat.lt_of_lt_of_le Nat.two_pos hcfg.two,.inl rfl,
      fun hpos => by simp [report,closings] at hpos⟩

/-- Where the descriptor is closed something has been decided. -/
theorem decided_of_closed (hc : (view s c).registered) (hclosed : (view s c).isOpen = false) :
    Called (report cfg.bufferSize (traceOf cfg s c)) ∨
      GivenUp cfg.bufferSize (report cfg.bufferSize (traceOf cfg s c)) := by
  have hone : closings (traceOf cfg s c) = 1 := by
    rw [closings_eq (live_of_reach h hc)]
    simp [Conn.shut,hclosed]
  exact ((sound_report hcfg h hreturned).decided (Nat.lt_of_lt_of_eq Nat.one_pos hone.symm)).2

/-- While no task is in charge of an open connection, nothing has been decided. -/
theorem undecided_of_open (hc : (view s c).registered) (hopen : (view s c).isOpen = true)
    (hz : (view s c).active = 0) : Undecided cfg.bufferSize (s.heap c).ctx.toSession
      (report cfg.bufferSize (traceOf cfg s c)) := by
  have hl := live_of_reach h hc
  have hcalm := abandoned_of_returned h hreturned
  have hclosed : (s.heap c).ctx.closed = false := by
    refine (hl.quiet ?_).1
    rw [hz,hcalm,(view s c).isOpen_iff.mp hopen]
  exact ((sound_of_live hcfg h hreturned hl).2 hz).resolve_left (by simp [hclosed])

end Outcome

/-- Whatever the workers and the other connections do, exceptions of their callbacks and
failures of their system calls included: as long as `on_message_` has returned for a
connection, it has received fewer than `BUFFER_SIZE` bytes, there was at most one call,
with the request which these bytes begin with, and once the descriptor is closed the calls
are the outcome of these bytes. It is closed without a call only if its buffer is full,
its peer has finished, or one of its own system calls has failed. -/
theorem connection_has_its_outcome (hcfg : Serves cfg) (s : State N)
    (h : (system N cfg).Reach Free s) (c : ConnId)
    (hreturned : thrown (traceOf cfg s c) = false) :
    let tr := traceOf cfg s c
    (bytesOf tr).length < cfg.bufferSize ∧
    (requests tr = [] ∨ requests tr = [requestOf (bytesOf tr)]) ∧
    ((view s c).registered → (view s c).isOpen = false →
      requests tr = outcome cfg.bufferSize (bytesOf tr) ∧
      (requests tr = [] → (bytesOf tr).length = cfg.bufferSize-1 ∨
        finished cfg.bufferSize tr = true ∨ failed tr = true)) := by
  intro tr
  have hs := sound_report hcfg h hreturned
  refine ⟨hs.fits,hs.calls.imp id Called.requests,fun hc hclosed => ?_⟩
  rcases decided_of_closed hcfg h hreturned hc hclosed with hd | hd
  · refine ⟨hd.requests.trans (outcome_of_complete List.prefix_rfl hs.fits hd.complete).symm,
      fun hr => ?_⟩
    exact absurd (hd.requests.symm.trans hr) (List.cons_ne_nil _ [])
  · refine ⟨hd.requests.trans (outcome_of_incomplete ?_ hd.incomplete).symm,fun _ => hd.reason⟩
    exact (List.take_of_length_le (Nat.le_sub_one_of_lt hs.fits)).symm

/-- While no task is in charge of an open connection for which `on_message_` never threw,
its buffer holds the bytes received so far and a NUL, with room for one more byte; no
header ends before the first NUL among them, the request is untouched and `on_message_` has
not been called. -/
theorem open_connection_waits (hcfg : Serves cfg) (s : State N)
    (h : (system N cfg).Reach Free s) (c : ConnId)
    (hreturned : thrown (traceOf cfg s c) = false) (hc : (view s c).registered)
    (hopen : (view s c).isOpen = true) (hz : (view s c).active = 0) :
    let x := s.heap c
    let u := bytesOf (traceOf cfg s c)
    x.ctx.bytesRead = u.length ∧ u.length ≤ cfg.bufferSize-2 ∧
      (∃ rest, x.ctx.buffer = u++0::rest) ∧ x.ctx.request = .empty ∧ x.ctx.closed = false ∧
      ¬ headerEnd <:+: cString u ∧ requests (traceOf cfg s c) = [] := by
  intro x u
  have hu := undecided_of_open hcfg h hreturned hc hopen hz
  have hroom : u.length+1 < cfg.bufferSize := hu.room
  exact ⟨hu.stored.bytesRead,by omega,hu.stored.buffer,hu.stored.request,hu.stored.closed,
    hu.stored.incomplete,hu.requests⟩

/-- While a task serves a connection, the callback throws for another one. -/
def greetingScript (v w : Fin N) : List (Action N) :=
  acceptScript 5 true++dispatchScript 5 v++
    workScript 4 v (reply (.data greeting) true .returned true)++acceptScript 6 true++
    dispatchScript 6 w++workScript 7 w (reply (.data greeting) true .threw true)++
    [Action.finish w]++workScript 6 v (reply (.data greeting) true .returned true)

theorem connection_has_its_outcome_greeting : ∃ s : State 2,
    thrown (traceOf .standard s 1) = true ∧ bytesOf (traceOf .standard s 0) = greeting ∧
    requests (traceOf .standard s 0) = outcome bufferSize greeting := by
  obtain ⟨s,hs,hp⟩ := reach_of_script (G := Free) .standard (greetingScript (0 : Fin 2) 1)
    (fun s => thrown (traceOf .standard s 1) = true ∧ thrown (traceOf .standard s 0) = false ∧
      (view s 0).history.any registers ∧ (view s 0).isOpen = false ∧
      bytesOf (traceOf .standard s 0) = greeting) (by decide +kernel)
  obtain ⟨hthrown,hreturned,hc,hclosed,hbytes⟩ := of_decide_eq_true hp
  obtain ⟨-,-,houtcome⟩ := connection_has_its_outcome serves_standard s hs 0 hreturned
  have hrequests := (houtcome (registered_of_any hc) hclosed).1
  rw [hbytes] at hrequests
  exact ⟨s,hthrown,hbytes,hrequests⟩

/-- An environment that answers a first fragment, after which the header is incomplete. -/
def storing (bytes : Bytes) : (o : Op) → o.Res
  | .loadBytesRead => bytes.length
  | o => reply (.data bytes) false .returned true o

/-- Half of the greeting has arrived, and the connection is armed again. -/
theorem open_connection_waits_half : ∃ s : State 1,
    bytesOf (traceOf .standard s 0) = greeting.take 7 ∧ (s.heap 0).ctx.bytesRead = 7 ∧
    requests (traceOf .standard s 0) = [] := by
  obtain ⟨s,hs,hp⟩ := reach_of_script (N := 1) (G := Free) .standard
    (acceptScript 5 true++dispatchScript 5 0++workScript 9 0 (storing (greeting.take 7)))
    (fun s => thrown (traceOf .standard s 0) = false ∧ (view s 0).history.any registers ∧
      (view s 0).isOpen = true ∧ (view s 0).active = 0 ∧
      bytesOf (traceOf .standard s 0) = greeting.take 7) (by decide +kernel)
  obtain ⟨hreturned,hc,hopen,hz,hbytes⟩ := of_decide_eq_true hp
  have hw := open_connection_waits serves_standard s hs 0 hreturned (registered_of_any hc)
    hopen hz
  rw [hbytes] at hw
  exact ⟨s,hbytes,hw.1,hw.2.2.2.2.2.2⟩

end WebServer.ConcurrentOutcome
