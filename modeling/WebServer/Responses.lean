import WebServer.RequestFormat
import WebServer.ResponseWriting
import WebServer.ResponseFraming

/-!
# Every client gets its own response

The whole server with its default callback. `OnMessage` is given `ctx->fd` and
`ctx->request`, and the kernel hands what it writes to the connection which has that
descriptor at the moment. The task which calls it still owns the connection it was
submitted for, so that every connection is sent nothing but the response to its own
request, once at most. A client that reads a body of the announced length has got the page
it has asked for; if the socket has not taken all of the response, the length gives it away.

Nothing in the server ignores `SIGPIPE`: a `write` to a client that has reset its
connection may end the process.
-/
namespace WebServer.Responses
open TransitionSystem Interaction RequestParsing Contexts Handler Server
open Response ResponseFraming Lifecycle LifecycleInvariant Projection Descriptors
open Sockets Streams RequestSplitting ConcurrentOutcome Completion RequestFormat
open ResponseWriting (WriteResult socket respond)
open ThreadPool (Outcome)

/-- What a client has been sent, and the results of the calls of `write` which sent it. -/
structure Outbox where
  bytes : Bytes
  results : List WriteResult

def Outbox.empty : Outbox := ⟨[],[]⟩

/-- `OnMessage` runs on the session of a context, and writes to the socket of the client.
Its call of `write` returns `x`. -/
def Outbox.onMessage (y : Outbox) (d : Session) (x : WriteResult) : Outbox :=
  let served := ((socket fun _ => x).run (respond (.error .again) true) ResponseWriting.onMessage
    ⟨d,y.bytes,y.results.length,false⟩).2
  ⟨served.accepted,y.results++[x]⟩

/-- The clients, the server, what each of the clients has been sent, and whether a signal
has ended the process. -/
structure State (N : ℕ) where
  backlog : Backlog.State N
  outboxes : ConnId → Outbox
  killed : Bool

def State.initial (N : ℕ) : State N := ⟨.initial N,fun _ => .empty,false⟩

abbrev State.server {N : ℕ} (s : State N) : Server.State N := s.backlog.network.server

abbrev State.sockets {N : ℕ} (s : State N) : ConnId → Socket := s.backlog.network.sockets

/-- A step, and what `write` returns if the step calls it. It does not return where it
raises `SIGPIPE`. -/
abbrev Action (N : ℕ) := Backlog.Action N × Option WriteResult

variable {N : ℕ} {cfg : Config} {c : ConnId}

/-- The context on which a step calls `on_message_`. A call that throws, for want of
memory, does so before it writes. -/
def calling (s : Server.State N) : Server.Action N → Option ConnectionContext
  | .work w answer =>
      match s.pool.workers w with
      | .running t =>
          match t.code with
          | .op .onMessage _ =>
              if answer .onMessage = .returned then some (s.heap t.conn).ctx else none
          | _ => none
      | _ => none
  | _ => none

/-- The connection which the kernel hands the response to, and the session it is made of. -/
def addressed (s : Server.State N) : Backlog.Action N → Option (ConnId × Session)
  | .network (.server a) => (calling s a).bind fun ctx =>
      (s.kernel.owner ctx.fd).map fun c => (c,ctx.toSession)
  | _ => none

def State.enabled (cfg : Config) (s : State N) (a : Action N) : Prop :=
  s.killed = false ∧ s.backlog.enabled cfg a.1

instance (s : State N) (a : Action N) : Decidable (s.enabled cfg a) :=
  inferInstanceAs (Decidable (s.killed = false ∧ s.backlog.enabled cfg a.1))

/-- The step calls `write`, which raises `SIGPIPE`. -/
def State.raises (s : State N) (a : Action N) : Prop :=
  (addressed s.server a.1).isSome = true ∧ a.2 = none

instance (s : State N) (a : Action N) : Decidable (s.raises a) :=
  inferInstanceAs (Decidable ((addressed s.server a.1).isSome = true ∧ a.2 = none))

/-- What a step sends, and to whom. -/
def State.send (s : State N) (a : Action N) : ConnId → Outbox :=
  match addressed s.server a.1, a.2 with
  | some (c,d), some x => Function.update s.outboxes c ((s.outboxes c).onMessage d x)
  | _, _ => s.outboxes

def State.next (cfg : Config) (s : State N) (a : Action N) : State N :=
  if s.raises a then {s with killed := true}
  else {s with backlog := s.backlog.next cfg a.1, outboxes := s.send a}

def system (N : ℕ) (cfg : Config) : System (State N) (Action N) :=
  System.guarded (fun s => s = .initial N) (State.enabled cfg) (State.next cfg)

theorem reach_of_script (cfg : Config) (as : List (Action N)) (p : State N → Bool)
    (h : (execute (State.enabled cfg) (State.next cfg) (.initial N) as).any p = true) :
    ∃ s, (system N cfg).Reach Free s ∧ p s = true :=
  execute_reach (fun s => s = State.initial N) (fun _ _ hc => ⟨trivial,hc⟩) rfl h

/-- A discipline of the server, which says nothing of `write`. -/
def Lift (G : Discipline (Backlog.State N) (Backlog.Action N)) : Discipline (State N) (Action N) :=
  fun s a => G s.backlog a.1

/-- A step ends the process, or is a step of the server. -/
theorem backlog_next (cfg : Config) (s : State N) (a : Action N) :
    ((s.next cfg a).killed = true ∧ (s.next cfg a).backlog = s.backlog) ∨
      ((s.next cfg a).killed = s.killed ∧
        (s.next cfg a).backlog = s.backlog.next cfg a.1) := by
  unfold State.next
  split_ifs
  · exact .inl ⟨rfl,rfl⟩
  · exact .inr ⟨rfl,rfl⟩

section Reach
variable {s : State N} {G : Discipline (Backlog.State N) (Backlog.Action N)}

theorem reach_backlog (h : (system N cfg).Reach (Lift G) s) :
    (Backlog.system N cfg).Reach G s.backlog := by
  refine h.simulates (f := State.backlog) ?_ ?_
  · rintro _ rfl
    rfl
  · rintro s a _ - hg ⟨he,rfl⟩
    rcases backlog_next cfg s a with ⟨-,hsame⟩ | ⟨-,hnext⟩
    · exact .inl hsame
    · exact .inr ⟨a.1,hg,he.2,hnext⟩

theorem reach_network (h : (system N cfg).Reach (Lift G) s) :
    (network N cfg).Reach (Sockets.Lift Free) s.backlog.network := by
  refine (reach_backlog h).simulates (f := Backlog.State.network) ?_ ?_
  · rintro _ rfl
    rfl
  · rintro s a _ - - ⟨he,rfl⟩
    cases a with
    | connect => exact .inl rfl
    | network a =>
        refine .inr ⟨a,?_,he.1,rfl⟩
        cases a <;> trivial

end Reach

/-! ## What is sent to a connection -/

/-- A call of `on_message_` that comes back. -/
def returns : (o : Op) → o.Res → Bool
  | .onMessage, .returned => true
  | _, _ => false

/-- The requests with which `on_message_` was called and has returned. -/
def replies (tr : Trace) : List HttpRequest :=
  tr.filterMap fun e => if returns e.op e.res then some e.state.request else none

theorem replies_append (tr tr' : Trace) : replies (tr++tr') = replies tr++replies tr' :=
  List.filterMap_append ..

theorem replies_observe {on : Bool} (o : Op) (r : o.Res) (d : Session) :
    replies ((semantics on).observe o r d) = if returns o r then [d.request] else [] := by
  cases o
  case onMessage => cases r <;> rfl
  all_goals rfl

/-- Where the callback has not thrown, every call is a reply. -/
theorem replies_eq_requests {tr : Trace} (h : thrown tr = false) : replies tr = requests tr := by
  refine List.filterMap_congr fun e he => ?_
  have hnot : throws e.op e.res = false := by simpa using List.any_eq_false.mp h e he
  obtain ⟨o,r,d⟩ := e
  cases o
  case onMessage =>
    cases r with
    | returned => rfl
    | threw => cases hnot
  all_goals rfl

/-- A connection is replied to once at most. -/
theorem replies_length_le (h : List Event) :
    (replies (observations cfg h)).length ≤ h.countP messages := by
  induction h with
  | nil => rfl
  | cons e h ih =>
      have hone : (replies (observations cfg [e])).length ≤ [e].countP messages := by
        cases e with
        | op o r d =>
            cases o
            case onMessage =>
              cases r with
              | returned => exact le_rfl
              | threw => exact Nat.zero_le _
            all_goals exact Nat.zero_le _
        | _ => exact Nat.zero_le _
      rw [show e::h = [e]++h from rfl,observations_append,replies_append,List.length_append,
        List.countP_append]
      exact Nat.add_le_add hone ih

/-- The outbox of a client holds what its socket has taken of each of the responses. -/
structure Delivered (requests : List HttpRequest) (y : Outbox) : Prop where
  results : y.results.length = requests.length
  bytes : y.bytes = (requests.zip y.results).flatMap fun p => p.2.accepted (buildResponse p.1)

theorem Delivered.onMessage {requests : List HttpRequest} {y : Outbox} (h : Delivered requests y)
    (d : Session) (x : WriteResult) : Delivered (requests++[d.request]) (y.onMessage d x) := by
  refine ⟨?_,?_⟩
  · change (y.results++[x]).length = (requests++[d.request]).length
    rw [List.length_append,List.length_append,h.results]
    rfl
  · change y.bytes++x.accepted (buildResponse d.request) =
      ((requests++[d.request]).zip (y.results++[x])).flatMap _
    rw [List.zip_append h.results.symm,List.flatMap_append,← h.bytes]
    simp

section Step
variable {s : Server.State N} {a : Server.Action N}

theorem calling_cases {ctx : ConnectionContext} (h : calling s a = some ctx) :
    ∃ w answer t k, a = .work w answer ∧ s.pool.workers w = .running t ∧
      t.code = .op .onMessage k ∧ answer .onMessage = .returned ∧ ctx = (s.heap t.conn).ctx := by
  cases a with
  | work w answer =>
      cases hw : s.pool.workers w with
      | running t =>
          cases hcode : t.code with
          | ret outcome => simp [calling,hw,hcode] at h
          | op o k =>
              cases o
              case onMessage =>
                simp only [calling,hw,hcode] at h
                split_ifs at h with hreturned
                exact ⟨w,answer,t,k,rfl,hw,hcode,hreturned,(Option.some.inj h).symm⟩
              all_goals simp [calling,hw,hcode] at h
      | _ => simp [calling,hw] at h
  | _ => cases h

/-- What the callback writes goes to the connection on which it was called. -/
theorem addressed_eq {G : Discipline (Server.State N) (Server.Action N)}
    (h : (Server.system N cfg).Reach G s) (he : s.enabled cfg a) {d : Session}
    (ha : addressed s (.network (.server a)) = some (c,d)) :
    Performs cfg s a c .onMessage .returned ∧ d = (s.heap c).ctx.toSession := by
  obtain ⟨ctx,hcalling,howner⟩ := Option.bind_eq_some_iff.mp ha
  obtain ⟨w,answer,t,k,rfl,hw,hcode,hreturned,rfl⟩ := calling_cases hcalling
  rw [task_owns h hw hcode rfl,Option.map_some,Option.some.injEq,Prod.mk.injEq] at howner
  obtain ⟨rfl,rfl⟩ := howner
  obtain ⟨u,o,k',hu,hcode',hcell,-⟩ := canWork_cases he.2
  rw [hw,ThreadPool.Worker.running.injEq] at hu
  subst hu
  rw [hcode,Program.op.injEq] at hcode'
  obtain ⟨rfl,-⟩ := hcode'
  rw [hreturned] at hcell
  exact ⟨⟨⟨w,answer,t,k,rfl,hw,hcode,rfl,hreturned.symm⟩,hcell⟩,rfl⟩

/-- Every callback that comes back has written. -/
theorem addressed_of_performs {G : Discipline (Server.State N) (Server.Action N)}
    (h : (Server.system N cfg).Reach G s) (hp : Performs cfg s a c .onMessage .returned) :
    addressed s (.network (.server a)) = some (c,(s.heap c).ctx.toSession) := by
  obtain ⟨w,answer,t,k,rfl,hw,hcode,rfl,hreturned⟩ := hp.work
  have hcalling : calling s (.work w answer) = some (s.heap t.conn).ctx := by
    simp [calling,hw,hcode,← hreturned]
  rw [addressed,hcalling,Option.bind_some,task_owns h hw hcode rfl,Option.map_some]

theorem replies_of_other (he : s.enabled cfg a)
    (hnot : ¬ Performs cfg s a c .onMessage .returned) :
    replies (traceOf cfg (s.next cfg a) c) = replies (traceOf cfg s c) := by
  by_cases hp : ∃ o r, Performs cfg s a c o r
  · obtain ⟨o,r,hp⟩ := hp
    have hreturns : returns o r = false := by
      cases o
      case onMessage =>
        cases r with
        | returned => exact (hnot hp).elim
        | threw => rfl
      all_goals rfl
    rw [traceOf_performs hp,replies_append,replies_observe,hreturns]
    exact List.append_nil _
  · rw [traceOf_idle he fun o r hop => hp ⟨o,r,hop⟩]

end Step

section Outboxes
variable {s : State N} {a : Server.Action N} {x : Option WriteResult}
variable {G : Discipline (Server.State N) (Server.Action N)}
variable (h : (Server.system N cfg).Reach G s.server)
include h

theorem send_of_performs (hp : Performs cfg s.server a c .onMessage .returned)
    (hx : ¬ s.raises (.network (.server a),x)) : ∃ y,
      s.send (.network (.server a),x) c =
        (s.outboxes c).onMessage (s.server.heap c).ctx.toSession y := by
  have haddressed := addressed_of_performs h hp
  cases x with
  | none => exact (hx ⟨by simp [haddressed],rfl⟩).elim
  | some y => exact ⟨y,by simp [State.send,haddressed]⟩

/-- No other step sends anything to a client. -/
theorem send_of_other (he : s.server.enabled cfg a)
    (hnot : ¬ Performs cfg s.server a c .onMessage .returned) :
    s.send (.network (.server a),x) c = s.outboxes c := by
  cases ha : addressed s.server (.network (.server a)) with
  | none => simp [State.send,ha]
  | some p =>
      obtain ⟨d,session⟩ := p
      have hne : c ≠ d := by
        rintro rfl
        exact hnot (addressed_eq h he ha).1
      cases x <;> simp [State.send,ha,hne]

end Outboxes

/-- Each client has been sent the responses to the requests of its own connection. -/
theorem delivered {s : State N} {G : Discipline (Backlog.State N) (Backlog.Action N)}
    (h : (system N cfg).Reach (Lift G) s) (c : ConnId) :
    Delivered (replies (traceOf cfg s.server c)) (s.outboxes c) := by
  refine h.invariant (I := fun s => Delivered (replies (traceOf cfg s.server c))
    (s.outboxes c)) ?_ ?_
  · rintro _ rfl
    exact ⟨rfl,rfl⟩
  · rintro s ⟨a,x⟩ _ hr ih - ⟨⟨-,he⟩,rfl⟩
    unfold State.next
    split_ifs with hx
    · exact ih
    cases a with
    | connect => exact ih
    | network a =>
        cases a with
        | arrive d bytes => exact ih
        | finish d => exact ih
        | server a =>
            have hserver := reach_server (reach_network hr)
            have he : s.server.enabled cfg a := he.1.1
            change Delivered (replies (traceOf cfg (s.server.next cfg a) c)) (s.send _ c)
            by_cases hp : Performs cfg s.server a c .onMessage .returned
            · obtain ⟨y,hsend⟩ := send_of_performs hserver hp hx
              rw [traceOf_performs hp,replies_append,replies_observe,hsend]
              exact ih.onMessage _ y
            · rw [replies_of_other he hp,send_of_other hserver he hp]
              exact ih

/-! ## What a client makes of it -/

/-- The body, if it is as long as the head announces. -/
def readBody (raw : Bytes) : Option Bytes :=
  (cut raw).bind fun p => if announced p.1 = some p.2.length then some p.2 else none

/-- A pattern which has been found stays where it is when more follows. -/
theorem find_stays {pattern raw whole : Bytes} (hraw : raw <+: whole) {n : ℕ}
    (h : find pattern raw = some n) : find pattern whole = some n := by
  obtain ⟨hn,hfirst⟩ := find_eq_some_iff.mp h
  obtain ⟨rest,rfl⟩ := hraw
  refine find_eq_some_iff.mpr ⟨?_,fun m hm hpattern => hfirst m hm ?_⟩
  · rw [List.drop_append]
    exact hn.trans (List.prefix_append ..)
  · rw [List.drop_append] at hpattern
    have hlen := hn.length_le
    rw [List.length_drop] at hlen
    refine List.prefix_of_prefix_length_le hpattern (List.prefix_append ..) ?_
    rw [List.length_drop]
    omega

/-- A client never takes a response which was cut off for a whole one. -/
theorem readBody_of_cut {req : HttpRequest} {raw : Bytes} (h : raw <+: buildResponse req) :
    readBody raw = if raw = buildResponse req then some (route req).body else none := by
  split_ifs with hwhole
  · rw [readBody,hwhole,cut_buildResponse,Option.bind_some]
    exact if_pos (announced_head req)
  · cases hfind : find headerEnd raw with
    | none => simp [readBody,cut,hfind]
    | some n =>
        have hcut := cut_buildResponse req
        rw [cut,find_stays h hfind,Option.map_some,Option.some.injEq,Prod.mk.injEq] at hcut
        obtain ⟨hhead,hbody⟩ := hcut
        have hend : n+headerEnd.length ≤ raw.length := by
          have hlen := (find_eq_some_iff.mp hfind).1.length_le
          rw [List.length_drop,show headerEnd.length = 4 from rfl] at hlen
          rw [show headerEnd.length = 4 from rfl]
          omega
        have hhead' : raw.take n = TextLines.join cr lf (headLines (route req)) := by
          obtain ⟨rest,hrest⟩ := h
          rw [← hhead,← hrest,List.take_append_of_le_length (Nat.le_of_add_right_le hend)]
        have hshort : raw.length < (buildResponse req).length :=
          lt_of_le_of_ne h.length_le fun hlen => hwhole (h.eq_of_length hlen)
        have hne : (route req).body.length ≠ (raw.drop (n+headerEnd.length)).length := by
          rw [← hbody,List.length_drop,List.length_drop]
          omega
        rw [readBody,cut,hfind,Option.map_some,Option.bind_some]
        refine if_neg fun hannounced => ?_
        rw [hhead',announced_head,Option.some.injEq] at hannounced
        exact hne hannounced

theorem prefix_accepted (x : WriteResult) (bytes : Bytes) : x.accepted bytes <+: bytes := by
  cases x with
  | count n => exact List.take_prefix n bytes
  | again => exact List.nil_prefix
  | error => exact List.nil_prefix

/-- The client has been sent what its socket has taken of the response, and reads its page
from it unless something was cut off. -/
def Responded (request : HttpRequest) (y : Outbox) : Prop :=
  ∃ x, y = ⟨x.accepted (buildResponse request),[x]⟩ ∧
    readBody y.bytes =
      if y.bytes = buildResponse request then some (route request).body else none

/-- A client which nothing was sent to has nothing to read. -/
theorem Delivered.cases {requests : List HttpRequest} {y : Outbox} (h : Delivered requests y)
    (hone : requests.length ≤ 1) : (requests = [] ∧ readBody y.bytes = none) ∨
      ∃ request, requests = [request] ∧ Responded request y := by
  obtain ⟨bytes,results⟩ := y
  obtain ⟨hresults,hbytes⟩ := h
  rcases requests with - | ⟨request,- | ⟨request',requests⟩⟩
  · left
    have hnil : bytes = [] := hbytes
    rw [hnil]
    exact ⟨rfl,rfl⟩
  · obtain ⟨x,rfl⟩ := List.length_eq_one_iff.mp hresults
    have hbytes : bytes = x.accepted (buildResponse request) := by simpa using hbytes
    subst hbytes
    exact .inr ⟨request,rfl,x,rfl,readBody_of_cut (prefix_accepted x _)⟩
  · simp at hone

section Main
variable {s : State N}

theorem replies_le_one {G : Discipline (Backlog.State N) (Backlog.Action N)}
    (h : (system N cfg).Reach (Lift G) s) (c : ConnId) :
    (replies (traceOf cfg s.server c)).length ≤ 1 :=
  (replies_length_le _).trans (messages_le_one (view_ok (reach_server (reach_network h)) c))

/-- In every run, whatever happens to whatever connection: a client has been sent what its
socket took of the response to its own request, once at most, and that request is the one
which its stream begins with, unless its connection was harmed. Where it reads a body of
the announced length, this is the page of its request, and nothing was cut off. -/
theorem no_response_goes_astray (hcfg : Serves cfg) (s : State N)
    (h : (system N cfg).Reach Free s) (c : ConnId) :
    let tr := traceOf cfg s.server c
    let y := s.outboxes c
    Delivered (replies tr) y ∧ (replies tr).length ≤ 1 ∧
      (Unharmed tr → ∀ request ∈ replies tr, request = requestOf (s.sockets c).sent) ∧
      ∀ body, readBody y.bytes = some body → ∃ request ∈ replies tr,
        y.bytes = buildResponse request ∧ body = (route request).body := by
  intro tr y
  have h : (system N cfg).Reach (Lift Free) s := h.mono fun _ _ _ => trivial
  have hdelivered : Delivered (replies tr) y := delivered h c
  have hone : (replies tr).length ≤ 1 := replies_le_one h c
  refine ⟨hdelivered,hone,fun hunharmed request hmem => ?_,fun body hbody => ?_⟩
  · rw [replies_eq_requests hunharmed.returned] at hmem
    have hsound := sound_report hcfg (reach_server (reach_network h)) hunharmed.returned
    rcases hsound.calls with hnone | hcalled
    · have hnone : requests tr = [] := hnone
      rw [hnone] at hmem
      cases hmem
    · rw [(requests_of_called hcfg (reach_network h) hunharmed hcalled).1] at hmem
      exact List.mem_singleton.mp hmem
  · rcases hdelivered.cases hone with ⟨-,hnone⟩ | ⟨request,hreplies,x,-,hread⟩
    · rw [hnone] at hbody
      cases hbody
    · rw [hread] at hbody
      split_ifs at hbody with hwhole
      exact ⟨request,hreplies ▸ List.mem_singleton_self request,hwhole,(Option.some.inj hbody).symm⟩

end Main

/-- `GET /x`, for which there is no page. -/
def missing : Bytes := [71,69,84,32,47,120,13,10,13,10]

/-- The peers and the server go on, and `write` takes all of a response. -/
def taking (as : List (Sockets.Action N)) : List (Action N) :=
  as.map fun a => (.network a,some (.count 1000))

/-- Descriptor 5 goes from one client to the next while the task which answered the first
one has not released yet. -/
def reusedScript (v w : Fin N) : List (Action N) :=
  (.connect,none)::(.connect,none)::taking (.arrive 0 greeting::.arrive 1 missing::
    serving (acceptScript 5 true++dispatchScript 5 v++
      workScript 10 v (reply (.data greeting) true .returned true)++acceptScript 5 true++
      dispatchScript 5 w++workScript 10 w (reply (.data missing) true .returned true)))

theorem no_response_goes_astray_reused : ∃ s : State 2,
    s.server.fd 0 = 5 ∧ s.server.fd 1 = 5 ∧
    (s.outboxes 0).bytes = buildResponse (requestOf greeting) ∧
    (s.outboxes 1).bytes = buildResponse (requestOf missing) := by
  obtain ⟨s,hs,hp⟩ := reach_of_script .standard (reusedScript (0 : Fin 2) 1) (fun s =>
      s.server.fd 0 = 5 ∧ s.server.fd 1 = 5 ∧ (s.sockets 0).sent = greeting ∧
      (s.sockets 1).sent = missing ∧ Unharmed (traceOf .standard s.server 0) ∧
      Unharmed (traceOf .standard s.server 1) ∧ (readBody (s.outboxes 0).bytes).isSome ∧
      (readBody (s.outboxes 1).bytes).isSome) (by decide +kernel)
  obtain ⟨hfd₀,hfd₁,hsent₀,hsent₁,hunharmed₀,hunharmed₁,hbody₀,hbody₁⟩ := of_decide_eq_true hp
  obtain ⟨-,-,hown₀,hwhole₀⟩ := no_response_goes_astray serves_standard s hs 0
  obtain ⟨-,-,hown₁,hwhole₁⟩ := no_response_goes_astray serves_standard s hs 1
  obtain ⟨body₀,hbody₀⟩ := Option.isSome_iff_exists.mp hbody₀
  obtain ⟨body₁,hbody₁⟩ := Option.isSome_iff_exists.mp hbody₁
  obtain ⟨request₀,hmem₀,hbytes₀,-⟩ := hwhole₀ body₀ hbody₀
  obtain ⟨request₁,hmem₁,hbytes₁,-⟩ := hwhole₁ body₁ hbody₁
  rw [hown₀ hunharmed₀ request₀ hmem₀,hsent₀] at hbytes₀
  rw [hown₁ hunharmed₁ request₁ hmem₁,hsent₁] at hbytes₁
  exact ⟨s,hfd₀,hfd₁,hbytes₀,hbytes₁⟩

/-! ## Every message gets its page -/

/-- The server goes on alone, whatever `write` does. -/
def Alone : Discipline (State N) (Action N) := Lift Backlog.Alone

/-- No step is left that the server could take alone. -/
def Ended (cfg : Config) (s : State N) : Prop := ∀ a t, Alone s a → ¬ (system N cfg).step s a t

/-- A call of `accept` which returns nobody. -/
def fails (a : Action N) : Bool := Backlog.fails a.1

section Runs
variable {s t : State N} {as : List (Action N)}

/-- The signal comes once, and all other steps are steps of the server. -/
theorem exists_bound (h : (system N cfg).Reach (Lift Backlog.Serving) s) :
    ∃ n, ∀ as t, (system N cfg).Run Alone s as t → as.length ≤ n+2*as.countP fails := by
  refine ⟨Backlog.burden cfg s.backlog+(if s.killed then 0 else 1),fun as t hrun => ?_⟩
  have hbound := hrun.length_le (q := fails) (m := 2)
    (μ := fun s => Backlog.burden cfg s.backlog+(if s.killed then 0 else 1))
    (I := fun s => (system N cfg).Reach (Lift Backlog.Serving) s)
    (fun _ _ _ hs halone hst => hs.step (Backlog.Alone.serving halone) hst) ?_ h
  · exact hbound
  · rintro s a _ hs halone ⟨⟨halive,he⟩,rfl⟩
    rcases backlog_next cfg s a with ⟨hkilled,hsame⟩ | ⟨hkilled,hnext⟩
    · simp [hkilled,hsame,halive]
    · have hburden := Backlog.burden_step (reach_backlog hs) he halone
      rw [hkilled,hnext,halive,fails]
      simp only [Bool.false_eq_true,if_false]
      omega

theorem run_backlog (hrun : (system N cfg).Run Alone s as t) :
    ∃ bs, (Backlog.system N cfg).Run Backlog.Alone s.backlog bs t.backlog := by
  induction hrun with
  | done s => exact ⟨[],.done _⟩
  | @step s _ _ a _ hg hst _ ih =>
      obtain ⟨⟨-,he⟩,rfl⟩ := hst
      obtain ⟨bs,hbs⟩ := ih
      rcases backlog_next cfg s a with ⟨-,hsame⟩ | ⟨-,hnext⟩
      · exact ⟨bs,hsame ▸ hbs⟩
      · exact ⟨a.1::bs,.step hg ⟨he,hnext⟩ hbs⟩

theorem ended_backlog (h : Ended cfg t) (halive : t.killed = false) :
    Backlog.Ended cfg t.backlog := by
  rintro a u ha ⟨he,rfl⟩
  exact h (a,some .error) _ ha ⟨⟨halive,he⟩,rfl⟩

end Runs

/-- While `on_connection_` returns, `epoll_wait` fails only by a signal and nobody destroys
the server, what it does alone from a reachable state on is bounded, but for two steps for
every call of `accept` that fails. Where it comes to an end, `SIGPIPE` has ended the
process, or every client which has sent a message that fits into the buffer, whatever
follows it and whatever happened to the others, has been sent the response to this message
if it was spared, as far as its socket has taken it, and its connection is closed. It reads
the page it has asked for, or finds nothing whole. -/
theorem message_gets_its_page (hN : 0 < N) (hevents : 0 < cfg.maxEvents) (hcfg : Serves cfg)
    (s : State N) (h : (system N cfg).Reach (Lift Backlog.Serving) s) :
    ∃ n, ∀ as t, (system N cfg).Run Alone s as t → as.length ≤ n+2*as.countP fails ∧
      (Ended cfg t → t.killed = false →
        ∀ c < Backlog.connected s.backlog, Spared cfg t.server c → ∀ m : Message,
          m.render.length < cfg.bufferSize → m.render <+: (t.sockets c).sent →
            (view t.server c).isOpen = false ∧ Responded m.request (t.outboxes c)) := by
  obtain ⟨n,hn⟩ := exists_bound h
  refine ⟨n,fun as t hrun => ⟨hn as t hrun,fun hended halive c hc hspared m hfits hm => ?_⟩⟩
  obtain ⟨bs,hbs⟩ := run_backlog hrun
  obtain ⟨⟨hrest,-⟩,hall⟩ := Backlog.done_of_ended hN hevents (reach_backlog h) hbs
    (ended_backlog hended halive)
  have hafter := Backlog.reach_alone (reach_backlog h) hbs
  obtain ⟨hclosed,hrequests⟩ := requests_of_message hcfg (Backlog.reach_network hafter) hrest
    (hall ▸ hc) hspared hm hfits
  have hreach : (system N cfg).Reach (Lift Free) t :=
    (hrun.mono fun _ _ _ => trivial).reach (h.mono fun _ _ _ => trivial)
  have hdelivered := delivered hreach c
  rw [replies_eq_requests hspared.unharmed.returned,hrequests] at hdelivered
  rcases hdelivered.cases le_rfl with ⟨hnil,-⟩ | ⟨request,hone,hresponded⟩
  · cases hnil
  · cases List.singleton_inj.mp hone
    exact ⟨hclosed,hresponded⟩

/-- A client has connected and sent the message. -/
theorem message_gets_its_page_hello : ∃ s : State 1,
    s.backlog.waiting = 1 ∧ (s.sockets 0).sent = hello.render ∧
    ∃ n, ∀ as t, (system 1 .standard).Run Alone s as t → as.length ≤ n+2*as.countP fails ∧
      (Ended .standard t → t.killed = false →
        ∀ c < Backlog.connected s.backlog, Spared .standard t.server c → ∀ m : Message,
          m.render.length < bufferSize → m.render <+: (t.sockets c).sent →
            (view t.server c).isOpen = false ∧ Responded m.request (t.outboxes c)) := by
  have h₁ : (system 1 .standard).Reach (Lift Backlog.Serving)
      (State.next .standard (.initial 1) (.connect,none)) :=
    .step (a := (.connect,none)) (.start rfl) trivial ⟨⟨rfl,trivial⟩,rfl⟩
  have h₂ : (system 1 .standard).Reach (Lift Backlog.Serving)
      (State.next .standard (State.next .standard (.initial 1) (.connect,none))
        (.network (.arrive 0 hello.render),none)) :=
    .step (a := (.network (.arrive 0 hello.render),none)) h₁ trivial
      ⟨⟨rfl,⟨by decide,rfl⟩,trivial⟩,rfl⟩
  exact ⟨_,rfl,rfl,message_gets_its_page Nat.one_pos (by decide) serves_standard _ h₂⟩

end WebServer.Responses
