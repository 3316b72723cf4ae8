import WebServer.Ownership

/-!
# The sockets behind the server

The server of `Server` takes any answer of `read` and any event of an armed
registration. Here the kernel is made definite: every connection has a socket that
keeps what its peer has sent, `read` takes the next bytes from it, and epoll lists a
connection as ready by the rules of `EPOLLET` and `EPOLLONESHOT`. A wake-up of the
socket lists an armed registration; arming a registration polls the socket once; what
`epoll_wait` reports is taken off the list, and a disarmed registration is never put
on it.

The peers act at any time, also before their connection has been accepted. `read` and
the calls of `epoll_ctl` may fail at any time.
-/
namespace WebServer.Sockets
open TransitionSystem RequestParsing Contexts Interaction Handler Server
open Lifecycle LifecycleInvariant LifecycleWork Projection Ownership

variable {N : ℕ} {cfg : Config}

/-- What the peer has sent, how much of it has been read, whether the peer has
finished, and whether epoll lists the connection as ready. -/
structure Socket where
  sent : Bytes
  taken : ℕ
  finished : Bool
  listed : Bool

def Socket.new : Socket := ⟨[],0,false,false⟩

def Socket.pending (x : Socket) : Bytes := x.sent.drop x.taken

/-- There is something to read: a byte, or the end of the file. -/
def Socket.readable (x : Socket) : Bool := !x.pending.isEmpty || x.finished

/-- The reads that can still find something. -/
def Socket.left (x : Socket) : ℕ := x.pending.length+(if x.finished then 1 else 0)

/-- What a `read` of at most `room` bytes may answer. Errors are always possible. -/
def Socket.Gives (x : Socket) (room : ℕ) : ReadResult → Prop
  | .data [] => room = 0 ∨ x.pending = [] ∧ x.finished = true
  | .data (b::bs) => b::bs <+: x.pending
  | .error .again => x.readable = false
  | .error _ => True

def Socket.read (x : Socket) : ReadResult → Socket
  | .data bytes => {x with taken := x.taken+bytes.length}
  | .error _ => x

/-- The list after a step, from the registration before and after it. -/
def Socket.poll (x : Socket) (before after : Option Bool) : Socket :=
  {x with listed := match after with
    | some true => if before = some true then x.listed else x.readable
    | _ => false}

/-- The wake-up of a socket, which a disarmed registration ignores. -/
def Socket.wake (x : Socket) (watch : Option Bool) : Socket :=
  {x with listed := x.listed || watch = some true}

structure State (N : ℕ) where
  server : Server.State N
  sockets : ConnId → Socket

def State.initial (N : ℕ) : State N := ⟨.initial N,fun _ => .new⟩

/-- The peer of connection `c` sends bytes or finishes, or the server takes a step. -/
inductive Action (N : ℕ) where
  | arrive (c : ConnId) (bytes : Bytes)
  | finish (c : ConnId)
  | server (a : Server.Action N)

/-- The connection which a step of the server reads from, and the answer. -/
def reading (s : Server.State N) : Server.Action N → Option (ConnId × ReadResult)
  | .work w answer =>
      match s.pool.workers w with
      | .running t =>
          match t.code with
          | .op .read _ => some (t.conn,answer .read)
          | _ => none
      | _ => none
  | _ => none

/-- What `epoll_wait` reports in a step. -/
def reported : Server.Action N → List Ready
  | .epollWait ready => ready
  | _ => []

def State.lists (s : State N) : Ready → Prop
  | .listen => True
  | .conn fd => ∀ r ∈ s.server.kernel.epoll fd, (s.sockets r.conn).listed = true

/-- What the kernel of `Server` leaves open: a read is answered by the socket, and
`epoll_wait` reports what is listed. -/
def State.Answers (cfg : Config) (s : State N) (a : Server.Action N) : Prop :=
  (∀ p ∈ reading s.server a,
    (s.sockets p.1).Gives ((s.server.heap p.1).ctx.room cfg.bufferSize) p.2) ∧
  ∀ e ∈ reported a, s.lists e

def State.enabled (cfg : Config) (s : State N) : Action N → Prop
  | .arrive c bytes => bytes ≠ [] ∧ (s.sockets c).finished = false
  | .finish c => (s.sockets c).finished = false
  | .server a => s.server.enabled cfg a ∧ s.Answers cfg a

def State.setSocket (s : State N) (c : ConnId) (x : Socket) : State N :=
  {s with sockets := Function.update s.sockets c x}

/-- The socket of connection `c` after a read by the step. -/
def Socket.take (x : Socket) (c : ConnId) : Option (ConnId × ReadResult) → Socket
  | some (d,n) => if d = c then x.read n else x
  | none => x

def State.next (cfg : Config) (s : State N) : Action N → State N
  | .arrive c bytes =>
      let x := s.sockets c
      s.setSocket c (Socket.wake {x with sent := x.sent++bytes} (view s.server c).watch)
  | .finish c =>
      let x := s.sockets c
      s.setSocket c (Socket.wake {x with finished := true} (view s.server c).watch)
  | .server a =>
      let t := s.server.next cfg a
      { server := t
        sockets := fun c => ((s.sockets c).take c (reading s.server a)).poll
          (view s.server c).watch (view t c).watch }

/-- The server with `N` workers and the sockets of its connections. -/
def network (N : ℕ) (cfg : Config) : System (State N) (Action N) :=
  System.guarded (fun s => s = .initial N) (State.enabled cfg) (State.next cfg)

/-- A discipline of the server, which says nothing of the peers. -/
def Lift (G : Discipline (Server.State N) (Server.Action N)) : Discipline (State N) (Action N)
  | s, .server a => G s.server a
  | _, _ => True

variable {s : State N} {c : ConnId} {x : Socket}
variable {G : Discipline (Server.State N) (Server.Action N)}

/-- Every run with sockets is a run of the server. -/
theorem reach_server (h : (network N cfg).Reach (Lift G) s) :
    (Server.system N cfg).Reach G s.server := by
  refine h.simulates (f := State.server) ?_ ?_
  · rintro _ rfl
    rfl
  · rintro s a t - hg ⟨he,rfl⟩
    cases a with
    | arrive c bytes => exact .inl rfl
    | finish c => exact .inl rfl
    | server a => exact .inr ⟨a,hg,he.1,rfl⟩

theorem reach_free {K : Discipline (State N) (Action N)} (h : (network N cfg).Reach K s) :
    (network N cfg).Reach (Lift Free) s :=
  h.mono fun _ a _ => by cases a <;> trivial

/-! ## The small lemmas -/

@[simp] theorem poll_sent (before after : Option Bool) : (x.poll before after).sent = x.sent := rfl
@[simp] theorem poll_taken (before after : Option Bool) :
    (x.poll before after).taken = x.taken := rfl
@[simp] theorem poll_finished (before after : Option Bool) :
    (x.poll before after).finished = x.finished := rfl
@[simp] theorem poll_readable (before after : Option Bool) :
    (x.poll before after).readable = x.readable := rfl
@[simp] theorem wake_sent (watch : Option Bool) : (x.wake watch).sent = x.sent := rfl
@[simp] theorem wake_taken (watch : Option Bool) : (x.wake watch).taken = x.taken := rfl
@[simp] theorem wake_finished (watch : Option Bool) : (x.wake watch).finished = x.finished := rfl
@[simp] theorem wake_readable (watch : Option Bool) : (x.wake watch).readable = x.readable := rfl

@[simp] theorem take_sent (r : Option (ConnId × ReadResult)) : (x.take c r).sent = x.sent := by
  rcases r with - | ⟨d,n⟩
  · rfl
  · simp only [Socket.take]
    split
    · cases n <;> rfl
    · rfl

@[simp] theorem take_finished (r : Option (ConnId × ReadResult)) :
    (x.take c r).finished = x.finished := by
  rcases r with - | ⟨d,n⟩
  · rfl
  · simp only [Socket.take]
    split
    · cases n <;> rfl
    · rfl

@[simp] theorem take_listed (r : Option (ConnId × ReadResult)) :
    (x.take c r).listed = x.listed := by
  rcases r with - | ⟨d,n⟩
  · rfl
  · simp only [Socket.take]
    split
    · cases n <;> rfl
    · rfl

theorem take_eq_self {r : Option (ConnId × ReadResult)} (h : ∀ n, r ≠ some (c,n)) :
    x.take c r = x := by
  rcases r with - | ⟨d,n⟩
  · rfl
  · refine if_neg ?_
    rintro rfl
    exact h n rfl

/-- A read is an operation of a task. -/
theorem reading_cases {s : Server.State N} {a : Server.Action N} {n : ReadResult}
    (h : reading s a = some (c,n)) : ∃ w answer t k, a = .work w answer ∧
      s.pool.workers w = .running t ∧ t.code = .op .read k ∧ t.conn = c ∧ n = answer .read := by
  unfold reading at h
  split at h
  case h_1 w answer =>
    split at h
    case h_1 t hw =>
      split at h
      case h_1 k hcode =>
        cases h
        exact ⟨w,answer,t,k,rfl,hw,hcode,rfl,rfl⟩
      case h_2 => cases h
    case h_2 => cases h
  case h_2 => cases h

/-- A step of the server which takes nothing from a socket and reports nothing. -/
theorem exists_step {K : Discipline (State N) (Action N)} {a : Server.Action N}
    (ha : K s (.server a)) (he : s.server.enabled cfg a) (hread : reading s.server a = none)
    (hrep : reported a = []) : ∃ a t, K s a ∧ (network N cfg).step s a t := by
  refine ⟨.server a,_,ha,⟨he,?_,?_⟩,rfl⟩
  · intro p hp
    rw [hread] at hp
    cases hp
  · intro e hmem
    rw [hrep] at hmem
    cases hmem

/-! ## Decidability -/

instance (room : ℕ) : (n : ReadResult) → Decidable (x.Gives room n)
  | .data [] => inferInstanceAs (Decidable (room = 0 ∨ x.pending = [] ∧ x.finished = true))
  | .data (b::bs) => inferInstanceAs (Decidable (b::bs <+: x.pending))
  | .error .again => inferInstanceAs (Decidable (x.readable = false))
  | .error .badf | .error .other => isTrue trivial

instance : (e : Ready) → Decidable (s.lists e)
  | .listen => isTrue trivial
  | .conn fd => inferInstanceAs
      (Decidable (∀ r ∈ s.server.kernel.epoll fd, (s.sockets r.conn).listed = true))

instance (a : Server.Action N) : Decidable (s.Answers cfg a) :=
  inferInstanceAs (Decidable (_ ∧ _))

instance : (a : Action N) → Decidable (s.enabled cfg a)
  | .arrive c bytes => inferInstanceAs (Decidable (bytes ≠ [] ∧ (s.sockets c).finished = false))
  | .finish c => inferInstanceAs (Decidable ((s.sockets c).finished = false))
  | .server a => inferInstanceAs (Decidable (s.server.enabled cfg a ∧ s.Answers cfg a))

instance [∀ s a, Decidable (G s a)] : (a : Action N) → Decidable (Lift G s a)
  | .server a => inferInstanceAs (Decidable (G s.server a))
  | .arrive _ _ | .finish _ => isTrue trivial

theorem reach_of_script {K : Discipline (State N) (Action N)} [∀ s a, Decidable (K s a)]
    (cfg : Config) (as : List (Action N)) (p : State N → Bool)
    (h : (execute (fun s a => K s a ∧ s.enabled cfg a) (State.next cfg) (.initial N) as).any p =
      true) : ∃ s, (network N cfg).Reach K s ∧ p s = true :=
  execute_reach (fun s => s = State.initial N) (fun _ _ hc => hc) rfl h

/-! ## Nothing is forgotten -/

/-- What a peer may do to its socket. -/
inductive Peer (x : Socket) : Socket → Prop
  | arrive {bytes : Bytes} : bytes ≠ [] → x.finished = false →
      Peer x {x with sent := x.sent++bytes}
  | finish : x.finished = false → Peer x {x with finished := true}

/-- A step of a peer leaves the server alone, and changes one socket and wakes it. -/
theorem peer_cases {a : Action N} (he : s.enabled cfg a) (ha : ∀ b, a ≠ .server b) (c : ConnId) :
    (s.next cfg a).server = s.server ∧ ((s.next cfg a).sockets c = s.sockets c ∨
      ∃ y, Peer (s.sockets c) y ∧
        (s.next cfg a).sockets c = y.wake (view s.server c).watch) := by
  cases a with
  | arrive d bytes =>
      refine ⟨rfl,?_⟩
      by_cases hd : c = d
      · subst hd
        exact .inr ⟨_,.arrive he.1 he.2,Function.update_self ..⟩
      · exact .inl (Function.update_of_ne hd ..)
  | finish d =>
      refine ⟨rfl,?_⟩
      by_cases hd : c = d
      · subst hd
        exact .inr ⟨_,.finish he,Function.update_self ..⟩
      · exact .inl (Function.update_of_ne hd ..)
  | server b => exact (ha b rfl).elim

/-- A property of a connection's socket and of the server holds in every run if every
step of its peer and every step of the server keeps it. -/
theorem socket_invariant {I : Server.State N → Socket → Prop} (c : ConnId)
    (h₀ : I (.initial N) .new)
    (hpeer : ∀ s y, (network N cfg).Reach (Lift G) s → I s.server (s.sockets c) →
      Peer (s.sockets c) y → I s.server (y.wake (view s.server c).watch))
    (hserver : ∀ s a, (network N cfg).Reach (Lift G) s → I s.server (s.sockets c) →
      G s.server a → s.server.enabled cfg a → s.Answers cfg a →
      I (s.server.next cfg a) (((s.sockets c).take c (reading s.server a)).poll
        (view s.server c).watch (view (s.server.next cfg a) c).watch))
    (h : (network N cfg).Reach (Lift G) s) : I s.server (s.sockets c) := by
  refine h.invariant (I := fun s => I s.server (s.sockets c)) ?_ ?_
  · rintro _ rfl
    exact h₀
  · rintro s a _ hr ih hg ⟨he,rfl⟩
    by_cases ha : ∃ b, a = .server b
    · obtain ⟨b,rfl⟩ := ha
      exact hserver s b hr ih hg he.1 he.2
    · obtain ⟨hsame,hsocket⟩ := peer_cases he (fun b hb => ha ⟨b,hb⟩) c
      rw [hsame]
      rcases hsocket with hx | ⟨y,hy,hx⟩
      · rwa [hx]
      · rw [hx]
        exact hpeer s y hr ih hy

theorem readable_iff : x.readable = true ↔ x.taken < x.sent.length ∨ x.finished = true := by
  simp [Socket.readable,Socket.pending]

/-- What a read returns lies among what was sent. -/
theorem taken_read {room : ℕ} {n : ReadResult} (hx : x.taken ≤ x.sent.length)
    (hn : x.Gives room n) : (x.read n).taken ≤ x.sent.length := by
  cases n with
  | error e => exact hx
  | data bytes =>
      cases bytes with
      | nil => exact hx
      | cons b bs =>
          have hlen := List.IsPrefix.length_le hn
          rw [Socket.pending,List.length_drop] at hlen
          change x.taken+(b::bs).length ≤ x.sent.length
          omega

section Listed
variable (h : (network N cfg).Reach (Lift G) s)
include h

theorem taken_le (c : ConnId) : (s.sockets c).taken ≤ (s.sockets c).sent.length := by
  refine socket_invariant (I := fun _ x => x.taken ≤ x.sent.length) c le_rfl ?_ ?_ h
  · intro s y _ ih hy
    cases hy with
    | arrive => simpa using Nat.le_add_right_of_le ih
    | finish => exact ih
  · intro s a _ ih _ _ ha
    simp only [poll_taken,poll_sent,take_sent]
    cases hr : reading s.server a with
    | none => exact ih
    | some p =>
        by_cases hp : p.1 = c
        · subst hp
          simpa [Socket.take] using taken_read ih (ha.1 p hr)
        · simpa [Socket.take,hp] using ih

/-- A connection that a task reads from is not armed. -/
theorem not_armed_of_reading {a : Server.Action N} {n : ReadResult}
    (hr : reading s.server a = some (c,n)) : (view s.server c).watch ≠ some true := by
  obtain ⟨w,answer,t,k,-,hw,hcode,rfl,-⟩ := reading_cases hr
  obtain ⟨hl,hnone⟩ := inCharge_of_touches (reach_server h) hw ⟨_,k,hcode,by decide⟩
  obtain ⟨rest,hrun,-⟩ := running_cons hw
  have htoken := hl.token
  intro harmed
  simp only [Conn.tokens,Conn.armed,harmed,Conn.active,hrun,inCharge_cons,hnone,if_true] at htoken
  omega

/-- A step of the peer makes the socket readable. -/
theorem readable_of_peer {y : Socket} (hy : Peer (s.sockets c) y) : y.readable = true := by
  have hlen := taken_le h c
  rw [readable_iff]
  cases hy with
  | @arrive bytes hb =>
      have hpos := List.length_pos_of_ne_nil hb
      left
      change (s.sockets c).taken < ((s.sockets c).sent++bytes).length
      rw [List.length_append]
      omega
  | finish => exact .inr rfl

/-- The list of an edge-triggered one-shot registration is what a level-triggered one
would report: the armed connections which can be read. -/
theorem listed_iff (c : ConnId) : (s.sockets c).listed = true ↔
    (view s.server c).watch = some true ∧ (s.sockets c).readable = true := by
  refine socket_invariant (I := fun t x => x.listed = true ↔
    (view t c).watch = some true ∧ x.readable = true) c (by simp [Socket.new,readable_iff]) ?_ ?_ h
  · intro s y hr ih hy
    have hreadable := readable_of_peer hr hy
    have hlisted : y.listed = (s.sockets c).listed := by cases hy <;> rfl
    simp only [Socket.wake,hlisted,Bool.or_eq_true,decide_eq_true_eq]
    change _ ↔ _ ∧ y.readable = true
    rw [ih,hreadable]
    tauto
  · intro s a hr ih _ _ _
    simp only [poll_readable]
    simp only [Socket.poll,take_listed]
    cases hafter : (view (s.server.next cfg a) c).watch with
    | none => simp
    | some armed =>
        cases armed with
        | false => simp
        | true =>
            by_cases hbefore : (view s.server c).watch = some true
            · have hsame : (s.sockets c).take c (reading s.server a) = s.sockets c :=
                take_eq_self fun n hn => not_armed_of_reading hr hn hbefore
              simpa [hbefore,hsame] using ih
            · simp [hbefore]

end Listed

/-- `AcceptLoop` stands between `accept` and the answer of `EPOLL_CTL_ADD`, or is about to
reject the connection. -/
def inSetup : Position → Bool
  | .setNonblocking | .onConnection | .create | .add | .delete | .close => true
  | .fetch | .submit | .notify | .exited => false

/-- An open connection is registered, or still being set up. -/
theorem inSetup_or_live {v : Conn} (h : Ok cfg v) (hopen : v.isOpen = true) :
    inSetup v.pos = true ∨ Live cfg v := by
  cases h with
  | blank => cases hopen
  | rejected => cases hopen
  | live hl => exact .inr hl
  | _ => exact .inl rfl

/-- What the peers have sent is never forgotten, whatever the callbacks and the system
calls do: a connection is listed as ready exactly if it is armed and can be read, and an
open connection that can be read is still being set up, or is listed, or its event is being
dispatched, or one job or one task is in charge of it, or its own callback has thrown. -/
theorem edge_triggering_forgets_nothing (s : State N) (h : (network N cfg).Reach Free s)
    (c : ConnId) :
    ((s.sockets c).listed = true ↔
      (view s.server c).watch = some true ∧ (s.sockets c).readable = true) ∧
    ((view s.server c).isOpen = true → (s.sockets c).readable = true →
      inSetup (view s.server c).pos = true ∨ (s.sockets c).listed = true ∨
        ((view s.server c).delivered+(view s.server c).submitting)+(view s.server c).queued+
          ((view s.server c).held+(view s.server c).active)+(view s.server c).abandoned = 1) := by
  have h := reach_free h
  refine ⟨listed_iff h c,fun hopen hreadable => ?_⟩
  rcases inSetup_or_live (view_ok (reach_server h) c) hopen with hpos | hl
  · exact .inl hpos
  have htoken := hl.token
  rw [(view s.server c).isOpen_iff.mp hopen] at htoken
  by_cases harmed : (view s.server c).watch = some true
  · exact .inr (.inl ((listed_iff h c).mpr ⟨harmed,hreadable⟩))
  · right
    right
    simp only [Conn.tokens,Conn.armed,if_neg harmed] at htoken
    omega

/-- Two bytes arrive before their connection is accepted; while a task reads one of
them the peer finishes. -/
def earlyScript : List (Action 1) :=
  .arrive 0 [71,69]::(acceptScript 5 true++dispatchScript 5 0++
    workScript 2 0 (reply (.data [71]) false .returned true)).map .server++[.finish 0]

theorem edge_triggering_forgets_nothing_early : ∃ s : State 1,
    (s.sockets 0).pending = [69] ∧ (s.sockets 0).listed = false ∧
    ((view s.server 0).delivered+(view s.server 0).submitting)+(view s.server 0).queued+
      ((view s.server 0).held+(view s.server 0).active)+(view s.server 0).abandoned = 1 := by
  obtain ⟨s,hs,hp⟩ := reach_of_script (K := Free) .standard earlyScript
    (fun s => inSetup (view s.server 0).pos = false ∧ (view s.server 0).isOpen = true ∧
      (s.sockets 0).pending = [69] ∧ (s.sockets 0).listed = false) (by decide +kernel)
  obtain ⟨hsetup,hopen,hpending,hlisted⟩ := of_decide_eq_true hp
  obtain ⟨-,hforgotten⟩ := edge_triggering_forgets_nothing s hs 0
  have hone := hforgotten hopen (by simp [Socket.readable,hpending])
  exact ⟨s,hpending,hlisted,(hone.resolve_left (by simp [hsetup])).resolve_left (by simp [hlisted])⟩

end WebServer.Sockets
