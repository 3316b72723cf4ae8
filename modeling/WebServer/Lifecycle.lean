import WebServer.Server

/-!
# The life cycle of one connection

What the server does to a single connection, without the descriptor table, the
other connections and the identity of the workers: `AcceptLoop` sets the
connection up, and from its registration on a token goes round between epoll,
the event batch, the queue of the pool and one task, until the descriptor is
closed. Tasks that have passed the token on may still run: they only release.
-/
namespace WebServer.Lifecycle
open TransitionSystem Interaction Contexts Handler Server
open ThreadPool (Outcome)

/-- `pos` is where `AcceptLoop` stands with this connection, `fetch` if it is
elsewhere. `watch` is the registration, if there is one, and whether it is armed. -/
@[ext] structure Conn where
  pos : Position
  isOpen : Bool
  watch : Option Bool
  delivered : ℕ
  queued : ℕ
  held : ℕ
  running : Multiset Task
  fd : Fd
  cell : Cell
  history : List Event

/-- A connection number that has not been given out. -/
def Conn.blank : Conn := ⟨.fetch,false,none,0,0,0,0,0,⟨.new 0 0,false,0⟩,[]⟩

inductive Move where
  | accept (fd : Fd)
  | setNonblocking
  | onConnection (outcome : Outcome)
  | create
  | add (ok : Bool)
  | delete
  | close
  | deliver
  | addRef
  | submit
  | notify
  | look
  | invoke (c : ConnId)
  | work (rest : Multiset Task) (t : Task) (o : Op) (k : o.Res → Code) (r : o.Res)
  | finish (rest : Multiset Task) (t : Task) (outcome : Outcome)

def Conn.record (v : Conn) (e : Event) : Conn := {v with history := v.history++[e]}

/-- What an operation of a task does to the descriptor and its registration. -/
def Conn.perform (v : Conn) : (o : Op) → o.Res → Conn
  | .epollDel, _ => {v with watch := none}
  | .close, _ => {v with isOpen := false, watch := none}
  | .epollMod, true => {v with watch := some true}
  | _, _ => v

section Perform
variable (v : Conn) (o : Op) (r : o.Res)

@[simp] theorem perform_pos : (v.perform o r).pos = v.pos := by
  cases o <;> first | rfl | (cases r <;> rfl)

@[simp] theorem perform_delivered : (v.perform o r).delivered = v.delivered := by
  cases o <;> first | rfl | (cases r <;> rfl)

@[simp] theorem perform_queued : (v.perform o r).queued = v.queued := by
  cases o <;> first | rfl | (cases r <;> rfl)

@[simp] theorem perform_held : (v.perform o r).held = v.held := by
  cases o <;> first | rfl | (cases r <;> rfl)

@[simp] theorem perform_fd : (v.perform o r).fd = v.fd := by
  cases o <;> first | rfl | (cases r <;> rfl)

@[simp] theorem perform_history : (v.perform o r).history = v.history := by
  cases o <;> first | rfl | (cases r <;> rfl)

theorem perform_isOpen (ho : o ≠ .close) : (v.perform o r).isOpen = v.isOpen := by
  cases o <;> first | rfl | (cases r <;> rfl) | exact (ho rfl).elim

end Perform

/-- A read reports `EBADF` only for a descriptor that is not open. -/
def Conn.Permits (v : Conn) : (o : Op) → o.Res → Prop
  | .read, .error .badf => v.isOpen = false
  | _, _ => True

def Conn.enabled (cfg : Config) (v : Conn) : Move → Prop
  | .accept _ => v = .blank
  | .setNonblocking => v.pos = .setNonblocking
  | .onConnection _ => v.pos = .onConnection
  | .create => v.pos = .create
  | .add _ => v.pos = .add
  | .delete => v.pos = .delete
  | .close => v.pos = .close
  | .deliver => v.watch = some true
  | .addRef => v.pos = .fetch ∧ 0 < v.delivered
  | .submit => v.pos = .submit
  | .notify => v.pos = .notify
  | .look => 0 < v.queued
  | .invoke _ => 0 < v.held
  | .work rest t o k r => v.running = t ::ₘ rest ∧ t.code = .op o k ∧
      v.cell.Permits cfg o r ∧ v.Permits o r
  | .finish rest t outcome => v.running = t ::ₘ rest ∧ t.code = .ret outcome

def Conn.next (cfg : Config) (v : Conn) : Move → Conn
  | .accept fd =>
      {v.record .accepted with pos := .setNonblocking, isOpen := true, fd := fd}
  | .setNonblocking => {v with pos := .onConnection}
  | .onConnection _ =>
      {(if cfg.onConnection then v.record .onConnection else v) with pos := .create}
  | .create =>
      {v.record .created with pos := .add, cell := ⟨.new cfg.bufferSize v.fd,true,0⟩}
  | .add true => {v.record (.added true) with pos := .fetch, watch := some true}
  | .add false => {v.record (.added false) with pos := .delete}
  | .delete =>
      {v.record .deleted with
        pos := .close, cell := {v.cell with deletes := v.cell.deletes+1}}
  | .close => {v.record .closed with pos := .fetch, isOpen := false, watch := none}
  | .deliver => {v with watch := some false, delivered := v.delivered+1}
  | .addRef =>
      {v.record .addRef with
        pos := .submit
        delivered := v.delivered-1
        cell := {v.cell with ctx := v.cell.ctx.addRef}}
  | .submit => {v with pos := .notify, queued := v.queued+1}
  | .notify => {v with pos := .fetch}
  | .look => {v with queued := v.queued-1, held := v.held+1}
  | .invoke c => {v with held := v.held-1, running := Task.start cfg c ::ₘ v.running}
  | .work rest t o k r =>
      let x := v.cell.perform cfg o r
      {(v.perform o r).record (.op o r x.ctx.toSession) with
        cell := x, running := t.advance (k r) o r ::ₘ rest}
  | .finish rest t outcome => {v.record (.finished outcome t) with running := rest}

def life (cfg : Config) : System Conn Move :=
  System.guarded (fun v => v = .blank) (Conn.enabled cfg) (Conn.next cfg)

/-- The message callback returns normally. -/
def Returns : Discipline Conn Move
  | _, .work _ _ .onMessage _ r => r = .returned
  | _, _ => True

/-! ## Where the token is -/

/-- Tasks that have neither succeeded in `EPOLL_CTL_MOD` nor closed the descriptor. -/
def inCharge (m : Multiset Task) : ℕ := m.countP (·.handed = none)

/-- Tasks that have not executed their release. -/
def unreleased (m : Multiset Task) : ℕ := m.countP (·.released = 0)

@[simp] theorem inCharge_cons (t : Task) (m : Multiset Task) :
    inCharge (t ::ₘ m) = inCharge m+(if t.handed = none then 1 else 0) :=
  Multiset.countP_cons ..

@[simp] theorem unreleased_cons (t : Task) (m : Multiset Task) :
    unreleased (t ::ₘ m) = unreleased m+(if t.released = 0 then 1 else 0) :=
  Multiset.countP_cons ..

namespace Conn
variable (v : Conn)

def registered : Prop := .added true ∈ v.history

def armed : ℕ := if v.watch = some true then 1 else 0

/-- The event is being dispatched: the reference is taken, the job not yet submitted. -/
def submitting : ℕ := if v.pos = .submit then 1 else 0

def active : ℕ := inCharge v.running

def shut : ℕ := if v.isOpen then 0 else 1

theorem isOpen_iff : v.isOpen = true ↔ v.shut = 0 := by
  cases h : v.isOpen <;> simp [shut,h]

/-- The places of the token while the connection is open. -/
def tokens : ℕ := v.armed+(v.delivered+v.submitting)+v.queued+(v.held+v.active)

/-- Tasks for which `AcceptLoop` has taken a reference that is not released yet. -/
def outstanding : ℕ := v.submitting+v.queued+v.held+unreleased v.running

end Conn

/-- A finished job that neither re-armed nor closed its connection. -/
def abandons : Event → Bool
  | .finished _ t => t.handed = none
  | _ => false

def closes : Event → Bool
  | .closed => true
  | .op .close _ _ => true
  | _ => false

def messages : Event → Bool
  | .op .onMessage _ _ => true
  | _ => false

/-- What may be recorded of a connection after its registration. -/
def serves : Event → Bool
  | .addRef | .op _ _ _ | .finished _ _ => true
  | _ => false

def Conn.abandoned (v : Conn) : ℕ := v.history.countP abandons

def registers : Event → Bool
  | .added ok => ok
  | _ => false

theorem registered_of_any {v : Conn} (h : v.history.any registers = true) :
    v.registered := by
  obtain ⟨e,he,hr⟩ := List.any_eq_true.mp h
  cases e with
  | added ok =>
      have hok : ok = true := hr
      subst hok
      exact he
  | _ => simp [registers] at hr

/-- The operations of the tasks on the connection, as observed. -/
def observations (cfg : Config) (h : List Event) : List (Observation Op Op.Res Session) :=
  h.filterMap fun e => match e with
    | .op o r s => if (semantics cfg.onMessage).silent o then none else some ⟨o,r,s⟩
    | _ => none

end WebServer.Lifecycle
