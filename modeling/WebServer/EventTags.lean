import WebServer.References
import Mathlib.Data.BitVec

/-!
# Which object an event belongs to

`epoll_data_t` is a union of eight bytes, whose member `fd` is the low half of
the member `ptr`. The listening descriptor is registered through `fd`, every
connection through `ptr`, and `AcceptLoop` tells the events apart by comparing
`fd` with `server_fd_`. So the context at an address whose low half happens to
be the number of the listening descriptor is taken for the listening descriptor.

The server's model carries the registered object in each event; here the event
is what the kernel hands back, and the branch is the one the comparison chooses.
-/
namespace WebServer.EventTags
open TransitionSystem Contexts Server Lifecycle Projection References

/-- An `int`, and an address. -/
abbrev CInt := BitVec 32
abbrev Address := BitVec 64

/-- `epoll_data_t`. -/
structure EpollData where
  bits : BitVec 64
  deriving DecidableEq

namespace EpollData
variable (d : EpollData)

def zero : EpollData := ⟨0⟩

def ptr : Address := d.bits

/-- The low half of the union. -/
def fd : CInt := d.bits.setWidth 32

def setPtr (_ : EpollData) (p : Address) : EpollData := ⟨p⟩

/-- Writing `fd` leaves the high half as it was. -/
def setFd (fd : CInt) : EpollData := ⟨d.bits.extractLsb' 32 32++fd⟩

@[simp] theorem fd_setFd (fd : CInt) : (d.setFd fd).fd = fd :=
  calc (d.bits.extractLsb' 32 32++fd).setWidth 32
      = fd.setWidth 32 := BitVec.setWidth_append.trans (dif_pos (Nat.le_refl 32))
    _ = fd := BitVec.setWidth_eq fd

@[simp] theorem ptr_setPtr (p : Address) : (d.setPtr p).ptr = p := rfl

@[simp] theorem fd_setPtr (p : Address) : (d.setPtr p).fd = p.setWidth 32 := rfl

end EpollData

/-- What `AcceptLoop` does with an event. -/
inductive Branch where
  | accept
  | skip
  | job (ctx : Address)
  deriving DecidableEq

/-- `if (fd == server_fd_)`, and `if (!ctx) continue` behind it. -/
def dispatch (serverFd : CInt) (d : EpollData) : Branch :=
  if d.fd = serverFd then .accept
  else if d.ptr = 0 then .skip
  else .job d.ptr

/-- What is registered for an object: the listening descriptor with a cleared
union, a connection over whatever the union held before. `EPOLL_CTL_ADD` finds
the data of the previous registration there, `EPOLL_CTL_MOD` an uninitialised local. -/
inductive Registers (serverFd : CInt) (place : ConnId → Address) : Tag → EpollData → Prop
  | listen : Registers serverFd place .listen (EpollData.zero.setFd serverFd)
  | ctx (c : ConnId) (old : EpollData) :
      Registers serverFd place (.ctx c) (old.setPtr (place c))

/-- The branch of the object that was registered. -/
def branch (place : ConnId → Address) : Tag → Branch
  | .listen => .accept
  | .ctx c => .job (place c)

section
variable {serverFd : CInt} {ctx : Address} {old : EpollData}

theorem dispatch_listen (serverFd : CInt) (old : EpollData) :
    dispatch serverFd (old.setFd serverFd) = .accept := if_pos (old.fd_setFd serverFd)

/-- A connection's event goes to the listening branch, or to its own context. -/
theorem dispatch_ctx (hctx : ctx ≠ 0) : dispatch serverFd (old.setPtr ctx) =
    if ctx.setWidth 32 = serverFd then .accept else .job ctx := by
  rw [dispatch,old.fd_setPtr,old.ptr_setPtr,if_neg hctx]

theorem dispatch_ctx_iff (hctx : ctx ≠ 0) :
    dispatch serverFd (old.setPtr ctx) = .job ctx ↔ ctx.setWidth 32 ≠ serverFd := by
  rw [dispatch_ctx hctx]
  split_ifs with h <;> simp [h]

theorem dispatch_accept_iff (hctx : ctx ≠ 0) :
    dispatch serverFd (old.setPtr ctx) = .accept ↔ ctx.setWidth 32 = serverFd := by
  rw [dispatch_ctx hctx]
  split_ifs with h <;> simp [h]

end

/-! ## Runs of the server -/

variable {N : ℕ} {cfg : Config} {s : State N}

/-- A context is created at an address whose low half is not the listening descriptor. -/
def Distinct (serverFd : CInt) (place : ConnId → Address) : Discipline (State N) (Action N)
  | s, .create => (place s.loop.conn).setWidth 32 ≠ serverFd
  | _, _ => True

instance (serverFd : CInt) (place : ConnId → Address) (s : State N) :
    (a : Action N) → Decidable (Distinct serverFd place s a)
  | .create => inferInstanceAs (Decidable ((place s.loop.conn).setWidth 32 ≠ serverFd))
  | .epollWait _ | .epollError _ | .accept _ | .setNonblocking | .onConnection _ | .add _
  | .delete | .close | .addRef | .submit | .notify _ | .look _ | .wake _ | .invoke _ | .work _ _
  | .finish _ | .destroyMessage | .destroyConnection | .setStop | .notifyAll | .join =>
      isTrue trivial

/-- Only `create` runs a constructor. -/
theorem created_next {c : ConnId} {a : Action N} (he : s.enabled cfg a)
    (h : ((s.next cfg a).heap c).created = true) :
    (s.heap c).created = true ∨ a = .create ∧ c = s.loop.conn := by
  cases a with
  | create =>
      by_cases hc : c = s.loop.conn
      · exact .inr ⟨rfl,hc⟩
      · left
        simpa [State.next,State.create,State.setCell,State.record,State.goto,hc] using h
  | accept fd =>
      left
      cases fd <;> exact h
  | onConnection outcome =>
      left
      unfold State.next State.callConnection at h
      split_ifs at h <;> exact h
  | add ok =>
      left
      cases ok <;> exact h
  | delete =>
      left
      by_cases hc : c = s.loop.conn
      · subst hc
        simpa [State.next,State.delete,State.setCell,State.record,State.goto] using h
      · simpa [State.next,State.delete,State.setCell,State.record,State.goto,hc] using h
  | addRef =>
      left
      have h : ((s.addRef).heap c).created = true := h
      unfold State.addRef at h
      split at h
      case h_1 d batch hbatch =>
        by_cases hc : c = d
        · subst hc
          simpa [State.setCell,State.record] using h
        · simpa [State.setCell,State.record,hc] using h
      case h_2 => exact h
  | work w answer =>
      left
      obtain ⟨t,o,k,hw,hcode,-,-⟩ := canWork_cases he.2
      have h : ((s.work cfg w answer).heap c).created = true := h
      rw [work_eq hw hcode] at h
      by_cases hc : c = t.conn
      · subst hc
        simpa using h
      · simpa [hc] using h
  | finish w =>
      left
      obtain ⟨t,outcome,hw,hcode⟩ := canFinish_cases he.2
      have h : ((s.finish cfg w).heap c).created = true := h
      rwa [finish_eq hw hcode] at h
  | _ => exact .inl h

/-- Every context that exists was created where its address is distinct. -/
theorem distinct_of_created {serverFd : CInt} {place : ConnId → Address}
    (h : (system N cfg).Reach (Distinct serverFd place) s) :
    ∀ c, (s.heap c).created = true → (place c).setWidth 32 ≠ serverFd := by
  refine h.invariant (I := fun s => ∀ c, (s.heap c).created = true →
    (place c).setWidth 32 ≠ serverFd) ?_ ?_
  · rintro s rfl c hc
    simp [State.initial] at hc
  · rintro s a t - hs hdistinct ⟨he,rfl⟩ c hc
    rcases created_next he hc with hold | ⟨rfl,rfl⟩
    · exact hs c hold
    · exact hdistinct

/-- As long as every context is created at a distinct address, every event goes
to the branch of the object that was registered. Whatever the address, the events
of a context reach it exactly if the address is distinct; otherwise they are
consumed by the listening branch. -/
theorem events_reach_their_objects {serverFd : CInt} {place : ConnId → Address}
    (hplace : ∀ c, place c ≠ 0) :
    (∀ s, (system N cfg).Reach (Distinct serverFd place) s → ∀ tag ∈ s.loop.batch,
      ∀ d, Registers serverFd place tag d → dispatch serverFd d = branch place tag) ∧
    ∀ c d, Registers serverFd place (.ctx c) d →
      (dispatch serverFd d = .job (place c) ↔ (place c).setWidth 32 ≠ serverFd) ∧
      (dispatch serverFd d = .accept ↔ (place c).setWidth 32 = serverFd) := by
  constructor
  · intro s hs tag htag d hd
    cases hd with
    | listen => exact dispatch_listen serverFd _
    | ctx c old =>
        have hlive := live_of_delivered (view_ok hs c) (List.count_pos_iff.mpr htag)
        exact (dispatch_ctx_iff (hplace c)).mpr (distinct_of_created hs c (live_cell hlive).1)
  · intro c d hd
    cases hd with
    | ctx c old => exact ⟨dispatch_ctx_iff (hplace c),dispatch_accept_iff (hplace c)⟩

/-- The contexts of a server whose chunk of blocks starts at 65536. -/
def blockAddress (c : ConnId) : Address := BitVec.ofNat 64 (65536+4216*(c % 20))

theorem blockAddress_ne_zero (c : ConnId) : blockAddress c ≠ 0 := by
  have hall : ∀ i < 20, BitVec.ofNat 64 (65536+4216*i) ≠ 0 := by decide
  exact hall (c % 20) (Nat.mod_lt _ (by decide))

/-- The listening descriptor is 3, and the event of a client has arrived. -/
theorem events_reach_their_objects_arrived : ∃ s : State 1,
    (system 1 .standard).Reach (Distinct 3 blockAddress) s ∧ s.loop.batch = [.ctx 0] ∧
      dispatch 3 (EpollData.zero.setPtr (blockAddress 0)) = .job (blockAddress 0) := by
  obtain ⟨s,hs,hbatch⟩ := reach_of_script (N := 1) (G := Distinct 3 blockAddress) .standard
    (acceptScript 5 true++[.epollWait [.conn 5]]) (fun s => decide (s.loop.batch = [.ctx 0]))
    (by decide +kernel)
  have hbatch : s.loop.batch = [.ctx 0] := of_decide_eq_true hbatch
  refine ⟨s,hs,hbatch,?_⟩
  have hall := (events_reach_their_objects blockAddress_ne_zero).1 s hs
  exact hall (.ctx 0) (by simp [hbatch]) _ (.ctx 0 _)

/-- The listening descriptor is 8, and a context lies at `0x7f0000000008`. -/
theorem not_everyEventReaches : ¬ ∀ serverFd : CInt, 0 ≤ serverFd.toInt → ∀ ctx : Address,
    ctx ≠ 0 → 8 ∣ ctx.toNat → ∀ old, dispatch serverFd (EpollData.setPtr old ctx) = .job ctx := by
  intro h
  have hctx := h 8 (by decide) 0x7f0000000008 (by decide) (by decide) .zero
  revert hctx
  decide

end WebServer.EventTags
