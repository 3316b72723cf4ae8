import WebServer.References

/-!
# Closed connections

The reference of the creator is the one that the comments of the source ascribe
to epoll. No path of the handler gives it up: when every task of a closed
connection has released, one reference is left, and the context is never deleted.
-/
namespace WebServer.Reclamation
open TransitionSystem Handler Server Lifecycle LifecycleInvariant LifecycleWork
open Projection Ownership References

variable {N : ℕ} {cfg : Config} {s : State N}

/-- `HandleClientClient` has closed the descriptor of connection `c`. -/
def HandlerClosed (s : State N) (c : ConnId) : Prop :=
  ∃ session, .op .close () session ∈ (view s c).history

/-- The count has reached 0 and the context was given back once. -/
def Reclaimed (x : Cell) : Prop := x.ctx.refCount = 0 ∧ x.deletes = 1

/-- What the comments of the source promise of closed connections. -/
def EveryClosedReclaimed (N : ℕ) (cfg : Config) : Prop :=
  ∀ s : State N, (system N cfg).Reach MessageReturns s → ∀ c, (view s c).registered →
    HandlerClosed s c → (view s c).outstanding = 0 → Reclaimed (s.heap c)

/-- Nobody gives up the reference of the creator: when every task of a closed
connection has released, one reference is left and the context still exists. -/
theorem closed_connection_leaks (s : State N) (h : (system N cfg).Reach MessageReturns s)
    (c : ConnId) (hc : (view s c).registered) (hclosed : HandlerClosed s c)
    (hdone : (view s c).outstanding = 0) : (view s c).isOpen = false ∧
      (s.heap c).ctx.refCount = 1 ∧ (s.heap c).deletes = 0 ∧ ¬ Reclaimed (s.heap c) := by
  have hl := live_of_reach h hc
  have hrefs := refCount_eq (fun _ _ => id) h hc
  have hkept : (s.heap c).deletes = 0 := hl.kept
  obtain ⟨session,hm⟩ := hclosed
  have hshut : 0 < (view s c).shut := by
    rw [← hl.closedOnce]
    exact List.countP_pos_iff.mpr ⟨_,hm,rfl⟩
  refine ⟨?_,by simpa [hdone] using hrefs,hkept,fun hr => ?_⟩
  · rw [← Bool.not_eq_true,Conn.isOpen_iff]
    omega
  · simp [Reclaimed,hkept] at hr

def closesFd : Event → Bool
  | .op .close _ _ => true
  | _ => false

theorem handlerClosed_of_any {c : ConnId} (h : (view s c).history.any closesFd = true) :
    HandlerClosed s c := by
  obtain ⟨e,he,hx⟩ := List.any_eq_true.mp h
  unfold closesFd at hx
  split at hx
  · exact ⟨_,he⟩
  · simp at hx

/-- The peer sends nothing and closes: the handler closes the descriptor and releases. -/
def endOfFileScript (w : Fin N) : List (Action N) :=
  acceptScript 5 true++dispatchScript 5 w++workScript 6 w (reply (.data []) false .returned true)

theorem exists_endOfFile : ∃ s : State 1, (system 1 .standard).Reach MessageReturns s ∧
    (view s 0).registered ∧ HandlerClosed s 0 ∧ (view s 0).outstanding = 0 ∧
      (s.heap 0).ctx.refCount = 1 := by
  obtain ⟨s,hs,hp⟩ := reach_of_script (N := 1) (G := CallbacksReturn) .standard (endOfFileScript 0)
    (fun s => (view s 0).history.any registers && (view s 0).history.any closesFd &&
      (view s 0).outstanding = 0 && (s.heap 0).ctx.refCount = 1) (by decide +kernel)
  simp only [Bool.and_eq_true,decide_eq_true_eq] at hp
  obtain ⟨⟨⟨hreg,hclosed⟩,hdone⟩,hrefs⟩ := hp
  exact ⟨s,hs.mono fun _ _ => CallbacksReturn.message,registered_of_any hreg,
    handlerClosed_of_any hclosed,hdone,hrefs⟩

theorem not_everyClosedReclaimed : ¬ EveryClosedReclaimed 1 .standard := by
  intro hall
  obtain ⟨s,hs,hc,hclosed,hdone,hrefs⟩ := exists_endOfFile
  have hr := (hall s hs 0 hc hclosed hdone).1
  simp [hrefs] at hr

theorem closed_connection_leaks_endOfFile : ∃ s : State 1, (view s 0).isOpen = false ∧
    (s.heap 0).ctx.refCount = 1 ∧ (s.heap 0).deletes = 0 ∧ ¬ Reclaimed (s.heap 0) := by
  obtain ⟨s,hs,hc,hclosed,hdone,-⟩ := exists_endOfFile
  exact ⟨s,closed_connection_leaks s hs 0 hc hclosed hdone⟩

end WebServer.Reclamation
