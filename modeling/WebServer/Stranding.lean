import WebServer.Ownership

/-!
# Exceptions of the message callback

`JobHandler` catches what `HandleClientClient` lets through, but the clean-up of
the handler stands behind the call of `on_message_`: an exception skips the
closing of the connection and the release of the reference. A job whose callback
throws leaves its connection open, without an arming and without a task; every
other job closes its connection or re-arms it.
-/
namespace WebServer.Stranding
open TransitionSystem RequestParsing Handler Server Lifecycle LifecycleInvariant
open LifecycleWork Projection Ownership
open ThreadPool (Outcome)

variable {N : ℕ} {cfg : Config} {s : State N}

/-- A finished job has released once, and has re-armed or closed its connection. -/
def Settled (s : State N) (c : ConnId) (t : Task) : Prop :=
  t.released = 1 ∧ (t.handed = some .rearmed ∨
    (t.handed = some .closed ∧ (s.heap c).ctx.closed = true ∧ (view s c).isOpen = false))

/-- The connection is open, but neither armed nor with anybody who would act on it. -/
def Stranded (s : State N) (c : ConnId) : Prop :=
  (view s c).isOpen = true ∧ (view s c).tokens = 0

/-- Every job settles its connection, whatever the message callback does. -/
def EveryJobSettles (N : ℕ) (cfg : Config) : Prop :=
  ∀ s : State N, (system N cfg).Reach Free s → ∀ c outcome t,
    .finished outcome t ∈ (view s c).history → Settled s c t

theorem settled_iff {G : Discipline (State N) (Action N)} (h : (system N cfg).Reach G s)
    {c : ConnId} {outcome : Outcome} {t : Task}
    (hm : .finished outcome t ∈ (view s c).history) : Settled s c t ↔ t.threw = false := by
  have hl := live_of_finished (view_ok h c) hm
  have he := hl.ended outcome t hm
  cases outcome with
  | returned =>
      obtain ⟨hreleased,hhanded,hthrew,-⟩ := he.released rfl
      refine iff_of_true ⟨hreleased,?_⟩ hthrew
      obtain ⟨handover,hx⟩ := Option.isSome_iff_exists.mp hhanded
      cases handover with
      | rearmed => exact .inl hx
      | closed =>
          have hopen := hl.gone t (.inr ⟨_,hm⟩) hx
          exact .inr ⟨hx,hl.marked hopen,hopen⟩
  | threw =>
      obtain ⟨hreleased,-,hthrew,-⟩ := he.threw rfl
      refine iff_of_false (fun hs => ?_) (by simp [hthrew])
      have hone := hs.1
      omega

theorem abandoned_pos_iff {v : Conn} (h : Live cfg v) :
    0 < v.abandoned ↔ ∃ outcome t, .finished outcome t ∈ v.history ∧ t.threw = true := by
  rw [Conn.abandoned,List.countP_pos_iff]
  constructor
  · rintro ⟨e,he,hx⟩
    cases e with
    | finished outcome t =>
        have hnone : t.handed = none := of_decide_eq_true hx
        refine ⟨outcome,t,he,?_⟩
        cases outcome with
        | returned =>
            have hs := ((h.ended _ t he).released rfl).2.1
            simp [hnone] at hs
        | threw => exact ((h.ended _ t he).threw rfl).2.2.1
    | _ => simp [abandons] at hx
  · rintro ⟨outcome,t,he,hthrew⟩
    refine ⟨_,he,decide_eq_true ?_⟩
    cases outcome with
    | returned =>
        have hx := ((h.ended _ t he).released rfl).2.2.1
        simp [hthrew] at hx
    | threw => exact ((h.ended _ t he).threw rfl).2.1

theorem stranded_iff {G : Discipline (State N) (Action N)} (h : (system N cfg).Reach G s)
    {c : ConnId} (hc : (view s c).registered) : Stranded s c ↔
      ∃ outcome t, .finished outcome t ∈ (view s c).history ∧ t.threw = true := by
  have hl := live_of_reach h hc
  have ht := hl.token
  rw [← abandoned_pos_iff hl,Stranded,Conn.isOpen_iff]
  omega

theorem threw_eq_false (h : (system N cfg).Reach MessageReturns s) {c : ConnId}
    {outcome : Outcome} {t : Task} (hm : .finished outcome t ∈ (view s c).history) :
    t.threw = false := by
  have hzero := abandoned_eq_zero (fun _ _ => id) h c
  by_contra hthrew
  have hpos := (abandoned_pos_iff (live_of_finished (view_ok h c) hm)).mpr
    ⟨outcome,t,hm,by simpa using hthrew⟩
  omega

/-- A job settles its connection exactly when its callback, if it is called, does
not throw; and a connection is stranded exactly by a job whose callback threw. So
in the runs in which the callback returns every job settles its connection, and
no connection is stranded. -/
theorem job_settles_iff_callback_returns (N : ℕ) (cfg : Config) :
    (∀ s : State N, (system N cfg).Reach Free s →
      (∀ c outcome t, .finished outcome t ∈ (view s c).history →
        (Settled s c t ↔ t.threw = false)) ∧
      ∀ c, (view s c).registered → (Stranded s c ↔
        ∃ outcome t, .finished outcome t ∈ (view s c).history ∧ t.threw = true)) ∧
    ∀ s : State N, (system N cfg).Reach MessageReturns s →
      (∀ c outcome t, .finished outcome t ∈ (view s c).history → Settled s c t) ∧
      ∀ c, (view s c).registered → ¬ Stranded s c := by
  refine ⟨fun s h => ⟨fun _ _ _ hm => settled_iff h hm,fun _ hc => stranded_iff h hc⟩,
    fun s h => ⟨fun _ _ _ hm => (settled_iff h hm).mpr (threw_eq_false h hm),
      fun c hc hs => ?_⟩⟩
  obtain ⟨outcome,t,hm,hthrew⟩ := (stranded_iff h hc).mp hs
  simp [threw_eq_false h hm] at hthrew

/-! ## A blank line and a throwing callback -/

def throwingScript (w : Fin N) : List (Action N) :=
  acceptScript 5 true++dispatchScript 5 w++
    workScript 7 w (reply (.data headerEnd) true .threw true)++[.finish w]

def threwIn : Event → Bool
  | .finished _ t => t.threw
  | _ => false

theorem exists_throwing : ∃ s : State 1, (system 1 .standard).Reach Free s ∧
    (view s 0).registered ∧
    ∃ outcome t, .finished outcome t ∈ (view s 0).history ∧ t.threw = true := by
  obtain ⟨s,hs,hp⟩ := reach_of_script (N := 1) (G := Free) .standard (throwingScript 0)
    (fun s => (view s 0).history.any registers && (view s 0).history.any threwIn)
    (by decide +kernel)
  obtain ⟨hreg,hthrew⟩ := Bool.and_eq_true_iff.mp hp
  obtain ⟨e,he,hx⟩ := List.any_eq_true.mp hthrew
  refine ⟨s,hs,registered_of_any hreg,?_⟩
  cases e with
  | finished outcome t => exact ⟨outcome,t,he,hx⟩
  | _ => simp [threwIn] at hx

theorem not_everyJobSettles : ¬ EveryJobSettles 1 .standard := by
  intro hall
  obtain ⟨s,hs,-,outcome,t,hm,hthrew⟩ := exists_throwing
  have hx := (settled_iff hs hm).mp (hall s hs 0 outcome t hm)
  simp [hthrew] at hx

theorem job_settles_iff_callback_returns_throwing : ∃ s : State 1, Stranded s 0 := by
  obtain ⟨s,hs,hreg,hthrew⟩ := exists_throwing
  exact ⟨s,(((job_settles_iff_callback_returns 1 .standard).1 s hs).2 0 hreg).mpr hthrew⟩

end WebServer.Stranding
