import WebServer.AtomicService
import WebServer.Streams

/-!
# The server refines an atomic service

Seen from the outside the server is an atomic service: a client is answered in one step,
with the outcome of what it has sent by then, once its stream is ripe. That is, once its
header is complete, as much has been sent as the buffer can hold, or the client has
finished. What the workers, the loop and the kernel do in between cannot be told from this,
and neither can the harm which the connections of other clients come to.
-/
namespace WebServer.ServiceRefinement
open TransitionSystem RequestParsing Contexts Interaction Handler Server
open Lifecycle LifecycleInvariant Projection RequestSplitting ConcurrentOutcome
open Sockets Streams AtomicService

variable {N : ℕ} {cfg : Config} {c : ConnId} {spared : ConnId → Bool}

/-- The callback was called, or the descriptor was closed without a call. -/
def Served (tr : Trace) : Prop := requests tr ≠ [] ∨ 0 < closings tr

instance (tr : Trace) : Decidable (Served tr) := inferInstanceAs (Decidable (_ ∨ _))

/-- What a client sees of the server. -/
def client (cfg : Config) (s : Sockets.State N) (c : ConnId) : Client UInt8 (List HttpRequest) :=
  let tr := traceOf cfg s.server c
  ⟨(s.sockets c).sent,(s.sockets c).finished,if Served tr then some (requests tr) else none⟩

/-- What some of the clients see. -/
def clients (cfg : Config) (spared : ConnId → Bool) (s : Sockets.State N)
    (c : {c // spared c = true}) : Client UInt8 (List HttpRequest) := client cfg s c

/-- What these clients do. -/
def input (spared : ConnId → Bool) :
    Sockets.Action N → Option ({c // spared c = true} × Option Bytes)
  | .arrive c bytes => if hc : spared c = true then some (⟨c,hc⟩,some bytes) else none
  | .finish c => if hc : spared c = true then some (⟨c,hc⟩,none) else none
  | .server _ => none

/-- Their connections are not harmed; anything may happen to the other ones. -/
def Sparing (cfg : Config) (spared : ConnId → Bool) :
    Discipline (Sockets.State N) (Sockets.Action N) :=
  fun s a => ∀ c, spared c = true → Unharmed (traceOf cfg (s.next cfg a).server c)

theorem unharmed_of_sparing {s : Sockets.State N} (h : (network N cfg).Reach (Sparing cfg spared) s)
    (hc : spared c = true) : Unharmed (traceOf cfg s.server c) := by
  cases h with
  | start hi =>
      subst hi
      exact ⟨rfl,rfl⟩
  | step _ hg hst =>
      obtain ⟨-,rfl⟩ := hst
      exact hg c hc

/-! ## Served connections -/

theorem Served.append {tr : Trace} (h : Served tr) (tr' : Trace) : Served (tr++tr') := by
  rcases h with h | h
  · left
    rw [requests_append]
    exact List.append_ne_nil_of_left_ne_nil h _
  · right
    rw [closings_append]
    exact Nat.add_pos_left h _

section Served
variable {s : Sockets.State N} {G : Discipline (Server.State N) (Server.Action N)}
variable (hcfg : Serves cfg) (h : (network N cfg).Reach (Lift G) s)
variable (hunharmed : Unharmed (traceOf cfg s.server c))
include hcfg h hunharmed

theorem decided_of_served (hserved : Served (traceOf cfg s.server c)) :
    Called (report cfg.bufferSize (traceOf cfg s.server c)) ∨
      GivenUp cfg.bufferSize (report cfg.bufferSize (traceOf cfg s.server c)) := by
  have hs := sound_report hcfg (reach_server h) hunharmed.returned
  rcases hserved with hserved | hserved
  · exact .inl (hs.calls.resolve_left hserved)
  · exact (hs.decided hserved).2

/-- The answer is the outcome of the stream. -/
theorem requests_of_served (hserved : Served (traceOf cfg s.server c)) :
    requests (traceOf cfg s.server c) = outcome cfg.bufferSize (s.sockets c).sent := by
  rcases decided_of_served hcfg h hunharmed hserved with hd | hd
  · obtain ⟨hrequests,houtcome⟩ := requests_of_called hcfg h hunharmed hd
    exact hrequests.trans houtcome.symm
  · exact requests_of_givenUp hcfg h hunharmed hd

/-- No connection is served before its stream is ripe. -/
theorem ripe_of_served (hserved : Served (traceOf cfg s.server c)) :
    ripe cfg.bufferSize (s.sockets c).sent (s.sockets c).finished := by
  have hprefix := bytesOf_prefix hcfg h c
  have hs := sound_report hcfg (reach_server h) hunharmed.returned
  rcases decided_of_served hcfg h hunharmed hserved with hd | hd
  · exact .inl (hd.complete.trans (cString_prefix_visible hprefix hs.fits).isInfix)
  · rcases hd.reason with hfull | hfinished | hfailed
    · exact .inr (.inl (hfull.symm.trans_le hprefix.length_le))
    · exact .inr (.inr ((tracked hcfg h c).complete hfinished).1)
    · exact absurd (hfailed.symm.trans hunharmed.succeeded) (by decide)

end Served

/-! ## The steps -/

section Step
variable {s : Server.State N} {a : Server.Action N}

/-- A step performs an operation on one connection at most. -/
theorem performs_conn {d : ConnId} {o p : Op} {r : o.Res} {q : p.Res}
    (h : Performs cfg s a c o r) (h' : Performs cfg s a d p q) : c = d := by
  obtain ⟨w,answer,t,k,rfl,hw,-,rfl,-⟩ := h.work
  obtain ⟨w',answer',t',k',ha,hw',-,rfl,-⟩ := h'.work
  cases ha
  rw [hw,ThreadPool.Worker.running.injEq] at hw'
  rw [hw']

theorem served_next (he : s.enabled cfg a) (h : Served (traceOf cfg s c)) :
    Served (traceOf cfg (s.next cfg a) c) := by
  by_cases hp : ∃ o r, Performs cfg s a c o r
  · obtain ⟨o,r,hp⟩ := hp
    rw [traceOf_performs hp]
    exact h.append _
  · rwa [traceOf_idle he fun o r hop => hp ⟨o,r,hop⟩]

/-- A connection becomes served by an operation on it. -/
theorem performs_of_served (he : s.enabled cfg a) (h : ¬ Served (traceOf cfg s c))
    (hserved : Served (traceOf cfg (s.next cfg a) c)) : ∃ o r, Performs cfg s a c o r := by
  by_contra hnone
  rw [traceOf_idle he fun o r hp => hnone ⟨o,r,hp⟩] at hserved
  exact h hserved

end Step

section Simulation
variable {s : Sockets.State N}

/-- A step of the server serves one of the clients, or they cannot see it. -/
theorem server_step (hcfg : Serves cfg) (h : (network N cfg).Reach (Sparing cfg spared) s)
    {a : Server.Action N} (hg : Sparing cfg spared s (.server a))
    (he : s.enabled cfg (.server a)) :
    clients cfg spared (s.next cfg (.server a)) = clients cfg spared s ∨ ∃ c,
      enabled (ripe cfg.bufferSize) (clients cfg spared s) (.serve c) ∧
      clients cfg spared (s.next cfg (.server a)) =
        next (outcome cfg.bufferSize) (clients cfg spared s) (.serve c) := by
  set t := s.next cfg (.server a) with ht
  have hbefore := reach_free h
  have hafter : (network N cfg).Reach (Lift Free) t :=
    .step (a := .server a) hbefore trivial ⟨he,rfl⟩
  have hsent : ∀ d, (t.sockets d).sent = (s.sockets d).sent :=
    fun d => by simp [ht,Sockets.State.next]
  have hfinished : ∀ d, (t.sockets d).finished = (s.sockets d).finished :=
    fun d => by simp [ht,Sockets.State.next]
  have hsame : ∀ d, spared d = true →
      (Served (traceOf cfg t.server d) → Served (traceOf cfg s.server d)) →
      client cfg t d = client cfg s d := by
    intro d hspared hd
    by_cases hserved : Served (traceOf cfg s.server d)
    · have hkept : Served (traceOf cfg t.server d) := served_next he.1 hserved
      simp only [client,hsent,hfinished,if_pos hserved,if_pos hkept]
      rw [requests_of_served hcfg hbefore (unharmed_of_sparing h hspared) hserved,
        requests_of_served hcfg hafter (hg d hspared) hkept,hsent]
    · simp only [client,hsent,hfinished,if_neg hserved,if_neg fun hx => hserved (hd hx)]
  by_cases hnew : ∃ c, spared c = true ∧ Served (traceOf cfg t.server c) ∧
      ¬ Served (traceOf cfg s.server c)
  · obtain ⟨c,hc,hserved,hnot⟩ := hnew
    right
    refine ⟨⟨c,hc⟩,⟨if_neg hnot,?_⟩,funext fun ⟨d,hspared⟩ => ?_⟩
    · have hripe := ripe_of_served hcfg hafter (hg c hc) hserved
      rwa [hsent,hfinished] at hripe
    · by_cases hd : d = c
      · subst hd
        simp only [next,Function.update_self]
        simp only [clients,client,hsent,hfinished,if_pos hserved,
          requests_of_served hcfg hafter (hg d hc) hserved]
      · have hne : (⟨d,hspared⟩ : {c // spared c = true}) ≠ ⟨c,hc⟩ :=
          fun hx => hd (congrArg Subtype.val hx)
        simp only [next,Function.update_of_ne hne]
        -- the step is on connection `c`, so that it cannot serve another one
        obtain ⟨o,r,hp⟩ := performs_of_served he.1 hnot hserved
        refine hsame d hspared fun hdone => by_contra fun hundone => ?_
        obtain ⟨p,q,hq⟩ := performs_of_served he.1 hundone hdone
        exact hd (performs_conn hq hp)
  · left
    refine funext fun ⟨d,hspared⟩ => hsame d hspared fun hdone => ?_
    by_contra hnot
    exact hnew ⟨d,hspared,hdone,hnot⟩

/-- What a client does is seen by itself only. -/
theorem client_of_ne {a : Sockets.Action N} {x : Socket} {d : ConnId} (hd : d ≠ c)
    (ha : s.next cfg a = s.setSocket c x) : client cfg (s.next cfg a) d = client cfg s d := by
  simp [ha,client,State.setSocket,Function.update_of_ne hd]

theorem send_step (hc : spared c = true) {bytes : Bytes} (he : s.enabled cfg (.arrive c bytes)) :
    (service (ripe cfg.bufferSize) (outcome cfg.bufferSize)).step (clients cfg spared s)
      (.send ⟨c,hc⟩ bytes) (clients cfg spared (s.next cfg (.arrive c bytes))) := by
  refine ⟨he,funext fun ⟨d,hspared⟩ => ?_⟩
  by_cases hd : d = c
  · subst hd
    simp [next,clients,client,Sockets.State.next,State.setSocket]
    rfl
  · have hne : (⟨d,hspared⟩ : {c // spared c = true}) ≠ ⟨c,hc⟩ :=
      fun hx => hd (congrArg Subtype.val hx)
    simp only [next,Function.update_of_ne hne]
    exact client_of_ne hd rfl

theorem finish_step (hc : spared c = true) (he : s.enabled cfg (.finish c)) :
    (service (ripe cfg.bufferSize) (outcome cfg.bufferSize)).step (clients cfg spared s)
      (.finish ⟨c,hc⟩) (clients cfg spared (s.next cfg (.finish c))) := by
  refine ⟨he,funext fun ⟨d,hspared⟩ => ?_⟩
  by_cases hd : d = c
  · subst hd
    simp [next,clients,client,Sockets.State.next,State.setSocket]
    rfl
  · have hne : (⟨d,hspared⟩ : {c // spared c = true}) ≠ ⟨c,hc⟩ :=
      fun hx => hd (congrArg Subtype.val hx)
    simp only [next,Function.update_of_ne hne]
    exact client_of_ne hd rfl

end Simulation

/-- In every run, the clients whose connections are not harmed see a run of the atomic
service in which they do the same, whatever happens to the other connections; so each of
their answers is the outcome of the whole stream of the client, whenever it was given. -/
theorem server_refines_service (hcfg : Serves cfg) (spared : ConnId → Bool)
    (as : List (Sockets.Action N)) (t : Sockets.State N)
    (hrun : (network N cfg).Run (Sparing cfg spared) (.initial N) as t) :
    ∃ es, (service (ripe cfg.bufferSize) (outcome cfg.bufferSize)).Run Free
        (fun _ => ⟨[],false,none⟩) es (clients cfg spared t) ∧
      es.filterMap Event.input = as.filterMap (input spared) ∧
      ∀ c, spared c = true → ∀ r, (client cfg t c).answer = some r →
        r = outcome cfg.bufferSize (t.sockets c).sent := by
  have hsimulates := hrun.simulates (I := fun s => (network N cfg).Reach (Sparing cfg spared) s)
    (W := service (ripe cfg.bufferSize) (outcome cfg.bufferSize)) (K := Free)
    (f := clients cfg spared) (l := input spared) (m := Event.input) ?_ ?_ (.start rfl)
  · obtain ⟨es,hes,hinput⟩ := hsimulates
    refine ⟨es,hes,hinput,fun c hc r hr => ?_⟩
    have hsize : 0 < cfg.bufferSize := Nat.lt_of_lt_of_le Nat.two_pos hcfg.two
    have hsettled : Settled (ripe cfg.bufferSize) (outcome cfg.bufferSize) :=
      fun _ v hu => outcome_append hsize hu v
    exact answer_of_stream (c := ⟨c,hc⟩) hsettled (hes.reach (.start rfl)) hr
  · exact fun s a t hs hg hst => .step hs hg hst
  · rintro s a _ hs hg ⟨he,rfl⟩
    cases a with
    | server a =>
        rcases server_step hcfg hs hg he with hsame | ⟨c,hc,hnext⟩
        · exact .inl ⟨hsame,rfl⟩
        · exact .inr ⟨.serve c,trivial,⟨hc,hnext⟩,rfl⟩
    | arrive c bytes =>
        by_cases hc : spared c = true
        · exact .inr ⟨.send ⟨c,hc⟩ bytes,trivial,send_step hc he,by simp [Event.input,input,hc]⟩
        · refine .inl ⟨funext fun ⟨d,hd⟩ => client_of_ne ?_ rfl,by simp [input,hc]⟩
          rintro rfl
          exact hc hd
    | finish c =>
        by_cases hc : spared c = true
        · exact .inr ⟨.finish ⟨c,hc⟩,trivial,finish_step hc he,by simp [Event.input,input,hc]⟩
        · refine .inl ⟨funext fun ⟨d,hd⟩ => client_of_ne ?_ rfl,by simp [input,hc]⟩
          rintro rfl
          exact hc hd

/-- Two clients send the greeting, and the callback throws for the second one. -/
theorem server_refines_service_thrown : ∃ (t : Sockets.State 2)
    (es : List (Event {c : ConnId // (c == 0) = true} UInt8)),
    thrown (traceOf .standard t.server 1) = true ∧
    (service (ripe bufferSize) (outcome bufferSize)).Run Free (fun _ => ⟨[],false,none⟩) es
      (clients .standard (· == 0) t) ∧
    (client .standard t 0).answer = some (outcome bufferSize greeting) := by
  obtain ⟨t,ht,hp⟩ := (Option.any_eq_true (fun t : Sockets.State 2 =>
      decide (thrown (traceOf .standard t.server 1) = true ∧ (t.sockets 0).sent = greeting ∧
        (client .standard t 0).answer.isSome = true))
    (execute (fun s a => Unharmed (traceOf .standard (s.next .standard a).server 0) ∧
        s.enabled .standard a) (Sockets.State.next .standard) (.initial 2)
      (.arrive 0 greeting::.arrive 1 greeting::serving (greetingScript (0 : Fin 2) 1)))).mp
    (by decide +kernel)
  obtain ⟨hthrown,hsent,hanswered⟩ := of_decide_eq_true hp
  obtain ⟨r,hr⟩ := Option.isSome_iff_exists.mp hanswered
  have hrun : (network 2 .standard).Run (Sparing .standard (· == 0)) (.initial 2) _ t :=
    execute_run (fun s a hc => ⟨fun c h => by rw [beq_iff_eq.mp h]; exact hc.1,hc.2⟩) ht
  obtain ⟨es,hes,-,houtcome⟩ := server_refines_service serves_standard (· == 0) _ t hrun
  have hvalue := houtcome 0 rfl r hr
  rw [hsent] at hvalue
  exact ⟨t,es,hthrown,hes,hr.trans (congrArg some hvalue)⟩

end WebServer.ServiceRefinement
