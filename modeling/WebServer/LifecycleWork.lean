import WebServer.LifecycleInvariant

/-!
# The operations of a task keep the invariant

A task that performs an operation moves along the protocol of the handler.
`Performs` collects what is known at such a step; each part of the invariant
follows from it. With the moves of the other threads this gives the invariant of
every reachable state of a connection.
-/
namespace WebServer.LifecycleWork
open TransitionSystem Interaction RequestParsing Contexts Handler Server Lifecycle
open LifecycleInvariant
open ThreadPool (Outcome)

/-! ## The operations of a task -/

section Work
variable {cfg : Config} {v : Conn}

theorem effect_closed {on : Bool} {o : Op} (r : o.Res) (s : Session)
    (ho : o ≠ .storeClosed ∧ o ≠ .exchangeClosed) :
    ((semantics on).effect o r s).closed = s.closed := by
  cases o <;> first | rfl | (cases r <;> rfl) | simp_all

theorem held_advance {on : Bool} {q q' : Phase} {o : Op} {r : o.Res} {s : Session} {n : ℕ}
    (h : Held s.closed n q) (ht : Turn q o r q') :
    Held ((semantics on).effect o r s).closed
      (n+(if messages (.op o r ((semantics on).effect o r s)) then 1 else 0)) q' := by
  cases ht with
  | inside ho =>
      rw [effect_closed r s (by cases o <;> simp_all [Op.inside])]
      have hm : messages (.op o r ((semantics on).effect o r s)) = false := by
        cases o <;> first | rfl | simp [Op.inside] at ho
      simpa [hm] using h
  | returned => exact h.1
  | threw => trivial
  | exchange hq r => rfl
  | rearm => trivial
  | fail => exact h.1
  | store => rfl
  | remove => exact h
  | close => trivial
  | release => trivial

/-- Passing the token on: re-arming puts it back into epoll, closing ends it. -/
theorem perform_token {t : Task} {q q' : Phase} {o : Op} {r : o.Res} (ht : Turn q o r q')
    (hcharge : t.handed = none → v.armed = 0 ∧ v.isOpen = true) (hf : Flags t q)
    (code : Code) :
    (v.perform o r).armed+(if (t.advance code o r).handed = none then 1 else 0)+
      (v.perform o r).shut = v.armed+(if t.handed = none then 1 else 0)+v.shut := by
  cases ht with
  | inside ho =>
      cases o <;> first | rfl | simp [Op.inside] at ho
  | returned => rfl
  | threw => rfl
  | exchange hq r => rfl
  | rearm =>
      obtain ⟨ha,ho⟩ := hcharge hf.1
      simp [Conn.perform,Conn.armed,Conn.shut,Task.advance,ho,hf.1] at ha ⊢
      exact ha
  | fail => rfl
  | store => rfl
  | remove =>
      obtain ⟨ha,-⟩ := hcharge hf.1
      rw [ha]
      rfl
  | close =>
      obtain ⟨ha,ho⟩ := hcharge hf.1
      rw [ha]
      simp [Conn.perform,Conn.armed,Conn.shut,Task.advance,ho,hf.1]
  | release => rfl

/-- After the token is passed on only the release is left, which is not observed. -/
theorem serial_handed {on : Bool} {p c : Code} {d₀ d : Session}
    {tr : List (Observation Op Op.Res Session)}
    (h : (semantics on).Serial p d₀ tr (some c) d) (hc : Obeys c .handed) :
    (semantics on).Serial p d₀ tr none d := by
  obtain ⟨k,rfl,hk⟩ := eq_release_of_obeys hc
  have hs := h.op (r := ()) fun _ => rfl
  rw [hk] at hs
  simpa [Semantics.observe,semantics] using hs.leave

theorem effect_marked {on : Bool} {o : Op} (r : o.Res) {s : Session} (hs : s.closed = true) :
    ((semantics on).effect o r s).closed = true := by
  by_cases ho : o = .storeClosed ∨ o = .exchangeClosed
  · rcases ho with rfl | rfl <;> rfl
  · rwa [effect_closed r s (not_or.mp ho)]

theorem observations_op (h : List Event) (o : Op) (r : o.Res) (s : Session) :
    observations cfg (h++[.op o r ((semantics cfg.onMessage).effect o r s)]) =
      observations cfg h++(semantics cfg.onMessage).observe o r s := by
  rw [observations_record]
  congr 1
  cases hs : (semantics cfg.onMessage).silent o <;> simp [observations,Semantics.observe,hs]

/-- A task of a live connection performs an operation, on which its call moves
from phase `q` to phase `q'`. -/
structure Performs (cfg : Config) (v : Conn) (rest : Multiset Task) (t : Task) (o : Op)
    (k : o.Res → Code) (r : o.Res) (q q' : Phase) : Prop where
  live : Live cfg v
  run : v.running = t ::ₘ rest
  code : t.code = .op o k
  permits : v.cell.Permits cfg o r
  before : At t q
  held : Held v.cell.ctx.closed (v.history.countP messages) q
  turn : Turn q o r q'
  after : At (t.advance (k r) o r) q'

namespace Performs
variable {rest : Multiset Task} {t : Task} {o : Op} {k : o.Res → Code} {r : o.Res}
variable {q q' : Phase}

theorem mem (h : Performs cfg v rest t o k r q q') : t ∈ v.running :=
  h.run ▸ Multiset.mem_cons_self t rest

theorem mem_rest (h : Performs cfg v rest t o k r q q') {u : Task} (hu : u ∈ rest) :
    u ∈ v.running := h.run ▸ Multiset.mem_cons_of_mem hu

theorem active (h : Performs cfg v rest t o k r q q') :
    v.active = inCharge rest+(if t.handed = none then 1 else 0) := by
  rw [Conn.active,h.run,inCharge_cons]

theorem history (cfg : Config) (v : Conn) (rest : Multiset Task) (t : Task) (o : Op)
    (k : o.Res → Code) (r : o.Res) : (v.next cfg (.work rest t o k r)).history =
      v.history++[.op o r ((semantics cfg.onMessage).effect o r v.cell.ctx.toSession)] := by
  simp [Conn.next,Conn.record]

theorem calls (cfg : Config) (v : Conn) (rest : Multiset Task) (t : Task) (o : Op)
    (k : o.Res → Code) (r : o.Res) :
    (v.next cfg (.work rest t o k r)).history.countP messages =
      v.history.countP messages+(if o = .onMessage then 1 else 0) := by
  rw [history,countP_record]
  cases o <;> rfl

theorem abandoned (cfg : Config) (v : Conn) (rest : Multiset Task) (t : Task) (o : Op)
    (k : o.Res → Code) (r : o.Res) :
    (v.next cfg (.work rest t o k r)).abandoned = v.abandoned := by
  simp [Conn.abandoned,history,abandons]

/-- Passing the token on is the only thing that happens to it. -/
theorem token (h : Performs cfg v rest t o k r q q') :
    (v.next cfg (.work rest t o k r)).tokens+(v.next cfg (.work rest t o k r)).abandoned+
      (v.next cfg (.work rest t o k r)).shut = 1 := by
  have ht := h.live.token
  have hcharge := h.live.charge h.run
  have hpass := perform_token h.turn (fun hn => ⟨(hcharge hn).2.1,(hcharge hn).2.2.2⟩)
    h.before.flags (k r)
  rw [Conn.tokens,h.active] at ht
  have hactive : (v.next cfg (.work rest t o k r)).active =
    inCharge rest+(if (t.advance (k r) o r).handed = none then 1 else 0) := inCharge_cons ..
  have harmed : (v.next cfg (.work rest t o k r)).armed = (v.perform o r).armed := rfl
  have hshut : (v.next cfg (.work rest t o k r)).shut = (v.perform o r).shut := rfl
  have hdelivered : (v.next cfg (.work rest t o k r)).delivered = v.delivered :=
    perform_delivered ..
  have hsub : (v.next cfg (.work rest t o k r)).submitting = v.submitting := by
    simp [Conn.submitting,Conn.next,Conn.record]
  have hqueued : (v.next cfg (.work rest t o k r)).queued = v.queued := perform_queued ..
  have hheld : (v.next cfg (.work rest t o k r)).held = v.held := perform_held ..
  rw [abandoned,Conn.tokens,hactive]
  omega

/-- A task which releases had not released before. -/
theorem released (h : Performs cfg v rest t o k r q q') (ho : o = .release) :
    t.released = 0 := by
  subst ho
  have hturn := h.turn
  cases hturn with
  | inside hi => simp [Op.inside] at hi
  | release => exact h.before.flags.2.1

theorem unreleased_advance (h : Performs cfg v rest t o k r q q') :
    (if (t.advance (k r) o r).released = 0 then 1 else 0)+(if o = .release then 1 else 0) =
      if t.released = 0 then 1 else 0 := by
  by_cases ho : o = .release
  · have hz := h.released ho
    subst ho
    simp [Task.advance,hz]
  · have hs : (t.advance (k r) o r).released = t.released := by
      cases o <;> first | rfl | (cases r <;> rfl) | exact (ho rfl).elim
    rw [hs,if_neg ho,add_zero]

theorem refs (h : Performs cfg v rest t o k r q q') :
    (v.next cfg (.work rest t o k r)).cell.ctx.refCount =
      1+(v.next cfg (.work rest t o k r)).outstanding+
        (v.next cfg (.work rest t o k r)).abandoned := by
  have hr := h.live.refs
  have hun := h.unreleased_advance
  rw [Conn.outstanding,h.run,unreleased_cons] at hr
  have hout : (v.next cfg (.work rest t o k r)).outstanding = v.submitting+v.queued+v.held+
      (unreleased rest+(if (t.advance (k r) o r).released = 0 then 1 else 0)) := by
    simp [Conn.outstanding,Conn.submitting,Conn.next,Conn.record]
  have hcount : (v.next cfg (.work rest t o k r)).cell.ctx.refCount =
    v.cell.ctx.refCount-(if o = .release then 1 else 0) := perform_refCount ..
  rw [abandoned,hout,hcount,hr,← hun]
  by_cases ho : o = .release
  · simp only [if_pos ho]
    push_cast
    omega
  · simp only [if_neg ho]
    push_cast
    omega

/-- The reference of the task itself keeps the context alive. -/
theorem kept (h : Performs cfg v rest t o k r q q') :
    (v.cell.perform cfg o r).deletes = 0 := by
  refine (perform_deletes cfg v.cell o r fun ho => ?_).trans h.live.kept
  have hr := h.live.refs
  rw [Conn.outstanding,h.run,unreleased_cons,if_pos (h.released ho)] at hr
  omega

/-- While a task is in charge every other task has passed the token on. -/
theorem others (h : Performs cfg v rest t o k r q q') (hnone : t.handed = none) {u : Task}
    (hu : u ∈ rest) : u.handed ≠ none := by
  have hz := (h.live.charge h.run hnone).1
  rw [inCharge,Multiset.countP_eq_zero] at hz
  exact hz u hu

/-- A task that is no longer in charge releases, which changes nothing else. -/
theorem releases (h : Performs cfg v rest t o k r q q') (hsome : t.handed ≠ none) :
    o = .release := by
  have hf := h.before.flags
  have hturn := h.turn
  cases hturn with
  | inside => exact (hsome hf.1).elim
  | returned => exact (hsome hf.1).elim
  | threw => exact (hsome hf.1).elim
  | exchange hq => rcases hq with rfl | rfl <;> exact (hsome hf.1).elim
  | rearm => exact (hsome hf.1).elim
  | fail => exact (hsome hf.1).elim
  | store => exact (hsome hf.1).elim
  | remove => exact (hsome hf.1).elim
  | close => exact (hsome hf.1).elim
  | release => rfl

theorem tasks (h : Performs cfg v rest t o k r q q') :
    ∀ u ∈ t.advance (k r) o r ::ₘ rest, ∃ p, At u p ∧
      Held ((semantics cfg.onMessage).effect o r v.cell.ctx.toSession).closed
        (v.history.countP messages+(if o = .onMessage then 1 else 0)) p := by
  intro u hu
  rcases Multiset.mem_cons.mp hu with rfl | hu
  · refine ⟨q',h.after,?_⟩
    have hh : Held ((semantics cfg.onMessage).effect o r v.cell.ctx.toSession).closed
        (v.history.countP messages+(if messages (.op o r
          ((semantics cfg.onMessage).effect o r v.cell.ctx.toSession)) then 1 else 0)) q' :=
      held_advance h.held h.turn
    cases o <;> exact hh
  · obtain ⟨p,hp,hheld⟩ := h.live.tasks u (h.mem_rest hu)
    refine ⟨p,hp,?_⟩
    by_cases hnone : t.handed = none
    · have hx := mt hp.handed_none_iff.mpr (h.others hnone hu)
      cases p <;> trivial
    · have ho := h.releases hnone
      subst ho
      exact hheld

theorem isOpen (v : Conn) (o : Op) (r : o.Res) (ho : v.isOpen = false) :
    (v.perform o r).isOpen = false := by
  by_cases hc : o = .close
  · subst hc
    rfl
  · rwa [perform_isOpen v o r hc]

theorem quiet (h : Performs cfg v rest t o k r q q')
    (hn : (v.next cfg (.work rest t o k r)).active+v.abandoned+(v.perform o r).shut = 0) :
    ((semantics cfg.onMessage).effect o r v.cell.ctx.toSession).closed = false ∧
      v.history.countP messages+(if o = .onMessage then 1 else 0) = 0 := by
  have hactive : (v.next cfg (.work rest t o k r)).active =
    inCharge rest+(if (t.advance (k r) o r).handed = none then 1 else 0) := inCharge_cons ..
  have hsome : (t.advance (k r) o r).handed ≠ none := by
    intro hx
    rw [hactive,if_pos hx] at hn
    omega
  have hf := h.before.flags
  have hturn := h.turn
  have hheld := h.held
  cases hturn with
  | inside hi =>
      cases o <;> first | exact (hsome hf.1).elim | simp [Op.inside] at hi
  | returned => exact (hsome hf.1).elim
  | threw => exact (hsome hf.1).elim
  | exchange hq => rcases hq with rfl | rfl <;> exact (hsome hf.1).elim
  | rearm => exact hheld
  | fail => exact (hsome hf.1).elim
  | store => exact (hsome hf.1).elim
  | remove => exact (hsome hf.1).elim
  | close => simp [Conn.perform,Conn.shut] at hn
  | release =>
      have hlater : t.handed ≠ none := hsome
      have hs : (v.perform .release ()).shut = v.shut := rfl
      apply h.live.quiet
      rw [h.active,if_neg hlater]
      omega

theorem marked (h : Performs cfg v rest t o k r q q') (ho : (v.perform o r).isOpen = false) :
    ((semantics cfg.onMessage).effect o r v.cell.ctx.toSession).closed = true := by
  by_cases hc : o = .close
  · subst hc
    have hturn := h.turn
    have hheld := h.held
    cases hturn with
    | inside hi => simp [Op.inside] at hi
    | close => exact hheld
  · exact effect_marked r (h.live.marked ((perform_isOpen v o r hc).symm.trans ho))

theorem closedOnce (h : Performs cfg v rest t o k r q q') :
    (v.next cfg (.work rest t o k r)).history.countP closes = (v.perform o r).shut := by
  rw [history,countP_record,h.live.closedOnce]
  by_cases hc : o = .close
  · subst hc
    have hf := h.before.flags
    have hturn := h.turn
    cases hturn with
    | inside hi => simp [Op.inside] at hi
    | close =>
        have ho := (h.live.charge h.run hf.1).2.2.2
        simp [Conn.shut,Conn.perform,closes,ho]
  · have hs : (v.perform o r).shut = v.shut := by
      rw [Conn.shut,perform_isOpen v o r hc]
      rfl
    rw [hs]
    cases o <;> first | rfl | exact (hc rfl).elim

theorem calledOnce (h : Performs cfg v rest t o k r q q') :
    v.history.countP messages+(if o = .onMessage then 1 else 0) ≤ 1 := by
  by_cases hc : o = .onMessage
  · subst hc
    have hturn := h.turn
    have hheld := h.held
    have hz : v.history.countP messages = 0 := by
      cases hturn with
      | inside hi => simp [Op.inside] at hi
      | returned => exact hheld.2
      | threw => exact hheld.2
    simp [hz]
  · simpa [hc] using h.live.calledOnce

theorem gone (h : Performs cfg v rest t o k r q q') (u : Task)
    (hu : u ∈ t.advance (k r) o r ::ₘ rest ∨
      ∃ outcome, .finished outcome u ∈ (v.next cfg (.work rest t o k r)).history)
    (hclosed : u.handed = some .closed) : (v.perform o r).isOpen = false := by
  rcases hu with hu | ⟨outcome,hm⟩
  · rcases Multiset.mem_cons.mp hu with rfl | hu
    · by_cases hc : o = .close
      · subst hc
        rfl
      · refine isOpen v o r (h.live.gone t (.inl h.mem) ?_)
        cases o <;> first | exact hclosed | exact (hc rfl).elim | skip
        case onMessage => cases r <;> exact hclosed
        case epollMod =>
          cases r
          · exact hclosed
          · simp [Task.advance] at hclosed
    · exact isOpen v o r (h.live.gone u (.inl (h.mem_rest hu)) hclosed)
  · rw [history] at hm
    exact isOpen v o r (h.live.gone u (.inr ⟨outcome,by simpa using hm⟩) hclosed)

theorem observations_eq (cfg : Config) (v : Conn) (rest : Multiset Task) (t : Task) (o : Op)
    (k : o.Res → Code) (r : o.Res) :
    observations cfg (v.next cfg (.work rest t o k r)).history =
      observations cfg v.history++
        (semantics cfg.onMessage).observe o r v.cell.ctx.toSession := by
  rw [history,observations_op]

theorem release_observed (v : Conn) (r : Unit) :
    observations cfg v.history++(semantics cfg.onMessage).observe .release r
      v.cell.ctx.toSession = observations cfg v.history := by
  simp [Semantics.observe,semantics]

theorem between (h : Performs cfg v rest t o k r q q')
    (hn : (v.next cfg (.work rest t o k r)).active = 0) :
    (semantics cfg.onMessage).Serial (handleClientClient cfg.bufferSize)
      (Session.fresh cfg.bufferSize)
      (observations cfg v.history++(semantics cfg.onMessage).observe o r v.cell.ctx.toSession)
      none ((semantics cfg.onMessage).effect o r v.cell.ctx.toSession) := by
  have hactive : (v.next cfg (.work rest t o k r)).active =
    inCharge rest+(if (t.advance (k r) o r).handed = none then 1 else 0) := inCharge_cons ..
  have hsome : (t.advance (k r) o r).handed ≠ none := by
    intro hx
    rw [hactive,if_pos hx] at hn
    omega
  by_cases hnone : t.handed = none
  · apply serial_handed (h.live.observes h.mem hnone h.code h.permits)
    have hx := mt h.after.handed_none_iff.mpr hsome
    have ha := h.after.obeys
    have hturn := h.turn
    rw [advance_code] at ha
    cases hturn with
    | rearm => exact ha
    | close => exact ha
    | release => exact (hsome hnone).elim
    | _ => simp at hx
  · have ho := h.releases hnone
    subst ho
    rw [release_observed]
    apply h.live.between
    rw [h.active,if_neg hnone]
    omega

theorem during (h : Performs cfg v rest t o k r q q') {u : Task}
    (hu : u ∈ t.advance (k r) o r ::ₘ rest) (hx : u.handed = none) :
    (semantics cfg.onMessage).Serial (handleClientClient cfg.bufferSize)
      (Session.fresh cfg.bufferSize)
      (observations cfg v.history++(semantics cfg.onMessage).observe o r v.cell.ctx.toSession)
      (some u.code) ((semantics cfg.onMessage).effect o r v.cell.ctx.toSession) := by
  by_cases hnone : t.handed = none
  · rcases Multiset.mem_cons.mp hu with rfl | hu
    · rw [advance_code]
      exact h.live.observes h.mem hnone h.code h.permits
    · exact (h.others hnone hu hx).elim
  · have ho := h.releases hnone
    subst ho
    rw [release_observed]
    rcases Multiset.mem_cons.mp hu with rfl | hu
    · exact (hnone hx).elim
    · exact h.live.during u (h.mem_rest hu) hx

end Performs

theorem Live.work (h : Live cfg v) {rest : Multiset Task} {t : Task} {o : Op}
    {k : o.Res → Code} {r : o.Res} (hrun : v.running = t ::ₘ rest) (hcode : t.code = .op o k)
    (hr : v.cell.Permits cfg o r) (hread : v.Permits o r) :
    Live cfg (v.next cfg (.work rest t o k r)) := by
  obtain ⟨q,hat,hheld⟩ := h.tasks t (hrun ▸ Multiset.mem_cons_self t rest)
  obtain ⟨q',hturn,hat'⟩ := hat.advance hcode (h.allowed hrun hat hheld hcode hr hread)
  have hp : Performs cfg v rest t o k r q q' := ⟨h,hrun,hcode,hr,hat,hheld,hturn,hat'⟩
  have hsession : (v.next cfg (.work rest t o k r)).cell.ctx.toSession =
    (semantics cfg.onMessage).effect o r v.cell.ctx.toSession := perform_session ..
  exact {
    pos := by simpa [Conn.next,Conn.record] using h.pos
    begins := by
      rw [Performs.history]
      exact begins_record rfl h.begins
    created := (perform_created ..).trans h.created
    kept := hp.kept
    fd := by simpa [Conn.next,Conn.record] using h.fd
    token := hp.token
    refs := hp.refs
    tasks := by
      rw [Performs.calls,hsession]
      exact hp.tasks
    quiet := by
      rw [Performs.calls,Performs.abandoned,hsession]
      exact hp.quiet
    marked := by
      rw [hsession]
      exact hp.marked
    closedOnce := hp.closedOnce
    calledOnce := by
      rw [Performs.calls]
      exact hp.calledOnce
    gone := hp.gone
    ended := by
      intro outcome u hm
      rw [Performs.history] at hm
      exact h.ended outcome u (by simpa using hm)
    between := by
      rw [Performs.observations_eq,hsession]
      exact hp.between
    during := by
      rw [Performs.observations_eq,hsession]
      exact fun u => hp.during }

end Work

/-! ## Every reachable state -/

section Runs
variable {cfg : Config} {v : Conn}

theorem countP_prologue (cfg : Config) {p : Event → Bool} (h₁ : p .accepted = false)
    (h₂ : p .onConnection = false) (h₃ : p .created = false) :
    (prologue cfg).countP p = 0 := by
  cases hc : cfg.onConnection <;> simp [prologue,LifecycleInvariant.calls,hc,h₁,h₂,h₃]

theorem observations_prologue (cfg : Config) : observations cfg (prologue cfg) = [] := by
  cases hc : cfg.onConnection <;> simp [prologue,LifecycleInvariant.calls,hc,observations]

theorem finished_prologue (cfg : Config) (outcome : Outcome) (t : Task) :
    .finished outcome t ∉ prologue cfg := by
  cases hc : cfg.onConnection <;> simp [prologue,LifecycleInvariant.calls,hc]

/-- The registration makes the connection live, with its token in epoll. -/
theorem live_registered (cfg : Config) (fd : Fd) :
    Live cfg ((opening fd .add (newCell cfg fd) (prologue cfg)).next cfg (.add true)) := by
  set v := (opening fd .add (newCell cfg fd) (prologue cfg)).next cfg (.add true)
  have hhistory : v.history = prologue cfg++[.added true] := rfl
  have habandoned : v.abandoned = 0 := by
    rw [Conn.abandoned,hhistory,countP_record,countP_prologue cfg rfl rfl rfl]
    rfl
  have hcalls : v.history.countP messages = 0 := by
    rw [hhistory,countP_record,countP_prologue cfg rfl rfl rfl]
    rfl
  have hfinished : ∀ outcome t, .finished outcome t ∉ v.history := by
    intro outcome t
    rw [hhistory]
    simpa using finished_prologue cfg outcome t
  have hobs : observations cfg v.history = [] := by
    rw [hhistory,observations_record,observations_prologue]
    rfl
  exact {
    pos := .inl rfl
    begins := ⟨[],rfl,by simp⟩
    created := rfl
    kept := rfl
    fd := rfl
    token := by
      rw [habandoned]
      rfl
    refs := by
      rw [habandoned]
      rfl
    tasks := by simp [v,Conn.next,opening,Conn.record]
    quiet := fun _ => ⟨rfl,hcalls⟩
    marked := by simp [v,Conn.next,opening,Conn.record]
    closedOnce := by
      rw [hhistory,countP_record,countP_prologue cfg rfl rfl rfl]
      rfl
    calledOnce := by
      rw [hcalls]
      exact Nat.zero_le 1
    gone := by
      rintro t (hm | ⟨outcome,hm⟩)
      · simp [v,Conn.next,opening,Conn.record] at hm
      · exact (hfinished outcome t hm).elim
    ended := fun outcome t hm => (hfinished outcome t hm).elim
    between := by
      rw [hobs]
      exact fun _ => .start
    during := by simp [v,Conn.next,opening,Conn.record] }

theorem Ok.next (h : Ok cfg v) {m : Move} (he : v.enabled cfg m) : Ok cfg (v.next cfg m) := by
  cases h with
  | blank =>
      cases m with
      | accept fd => exact .accepted fd
      | _ => simp [Conn.enabled,Conn.blank] at he
  | accepted fd =>
      cases m with
      | setNonblocking => exact .nonblocking fd
      | _ => simp [Conn.enabled,opening,Conn.blank] at he
  | nonblocking fd =>
      cases m with
      | onConnection outcome =>
          have hn : ((opening fd .onConnection ⟨.new 0 0,false,0⟩ [.accepted]).next cfg
              (.onConnection outcome)) =
              opening fd .create ⟨.new 0 0,false,0⟩ (.accepted::LifecycleInvariant.calls cfg) := by
            cases hc : cfg.onConnection <;>
              simp [Conn.next,opening,Conn.record,LifecycleInvariant.calls,hc]
          rw [hn]
          exact .called fd
      | _ => simp [Conn.enabled,opening,Conn.blank] at he
  | called fd =>
      cases m with
      | create => exact .created fd
      | _ => simp [Conn.enabled,opening,Conn.blank] at he
  | created fd =>
      cases m with
      | add ok =>
          cases ok with
          | true => exact .live (live_registered cfg fd)
          | false => exact .failed fd
      | _ => simp [Conn.enabled,opening,Conn.blank] at he
  | failed fd =>
      cases m with
      | delete =>
          have hn : (opening fd .delete (newCell cfg fd) (prologue cfg++[.added false])).next cfg
              .delete = opening fd .close {newCell cfg fd with deletes := 1}
                (prologue cfg++[.added false,.deleted]) := by
            simp [Conn.next,opening,Conn.record,newCell]
          rw [hn]
          exact .deleted fd
      | _ => simp [Conn.enabled,opening,Conn.blank] at he
  | deleted fd =>
      cases m with
      | close =>
          have hn : (opening fd .close {newCell cfg fd with deletes := 1}
              (prologue cfg++[.added false,.deleted])).next cfg .close =
              ⟨.fetch,false,none,0,0,0,0,fd,{newCell cfg fd with deletes := 1},
                prologue cfg++[.added false,.deleted,.closed]⟩ := by
            simp [Conn.next,opening,Conn.record,newCell]
          rw [hn]
          exact .rejected fd
      | _ => simp [Conn.enabled,opening,Conn.blank] at he
  | rejected fd =>
      cases m <;> simp [Conn.enabled,Conn.blank] at he
  | live hl =>
      refine .live ?_
      cases m with
      | accept fd =>
          have hv : v = .blank := he
          subst hv
          have hc := hl.created
          simp [Conn.blank] at hc
      | deliver => exact hl.deliver he
      | addRef => exact hl.addRef he.1 he.2
      | submit => exact hl.submit he
      | notify => exact hl.notify he
      | look => exact hl.look he
      | invoke c => exact hl.invoke he c
      | work rest t o k r => exact Live.work hl he.1 he.2.1 he.2.2.1 he.2.2.2
      | finish rest t outcome => exact hl.finish he.1 he.2
      | _ => rcases hl.pos with hp | hp | hp <;> simp [Conn.enabled,hp] at he

/-- A connection with a task is past its registration. -/
theorem live_of_mem (h : Ok cfg v) {t : Task} (ht : t ∈ v.running) : Live cfg v := by
  cases h with
  | live hl => exact hl
  | _ => exact (Multiset.notMem_zero t ht).elim

/-- `AcceptLoop` holds the descriptor of a connection which it is setting up. -/
theorem isOpen_of_setup (h : Ok cfg v) (hpos : v.pos ≠ .fetch) (hsubmit : v.pos ≠ .submit)
    (hnotify : v.pos ≠ .notify) : v.isOpen = true := by
  cases h with
  | blank => exact (hpos rfl).elim
  | rejected => exact (hpos rfl).elim
  | live hl => rcases hl.pos with hp | hp | hp <;> contradiction
  | _ => rfl

/-- A task performs every operation but its release while it is in charge. -/
theorem inCharge_of_op (h : Live cfg v) {rest : Multiset Task} {t : Task} {o : Op}
    {k : o.Res → Code} (hrun : v.running = t ::ₘ rest) (hcode : t.code = .op o k)
    (ho : o ≠ .release) : t.handed = none ∧ v.isOpen = true := by
  obtain ⟨q,hat,-⟩ := h.tasks t (hrun ▸ Multiset.mem_cons_self t rest)
  have hobeys := hat.obeys
  rw [hcode] at hobeys
  obtain ⟨r,q',hturn,-⟩ := obeys_op hobeys
  have hnone : t.handed = none := by
    apply hat.handed_none_iff.mpr
    cases hturn with
    | exchange hq => rcases hq with rfl | rfl <;> simp
    | release => exact (ho rfl).elim
    | _ => simp
  exact ⟨hnone,(h.charge hrun hnone).2.2.2⟩

theorem ok {G : Discipline Conn Move} (h : (life cfg).Reach G v) : Ok cfg v := by
  apply h.invariant
  · rintro _ rfl
    exact .blank
  · rintro v m _ _ ih _ ⟨he,rfl⟩
    exact Ok.next ih he

/-- Where the message callback returns normally no task is abandoned. -/
theorem calm (h : (life cfg).Reach Returns v) :
    (∀ t ∈ v.running, t.threw = false) ∧ v.abandoned = 0 := by
  induction h with
  | start hi =>
      subst hi
      exact ⟨fun t ht => (Multiset.notMem_zero t ht).elim,rfl⟩
  | @step v _ m hr hg hst ih =>
      obtain ⟨he,rfl⟩ := hst
      obtain ⟨hthrew,habandoned⟩ := ih
      cases m with
      | work rest t o k r =>
          obtain ⟨hrun,-,-,-⟩ := he
          refine ⟨fun u hu => ?_,(Performs.abandoned cfg v rest t o k r).trans habandoned⟩
          rw [hrun] at hthrew
          rcases Multiset.mem_cons.mp hu with rfl | hu
          · have ht := hthrew t (Multiset.mem_cons_self t rest)
            cases o <;> first | exact ht | skip
            case onMessage =>
              have hreturned : r = .returned := hg
              subst hreturned
              exact ht
            case epollMod => cases r <;> exact ht
          · exact hthrew u (Multiset.mem_cons_of_mem hu)
      | finish rest t outcome =>
          obtain ⟨hrun,hcode⟩ := he
          have hmem : t ∈ v.running := hrun ▸ Multiset.mem_cons_self t rest
          obtain ⟨q,hat,-⟩ := (live_of_mem (ok hr) hmem).tasks t hmem
          refine ⟨fun u hu => hthrew u (hrun ▸ Multiset.mem_cons_of_mem hu),?_⟩
          have hhanded : t.handed ≠ none := by
            have hf := hat.flags
            rcases hat.ended hcode with ⟨-,rfl⟩ | ⟨-,rfl⟩
            · exact Option.isSome_iff_ne_none.mp hf.1
            · exact absurd (hthrew t hmem) (by simp [hf.2.2.2])
          simpa [Conn.abandoned,Conn.next,Conn.record,abandons,hhanded] using habandoned
      | invoke c =>
          refine ⟨fun u hu => ?_,habandoned⟩
          rcases Multiset.mem_cons.mp hu with rfl | hu
          · rfl
          · exact hthrew u hu
      | onConnection outcome =>
          refine ⟨?_,?_⟩
          · simp only [Conn.next]
            split <;> exact hthrew
          · simp only [Conn.next]
            split <;> simpa [Conn.abandoned,Conn.record,abandons] using habandoned
      | add ok =>
          cases ok <;>
            exact ⟨hthrew,by simpa [Conn.abandoned,Conn.next,Conn.record,abandons] using habandoned⟩
      | _ =>
          exact ⟨hthrew,by simpa [Conn.abandoned,Conn.next,Conn.record,abandons] using habandoned⟩

/-- A registered connection is live. -/
theorem live_of_registered (h : Ok cfg v) (hr : v.registered) : Live cfg v := by
  cases h with
  | live hl => exact hl
  | _ =>
      cases hc : cfg.onConnection <;>
        simp [Conn.registered,opening,Conn.blank,prologue,LifecycleInvariant.calls,hc] at hr

theorem live_of_finished {v : Conn} (h : Ok cfg v) {outcome : Outcome} {t : Task}
    (hm : .finished outcome t ∈ v.history) : Live cfg v := by
  cases h with
  | live hl => exact hl
  | _ =>
      cases hc : cfg.onConnection <;>
        simp [opening,Conn.blank,prologue,LifecycleInvariant.calls,hc] at hm

end Runs

end WebServer.LifecycleWork
