import WebServer.Lifecycle

/-!
# The invariant of a connection's life

While `AcceptLoop` sets a connection up its state is known exactly. From the
registration on, `Live` holds: there is one token, the reference count balances,
each running task follows the protocol of the handler, and what the tasks have
observed so far is an interrupted run of a loop that calls the handler again
and again.
-/
namespace WebServer.LifecycleInvariant
open TransitionSystem Interaction RequestParsing Contexts Handler Server Lifecycle
open ThreadPool (Outcome)

/-! ## Tasks -/

/-- What the record of a task says about where its call stands. -/
def Flags (t : Task) : Phase → Prop
  | .reading | .served =>
      t.handed = none ∧ t.released = 0 ∧ t.failed = false ∧ t.threw = false
  | .failed | .closing => t.handed = none ∧ t.released = 0 ∧ t.threw = false
  | .threw => t.handed = none ∧ t.released = 0 ∧ t.failed = false ∧ t.threw = true
  | .handed => t.handed.isSome = true ∧ t.released = 0 ∧ t.threw = false ∧
      (t.failed = true → t.handed = some .closed)
  | .released => t.handed.isSome = true ∧ t.released = 1 ∧ t.threw = false ∧
      (t.failed = true → t.handed = some .closed)

/-- A task whose call stands in a given phase. -/
structure At (t : Task) (q : Phase) : Prop where
  obeys : Obeys t.code q
  flags : Flags t q

theorem at_start (cfg : Config) (c : ConnId) : At (Task.start cfg c) .reading :=
  ⟨handleClientClient_obeys _,rfl,rfl,rfl,rfl⟩

theorem flags_advance {t : Task} {q q' : Phase} {o : Op} {r : o.Res} (h : Flags t q)
    (ht : Turn q o r q') (code : Code) : Flags (t.advance code o r) q' := by
  cases ht with
  | inside ho => cases o <;> first | exact h | simp [Op.inside] at ho
  | returned => exact h
  | threw => exact ⟨h.1,h.2.1,h.2.2.1,rfl⟩
  | exchange hq r => rcases hq with rfl | rfl <;> exact ⟨h.1,h.2.1,h.2.2.2⟩
  | rearm => exact ⟨rfl,h.2.1,h.2.2.2,fun hf => by simp_all [Flags,Task.advance]⟩
  | fail => exact ⟨h.1,h.2.1,h.2.2.2⟩
  | store => exact h
  | remove => exact h
  | close => exact ⟨rfl,h.2.1,h.2.2,fun _ => rfl⟩
  | release => exact ⟨h.1,by simp [Task.advance,h.2.1],h.2.2.1,h.2.2.2⟩

/-- An allowed answer moves the task along the protocol. -/
theorem At.advance {t : Task} {q : Phase} {o : Op} {k : o.Res → Code} {r : o.Res}
    (h : At t q) (hcode : t.code = .op o k) (hr : protocol.allowed q o r) :
    ∃ q', Turn q o r q' ∧ At (t.advance (k r) o r) q' := by
  have ho := h.obeys
  rw [hcode] at ho
  obtain ⟨q',hn,hk⟩ := ho.step hr
  have ht := turn_of_next hn
  exact ⟨q',ht,by simpa using hk,flags_advance h.flags ht (k r)⟩

/-- A task ends after its release, or because its callback threw. -/
theorem At.ended {t : Task} {q : Phase} {outcome : Outcome} (h : At t q)
    (hcode : t.code = .ret outcome) :
    (outcome = .returned ∧ q = .released) ∨ (outcome = .threw ∧ q = .threw) := by
  have ho := h.obeys
  rw [hcode] at ho
  cases q <;> cases outcome <;> first | exact ho.elim | simp

theorem At.handed_none_iff {t : Task} {q : Phase} (h : At t q) :
    t.handed = none ↔ q ≠ .handed ∧ q ≠ .released := by
  have hf := h.flags
  cases q <;> simp_all [Flags,Option.isSome_iff_ne_none]

/-- What the phase of the task in charge says about the connection. -/
def Held (closed : Bool) (calls : ℕ) : Phase → Prop
  | .reading => closed = false ∧ calls = 0
  | .served | .failed => closed = false
  | .closing => closed = true
  | .threw | .handed | .released => True

/-! ## The set-up -/

def calls (cfg : Config) : List Event := if cfg.onConnection then [.onConnection] else []

/-- What is recorded of a connection up to the creation of its context. -/
def prologue (cfg : Config) : List Event := .accepted::calls cfg++[.created]

def newCell (cfg : Config) (fd : Fd) : Cell := ⟨.new cfg.bufferSize fd,true,0⟩

/-- A connection that is being set up, with an open descriptor that is not registered. -/
def opening (fd : Fd) (pos : Position) (x : Cell) (h : List Event) : Conn :=
  ⟨pos,true,none,0,0,0,0,fd,x,h⟩

/-! ## From the registration on -/

/-- What a finished task has done to its connection. -/
structure Ended (outcome : Outcome) (t : Task) : Prop where
  released : outcome = .returned → t.released = 1 ∧ t.handed.isSome = true ∧
    t.threw = false ∧ (t.failed = true → t.handed = some .closed)
  threw : outcome = .threw → t.released = 0 ∧ t.handed = none ∧ t.threw = true ∧
    t.failed = false

theorem At.finished {t : Task} {q : Phase} {outcome : Outcome} (h : At t q)
    (hcode : t.code = .ret outcome) : Ended outcome t := by
  have hf := h.flags
  rcases h.ended hcode with ⟨rfl,rfl⟩ | ⟨rfl,rfl⟩
  · exact ⟨fun _ => ⟨hf.2.1,hf.1,hf.2.2⟩,fun hx => by simp at hx⟩
  · exact ⟨fun hx => by simp at hx,fun _ => ⟨hf.2.1,hf.1,hf.2.2.2,hf.2.2.1⟩⟩

/-- A task that ends has given its connection up exactly if it has released. -/
theorem Ended.handed_none_iff {outcome : Outcome} {t : Task} (h : Ended outcome t) :
    t.handed = none ↔ t.released = 0 := by
  cases outcome with
  | returned =>
      obtain ⟨hreleased,hhanded,-,-⟩ := h.released rfl
      simp [hreleased,Option.isSome_iff_ne_none.mp hhanded]
  | threw =>
      obtain ⟨hreleased,hhanded,-,-⟩ := h.threw rfl
      simp [hreleased,hhanded]

structure Live (cfg : Config) (v : Conn) : Prop where
  pos : v.pos = .fetch ∨ v.pos = .submit ∨ v.pos = .notify
  begins : ∃ tail, v.history = prologue cfg++.added true::tail ∧ ∀ e ∈ tail, serves e = true
  created : v.cell.created = true
  kept : v.cell.deletes = 0
  fd : v.cell.ctx.fd = v.fd
  token : v.tokens+v.abandoned+v.shut = 1
  refs : v.cell.ctx.refCount = 1+v.outstanding+v.abandoned
  tasks : ∀ t ∈ v.running, ∃ q, At t q ∧
    Held v.cell.ctx.closed (v.history.countP messages) q
  quiet : v.active+v.abandoned+v.shut = 0 →
    v.cell.ctx.closed = false ∧ v.history.countP messages = 0
  marked : v.isOpen = false → v.cell.ctx.closed = true
  closedOnce : v.history.countP closes = v.shut
  calledOnce : v.history.countP messages ≤ 1
  gone : ∀ t, (t ∈ v.running ∨ ∃ outcome, .finished outcome t ∈ v.history) →
    t.handed = some .closed → v.isOpen = false
  ended : ∀ outcome t, .finished outcome t ∈ v.history → Ended outcome t
  between : v.active = 0 → (semantics cfg.onMessage).Serial (handleClientClient cfg.bufferSize)
    (Session.fresh cfg.bufferSize) (observations cfg v.history) none v.cell.ctx.toSession
  during : ∀ t ∈ v.running, t.handed = none →
    (semantics cfg.onMessage).Serial (handleClientClient cfg.bufferSize)
      (Session.fresh cfg.bufferSize) (observations cfg v.history) (some t.code)
      v.cell.ctx.toSession

inductive Ok (cfg : Config) : Conn → Prop
  | blank : Ok cfg .blank
  | accepted (fd : Fd) : Ok cfg (opening fd .setNonblocking ⟨.new 0 0,false,0⟩ [.accepted])
  | nonblocking (fd : Fd) : Ok cfg (opening fd .onConnection ⟨.new 0 0,false,0⟩ [.accepted])
  | called (fd : Fd) : Ok cfg (opening fd .create ⟨.new 0 0,false,0⟩ (.accepted::calls cfg))
  | created (fd : Fd) : Ok cfg (opening fd .add (newCell cfg fd) (prologue cfg))
  | failed (fd : Fd) :
      Ok cfg (opening fd .delete (newCell cfg fd) (prologue cfg++[.added false]))
  | deleted (fd : Fd) :
      Ok cfg (opening fd .close {newCell cfg fd with deletes := 1}
        (prologue cfg++[.added false,.deleted]))
  | rejected (fd : Fd) :
      Ok cfg ⟨.fetch,false,none,0,0,0,0,fd,{newCell cfg fd with deletes := 1},
        prologue cfg++[.added false,.deleted,.closed]⟩
  | live {v : Conn} : Live cfg v → Ok cfg v

/-! ## The moves other than the operations of a task -/

section Moves
variable {cfg : Config} {v : Conn}

theorem Live.deliver (h : Live cfg v) (hw : v.watch = some true) :
    Live cfg (v.next cfg .deliver) := by
  have ht := h.token
  refine {h with token := ?_}
  simp only [Conn.tokens,Conn.armed,hw,if_true] at ht
  simp only [Conn.next,Conn.tokens,Conn.armed,Option.some.injEq,Bool.false_eq_true,if_false]
  change 0+(v.delivered+1+v.submitting)+v.queued+(v.held+v.active)+v.abandoned+v.shut = 1
  omega

/-- Whoever holds the token shows that no task is in charge and that the
connection is as its last task left it. -/
theorem Live.idle (h : Live cfg v)
    (hn : 0 < v.armed+(v.delivered+v.submitting)+v.queued+v.held) :
    v.active = 0 ∧ v.abandoned = 0 ∧ v.isOpen = true ∧
      v.cell.ctx.closed = false ∧ v.history.countP messages = 0 := by
  have ht := h.token
  simp only [Conn.tokens] at ht
  have hs : v.shut = 0 := by omega
  exact ⟨by omega,by omega,v.isOpen_iff.mpr hs,h.quiet (by omega)⟩

/-- A task in charge holds the token, so that nobody else does. -/
theorem Live.charge (h : Live cfg v) {rest : Multiset Task} {t : Task}
    (hrun : v.running = t ::ₘ rest) (hnone : t.handed = none) :
    inCharge rest = 0 ∧ v.armed = 0 ∧ v.abandoned = 0 ∧ v.isOpen = true := by
  have ht := h.token
  simp only [Conn.tokens,Conn.active,hrun,inCharge_cons,hnone,if_true] at ht
  exact ⟨by omega,by omega,by omega,v.isOpen_iff.mpr (by omega)⟩

/-- The answers which a task in charge gets are those which the protocol allows. -/
theorem Live.allowed (h : Live cfg v) {rest : Multiset Task} {t : Task} {q : Phase} {o : Op}
    {k : o.Res → Code} {r : o.Res} (hrun : v.running = t ::ₘ rest) (hat : At t q)
    (hheld : Held v.cell.ctx.closed (v.history.countP messages) q) (hcode : t.code = .op o k)
    (hr : v.cell.Permits cfg o r) (hread : v.Permits o r) : protocol.allowed q o r := by
  have ho := hat.obeys
  rw [hcode] at ho
  obtain ⟨_,_,hturn,-⟩ := obeys_op ho
  cases o with
  | loadClosed =>
      cases hturn with
      | inside => exact (hr rfl).trans hheld.1
  | exchangeClosed =>
      have hc : v.cell.ctx.closed = false := by
        cases hturn with
        | inside hi => simp [Op.inside] at hi
        | exchange hq => rcases hq with rfl | rfl <;> first | exact hheld.1 | exact hheld
      exact (hr rfl).trans hc
  | read =>
      cases hturn with
      | inside =>
          rintro rfl
          have hopen := (h.charge hrun hat.flags.1).2.2.2
          simp [Conn.Permits,hopen] at hread
  | _ => trivial

/-- What a task in charge has observed, its last operation included. -/
theorem Live.observes (h : Live cfg v) {t : Task} {o : Op} {k : o.Res → Code} {r : o.Res}
    (hmem : t ∈ v.running) (hnone : t.handed = none) (hcode : t.code = .op o k)
    (hr : v.cell.Permits cfg o r) :
    (semantics cfg.onMessage).Serial (handleClientClient cfg.bufferSize)
      (Session.fresh cfg.bufferSize)
      (observations cfg v.history++(semantics cfg.onMessage).observe o r v.cell.ctx.toSession)
      (some (k r)) ((semantics cfg.onMessage).effect o r v.cell.ctx.toSession) := by
  have hs := h.during t hmem hnone
  rw [hcode] at hs
  exact .op hs hr

theorem observations_record (h : List Event) (e : Event) :
    observations cfg (h++[e]) = observations cfg h++observations cfg [e] := by
  simp [observations]

theorem countP_record (p : Event → Bool) (h : List Event) (e : Event) :
    (h++[e]).countP p = h.countP p+(if p e then 1 else 0) := by
  simp [List.countP_append,List.countP_singleton]

/-- An event that is no operation, no call and no close. -/
theorem record_unseen (cfg : Config) (h : List Event) {e : Event}
    (hobs : observations cfg [e] = []) (hmsg : messages e = false) (hclo : closes e = false) :
    observations cfg (h++[e]) = observations cfg h ∧
    (h++[e]).countP messages = h.countP messages ∧ (h++[e]).countP closes = h.countP closes := by
  simp [observations_record,hobs,hmsg,hclo]

theorem begins_record {h : List Event} {e : Event} (he : serves e = true)
    (hb : ∃ tail, h = prologue cfg++.added true::tail ∧ ∀ e ∈ tail, serves e = true) :
    ∃ tail, h++[e] = prologue cfg++.added true::tail ∧ ∀ e ∈ tail, serves e = true := by
  obtain ⟨tail,rfl,htail⟩ := hb
  refine ⟨tail++[e],by simp,fun e' he' => ?_⟩
  rcases List.mem_append.mp he' with hm | hm
  · exact htail e' hm
  · rwa [List.mem_singleton.mp hm]

theorem Live.addRef (h : Live cfg v) (hpos : v.pos = .fetch) (hd : 0 < v.delivered) :
    Live cfg (v.next cfg .addRef) := by
  have ht := h.token
  have hr := h.refs
  have hsub : v.submitting = 0 := by simp [Conn.submitting,hpos]
  have habandoned : (v.next cfg .addRef).abandoned = v.abandoned := by
    simp [Conn.abandoned,Conn.next,Conn.record,abandons]
  have hhistory : (v.next cfg .addRef).history = v.history++[.addRef] := rfl
  obtain ⟨hobs,hmsg,hclo⟩ := record_unseen cfg v.history (e := .addRef) rfl rfl rfl
  rw [← hhistory] at hobs hmsg hclo
  have hfin : ∀ outcome t, .finished outcome t ∈ (v.next cfg .addRef).history →
      .finished outcome t ∈ v.history := by
    intro outcome t hm
    simpa [Conn.next,Conn.record] using hm
  exact {
    pos := .inr (.inl rfl)
    begins := begins_record rfl h.begins
    created := h.created
    kept := h.kept
    fd := h.fd
    token := by
      rw [habandoned]
      simp only [Conn.tokens] at ht
      change v.armed+(v.delivered-1+1)+v.queued+(v.held+v.active)+v.abandoned+v.shut = 1
      omega
    refs := by
      rw [habandoned]
      simp only [Conn.outstanding] at hr
      change v.cell.ctx.refCount+1 = 1+((1+v.queued+v.held+unreleased v.running : ℕ) : ℤ)+_
      rw [hr,hsub]
      push_cast
      omega
    tasks := by
      rw [hmsg]
      exact h.tasks
    quiet := by
      rw [hmsg,habandoned]
      exact h.quiet
    marked := h.marked
    closedOnce := by
      rw [hclo]
      exact h.closedOnce
    calledOnce := by
      rw [hmsg]
      exact h.calledOnce
    gone := fun t hm => h.gone t (hm.imp_right fun ⟨o,ho⟩ => ⟨o,hfin o t ho⟩)
    ended := fun o t hm => h.ended o t (hfin o t hm)
    between := by
      rw [hobs]
      exact h.between
    during := by
      rw [hobs]
      exact h.during }

theorem Live.submit (h : Live cfg v) (hpos : v.pos = .submit) :
    Live cfg (v.next cfg .submit) := by
  have ht := h.token
  have hr := h.refs
  have hsub : v.submitting = 1 := by simp [Conn.submitting,hpos]
  refine {h with pos := .inr (.inr rfl), token := ?_, refs := ?_}
  · simp only [Conn.tokens] at ht
    change v.armed+(v.delivered+0)+(v.queued+1)+(v.held+v.active)+v.abandoned+v.shut = 1
    omega
  · simp only [Conn.outstanding] at hr
    change v.cell.ctx.refCount = 1+((0+(v.queued+1)+v.held+unreleased v.running : ℕ) : ℤ)+
      (v.abandoned : ℤ)
    omega

theorem Live.notify (h : Live cfg v) (hpos : v.pos = .notify) :
    Live cfg (v.next cfg .notify) := by
  have ht := h.token
  have hr := h.refs
  have hsub : v.submitting = 0 := by simp [Conn.submitting,hpos]
  refine {h with pos := .inl rfl, token := ?_, refs := ?_}
  · simp only [Conn.tokens,hsub] at ht
    exact ht
  · simp only [Conn.outstanding,hsub] at hr
    exact hr

theorem Live.look (h : Live cfg v) (hq : 0 < v.queued) : Live cfg (v.next cfg .look) := by
  have ht := h.token
  have hr := h.refs
  refine {h with token := ?_, refs := ?_}
  · simp only [Conn.tokens] at ht
    change v.armed+(v.delivered+v.submitting)+(v.queued-1)+(v.held+1+v.active)+
      v.abandoned+v.shut = 1
    omega
  · simp only [Conn.outstanding] at hr
    change v.cell.ctx.refCount =
      1+((v.submitting+(v.queued-1)+(v.held+1)+unreleased v.running : ℕ) : ℤ)+(v.abandoned : ℤ)
    omega

/-- A dequeued job starts with its call at the beginning of the handler. -/
theorem Live.invoke (h : Live cfg v) (hh : 0 < v.held) (c : ConnId) :
    Live cfg (v.next cfg (.invoke c)) := by
  have ht := h.token
  have hr := h.refs
  obtain ⟨hactive,-,-,hclosed,hcalls⟩ := h.idle (by omega)
  have hnew : inCharge (Task.start cfg c ::ₘ v.running) = v.active+1 := inCharge_cons ..
  refine {h with
    token := ?_, refs := ?_, tasks := ?_, quiet := ?_, gone := ?_, between := ?_, during := ?_}
  · simp only [Conn.tokens] at ht
    change v.armed+(v.delivered+v.submitting)+v.queued+
      (v.held-1+inCharge (Task.start cfg c ::ₘ v.running))+v.abandoned+v.shut = 1
    omega
  · have hun : unreleased (Task.start cfg c ::ₘ v.running) = unreleased v.running+1 :=
      unreleased_cons ..
    simp only [Conn.outstanding] at hr
    change v.cell.ctx.refCount = 1+((v.submitting+v.queued+(v.held-1)+
      unreleased (Task.start cfg c ::ₘ v.running) : ℕ) : ℤ)+(v.abandoned : ℤ)
    omega
  · intro t hm
    rcases Multiset.mem_cons.mp hm with rfl | hm
    · exact ⟨.reading,at_start cfg c,hclosed,hcalls⟩
    · exact h.tasks t hm
  · intro hn
    change inCharge (Task.start cfg c ::ₘ v.running)+_+_ = 0 at hn
    omega
  · intro t hm
    rcases hm with hm | hm
    · rcases Multiset.mem_cons.mp hm with rfl | hm
      · intro hx
        simp [Task.start] at hx
      · exact h.gone t (.inl hm)
    · exact h.gone t (.inr hm)
  · intro hn
    change inCharge (Task.start cfg c ::ₘ v.running) = 0 at hn
    omega
  · intro t hm hnone
    rcases Multiset.mem_cons.mp hm with rfl | hm
    · exact .call (h.between hactive)
    · exact h.during t hm hnone

/-- The worker has caught whatever the job threw. -/
theorem Live.finish (h : Live cfg v) {rest : Multiset Task} {t : Task} {outcome : Outcome}
    (hrun : v.running = t ::ₘ rest) (hcode : t.code = .ret outcome) :
    Live cfg (v.next cfg (.finish rest t outcome)) := by
  have ht := h.token
  have hr := h.refs
  have hmem : t ∈ v.running := hrun ▸ Multiset.mem_cons_self t rest
  obtain ⟨q,hat,-⟩ := h.tasks t hmem
  have hin : v.active = inCharge rest+(if t.handed = none then 1 else 0) := by
    rw [Conn.active,hrun,inCharge_cons]
  have hun : unreleased v.running = unreleased rest+(if t.released = 0 then 1 else 0) := by
    rw [hrun,unreleased_cons]
  have habandoned : (v.next cfg (.finish rest t outcome)).abandoned =
      v.abandoned+(if t.handed = none then 1 else 0) := by
    simp [Conn.abandoned,Conn.next,Conn.record,abandons]
  have hhistory : (v.next cfg (.finish rest t outcome)).history =
      v.history++[.finished outcome t] := rfl
  obtain ⟨hobs,hmsg,hclo⟩ :=
    record_unseen cfg v.history (e := .finished outcome t) rfl rfl rfl
  rw [← hhistory] at hobs hmsg hclo
  have hfin : ∀ o u, .finished o u ∈ (v.next cfg (.finish rest t outcome)).history →
      .finished o u ∈ v.history ∨ (o = outcome ∧ u = t) := by
    intro o u hm
    simpa [Conn.next,Conn.record] using hm
  have hended := hat.finished hcode
  exact {
    pos := h.pos
    begins := begins_record rfl h.begins
    created := h.created
    kept := h.kept
    fd := h.fd
    token := by
      rw [habandoned]
      simp only [Conn.tokens] at ht
      change v.armed+(v.delivered+v.submitting)+v.queued+(v.held+inCharge rest)+
        (v.abandoned+_)+v.shut = 1
      omega
    refs := by
      rw [habandoned]
      simp only [Conn.outstanding] at hr
      change v.cell.ctx.refCount =
        1+((v.submitting+v.queued+v.held+unreleased rest : ℕ) : ℤ)+_
      rw [hr,hun]
      simp only [hended.handed_none_iff]
      split <;> push_cast <;> omega
    tasks := by
      rw [hmsg]
      exact fun u hu => h.tasks u (hrun ▸ Multiset.mem_cons_of_mem hu)
    quiet := by
      rw [hmsg,habandoned]
      intro hn
      change inCharge rest+_+v.shut = 0 at hn
      exact h.quiet (by omega)
    marked := h.marked
    closedOnce := by
      rw [hclo]
      exact h.closedOnce
    calledOnce := by
      rw [hmsg]
      exact h.calledOnce
    gone := by
      rintro u (hu | ⟨o,ho⟩)
      · exact h.gone u (.inl (hrun ▸ Multiset.mem_cons_of_mem hu))
      · rcases hfin o u ho with hm | ⟨-,rfl⟩
        · exact h.gone u (.inr ⟨o,hm⟩)
        · exact h.gone u (.inl hmem)
    ended := by
      intro o u hm
      rcases hfin o u hm with hm | ⟨rfl,rfl⟩
      · exact h.ended o u hm
      · exact hended
    between := by
      rw [hobs]
      intro hn
      change inCharge rest = 0 at hn
      by_cases hx : t.handed = none
      · have hs := h.during t hmem hx
        rw [hcode] at hs
        exact .leave hs
      · exact h.between (by simpa [hx,hn] using hin)
    during := by
      rw [hobs]
      exact fun u hu => h.during u (hrun ▸ Multiset.mem_cons_of_mem hu) }

end Moves

end WebServer.LifecycleInvariant
